import Mathlib.Data.List.Nodup
import Mathlib.Data.List.Perm.Subperm

/-!
# Forests Kept by Parent Links

A forest is kept by a link from each node to its parent, which is another node or the root;
a node outside the forest has no parent. Beside the links a program may keep lists of
children and the depth of each node. This module has what one needs to move nodes about in
such a forest: when the links still lead to the root, what a climb towards the root finds,
and what renumbering a subtree does.
-/

namespace Hengine

open List Function

/-- What a parent link may be: nothing, the root, or a node. -/
inductive Ref (α : Type*)
  | null
  | root
  | node (a : α)
deriving DecidableEq, Repr

variable {α : Type*} {up up' : α → Ref α} {rank : α → ℕ} {x y p q : α} {n m : ℕ}

/-- `Depth up x n`: following the links from `x` one comes to the root, at the `n`-th step. -/
inductive Depth (up : α → Ref α) : α → ℕ → Prop
  | top {x : α} : up x = .root → Depth up x 1
  | child {x p : α} {n : ℕ} : up x = .node p → Depth up p n → Depth up x (n + 1)

/-- `Above up x y`: one comes from `x` to `y` following the links, in no step or more. -/
def Above (up : α → Ref α) : α → α → Prop := Relation.ReflTransGen fun a b => up a = .node b

/-- A node has one depth. -/
theorem Depth.unique (h : Depth up x n) : Depth up x m → n = m := by
  induction h generalizing m with
  | top hx =>
    intro h'
    cases h' with
    | top _ => rfl
    | child hx' _ =>
      rw [hx] at hx'
      cases hx'
  | child hx _ ih =>
    intro h'
    cases h' with
    | top hx' =>
      rw [hx] at hx'
      cases hx'
    | child hx' hp =>
      rw [hx] at hx'
      cases hx'
      rw [ih hp]

theorem Depth.pos (h : Depth up x n) : 0 < n := by
  cases h with
  | top _ => exact Nat.one_pos
  | child _ _ => exact Nat.succ_pos _

theorem Depth.ne_null (h : Depth up x n) : up x ≠ .null := by
  intro hnull
  cases h with
  | top hx =>
    rw [hnull] at hx
    cases hx
  | child hx _ =>
    rw [hnull] at hx
    cases hx

theorem Depth.sibling (h : Depth up x n) (hy : up y = up x) : Depth up y n := by
  cases h with
  | top hx => exact .top (hy.trans hx)
  | child hx hp => exact .child (hy.trans hx) hp

/-- **Changed links.** If every node keeps its link or leads to the root by the new ones, then
all that led to the root still do. -/
theorem Depth.rebuild (hkeep : ∀ y, up' y = up y ∨ ∃ m, Depth up' y m) (h : Depth up x n) :
    ∃ m, Depth up' x m := by
  induction h with
  | @top x hx =>
    rcases hkeep x with heq | hdeep
    · exact ⟨1, .top (heq.trans hx)⟩
    · exact hdeep
  | @child x p n hx _ ih =>
    rcases hkeep x with heq | hdeep
    · obtain ⟨m, hm⟩ := ih
      exact ⟨m + 1, .child (heq.trans hx) hm⟩
    · exact hdeep

/-- Only the way up matters to the depth. -/
theorem Depth.congr (h : Depth up x n) (hsame : ∀ y, Above up x y → up' y = up y) :
    Depth up' x n := by
  induction h with
  | top hx => exact .top ((hsame _ .refl).trans hx)
  | child hx _ ih =>
    refine .child ((hsame _ .refl).trans hx) (ih fun y hy => hsame y ?_)
    exact Relation.ReflTransGen.head hx hy

/-- The way up from a node passes nodes of smaller depth. -/
theorem Depth.above (h : Depth up x n) (hxy : Above up x y) :
    y = x ∨ ∃ m, m < n ∧ Depth up y m := by
  induction hxy with
  | refl => exact Or.inl rfl
  | @tail b c _ hbc ih =>
    obtain ⟨m, hle, hm⟩ : ∃ m, m ≤ n ∧ Depth up b m := by
      rcases ih with rfl | ⟨m, hlt, hm⟩
      · exact ⟨n, Nat.le_refl n, h⟩
      · exact ⟨m, Nat.le_of_lt hlt, hm⟩
    cases hm with
    | top hb =>
      rw [hb] at hbc
      cases hbc
    | @child _ p k hb hp =>
      rw [hb] at hbc
      cases hbc
      exact Or.inr ⟨k, by omega, hp⟩

/-- What is above a node is no child of it. -/
theorem Depth.not_above_child (h : Depth up x n) (hxy : Above up x y) : up y ≠ .node x := by
  intro hy
  obtain ⟨m, hle, hm⟩ : ∃ m, m ≤ n ∧ Depth up y m := by
    rcases h.above hxy with rfl | ⟨m, hlt, hm⟩
    · exact ⟨n, Nat.le_refl n, h⟩
    · exact ⟨m, Nat.le_of_lt hlt, hm⟩
  have := hm.unique (.child hy h)
  omega

/-! ### Ranks -/

/-- The rank of `x` is right, given that of its parent. -/
def RankOk (up : α → Ref α) (rank : α → ℕ) (x : α) : Prop :=
  match up x with
  | .null => False
  | .root => rank x = 1
  | .node p => rank x = rank p + 1

theorem RankOk.root (h : RankOk up rank x) (hx : up x = .root) : rank x = 1 := by
  simpa [RankOk, hx] using h

theorem RankOk.node (h : RankOk up rank x) (hx : up x = .node p) : rank x = rank p + 1 := by
  simpa [RankOk, hx] using h

/-- A right rank depends on the parent and its rank. -/
theorem RankOk.congr {r r' : α → ℕ} (h : RankOk up r x)
    (hup : up' x = up x) (hx : r' x = r x) (hp : ∀ p, up x = .node p → r' p = r p) :
    RankOk up' r' x := by
  cases hc : up x with
  | null => simp [RankOk, hc] at h
  | root =>
    have := h.root hc
    simp only [RankOk, hup, hc]
    omega
  | node p =>
    have := h.node hc
    have := hp p hc
    simp only [RankOk, hup, hc]
    omega

/-- A new rank does not concern the nodes that are not below. -/
theorem RankOk.update_rank [DecidableEq α] (h : RankOk up rank y) (hyx : y ≠ x)
    (hpy : up y ≠ .node x) : RankOk up (update rank x n) y := by
  refine h.congr rfl (update_of_ne hyx ..) fun p hp => update_of_ne ?_ ..
  rintro rfl
  exact hpy hp

/-- The depths are right ranks. -/
theorem rankOk_of_depth (h : ∀ p, up x = .node p → Depth up p (rank p))
    (hx : Depth up x (rank x)) : RankOk up rank x := by
  cases hup : up x with
  | null => exact absurd hup hx.ne_null
  | root =>
    have := hx.unique (.top hup)
    simpa only [RankOk, hup] using this
  | node p =>
    have := hx.unique (.child hup (h p hup))
    simpa only [RankOk, hup] using this

/-- **Ranks that are right locally are the depths.** -/
theorem depth_of_ranks {s : α → Prop} (hs : ∀ x p, s x → up x = .node p → s p)
    (h : ∀ x, s x → RankOk up rank x) : ∀ x, s x → Depth up x (rank x) := by
  -- By induction on the rank, which decreases on the way up.
  suffices H : ∀ n x, s x → rank x = n → Depth up x n from fun x hx => H _ x hx rfl
  intro n
  induction n with
  | zero =>
    intro x hx hn
    have hok := h x hx
    cases hup : up x with
    | null => simp [RankOk, hup] at hok
    | root => have := hok.root hup; omega
    | node p => have := hok.node hup; omega
  | succ n ih =>
    intro x hx hn
    have hok := h x hx
    cases hup : up x with
    | null => simp [RankOk, hup] at hok
    | root =>
      have := hok.root hup
      obtain rfl : n = 0 := by omega
      exact .top hup
    | node p =>
      have := hok.node hup
      exact .child hup (ih p (hs x p hx hup) (by omega))

/-- Ranks fall on the way up. -/
theorem Above.rank_le {s : α → Prop} (hs : ∀ x p, s x → up x = .node p → s p)
    (h : ∀ x, s x → RankOk up rank x) (hx : s x) (hxy : Above up x y) :
    s y ∧ (rank y < rank x ∨ y = x) := by
  induction hxy with
  | refl => exact ⟨hx, Or.inr rfl⟩
  | @tail b c _ hbc ih =>
    obtain ⟨hb, hle⟩ := ih
    have hrank := (h b hb).node hbc
    refine ⟨hs b c hb hbc, Or.inl ?_⟩
    rcases hle with hlt | rfl
    · omega
    · omega

/-- **No more ranks than nodes.** -/
theorem rank_le_length {ids : List α} (hs : ∀ x p, x ∈ ids → up x = .node p → p ∈ ids)
    (h : ∀ x ∈ ids, RankOk up rank x) (hx : x ∈ ids) : rank x ≤ ids.length := by
  -- There is a node of each rank below that of `x`: they are as many different ones.
  have hchain : ∀ n x, x ∈ ids → rank x = n →
      ∃ l : List α, l.length = n ∧ l ⊆ ids ∧ l.Nodup ∧ ∀ y ∈ l, rank y ≤ n := by
    intro n
    induction n with
    | zero =>
      intro x _ _
      exact ⟨[], rfl, nil_subset _, nodup_nil, by simp⟩
    | succ n ih =>
      intro x hx hn
      have hok := h x hx
      obtain ⟨l, hlen, hsub, hnd, hle⟩ : ∃ l : List α, l.length = n ∧ l ⊆ ids ∧ l.Nodup ∧
          ∀ y ∈ l, rank y ≤ n := by
        cases hup : up x with
        | null => simp [RankOk, hup] at hok
        | root =>
          have := hok.root hup
          obtain rfl : n = 0 := by omega
          exact ⟨[], rfl, nil_subset _, nodup_nil, by simp⟩
        | node p =>
          have := hok.node hup
          exact ih p (hs x p hx hup) (by omega)
      refine ⟨x :: l, by rw [length_cons, hlen], cons_subset.mpr ⟨hx, hsub⟩,
        nodup_cons.mpr ⟨fun hmem => ?_, hnd⟩, ?_⟩
      · have := hle x hmem
        omega
      · intro y hy
        rcases mem_cons.mp hy with rfl | hy
        · omega
        · have := hle y hy
          omega
  obtain ⟨l, hlen, hsub, hnd, -⟩ := hchain (rank x) x hx rfl
  rw [← hlen]
  exact (subperm_of_subset hnd hsub).length_le

/-! ### Climbing -/

/-- A climb from `r` towards the root in search of `x`, that stops below the rank of `x`; `none`
without fuel, or at a link to nothing. -/
@[grind =]
def climbTo [DecidableEq α] (up : α → Ref α) (rank : α → ℕ) (x : α) : ℕ → Ref α → Option Bool
  | 0, _ => none
  | _ + 1, .root => some false
  | _ + 1, .null => none
  | n + 1, .node y =>
    if rank y ≥ rank x then if y = x then some true else climbTo up rank x n (up y)
    else some false

/-- **What a climb finds**: whether `x` is on the way to the root. -/
theorem climbTo_spec [DecidableEq α] {s : α → Prop} (hs : ∀ x p, s x → up x = .node p → s p)
    (h : ∀ x, s x → RankOk up rank x) (x : α) :
    ∀ {n : ℕ} {y : α}, s y → rank y < n →
      (climbTo up rank x n (.node y) = some true ∧ Above up y x) ∨
        (climbTo up rank x n (.node y) = some false ∧ ¬ Above up y x) := by
  intro n
  induction n with
  | zero =>
    intro y _ hlt
    omega
  | succ n ih =>
    intro y hy hlt
    have hok := h y hy
    rw [climbTo]
    by_cases hge : rank y ≥ rank x
    · rw [if_pos hge]
      by_cases heq : y = x
      · rw [if_pos heq]
        exact Or.inl ⟨rfl, heq ▸ .refl⟩
      · rw [if_neg heq]
        -- From another node, `x` is above if it is above the parent.
        have hstep : ∀ p, up y = .node p → (Above up y x ↔ Above up p x) := by
          intro p hp
          constructor
          · intro hab
            rcases Relation.ReflTransGen.cases_head hab with rfl | ⟨c, hc, hrest⟩
            · exact absurd rfl heq
            · rw [hp] at hc
              cases hc
              exact hrest
          · exact fun hab => Relation.ReflTransGen.head hp hab
        cases hup : up y with
        | null => simp [RankOk, hup] at hok
        | root =>
          have hpos : 0 < n := by have := hok.root hup; omega
          obtain ⟨k, rfl⟩ : ∃ k, n = k + 1 := ⟨n - 1, by omega⟩
          refine Or.inr ⟨rfl, fun hab => ?_⟩
          rcases Relation.ReflTransGen.cases_head hab with rfl | ⟨c, hc, -⟩
          · exact heq rfl
          · rw [hup] at hc
            cases hc
        | node p =>
          have hrank := hok.node hup
          rw [hstep p hup]
          exact ih (hs y p hy hup) (by omega)
    · rw [if_neg hge]
      refine Or.inr ⟨rfl, fun hab => ?_⟩
      obtain ⟨-, hle | rfl⟩ := hab.rank_le hs h hy
      · omega
      · omega

/-! ### Renumbering -/

/-- The children of `x` get one rank more than `x`, and so on below them; `none` without
fuel. -/
@[grind =]
def relabel [DecidableEq α] (kids : α → List α) : ℕ → (α → ℕ) → α → Option (α → ℕ)
  | 0, _, _ => none
  | n + 1, r, x =>
    (kids x).foldlM (fun r c => relabel kids n (update r c (r x + 1)) c) r

/-- `Under kids x y`: `y` is a child of `x`, or under one. -/
def Under (kids : α → List α) : α → α → Prop := Relation.TransGen fun a b => b ∈ kids a

/-- What is below is deeper. -/
theorem Under.depth_lt {kids : α → List α} {d : α → ℕ} (hd : ∀ a b, b ∈ kids a → d b = d a + 1)
    (h : Under kids x y) : d x < d y := by
  induction h with
  | single hxy =>
    have := hd _ _ hxy
    omega
  | tail _ hbc ih =>
    have := hd _ _ hbc
    omega

/-- What is under one of some nodes, or one of them. -/
def UnderAny (kids : α → List α) (cs : List α) (y : α) : Prop := ∃ c ∈ cs, y = c ∨ Under kids c y

/-- What is below a node is below some of its children. -/
theorem under_iff {kids : α → List α} : Under kids x y ↔ UnderAny kids (kids x) y := by
  constructor
  · intro h
    rcases Relation.TransGen.head'_iff.mp h with ⟨c, hc, hrest⟩
    refine ⟨c, hc, ?_⟩
    rcases Relation.reflTransGen_iff_eq_or_transGen.mp hrest with heq | htrans
    · exact Or.inl heq
    · exact Or.inr htrans
  · rintro ⟨c, hc, rfl | h⟩
    · exact .single hc
    · exact .head hc h

/-- **Renumbering a subtree.** If the lists of children are those of a forest, where `d` is the
depth and at most `k`, then all nodes under `x` get the rank that follows from that of `x`, and
the others keep theirs. It takes no more fuel than the forest is deep. -/
theorem relabel_spec [DecidableEq α] (kids : α → List α) {d : α → ℕ} {k : ℕ}
    (hd : ∀ a b, b ∈ kids a → d b = d a + 1) (hk : ∀ a b, b ∈ kids a → d b ≤ k) :
    ∀ {n : ℕ} (r : α → ℕ) (x : α), k < d x + n → 0 < n →
      ∃ r', relabel kids n r x = some r' ∧
        (∀ y, Under kids x y → r' y = r x + (d y - d x)) ∧ ∀ y, ¬ Under kids x y → r' y = r y := by
  intro n
  induction n with
  | zero =>
    intro r x _ hpos
    omega
  | succ n ih =>
    intro r x hn _
    -- Along the list of children: those done, and what is under them, have their ranks.
    have hloop : ∀ (cs : List α) (r₀ : α → ℕ), cs ⊆ kids x → r₀ x = r x →
        ∃ r', cs.foldlM (fun r c => relabel kids n (update r c (r x + 1)) c) r₀ = some r' ∧
          (∀ y, UnderAny kids cs y → r' y = r x + (d y - d x)) ∧
          ∀ y, ¬ UnderAny kids cs y → r' y = r₀ y := by
      intro cs
      induction cs with
      | nil =>
        intro r₀ _ _
        refine ⟨r₀, rfl, ?_, fun y _ => rfl⟩
        rintro y ⟨c, hc, -⟩
        simp at hc
      | cons c cs ihcs =>
        intro r₀ hsub hx
        obtain ⟨hc, hcs⟩ := cons_subset.mp hsub
        have hdc := hd x c hc
        have hkc := hk x c hc
        obtain ⟨r₁, hrun₁, hin₁, hout₁⟩ :=
          ih (update r₀ c (r₀ x + 1)) c (by omega) (by omega)
        rw [update_self] at hin₁
        have hr₁ : ∀ y, y = c ∨ Under kids c y → r₁ y = r x + (d y - d x) := by
          rintro y (rfl | hy)
          · rw [hout₁ y fun h => Nat.lt_irrefl _ (h.depth_lt hd), update_self, hx, hdc]
            omega
          · have hlt := hy.depth_lt hd
            rw [hin₁ y hy, hx]
            omega
        have hr₁' : ∀ y, ¬ (y = c ∨ Under kids c y) → r₁ y = r₀ y := by
          intro y hy
          rw [hout₁ y fun h => hy (Or.inr h), update_of_ne fun h => hy (Or.inl h)]
        have hxout : ¬ (x = c ∨ Under kids c x) := by
          rintro (rfl | h)
          · omega
          · have := h.depth_lt hd
            omega
        obtain ⟨r₂, hrun₂, hin₂, hout₂⟩ := ihcs r₁ hcs ((hr₁' x hxout).trans hx)
        refine ⟨r₂, ?_, ?_, ?_⟩
        · rw [foldlM_cons, hrun₁]
          exact hrun₂
        · intro y hy
          by_cases hrest : UnderAny kids cs y
          · exact hin₂ y hrest
          · obtain ⟨e, he, hey⟩ := hy
            rcases mem_cons.mp he with rfl | he
            · rw [hout₂ y hrest]
              exact hr₁ y hey
            · exact absurd ⟨e, he, hey⟩ hrest
        · intro y hy
          have hrest : ¬ UnderAny kids cs y := by
            rintro ⟨e, he, hey⟩
            exact hy ⟨e, mem_cons_of_mem c he, hey⟩
          rw [hout₂ y hrest]
          exact hr₁' y fun h => hy ⟨c, mem_cons_self .., h⟩
    obtain ⟨r', hrun, hin, hout⟩ := hloop (kids x) r (List.Subset.refl _) rfl
    refine ⟨r', hrun, ?_, ?_⟩
    · intro y hy
      exact hin y (under_iff.mp hy)
    · intro y hy
      exact hout y (mt under_iff.mpr hy)

end Hengine
