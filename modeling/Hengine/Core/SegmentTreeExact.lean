import Hengine.Core.SegmentTree

/-!
# Range Minima over Whole Runs

A segment tree is built once, with each position storing its own number, and then nodes are
deleted and inserted in any order. A query over a range finds the stored node with the smallest
key, or the extreme key if nothing in the range is stored. This holds as long as the keys are
told from the extreme one, which has 32 bits while a key has 64.
-/

namespace Hengine

open List Function Option

variable {δ : Type*}

/-- An operation on a position. -/
inductive SegOp (δ : Type*)
  | insert (pos : ℕ) (node : SegNode δ)
  | delete (pos : ℕ)

namespace SegOp

/-- The operations that make sense on `n` positions: these are numbered from 1, and a key is that
of its position, or else any that is smaller than the extreme one. -/
def Allowed (n : ℕ) : SegOp δ → Prop
  | .insert pos node =>
    1 ≤ pos ∧ pos ≤ n ∧ (node.key = pos ∨ (0 ≤ node.key ∧ node.key < segExtreme))
  | .delete pos => 1 ≤ pos ∧ pos ≤ n

/-- What is stored after an operation. -/
def store (s : ℕ → Option (SegNode δ)) : SegOp δ → ℕ → Option (SegNode δ)
  | .insert pos node => update s pos (some node)
  | .delete pos => update s pos none

end SegOp

/-- What is stored after some operations on a new tree. -/
def segStored (ops : List (SegOp δ)) : ℕ → Option (SegNode δ) :=
  ops.foldl SegOp.store fun p => some ⟨p, none⟩

namespace SegTree

variable {n fuel : ℕ} {t : SegTree δ} {s : ℕ → Option (SegNode δ)}

/-- An operation of the program. -/
def apply (fuel : ℕ) (t : SegTree δ) : SegOp δ → Option (SegTree δ)
  | .insert pos node => t.insert fuel 1 1 t.num pos node
  | .delete pos => t.delete fuel 1 1 t.num pos

/-- A tree is made and built, and then changed. -/
def run (fuel n : ℕ) (ops : List (SegOp δ)) : Option (SegTree δ) := do
  let t ← build fuel (init n) 1 1 n
  ops.foldlM (apply fuel) t

/-- What a query is to find: a stored node with the smallest key, or the extreme key if there is
none. -/
def Answer (s : ℕ → Option (SegNode δ)) (l r : ℕ) (v : SegNode δ) : Prop :=
  (∃ p, l ≤ p ∧ p ≤ r ∧ s p = some v ∧
      ∀ q w, l ≤ q → q ≤ r → s q = some w → v.key ≤ w.key) ∨
    (∀ p, l ≤ p → p ≤ r → s p = none) ∧ v.key = segExtreme

/-- All queries are answered. -/
def Answers (fuel : ℕ) (t : SegTree δ) (s : ℕ → Option (SegNode δ)) : Prop :=
  ∀ l r, 1 ≤ l → l ≤ r → r ≤ t.num → ∃ v, t.query fuel 1 1 t.num l r = some v ∧ Answer s l r v

/-! ### Steps and runs -/

theorem not_below_zero : ¬ Below 1 0 := by
  rintro ⟨k, hk⟩
  simp at hk

/-- The state of a tree in a run: its slots hold some nodes, which are the stored ones and, where
nothing is stored, nodes with the extreme key. -/
structure Sound (t : SegTree δ) (n : ℕ) (s : ℕ → Option (SegNode δ)) (leaf : ℕ → SegNode δ) :
    Prop where
  extreme : t.extreme = segExtreme
  num : t.num = n
  size : t.segments.size = 4 * (n + 1)
  first : t.get 0 = some ⟨segExtreme, none⟩
  holds : Holds t leaf 1 1 n
  stored : ∀ p v, 1 ≤ p → p ≤ n → s p = some v → leaf p = v
  deleted : ∀ p, 1 ≤ p → p ≤ n → s p = none → (leaf p).key = segExtreme

theorem get_init {j : ℕ} {v : SegNode δ} (hj : 0 < j) (h : (init n : SegTree δ).get j = some v) :
    v.data = none := by
  simp only [get, init] at h
  rw [Array.getElem?_setIfInBounds_ne (by omega), Array.getElem?_replicate] at h
  split at h
  · cases h
    rfl
  · cases h

/-- **The tree that is built.** -/
theorem sound_build (hn : 1 ≤ n) (hfuel : n < fuel) :
    ∃ t, build fuel (init n : SegTree δ) 1 1 n = some t ∧
      Sound t n (segStored []) fun p => ⟨p, none⟩ := by
  have hsize : (init n : SegTree δ).segments.size = 4 * (n + 1) := by
    simp only [init, Array.size_setIfInBounds, Array.size_replicate, Nat.shiftLeft_eq]
    omega
  obtain ⟨t, hrun, hframe, hhold⟩ := build_spec (t := init n) Nat.one_pos hn
    (show n < 1 + fuel by omega) hsize (by simpa using fits_root n) fun j v hj hv =>
      get_init (Nat.lt_of_lt_of_le Nat.one_pos hj.le) hv
  refine ⟨t, hrun, hframe.extreme, hframe.num, hframe.size.trans hsize, ?_, hhold, ?_, ?_⟩
  · rw [hframe.get 0 not_below_zero]
    simp only [get, init]
    refine Array.getElem?_setIfInBounds_self_of_lt ?_
    simp only [Array.size_replicate, Nat.shiftLeft_eq]
    omega
  · rintro p v - - hv
    cases hv
    rfl
  · rintro p - - hp
    cases hp

/-- **One operation.** -/
theorem Sound.step {leaf : ℕ → SegNode δ} (h : Sound t n s leaf) (hfuel : n < fuel) (op : SegOp δ)
    (hop : op.Allowed n) :
    ∃ t' leaf', t.apply fuel op = some t' ∧ Sound t' n (op.store s) leaf' := by
  have hchange : ∀ pos, 1 ≤ pos → pos ≤ n → ∀ f : SegNode δ → SegNode δ,
      ∃ t', change f fuel t 1 1 t.num pos = some t' ∧ Frame t 1 t' ∧
        Holds t' (update leaf pos (f (leaf pos))) 1 1 n := by
    intro pos h₁ h₂ f
    rw [h.num]
    exact change_spec f Nat.one_pos (by omega) h.size (by simpa using fits_root n) h₁ h₂ h.holds
  cases op with
  | insert pos node =>
    obtain ⟨t', hrun, hframe, hhold⟩ := hchange pos hop.1 hop.2.1 fun _ => node
    refine ⟨t', _, hrun, ⟨hframe.extreme.trans h.extreme, hframe.num.trans h.num,
      hframe.size.trans h.size, (hframe.get 0 not_below_zero).trans h.first, hhold, ?_, ?_⟩⟩
    · intro p v h₁ h₂ hv
      by_cases hp : p = pos
      · subst hp
        simpa [SegOp.store] using hv
      · rw [SegOp.store, update_of_ne hp] at hv
        rw [update_of_ne hp]
        exact h.stored p v h₁ h₂ hv
    · intro p h₁ h₂ hv
      by_cases hp : p = pos
      · subst hp
        simp [SegOp.store] at hv
      · rw [SegOp.store, update_of_ne hp] at hv
        rw [update_of_ne hp]
        exact h.deleted p h₁ h₂ hv
  | delete pos =>
    obtain ⟨t', hrun, hframe, hhold⟩ := hchange pos hop.1 hop.2 fun v => { v with key := t.extreme }
    refine ⟨t', _, hrun, ⟨hframe.extreme.trans h.extreme, hframe.num.trans h.num,
      hframe.size.trans h.size, (hframe.get 0 not_below_zero).trans h.first, hhold, ?_, ?_⟩⟩
    · intro p v h₁ h₂ hv
      by_cases hp : p = pos
      · subst hp
        simp [SegOp.store] at hv
      · rw [SegOp.store, update_of_ne hp] at hv
        rw [update_of_ne hp]
        exact h.stored p v h₁ h₂ hv
    · intro p h₁ h₂ hv
      by_cases hp : p = pos
      · subst hp
        rw [update_self]
        exact h.extreme
      · rw [SegOp.store, update_of_ne hp] at hv
        rw [update_of_ne hp]
        exact h.deleted p h₁ h₂ hv

/-- **A whole run.** -/
theorem sound_run (hn : 1 ≤ n) (hfuel : n < fuel) (ops : List (SegOp δ))
    (hops : ∀ op ∈ ops, op.Allowed n) :
    ∃ t leaf, run fuel n ops = some t ∧ Sound t n (segStored ops) leaf := by
  obtain ⟨t₀, hbuild, hsound₀⟩ := sound_build (δ := δ) hn hfuel
  -- From any sound tree on, operation by operation.
  have hfold : ∀ (ops : List (SegOp δ)) (t : SegTree δ) (s : ℕ → Option (SegNode δ))
      (leaf : ℕ → SegNode δ), (∀ op ∈ ops, op.Allowed n) → Sound t n s leaf →
      ∃ t' leaf', ops.foldlM (apply fuel) t = some t' ∧
        Sound t' n (ops.foldl SegOp.store s) leaf' := by
    intro ops
    induction ops with
    | nil =>
      intro t s leaf _ h
      exact ⟨t, leaf, rfl, h⟩
    | cons op ops ih =>
      intro t s leaf hops h
      obtain ⟨t₁, leaf₁, hrun, h₁⟩ := h.step hfuel op (hops op (mem_cons_self ..))
      obtain ⟨t', leaf', hrest, h'⟩ :=
        ih t₁ (op.store s) leaf₁ (fun o ho => hops o (mem_cons_of_mem _ ho)) h₁
      refine ⟨t', leaf', ?_, h'⟩
      rw [foldlM_cons, hrun]
      exact hrest
  obtain ⟨t, leaf, hrun, hsound⟩ := hfold ops t₀ _ _ hops hsound₀
  refine ⟨t, leaf, ?_, hsound⟩
  simp only [run, hbuild, bind_eq_bind, bind_some]
  exact hrun

section

variable {leaf : ℕ → SegNode δ} (h : Sound t n s leaf)
include h

theorem Sound.query (hfuel : n < fuel) {l r : ℕ} (hl : 1 ≤ l) (hlr : l ≤ r) (hr : r ≤ n) :
    ∃ v, t.query fuel 1 1 t.num l r = some v ∧ Best leaf l r v := by
  rw [h.num]
  exact query_spec (by omega) hl hr hlr h.holds

/-- An empty range has the extreme value. -/
theorem Sound.query_empty (hfuel : n < fuel) {l r : ℕ} (hlr : r < l) :
    t.query fuel 1 1 t.num l r = some ⟨segExtreme, none⟩ := by
  obtain ⟨k, rfl⟩ : ∃ k, fuel = k + 1 := ⟨fuel - 1, by omega⟩
  rw [SegTree.query, if_pos hlr, h.first]

/-- Only the nodes of the tree matter. -/
theorem Sound.congr {s' : ℕ → Option (SegNode δ)} (hs : ∀ p, 1 ≤ p → p ≤ n → s' p = s p) :
    Sound t n s' leaf :=
  ⟨h.extreme, h.num, h.size, h.first, h.holds,
    fun p v h₁ h₂ hv => h.stored p v h₁ h₂ ((hs p h₁ h₂).symm.trans hv),
    fun p h₁ h₂ hv => h.deleted p h₁ h₂ ((hs p h₁ h₂).symm.trans hv)⟩

end

/-! ### The keys -/

/-- The keys of stored nodes. -/
theorem key_of_stored {ops : List (SegOp δ)} (hops : ∀ op ∈ ops, op.Allowed n) :
    ∀ p v, segStored ops p = some v → v.key = p ∨ v.key < segExtreme := by
  have hfold : ∀ (ops : List (SegOp δ)) (s : ℕ → Option (SegNode δ)),
      (∀ op ∈ ops, op.Allowed n) → (∀ p v, s p = some v → v.key = p ∨ v.key < segExtreme) →
      ∀ p v, ops.foldl SegOp.store s p = some v → v.key = p ∨ v.key < segExtreme := by
    intro ops
    induction ops with
    | nil =>
      intro s _ h
      exact h
    | cons op ops ih =>
      intro s hops h
      refine ih _ (fun o ho => hops o (mem_cons_of_mem _ ho)) fun p v hv => ?_
      have hop := hops op (mem_cons_self ..)
      cases op with
      | insert pos node =>
        by_cases hp : p = pos
        · subst hp
          obtain rfl : node = v := by simpa [SegOp.store] using hv
          rcases hop.2.2 with hkey | ⟨-, hkey⟩
          · exact Or.inl hkey
          · exact Or.inr hkey
        · rw [SegOp.store, update_of_ne hp] at hv
          exact h p v hv
      | delete pos =>
        by_cases hp : p = pos
        · subst hp
          simp [SegOp.store] at hv
        · rw [SegOp.store, update_of_ne hp] at hv
          exact h p v hv
  refine hfold ops _ hops fun p v hv => ?_
  cases hv
  exact Or.inl rfl

/-- **The best node is the answer**, if no number of a position exceeds the extreme key. -/
theorem Sound.answer {leaf : ℕ → SegNode δ} (h : Sound t n s leaf) (hn : (n : ℤ) ≤ segExtreme)
    (hkey : ∀ p v, s p = some v → v.key = p ∨ v.key < segExtreme) {l r : ℕ} (hl : 1 ≤ l)
    (hr : r ≤ n) {v : SegNode δ} (hbest : Best leaf l r v) : Answer s l r v := by
  obtain ⟨p, hlp, hpr, rfl, hmin, hlast⟩ := hbest
  cases hp : s p with
  | some w =>
    have hw := h.stored p w (by omega) (by omega) hp
    refine Or.inl ⟨p, hlp, hpr, by rw [hw, hp], fun q u h₁ h₂ hq => ?_⟩
    rw [← h.stored q u (by omega) (by omega) hq]
    exact hmin q h₁ h₂
  | none =>
    have hext := h.deleted p (by omega) (by omega) hp
    refine Or.inr ⟨fun q h₁ h₂ => ?_, hext⟩
    by_contra hq
    obtain ⟨u, hu⟩ := ne_none_iff_exists'.mp hq
    have hleaf := h.stored q u (by omega) (by omega) hu
    have hle := hmin q h₁ h₂
    rw [hext, hleaf] at hle
    -- A stored key that is not smaller is that of the last position, which is preferred.
    rcases hkey q u hu with hkq | hlt
    · have hpq : p ≠ q := by
        rintro rfl
        rw [hp] at hu
        cases hu
      have hlt := hlast q (by omega) h₂
      rw [hext, hleaf] at hlt
      omega
    · omega

/-- A range of no elements has no tree. -/
theorem build_empty (fuel : ℕ) (t : SegTree δ) (i : ℕ) : build fuel t i 1 0 = none := by
  induction fuel generalizing i with
  | zero => rfl
  | succ fuel ih =>
    rw [build, if_neg (by omega)]
    simp only [Nat.shiftRight_eq_div_pow, Nat.reduceAdd, pow_one, Nat.reduceDiv]
    rw [ih]
    rfl

/-- **A key that exceeds the extreme one** is not found beside a deleted position. -/
theorem not_answers (hn : (segExtreme : ℤ) < n) (hfuel : n < fuel) :
    ∃ t, run fuel n [SegOp.delete 0xffffffff] = some (t : SegTree δ) ∧
      ¬ Answers fuel t (segStored [SegOp.delete 0xffffffff]) := by
  have hn' : 0xffffffff < n := by
    rw [segExtreme] at hn
    omega
  obtain ⟨t, leaf, hrun, hsound⟩ := sound_run (δ := δ) (n := n) (by omega) hfuel
    [SegOp.delete 0xffffffff] (by
      intro op hop
      rw [mem_singleton.mp hop]
      exact ⟨by omega, by omega⟩)
  refine ⟨t, hrun, fun hans => ?_⟩
  obtain ⟨v, hv, hanswer⟩ := hans 0xffffffff 0x100000000 (by omega) (by omega)
    (by rw [hsound.num]; omega)
  obtain ⟨w, hw, p, -, -, rfl, hmin, -⟩ := hsound.query hfuel (l := 0xffffffff) (r := 0x100000000)
    (by omega) (by omega) (by omega)
  rw [hw] at hv
  cases hv
  have hdel : segStored (δ := δ) [SegOp.delete 0xffffffff] 0xffffffff = none := by
    simp [segStored, SegOp.store]
  have hlow := hmin 0xffffffff (Nat.le_refl _) (by omega)
  rw [hsound.deleted _ (by omega) (by omega) hdel] at hlow
  have hstored : segStored (δ := δ) [SegOp.delete 0xffffffff] 0x100000000 =
      some ⟨((0x100000000 : ℕ) : ℤ), none⟩ := by
    simp [segStored, SegOp.store]
  rcases hanswer with ⟨q, h₁, h₂, hq, -⟩ | ⟨hall, -⟩
  · obtain rfl | rfl : q = 0xffffffff ∨ q = 0x100000000 := by omega
    · rw [hdel] at hq
      cases hq
    · rw [hstored] at hq
      have := congrArg (fun o => o.map SegNode.key) hq
      simp only [map_some, Option.some.injEq] at this
      rw [segExtreme] at hlow
      omega
  · have := hall 0x100000000 (by omega) (Nat.le_refl _)
    rw [hstored] at this
    cases this

end SegTree

/-- **Range minima.** On `n` positions, every run of insertions and deletions goes through and
leaves a tree that answers all queries, with all slots in the array, if and only if there is a
position and no number of a position exceeds the extreme key. -/
theorem segment_tree_exact (n : ℕ) :
    (∀ fuel, n < fuel → ∀ ops : List (SegOp δ), (∀ op ∈ ops, op.Allowed n) →
      ∃ t, SegTree.run fuel n ops = some t ∧ t.num = n ∧ t.Answers fuel (segStored ops)) ↔
    1 ≤ n ∧ n ≤ 0xffffffff := by
  constructor
  · intro h
    constructor
    · by_contra hn
      obtain rfl : n = 0 := by omega
      obtain ⟨t, hrun, -⟩ := h 1 Nat.one_pos [] (by simp)
      simp only [SegTree.run, SegTree.build_empty, bind_eq_bind, bind_none] at hrun
      cases hrun
    · by_contra hn
      have hn : segExtreme < (n : ℤ) := by
        rw [segExtreme]
        omega
      obtain ⟨t, hrun, hnot⟩ := SegTree.not_answers (δ := δ) hn (Nat.lt_succ_self n)
      rw [segExtreme] at hn
      obtain ⟨t', hrun', -, hans⟩ := h (n + 1) (Nat.lt_succ_self n) [.delete 0xffffffff] (by
        intro op hop
        rw [mem_singleton.mp hop]
        exact ⟨by omega, by omega⟩)
      rw [hrun] at hrun'
      cases hrun'
      exact hnot hans
  · rintro ⟨hn, hle⟩ fuel hfuel ops hops
    obtain ⟨t, leaf, hrun, hsound⟩ := SegTree.sound_run hn hfuel ops hops
    refine ⟨t, hrun, hsound.num, fun l r hl hlr hr => ?_⟩
    rw [hsound.num] at hr
    obtain ⟨v, hv, hbest⟩ := hsound.query hfuel hl hlr hr
    refine ⟨v, hv, hsound.answer ?_ (SegTree.key_of_stored hops) hl hr hbest⟩
    rw [segExtreme]
    omega

/-- With `2 ^ 32` positions, one deletion makes a query miss the node that is still stored. -/
theorem segment_tree_misses :
    ∃ t : SegTree ℕ, SegTree.run (2 ^ 32 + 1) (2 ^ 32) [.delete 0xffffffff] = some t ∧
      ¬ t.Answers (2 ^ 32 + 1) (segStored [.delete 0xffffffff]) :=
  SegTree.not_answers (by rw [segExtreme]; omega) (by omega)

end Hengine
