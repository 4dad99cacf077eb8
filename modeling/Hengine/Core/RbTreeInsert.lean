import Hengine.Core.RbTreeLinks

/-!
# Insertion into the Red-Black Tree

A new node is put below all nodes, behind those with the same key, as a red one. If its parent is
red as well, the loop recolours and rotates on the way up.
-/

namespace Hengine

namespace RbTree

open RbShape

variable {t : RbTree} {x : ℕ} {T a b : RbShape ℕ} {f g : RbFrame ℕ} {ctx : List (RbFrame ℕ)}

/-! ### The place of a new node -/

/-- The keys are in order. -/
def Sorted (key : ℕ → ℕ) (L : List ℕ) : Prop := L.Pairwise fun u v => key u ≤ key v

/-- **A new leaf** is linked in. -/
theorem At.link (h : t.At (f :: ctx) .nil) (hx : x ∉ ctxList (f :: ctx)) (hxs : x ≠ t.sentinel) :
    (t.link f.side f.x x).At (f :: ctx) (.node true .nil x .nil) := by
  have hfx : f.x ≠ x := fun heq => hx (by simp [ctxList, heq])
  have hchild : ∀ e z, (t.link f.side f.x x).child e z =
      if z = x then t.sentinel else if e = f.side ∧ z = f.x then x else t.child e z := by
    intro e z
    simp only [RbTree.link, child_setRed, child_setChild, child_setParent, sentinel_setParent,
      sentinel_setChild]
    by_cases hz : z = x
    · cases e <;> simp [hz]
    · simp [hz]
  have hparent : ∀ z, z ≠ x → (t.link f.side f.x x).parent z = t.parent z := by
    intro z hz
    simp [RbTree.link, parent_setParent, if_neg hz]
  have hred : ∀ z, z ≠ x → (t.link f.side f.x x).red z = t.red z := by
    intro z hz
    simp [RbTree.link, red_setRed, if_neg hz]
  have hne : ∀ z ∈ ctxList (f :: ctx), z ≠ x := fun z hz heq => hx (heq ▸ hz)
  have hnd : (ctxList (f :: ctx)).Nodup := h.nodup
  refine ⟨?_, ⟨?_, ?_, ?_, fun hnil => absurd rfl hnil, fun hnil => absurd rfl hnil, trivial,
    trivial⟩, fun _ => ?_, ?_, ?_, ?_⟩
  · refine h.above.rehang rfl rfl hnd ?_ ?_ (fun z hz hzf e => ?_) (fun z hz => hred z (hne z hz))
      fun z hz => hparent z (hne z hz)
    · rw [hchild, if_neg hfx, if_pos ⟨rfl, rfl⟩]
      rfl
    · rw [hchild, if_neg hfx, if_neg]
      rintro ⟨heq, -⟩
      revert heq
      cases f.side <;> simp
    · rw [hchild, if_neg (hne z hz), if_neg fun hc => hzf hc.2]
  · simp [RbTree.link, red_setRed]
  · rw [hchild, if_pos rfl]
    rfl
  · rw [hchild, if_pos rfl]
    rfl
  · exact show (t.link f.side f.x x).parent x = f.x by simp [RbTree.link, parent_setParent]
  · exact List.nodup_cons.mpr ⟨hx, hnd⟩
  · have hfresh : t.sentinel ∉ ctxList (f :: ctx) := h.fresh
    intro hmem
    rcases List.mem_cons.mp hmem with heq | hmem
    · exact hxs heq.symm
    · exact hfresh hmem
  · exact (hred _ (Ne.symm hxs)).trans h.black

/-- The keys around the subtree that the search goes on with. -/
theorem sorted_fork {p c : Bool} {y : ℕ} (hp : t.sideOf x y = p)
    (hsorted : Sorted t.key (toList (fork p c y a b)))
    (hbefore : ∀ z ∈ before ctx, t.key z ≤ t.key x) (hafter : ∀ z ∈ after ctx, t.key x < t.key z) :
    Sorted t.key (toList a) ∧ (∀ z ∈ before (⟨p, c, y, b⟩ :: ctx), t.key z ≤ t.key x) ∧
      ∀ z ∈ after (⟨p, c, y, b⟩ :: ctx), t.key x < t.key z := by
  cases p with
  | false =>
    have hlt : t.key x < t.key y := by simpa [sideOf] using hp
    obtain ⟨ha, hyb, -⟩ := List.pairwise_append.mp hsorted
    obtain ⟨hy, -⟩ := List.pairwise_cons.mp hyb
    refine ⟨ha, fun z hz => hbefore z (by simpa [before] using hz), fun z hz => ?_⟩
    simp only [after, Bool.false_eq_true, if_false, List.cons_append, List.mem_cons,
      List.mem_append] at hz
    rcases hz with rfl | hz | hz
    · exact hlt
    · exact Nat.lt_of_lt_of_le hlt (hy z hz)
    · exact hafter z hz
  | true =>
    have hle : t.key y ≤ t.key x := by simpa [sideOf] using hp
    obtain ⟨-, hya, hdis⟩ := List.pairwise_append.mp hsorted
    obtain ⟨-, ha⟩ := List.pairwise_cons.mp hya
    refine ⟨ha, fun z hz => ?_, fun z hz => hafter z (by simpa [after] using hz)⟩
    simp only [before, if_true, List.mem_append, List.mem_singleton] at hz
    rcases hz with hz | hz | rfl
    · exact hbefore z hz
    · exact Nat.le_trans (hdis z hz y (List.mem_cons_self ..)) hle
    · exact hle

/-- **The search for the place** goes down to an empty tree, behind all nodes with a smaller or the
same key and before the others. -/
theorem insertValue_spec : ∀ {fuel : ℕ} {T : RbShape ℕ} {ctx : List (RbFrame ℕ)}, T ≠ .nil →
    (toList T).length < fuel → t.At ctx T → x ∉ toList T ++ ctxList ctx → x ≠ t.sentinel →
    Sorted t.key (toList T) → (∀ z ∈ before ctx, t.key z ≤ t.key x) →
    (∀ z ∈ after ctx, t.key x < t.key z) →
    ∃ t' ctx', insertValue fuel t (t.ptr T) x = some t' ∧ t'.At ctx' (.node true .nil x .nil) ∧
      plug ctx' .nil = plug ctx T ∧ (∀ z ∈ before ctx', t.key z ≤ t.key x) ∧
      (∀ z ∈ after ctx', t.key x < t.key z) ∧ t'.key = t.key ∧ t'.sentinel = t.sentinel := by
  intro fuel
  induction fuel with
  | zero =>
    intro T ctx _ hfuel
    omega
  | succ fuel ih =>
    intro T ctx hT hfuel hat hx hxs hsorted hbefore hafter
    -- The subtree on the side of the key is `a`.
    generalize hp : t.sideOf x (t.ptr T) = p
    obtain ⟨c, y, a, b, rfl⟩ := exists_fork p hT
    rw [ptr_fork] at hp ⊢
    have hnew : t.At (⟨p, c, y, b⟩ :: ctx) a := at_cons.mpr hat
    have hperm := fork_perm ⟨p, c, y, b⟩ ctx a
    have hx : x ∉ toList a ++ ctxList (⟨p, c, y, b⟩ :: ctx) := by rwa [hperm.mem_iff]
    obtain ⟨hsorted', hbefore', hafter'⟩ := sorted_fork hp hsorted hbefore hafter
    have hchild : t.child p y = t.ptr a := hnew.above.2.1
    rw [insertValue]
    simp only [hp, hchild]
    by_cases ha : a = .nil
    · subst ha
      rw [ptr_nil, if_pos rfl]
      exact ⟨_, _, rfl, hnew.link hx hxs, rfl, hbefore', hafter', rfl, rfl⟩
    · rw [if_neg (hnew.ptr_ne_sentinel ha)]
      have hlen : (toList a).length < fuel := by
        have := (toList_fork_perm (d := p) (c := c) (x := y) (a := a) (b := b)).length_eq
        rw [List.length_cons, List.length_append] at this
        omega
      exact ih ha hlen hnew hx hxs hsorted' hbefore' hafter'

/-! ### A turn of the loop -/

section

variable (h : t.At (f :: g :: ctx) T)
include h

theorem At.parents (hT : T ≠ .nil) : t.parent (t.ptr T) = f.x ∧ t.parent f.x = g.x :=
  ⟨h.up hT, h.above.2.2.2.2.2.1⟩

theorem At.uncle : t.child (!g.side) g.x = t.ptr g.sib ∧ t.red (t.ptr g.sib) = isRed g.sib := by
  have hg := at_cons.mp h
  exact ⟨hg.above.2.2.1, (at_switch.mp hg).red_ptr⟩

/-- **A red uncle**: the parent and the uncle become black, and the grandparent red. -/
theorem insertStep_red (hT : T ≠ .nil) (hu : isRed g.sib = true) :
    ∃ t', insertStep g.side t (t.ptr T) = (t', g.x) ∧
      t'.At ctx (fork g.side true g.x (fork f.side false f.x T f.sib) (blacken g.sib)) ∧
      t'.key = t.key ∧ t'.sentinel = t.sentinel := by
  obtain ⟨hp, hg⟩ := h.parents hT
  obtain ⟨hchild, hred⟩ := h.uncle
  refine ⟨((t.setRed f.x false).setRed (t.ptr g.sib) false).setRed g.x true, ?_, ?_, rfl, rfl⟩
  · simp [insertStep, hp, hg, hchild, hred, hu]
  · have hsib : g.sib ≠ .nil := by
      intro hnil
      rw [hnil] at hu
      cases hu
    -- The parent, then the uncle, then the grandparent.
    have h₁ := (at_cons.mp h).setRed false
    have h₂ := at_switch.mp h₁
    obtain ⟨c, y, a, b, hfork⟩ := exists_fork false hsib
    simp only [hfork] at h₂
    have h₃ := at_switch.mp (h₂.setRed false)
    have h₄ := (at_cons.mp h₃).setRed true
    simp only [Bool.not_not] at h₄
    rw [hfork, blacken_fork, ptr_fork]
    exact h₄

/-- **A black uncle** on the far side: a rotation at the grandparent brings the parent up. -/
theorem insertStep_outer (hside : f.side = g.side) :
    (((t.setRed f.x false).setRed g.x true).rotate (!g.side) g.x).At
      (⟨g.side, false, f.x, fork g.side true g.x f.sib g.sib⟩ :: ctx) T := by
  have h₁ := (at_cons.mp ((at_cons.mp h).setRed false)).setRed true
  rw [hside] at h₁
  have h₂ : ((t.setRed f.x false).setRed g.x true).At ctx
      (fork (!(!g.side)) true g.x (fork (!g.side) false f.x f.sib T) g.sib) := by
    rw [Bool.not_not, fork_not]
    exact h₁
  have h₃ := h₂.rotate
  rw [Bool.not_not, fork_not] at h₃
  exact at_cons.mpr h₃

end

/-- **On the near side** a rotation at the parent comes before. -/
theorem insertStep_inner {c : Bool} {b e : RbShape ℕ}
    (h : t.At (f :: g :: ctx) (fork g.side c x b e)) (hside : f.side = !g.side) :
    (t.rotate g.side f.x).At (⟨g.side, c, x, e⟩ :: g :: ctx)
      (fork (!g.side) f.red f.x b f.sib) := by
  have h₁ := at_cons.mp h
  rw [hside] at h₁
  exact at_cons.mpr h₁.rotate

/-- What a turn with a black uncle makes of the tree. -/
theorem insertStep_black (h : t.At (f :: g :: ctx) T) (hT : T ≠ .nil) (hu : isRed g.sib = false) :
    (f.side = g.side → ∃ t', insertStep g.side t (t.ptr T) = (t', t.ptr T) ∧
      t'.At (⟨g.side, false, f.x, fork g.side true g.x f.sib g.sib⟩ :: ctx) T ∧
      t'.key = t.key ∧ t'.sentinel = t.sentinel) ∧
    (f.side = !g.side → ∀ c x b e, T = fork g.side c x b e →
      ∃ t', insertStep g.side t (t.ptr T) = (t', f.x) ∧
        t'.At (⟨g.side, false, x, fork g.side true g.x e g.sib⟩ :: ctx)
          (fork (!g.side) f.red f.x b f.sib) ∧
        t'.key = t.key ∧ t'.sentinel = t.sentinel) := by
  obtain ⟨hp, hg⟩ := h.parents hT
  obtain ⟨hchild, hred⟩ := h.uncle
  constructor
  · intro hside
    refine ⟨_, ?_, insertStep_outer h hside, by simp, by simp⟩
    have hfar : t.ptr T ≠ t.child (!g.side) f.x := by
      rw [← hside, h.above.2.2.1]
      exact h.ptr_ne_sib (Or.inl hT)
    simp only [insertStep, hp, hg, hchild, hred, hu, if_neg hfar, parent_setRed,
      Bool.false_eq_true, if_false]
  · rintro hside c x b e rfl
    have hnear : t.ptr (fork g.side c x b e) = t.child (!g.side) f.x := by
      rw [← hside, h.above.2.1]
    have h₁ := insertStep_inner h hside
    obtain ⟨hp₁, hg₁⟩ := h₁.parents fork_ne_nil
    rw [ptr_fork] at hp₁
    refine ⟨_, ?_, insertStep_outer h₁ rfl, by simp, by simp⟩
    simp only [insertStep, hp, hg, hchild, hred, hu, ← hnear, parent_setRed, hp₁, hg₁,
      Bool.false_eq_true, if_false, if_true]

/-! ### The loop -/

/-- The tree during the loop: only the node and its parent may both be red. -/
structure Rising (ctx : List (RbFrame ℕ)) (T : RbShape ℕ) : Prop where
  red : isRed T = true
  fair : Fair T
  bal : ∃ n, Bal T n ∧ CtxBal ctx n
  above : CtxFair ctx

/-- **The loop may end** at the root or below a black node. -/
theorem Rising.isRb (h : Rising ctx T) (hend : ctx = [] ∨ HeadBlack ctx) :
    IsRb (blacken (plug ctx T)) := by
  rcases hend with rfl | hhead
  · obtain ⟨n, hn, -⟩ := h.bal
    exact ⟨⟨n + 1, hn.blacken h.red⟩, h.fair.blacken, isRed_blacken _⟩
  · have hrb : IsRb (plug ctx T) := isRb_plug.mpr ⟨h.bal, h.fair, h.above, fun _ => hhead⟩
    rw [blacken_of_isRed hrb.2.2]
    exact hrb

/-- A red parent has a black parent of its own. -/
theorem Rising.grand (h : Rising (f :: ctx) T) (hf : f.red = true) :
    ∃ g ctx', ctx = g :: ctx' ∧ g.red = false ∧ isRed f.sib = false := by
  obtain ⟨hred, hhead⟩ := h.above.1 hf
  cases ctx with
  | nil => exact absurd hhead id
  | cons g ctx' => exact ⟨g, ctx', rfl, hhead, hred⟩

/-- **A red uncle**: the parent and the uncle become black, and the grandparent is looked at
next. -/
theorem Rising.recolour (h : Rising (f :: g :: ctx) T) (hf : f.red = true) (hg : g.red = false)
    (hu : isRed g.sib = true) :
    Rising ctx (fork g.side true g.x (fork f.side false f.x T f.sib) (blacken g.sib)) := by
  obtain ⟨n, hn, hsib, hgsib, hctx⟩ := h.bal
  obtain ⟨-, hfsib, -, hgfair, hctxfair⟩ := h.above
  simp only [hf, hg, weight, if_true, Bool.false_eq_true, if_false, Nat.add_zero] at hgsib hctx
  refine ⟨isRed_fork, fair_fork.mpr ⟨fun _ => ⟨isRed_fork, isRed_blacken _⟩, fair_fork.mpr
    ⟨fun hc => (by cases hc), h.fair, hfsib⟩, hgfair.blacken⟩, ⟨n + 1, ?_, hctx⟩, hctxfair⟩
  exact bal_fork.mpr ⟨n + 1, bal_fork.mpr ⟨n, hn, hsib, rfl⟩, hgsib.blacken hu, rfl⟩

/-- **A black uncle**, with the node on the outer side: the grandparent turns down. -/
theorem Rising.outer (h : Rising (f :: g :: ctx) T) (hf : f.red = true) (hg : g.red = false)
    (hu : isRed g.sib = false) :
    Rising (⟨g.side, false, f.x, fork g.side true g.x f.sib g.sib⟩ :: ctx) T := by
  obtain ⟨n, hn, hsib, hgsib, hctx⟩ := h.bal
  obtain ⟨hfred, hfsib, -, hgfair, hctxfair⟩ := h.above
  simp only [hf, hg, weight, if_true, Bool.false_eq_true, if_false, Nat.add_zero] at hgsib hctx
  refine ⟨h.red, h.fair, ⟨n, hn, bal_fork.mpr ⟨n, hsib, hgsib, rfl⟩, hctx⟩, ?_⟩
  exact ⟨fun hc => (by cases hc), fair_fork.mpr ⟨fun _ => ⟨(hfred hf).1, hu⟩, hfsib, hgfair⟩,
    hctxfair⟩

/-- The rotation at the parent, on the near side. -/
theorem Rising.inner {d c : Bool} {b e : RbShape ℕ} (h : Rising (f :: g :: ctx) (fork d c x b e))
    (hf : f.red = true) :
    Rising (⟨d, c, x, e⟩ :: g :: ctx) (fork (!d) f.red f.x b f.sib) := by
  have hc : c = true := by
    have := h.red
    rwa [isRed_fork] at this
  obtain ⟨n, hn, hsib, hctx⟩ := h.bal
  obtain ⟨k, hb, he, rfl⟩ := bal_fork.mp hn
  obtain ⟨hfred, hfsib, hgfair⟩ := h.above
  obtain ⟨hbe, hfb, hfe⟩ := fair_fork.mp h.fair
  subst hc
  simp only [hf, weight, if_true, Nat.add_zero] at hsib hctx
  refine ⟨by rw [isRed_fork, hf], fair_fork.mpr ⟨fun _ => ⟨(hbe rfl).1, (hfred hf).1⟩, hfb, hfsib⟩,
    ⟨k, bal_fork.mpr ⟨k, hb, hsib, by rw [hf]; rfl⟩, he, hctx⟩, ?_⟩
  exact ⟨fun _ => ⟨(hbe rfl).2, (hfred hf).2⟩, hfe, hgfair⟩

theorem toList_outer (d c c' : Bool) (x y : ℕ) (T a b : RbShape ℕ) :
    toList (fork d false x T (fork d true y a b)) = toList (fork d c y (fork d c' x T a) b) := by
  cases d with
  | false => simp [fork, toList]
  | true => simp [fork, toList]

/-- A double rotation keeps the in-order walk. -/
theorem toList_inner (d c c' c'' : Bool) (x y z : ℕ) (b e a u : RbShape ℕ) :
    toList (fork d false x (fork (!d) c' y b a) (fork d true z e u)) =
      toList (fork d c z (fork (!d) c' y (fork d c'' x b e) a) u) := by
  cases d with
  | false => simp [fork, toList]
  | true => simp [fork, toList]

/-- **The loop** comes to an end, with a red-black tree but for the colour of its root. -/
theorem insertFixup_spec : ∀ {fuel : ℕ} {t : RbTree} {ctx : List (RbFrame ℕ)} {T : RbShape ℕ},
    t.At ctx T → Rising ctx T → ctx.length < fuel →
    ∃ t' S, insertFixup fuel t (t.ptr T) = some t' ∧ t'.At [] S ∧
      toList S = toList (plug ctx T) ∧ IsRb (blacken S) ∧ t'.key = t.key ∧
      t'.sentinel = t.sentinel := by
  intro fuel
  induction fuel with
  | zero =>
    intro t ctx T _ _ hfuel
    omega
  | succ fuel ih =>
    intro t ctx T h hrise hfuel
    have hT : T ≠ .nil := by
      rintro rfl
      cases hrise.red
    -- The loop ends if there is no red node above.
    have hstop : ¬ (t.ptr T ≠ t.root ∧ t.red (t.parent (t.ptr T)) = true) →
        (ctx = [] ∨ HeadBlack ctx) →
        ∃ t' S, insertFixup (fuel + 1) t (t.ptr T) = some t' ∧ t'.At [] S ∧
          toList S = toList (plug ctx T) ∧ IsRb (blacken S) ∧ t'.key = t.key ∧
          t'.sentinel = t.sentinel := fun hc hend =>
      ⟨t, plug ctx T, by rw [insertFixup, if_neg hc], at_root.mp h, rfl, hrise.isRb hend, rfl, rfl⟩
    cases ctx with
    | nil => exact hstop (fun hc => hc.1 ((h.eq_root hT).mpr rfl)) (Or.inl rfl)
    | cons f ctx =>
      have hp : t.parent (t.ptr T) = f.x := h.up hT
      have hred : t.red f.x = f.red := h.above.1
      by_cases hf : f.red = true
      · obtain ⟨g, ctx, rfl, hg, hfs⟩ := hrise.grand hf
        have hne : t.ptr T ≠ t.root := fun heq => by simpa using (h.eq_root hT).mp heq
        have hd : (!decide (t.parent (t.ptr T) =
            t.child false (t.parent (t.parent (t.ptr T))))) = g.side := by
          have := (at_cons.mp h).side (Or.inl fork_ne_nil)
          rwa [ptr_fork, ← (h.parents hT).2, ← hp] at this
        have hturn : insertFixup (fuel + 1) t (t.ptr T) =
            insertFixup fuel (insertStep g.side t (t.ptr T)).1
              (insertStep g.side t (t.ptr T)).2 := by
          rw [insertFixup, if_pos ⟨hne, by rw [hp, hred, hf]⟩]
          simp only [hd]
        rw [hturn]
        simp only [List.length_cons] at hfuel
        by_cases hu : isRed g.sib = true
        · obtain ⟨t₁, hstep, h₁, hkey, hs⟩ := insertStep_red h hT hu
          obtain ⟨t', S, hrun, hat, hlist, hrb, hkey', hs'⟩ :=
            ih h₁ (hrise.recolour hf hg hu) (by omega)
          rw [ptr_fork] at hrun
          refine ⟨t', S, by rw [hstep]; exact hrun, hat, hlist.trans ?_, hrb, hkey'.trans hkey,
            hs'.trans hs⟩
          refine toList_plug_congr (toList_fork_congr (toList_fork_congr rfl rfl) ?_)
          exact toList_blacken _
        · have hu : isRed g.sib = false := by simpa using hu
          obtain ⟨houter, hinner⟩ := insertStep_black h hT hu
          by_cases hside : f.side = g.side
          · obtain ⟨t₁, hstep, h₁, hkey, hs⟩ := houter hside
            obtain ⟨t', S, hrun, hat, hlist, hrb, hkey', hs'⟩ :=
              ih h₁ (hrise.outer hf hg hu) (by simp only [List.length_cons]; omega)
            rw [ptr_congr hs] at hrun
            refine ⟨t', S, by rw [hstep]; exact hrun, hat, hlist.trans ?_, hrb,
              hkey'.trans hkey, hs'.trans hs⟩
            refine @toList_plug_congr _ _ ctx _ ?_
            rw [hside]
            exact toList_outer ..
          · have hside : f.side = !g.side := by
              revert hside
              cases f.side <;> cases g.side <;> simp
            obtain ⟨c, x, b, e, rfl⟩ := exists_fork g.side hT
            obtain ⟨t₁, hstep, h₁, hkey, hs⟩ := hinner hside c x b e rfl
            have hrise₁ := (hrise.inner hf).outer (by simpa using hrise.red) hg hu
            obtain ⟨t', S, hrun, hat, hlist, hrb, hkey', hs'⟩ :=
              ih h₁ hrise₁ (by simp only [List.length_cons]; omega)
            rw [ptr_fork] at hrun
            refine ⟨t', S, by rw [hstep]; exact hrun, hat, hlist.trans ?_, hrb,
              hkey'.trans hkey, hs'.trans hs⟩
            refine @toList_plug_congr _ _ ctx _ ?_
            rw [hside]
            exact toList_inner ..
      · have hf : f.red = false := by simpa using hf
        refine hstop (fun hc => ?_) (Or.inr hf)
        rw [hp, hred, hf] at hc
        cases hc.2

/-! ### An insertion -/

/-- A tree in memory that is a red-black tree with its keys in order, and its nodes from left to
right. -/
structure Holds (t : RbTree) (L : List ℕ) : Prop where
  tree : ∃ T, t.At [] T ∧ IsRb T ∧ toList T = L
  sorted : Sorted t.key L

/-- A node goes behind all keys that are not above its own. -/
theorem Sorted.insert {key : ℕ → ℕ} {L₁ L₂ : List ℕ} (h : Sorted key (L₁ ++ L₂))
    (h₁ : ∀ z ∈ L₁, key z ≤ key x) (h₂ : ∀ z ∈ L₂, key x < key z) :
    Sorted key (L₁ ++ x :: L₂) := by
  obtain ⟨hL₁, hL₂, hdis⟩ := List.pairwise_append.mp h
  refine List.pairwise_append.mpr ⟨hL₁, List.pairwise_cons.mpr ⟨fun z hz => Nat.le_of_lt (h₂ z hz), hL₂⟩, ?_⟩
  intro u hu v hv
  rcases List.mem_cons.mp hv with rfl | hv
  · exact h₁ u hu
  · exact hdis u hu v hv

/-- The first node of a tree. -/
theorem insert_empty (hroot : t.root = t.sentinel) (hblack : t.red t.sentinel = false)
    (hxs : x ≠ t.sentinel) (fuel : ℕ) :
    ∃ t', t.insert fuel x = some t' ∧ t'.At [] (.node false .nil x .nil) ∧ t'.key = t.key ∧
      t'.sentinel = t.sentinel := by
  refine ⟨_, if_pos hroot, ⟨rfl, ⟨?_, ?_, ?_, fun h => absurd rfl h, fun h => absurd rfl h, trivial,
    trivial⟩, fun _ => trivial, ?_, ?_, ?_⟩, rfl, rfl⟩
  · simp [red_setRed]
  · simp [child_setChild]
  · simp [child_setChild]
  · simp [toList, ctxList]
  · intro hmem
    exact hxs (List.mem_singleton.mp hmem).symm
  · simp only [red_setRoot, sentinel_setRoot, red_setRed, sentinel_setRed, sentinel_setChild,
      sentinel_setParent, red_setChild, red_setParent, if_neg (Ne.symm hxs), hblack]

/-- **An insertion**: the new node goes behind all nodes with a smaller or the same key. -/
theorem insert_spec {L : List ℕ} {fuel : ℕ} (h : t.Holds L) (hx : x ∉ L) (hxs : x ≠ t.sentinel)
    (hfuel : L.length + 1 < fuel) :
    ∃ t' L₁ L₂, t.insert fuel x = some t' ∧ L = L₁ ++ L₂ ∧ t'.Holds (L₁ ++ x :: L₂) ∧
      (∀ z ∈ L₁, t.key z ≤ t.key x) ∧ (∀ z ∈ L₂, t.key x < t.key z) ∧ t'.key = t.key ∧
      t'.sentinel = t.sentinel := by
  obtain ⟨⟨T, hat, hrb, rfl⟩, hsorted⟩ := h
  have hroot : t.root = t.ptr T := hat.above
  by_cases hT : T = .nil
  · subst hT
    obtain ⟨t', hrun, hat', hkey, hs⟩ := insert_empty (x := x) hroot hat.black hxs fuel
    refine ⟨t', [], [], hrun, rfl, ⟨⟨_, hat', ⟨⟨1, 0, rfl, rfl, rfl⟩, ⟨fun hc => (by cases hc),
      trivial, trivial⟩, rfl⟩, rfl⟩, List.pairwise_singleton ..⟩, by simp, by simp, hkey, hs⟩
  · obtain ⟨t₁, ctx, hvalue, hat₁, hplug, hbefore, hafter, hkey₁, hs₁⟩ :=
      insertValue_spec hT (show (toList T).length < fuel by omega) hat
        (by simpa [ctxList] using hx) hxs hsorted (by simp [before])
        (by simp [after])
    rw [plug] at hplug
    have hlist : toList T = before ctx ++ after ctx := by
      rw [← hplug, toList_plug, toList, List.append_nil]
    -- The new leaf is red, so the tree is still balanced.
    rw [← hplug, isRb_plug] at hrb
    obtain ⟨⟨n, hn, hctx⟩, -, hfair, -⟩ := hrb
    have hn : n = 0 := hn
    subst hn
    have hrise : Rising ctx (.node true .nil x .nil) :=
      ⟨rfl, ⟨fun _ => ⟨rfl, rfl⟩, trivial, trivial⟩, ⟨0, ⟨0, rfl, rfl, rfl⟩, hctx⟩, hfair⟩
    have hdepth : ctx.length < fuel := by
      have hperm := (toList_plug_perm ctx (.nil : RbShape ℕ)).length_eq
      rw [hplug, toList, List.nil_append] at hperm
      have := length_le_ctxList ctx
      omega
    obtain ⟨t₂, S, hfix, hat₂, hS, hrb₂, hkey₂, hs₂⟩ := insertFixup_spec hat₁ hrise hdepth
    have hS : toList S = before ctx ++ x :: after ctx := by
      rw [hS, toList_plug]
      simp [toList]
    have hSne : S ≠ .nil := by
      rintro rfl
      simp [toList] at hS
    obtain ⟨c, r, a, b, rfl⟩ := exists_fork false hSne
    have hat₃ := hat₂.setRed false
    have hroot₂ : t₂.root = r := hat₂.above.trans ptr_fork
    rw [blacken_fork] at hrb₂
    refine ⟨t₂.setRed r false, before ctx, after ctx, ?_, hlist, ⟨⟨_, hat₃, hrb₂, ?_⟩, ?_⟩, hbefore,
      hafter, hkey₂.trans hkey₁, hs₂.trans hs₁⟩
    · have hne : t.root ≠ t.sentinel := by
        rw [hroot]
        exact hat.ptr_ne_sentinel hT
      have hfix : insertFixup fuel t₁ x = some t₂ := hfix
      rw [insert, if_neg hne, hroot, hvalue]
      simp [hfix, hroot₂]
    · rw [← hS]
      exact toList_fork_congr rfl rfl
    · rw [key_setRed, hkey₂, hkey₁]
      exact (hlist ▸ hsorted).insert hbefore hafter

end RbTree

end Hengine
