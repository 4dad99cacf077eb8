import Hengine.Core.RbTreeInsert

/-!
# Deletion from the Red-Black Tree

A node with two children is replaced by the next one, which has no left child; so in any case a
node with one child at most leaves its place. If it was black, the way down to the place lacks a
black node, and the loop makes up for it or passes the lack on to the parent. The place may be
empty: the sentinel then knows its parent.
-/

namespace Hengine

open List

namespace RbTree

open RbShape

variable {t t' : RbTree} {d c : Bool} {x y s : ℕ} {T W a b e l r : RbShape ℕ} {f g : RbFrame ℕ}
  {ctx : List (RbFrame ℕ)}

/-! ### The place of the lack -/

/-- The program is at a subtree, which may be empty, and knows its parent. -/
structure Below (t : RbTree) (ctx : List (RbFrame ℕ)) (T : RbShape ℕ) : Prop
    extends At t ctx T where
  known : t.Up ctx (t.ptr T)

theorem At.below (h : t.At ctx T) (hs : T = .nil → t.Up ctx t.sentinel) : t.Below ctx T := by
  refine ⟨h, ?_⟩
  by_cases hT : T = .nil
  · subst hT
    exact hs rfl
  · exact h.up hT

theorem parent_rotate_sentinel (hx : x ≠ t.sentinel) (hy : t.child (!d) x ≠ t.sentinel) :
    (t.rotate d x).parent t.sentinel = t.parent t.sentinel := by
  simp [RbTree.rotate, parent_setParent, parent_adopt, if_neg (Ne.symm hx), if_neg (Ne.symm hy)]

theorem At.x_ne_sentinel (h : t.At ctx (fork d c x a b)) : x ≠ t.sentinel := by
  have := h.ptr_ne_sentinel fork_ne_nil
  rwa [ptr_fork] at this

/-- What the links below a node read. -/
theorem Below.reads (h : t.Below (f :: ctx) T) :
    t.parent (t.ptr T) = f.x ∧ t.child (!f.side) f.x = t.ptr f.sib ∧
      t.red (t.ptr f.sib) = isRed f.sib ∧ t.red f.x = f.red :=
  ⟨h.known, h.above.2.2.1, (at_switch.mp h.toAt).red_ptr, h.above.1⟩

/-! ### The steps of a turn -/

variable {U : RbShape ℕ} {w : ℕ} {fuel : ℕ} {cw : Bool}

section

variable (h : t.Below (f :: ctx) T)
include h

/-- **A red sibling** comes up, and its near child becomes the sibling. -/
theorem redSibling_spec (hW : f.sib = fork f.side true w a b) :
    (t.redSibling f.side (t.ptr T)).Below
        (⟨f.side, true, f.x, a⟩ :: ⟨f.side, false, w, b⟩ :: ctx) T ∧
      (t.redSibling f.side (t.ptr T)).key = t.key ∧
      (t.redSibling f.side (t.ptr T)).sentinel = t.sentinel := by
  obtain ⟨hp, hw, hredw, -⟩ := h.reads
  rw [hW, ptr_fork] at hw hredw
  rw [isRed_fork] at hredw
  have hrun : t.redSibling f.side (t.ptr T) =
      ((t.setRed w false).setRed f.x true).rotate f.side f.x := by
    simp [redSibling, hp, hw, hredw]
  have h₁ := at_switch.mp h.toAt
  rw [hW] at h₁
  have h₂ := (at_cons.mp (h₁.setRed false)).setRed true
  have hxs := h₂.x_ne_sentinel
  have hws : w ≠ t.sentinel := h₁.x_ne_sentinel
  have h₃ := h₂.rotate
  rw [fork_not] at h₃
  have h₄ := (at_cons (f := ⟨f.side, true, f.x, a⟩)).mpr
    ((at_cons (f := ⟨f.side, false, w, b⟩)).mpr h₃)
  rw [hrun]
  refine ⟨h₄.below fun hT => ?_, by simp, by simp⟩
  have hparent : (((t.setRed w false).setRed f.x true).rotate f.side f.x).parent t.sentinel =
      t.parent t.sentinel := parent_rotate_sentinel hxs (by
    rw [child_setRed, child_setRed, hw]
    exact hws)
  subst hT
  exact show (((t.setRed w false).setRed f.x true).rotate f.side f.x).parent
    (((t.setRed w false).setRed f.x true).rotate f.side f.x).sentinel = f.x by
      rw [sentinel_rotate]
      exact hparent.trans hp

theorem redSibling_black (hW : isRed f.sib = false) : t.redSibling f.side (t.ptr T) = t := by
  obtain ⟨hp, hw, hredw, -⟩ := h.reads
  simp [redSibling, hp, hw, hredw, hW]

/-- What the links say about the children of the sibling. -/
theorem Below.nephews (hW : f.sib = fork f.side cw w a b) :
    t.child f.side w = t.ptr a ∧ t.child (!f.side) w = t.ptr b ∧ t.red (t.ptr a) = isRed a ∧
      t.red (t.ptr b) = isRed b := by
  have h₁ := at_switch.mp h.toAt
  rw [hW] at h₁
  obtain ⟨-, ha, hb, -⟩ := links_fork.mp h₁.links
  have hnear : t.At (⟨f.side, cw, w, b⟩ :: ⟨!f.side, f.red, f.x, T⟩ :: ctx) a := at_cons.mpr h₁
  exact ⟨ha, hb, hnear.red_ptr, (at_switch.mp hnear).red_ptr⟩

/-- **A red near child** of a black sibling becomes the sibling. -/
theorem blackFar_spec (hW : f.sib = fork f.side cw w (fork (!f.side) true y a e) b)
    (hb : isRed b = false) :
    (t.blackFar f.side (t.ptr T)).Below
        (⟨f.side, f.red, f.x, fork f.side false y e (fork f.side true w a b)⟩ :: ctx) T ∧
      (t.blackFar f.side (t.ptr T)).key = t.key ∧
      (t.blackFar f.side (t.ptr T)).sentinel = t.sentinel := by
  obtain ⟨hp, hw, -⟩ := h.reads
  obtain ⟨hnear, hfar, -, hredb⟩ := h.nephews hW
  rw [hW, ptr_fork] at hw
  rw [ptr_fork] at hnear
  have hrun : t.blackFar f.side (t.ptr T) =
      ((t.setRed y false).setRed w true).rotate (!f.side) w := by
    simp [blackFar, hp, hw, hfar, hredb, hb, hnear]
  have h₁ := at_switch.mp h.toAt
  rw [hW] at h₁
  have h₂ := (at_cons (f := ⟨f.side, cw, w, b⟩)).mpr h₁
  have hys : y ≠ t.sentinel := h₂.x_ne_sentinel
  have h₃ := (at_cons.mp (h₂.setRed false)).setRed true
  have hws := h₃.x_ne_sentinel
  have h₄ : ((t.setRed y false).setRed w true).At (⟨!f.side, f.red, f.x, T⟩ :: ctx)
      (fork (!(!f.side)) true w (fork (!f.side) false y a e) b) := by
    rw [Bool.not_not]
    exact h₃
  have h₅ := h₄.rotate
  rw [Bool.not_not, fork_not] at h₅
  have h₆ := at_switch.mp h₅
  simp only [Bool.not_not] at h₆
  rw [hrun]
  refine ⟨h₆.below fun hT => ?_, by simp, by simp⟩
  have hparent : (((t.setRed y false).setRed w true).rotate (!f.side) w).parent t.sentinel =
      t.parent t.sentinel := parent_rotate_sentinel hws (by
    rw [child_setRed, child_setRed, Bool.not_not, hnear]
    exact hys)
  subst hT
  exact show (((t.setRed y false).setRed w true).rotate (!f.side) w).parent
    (((t.setRed y false).setRed w true).rotate (!f.side) w).sentinel = f.x by
      rw [sentinel_rotate]
      exact hparent.trans hp

theorem blackFar_red (hW : f.sib = fork f.side cw w a b) (hb : isRed b = true) :
    t.blackFar f.side (t.ptr T) = t := by
  obtain ⟨hp, hw, -⟩ := h.reads
  obtain ⟨-, hfar, -, hredb⟩ := h.nephews hW
  rw [hW, ptr_fork] at hw
  simp [blackFar, hp, hw, hfar, hredb, hb]

/-- **The last rotation**: the sibling takes the place of the parent. -/
theorem lastRotation_spec (hW : f.sib = fork f.side cw w a b) (hb : isRed b = true) :
    (t.lastRotation f.side (t.ptr T)).At ctx
        (fork f.side f.red w (fork f.side false f.x T a) (blacken b)) ∧
      (t.lastRotation f.side (t.ptr T)).key = t.key ∧
      (t.lastRotation f.side (t.ptr T)).sentinel = t.sentinel := by
  obtain ⟨hp, hw, -, hredf⟩ := h.reads
  obtain ⟨-, hfar, -, -⟩ := h.nephews hW
  rw [hW, ptr_fork] at hw
  have hrun : t.lastRotation f.side (t.ptr T) =
      (((t.setRed w f.red).setRed f.x false).setRed (t.ptr b) false).rotate f.side f.x := by
    simp [lastRotation, hp, hw, hredf, hfar]
  have h₁ := at_switch.mp h.toAt
  rw [hW] at h₁
  have h₂ := (at_cons.mp (h₁.setRed f.red)).setRed false
  -- Down to the far child of the sibling, and up again.
  have h₃ := (at_cons (f := ⟨!f.side, false, f.x, T⟩)).mpr h₂
  rw [← fork_not] at h₃
  have h₄ := (at_cons (f := ⟨!f.side, f.red, w, a⟩)).mpr h₃
  have hbn : b ≠ .nil := by
    rintro rfl
    cases hb
  obtain ⟨cb, z, b₁, b₂, rfl⟩ := exists_fork false hbn
  have h₅ := at_cons.mp (h₄.setRed false)
  simp only [fork_not] at h₅
  have h₆ := (at_cons.mp h₅).rotate
  rw [fork_not] at h₆
  rw [hrun, blacken_fork, ptr_fork]
  exact ⟨h₆, by simp, by simp⟩

end

/-! ### The lack of a black node -/

/-- The tree during the loop: the ways down to the subtree have a black node less than the others,
and its root may be red below a red node. -/
structure Sinking (ctx : List (RbFrame ℕ)) (T : RbShape ℕ) : Prop where
  fair : Fair (blacken T)
  bal : ∃ n, Bal T n ∧ CtxBal ctx (n + 1)
  above : CtxFair ctx

/-- **The loop may end** at a red node, which is made black, or at the root. -/
theorem Sinking.isRb (h : Sinking ctx T) (hend : isRed T = true ∨ ctx = []) :
    IsRb (plug ctx (blacken T)) := by
  obtain ⟨n, hn, hctx⟩ := h.bal
  by_cases hT : isRed T = true
  · refine isRb_plug.mpr ⟨⟨n + 1, hn.blacken hT, hctx⟩, h.fair, h.above, fun hc => ?_⟩
    rw [isRed_blacken] at hc
    cases hc
  · rcases hend with hred | rfl
    · exact absurd hred hT
    · refine ⟨⟨n, ?_⟩, h.fair, isRed_blacken _⟩
      rw [plug, blacken_of_isRed (by simpa using hT)]
      exact hn

theorem Sinking.fair_of_black (h : Sinking ctx T) (hT : isRed T = false) : Fair T := by
  have := h.fair
  rwa [blacken_of_isRed hT] at this

section

variable (h : Sinking (f :: ctx) T)
include h

theorem Sinking.sib : f.sib ≠ .nil := by
  obtain ⟨n, -, hsib, -⟩ := h.bal
  intro hnil
  rw [hnil] at hsib
  have hsib : n + 1 = 0 := hsib
  omega

/-- A red sibling. -/
theorem Sinking.redSibling (hW : f.sib = fork f.side true w a b) :
    isRed a = false ∧
      Sinking (⟨f.side, true, f.x, a⟩ :: ⟨f.side, false, w, b⟩ :: ctx) T := by
  obtain ⟨n, hn, hsib, hctx⟩ := h.bal
  obtain ⟨hfred, hfair, hctxfair⟩ := h.above
  have hf : f.red = false := by
    by_contra hf
    have := (hfred (by simpa using hf)).1
    rw [hW, isRed_fork] at this
    cases this
  rw [hW] at hsib hfair
  obtain ⟨hred, hfa, hfb⟩ := fair_fork.mp hfair
  obtain ⟨k, ha, hb, hk⟩ := bal_fork.mp hsib
  have hk : k = n + 1 := by
    simp only [weight, if_true] at hk
    omega
  subst hk
  rw [hf] at hctx
  refine ⟨(hred rfl).1, h.fair, ⟨n, hn, ha, hb, hctx⟩, fun _ => ⟨(hred rfl).1, rfl⟩, hfa, ?_⟩
  exact ⟨fun hc => (by cases hc), hfb, hctxfair⟩

/-- The children of a black sibling are balanced and one lower than it. -/
theorem Sinking.nephews (hW : f.sib = fork f.side false w a b) :
    Fair a ∧ Fair b ∧ ∃ n, Bal T n ∧ Bal a n ∧ Bal b n ∧ CtxBal ctx (n + 1 + weight f.red) := by
  obtain ⟨n, hn, hsib, hctx⟩ := h.bal
  obtain ⟨-, hfair, -⟩ := h.above
  rw [hW] at hsib hfair
  obtain ⟨-, hfa, hfb⟩ := fair_fork.mp hfair
  obtain ⟨k, ha, hb, hk⟩ := bal_fork.mp hsib
  have hk : k = n := by
    simp only [weight, Bool.false_eq_true, if_false] at hk
    omega
  subst hk
  exact ⟨hfa, hfb, k, hn, ha, hb, hctx⟩

/-- **Black nephews**: the sibling becomes red, and the parent is the one that lacks a black
node. -/
theorem Sinking.pass (hT : isRed T = false) (hW : f.sib = fork f.side false w a b)
    (ha : isRed a = false) (hb : isRed b = false) :
    Sinking ctx (fork f.side f.red f.x T (fork f.side true w a b)) := by
  obtain ⟨hfa, hfb, n, hn, hna, hnb, hctx⟩ := h.nephews hW
  refine ⟨?_, ⟨n + weight f.red, ?_, ?_⟩, h.above.2.2⟩
  · rw [blacken_fork]
    exact fair_fork.mpr ⟨fun hc => (by cases hc), h.fair_of_black hT,
      fair_fork.mpr ⟨fun _ => ⟨ha, hb⟩, hfa, hfb⟩⟩
  · exact bal_fork.mpr ⟨n, hn, bal_fork.mpr ⟨n, hna, hnb, rfl⟩, rfl⟩
  · rw [Nat.add_right_comm]
    exact hctx

/-- A red near child. -/
theorem Sinking.blackFar (hW : f.sib = fork f.side false w (fork (!f.side) true y a e) b)
    (hb : isRed b = false) :
    Sinking (⟨f.side, f.red, f.x, fork f.side false y e (fork f.side true w a b)⟩ :: ctx) T := by
  obtain ⟨hfa, hfb, n, hn, hna, hnb, hctx⟩ := h.nephews hW
  obtain ⟨hred, hfa', hfe⟩ := fair_fork.mp hfa
  obtain ⟨k, ha, he, hk⟩ := bal_fork.mp hna
  have hk : k = n := by
    simp only [weight, if_true] at hk
    omega
  subst hk
  obtain ⟨hfred, -, hctxfair⟩ := h.above
  refine ⟨h.fair, ⟨k, hn, ?_, hctx⟩, fun hc => ⟨isRed_fork, (hfred hc).2⟩, ?_, hctxfair⟩
  · exact bal_fork.mpr ⟨k, he, bal_fork.mpr ⟨k, ha, hnb, rfl⟩, rfl⟩
  · exact fair_fork.mpr ⟨fun hc => (by cases hc), hfe,
      fair_fork.mpr ⟨fun _ => ⟨(hred rfl).1, hb⟩, hfa', hfb⟩⟩

/-- **A red nephew on the far side**: one rotation ends the loop. -/
theorem Sinking.last (hT : isRed T = false) (hW : f.sib = fork f.side false w a b)
    (hb : isRed b = true) :
    IsRb (plug ctx (fork f.side f.red w (fork f.side false f.x T a) (blacken b))) := by
  obtain ⟨hfa, hfb, n, hn, hna, hnb, hctx⟩ := h.nephews hW
  obtain ⟨hfred, -, hctxfair⟩ := h.above
  refine isRb_plug.mpr ⟨⟨n + 1 + weight f.red, ?_, hctx⟩, ?_, hctxfair, fun hc => ?_⟩
  · exact bal_fork.mpr ⟨n + 1, bal_fork.mpr ⟨n, hn, hna, rfl⟩, hnb.blacken hb, rfl⟩
  · exact fair_fork.mpr ⟨fun _ => ⟨isRed_fork, isRed_blacken b⟩,
      fair_fork.mpr ⟨fun hc => (by cases hc), h.fair_of_black hT, hfa⟩, hfb.blacken⟩
  · rw [isRed_fork] at hc
    exact (hfred hc).2

end

/-! ### The loop -/

/-- What a turn leads to: the lack is passed on, or it is made up for. -/
def Turned (t' : RbTree) (node : ℕ) (n : ℕ) (L : List ℕ) : Prop :=
  (∃ ctx T, t'.Below ctx T ∧ node = t'.ptr T ∧ T ≠ .nil ∧ Sinking ctx T ∧ toList (plug ctx T) = L ∧
      (ctx.length < n ∨ ctx.length = n ∧ isRed T = true)) ∨
    ∃ S, t'.At [] S ∧ S ≠ .nil ∧ IsRb S ∧ node = t'.root ∧ toList S = L

/-- **A turn with a black sibling.** -/
theorem blackSibling_spec (h : t.Below (f :: ctx) T) (hs : Sinking (f :: ctx) T)
    (hT : isRed T = false) (hW : isRed f.sib = false) :
    ∃ t' node, t.blackSibling f.side (t.ptr T) = (t', node) ∧
      ((∃ S, t'.Below ctx S ∧ node = t'.ptr S ∧ S ≠ .nil ∧ Sinking ctx S ∧ isRed S = f.red ∧
          toList (plug ctx S) = toList (plug (f :: ctx) T)) ∨
        ∃ S, t'.At [] S ∧ S ≠ .nil ∧ IsRb S ∧ node = t'.root ∧
          toList S = toList (plug (f :: ctx) T)) ∧
      t'.key = t.key ∧ t'.sentinel = t.sentinel := by
  obtain ⟨cw, w, a, b, hsib⟩ := exists_fork f.side hs.sib
  obtain rfl : cw = false := by rw [hsib, isRed_fork] at hW; exact hW
  obtain ⟨hp, hw, -⟩ := h.reads
  obtain ⟨hnear, hfar, hreda, hredb⟩ := h.nephews hsib
  rw [hsib, ptr_fork] at hw
  -- The test looks at the left child and at the right one.
  have htest : (!t.red (t.child false w) && !t.red (t.child true w)) =
      (!isRed a && !isRed b) := by
    rw [← hreda, ← hredb, ← hnear, ← hfar]
    cases f.side with
    | false => rfl
    | true => exact Bool.and_comm ..
  by_cases hblack : (!isRed a && !isRed b) = true
  · obtain ⟨ha, hb⟩ : isRed a = false ∧ isRed b = false := by simpa using hblack
    refine ⟨t.setRed w true, f.x, ?_, Or.inl ⟨fork f.side f.red f.x T (fork f.side true w a b), ?_,
      ptr_fork.symm, fork_ne_nil, hs.pass hT hsib ha hb, isRed_fork, ?_⟩, rfl, rfl⟩
    · simp [blackSibling, hp, hw, htest, hblack]
    · have h₁ := at_switch.mp h.toAt
      rw [hsib] at h₁
      have h₂ := at_switch.mp (h₁.setRed true)
      simp only [Bool.not_not] at h₂
      exact (at_cons.mp h₂).below fun hnil => absurd hnil fork_ne_nil
    · refine toList_plug_congr (toList_fork_congr rfl ?_)
      rw [hsib]
      exact toList_fork_congr rfl rfl
  · -- One of the children is red; a rotation makes it the far one.
    have hrun : t.blackSibling f.side (t.ptr T) =
        ((t.blackFar f.side (t.ptr T)).lastRotation f.side (t.ptr T),
          ((t.blackFar f.side (t.ptr T)).lastRotation f.side (t.ptr T)).root) := by
      simp [blackSibling, hp, hw, htest, hblack]
    refine ⟨_, _, hrun, ?_⟩
    by_cases hb : isRed b = true
    · rw [blackFar_red h hsib hb]
      obtain ⟨hat, hkey, hsent⟩ := lastRotation_spec h hsib hb
      refine ⟨Or.inr ⟨_, at_root.mp hat, plug_ne_nil fork_ne_nil, hs.last hT hsib hb, rfl, ?_⟩, hkey,
        hsent⟩
      refine toList_plug_congr ?_
      rw [hsib]
      cases f.side with
      | false => simp [fork, toList]
      | true => simp [fork, toList]
    · have hb : isRed b = false := by simpa using hb
      have ha : isRed a = true := by simpa [hb] using hblack
      have hane : a ≠ .nil := by
        rintro rfl
        cases ha
      obtain ⟨ca, y, a₁, a₂, rfl⟩ := exists_fork (!f.side) hane
      obtain rfl : ca = true := by rwa [isRed_fork] at ha
      obtain ⟨h₁, hkey₁, hsent₁⟩ := blackFar_spec h hsib hb
      obtain ⟨hat, hkey, hsent⟩ := lastRotation_spec h₁ rfl isRed_fork
      rw [ptr_congr hsent₁] at hat hkey hsent
      have hrb := (hs.blackFar hsib hb).last hT rfl isRed_fork
      refine ⟨Or.inr ⟨_, at_root.mp hat, plug_ne_nil fork_ne_nil, hrb, rfl, ?_⟩, hkey.trans hkey₁,
        hsent.trans hsent₁⟩
      refine toList_plug_congr ?_
      rw [hsib, blacken_fork]
      cases f.side with
      | false => simp [fork, toList]
      | true => simp [fork, toList]

/-- **A turn of the loop.** -/
theorem deleteStep_spec (h : t.Below (f :: ctx) T) (hs : Sinking (f :: ctx) T)
    (hT : isRed T = false) :
    ∃ t' node, deleteStep f.side t (t.ptr T) = (t', node) ∧
      t'.Turned node (f :: ctx).length (toList (plug (f :: ctx) T)) ∧ t'.key = t.key ∧
      t'.sentinel = t.sentinel := by
  by_cases hW : isRed f.sib = true
  · obtain ⟨cw, w, a, b, hsib⟩ := exists_fork f.side hs.sib
    obtain rfl : cw = true := by rw [hsib, isRed_fork] at hW; exact hW
    obtain ⟨h₁, hkey₁, hsent₁⟩ := redSibling_spec h hsib
    obtain ⟨ha, hs₁⟩ := hs.redSibling hsib
    obtain ⟨t', node, hrun, hturn, hkey, hsent⟩ := blackSibling_spec h₁ hs₁ hT ha
    rw [ptr_congr hsent₁] at hrun
    have hlist : toList (plug (⟨f.side, true, f.x, a⟩ :: ⟨f.side, false, w, b⟩ :: ctx) T) =
        toList (plug (f :: ctx) T) := by
      refine @toList_plug_congr _ _ ctx _ ?_
      rw [hsib]
      cases f.side with
      | false => simp [fork, toList]
      | true => simp [fork, toList]
    rw [hlist] at hturn
    refine ⟨t', node, hrun, ?_, hkey.trans hkey₁, hsent.trans hsent₁⟩
    rcases hturn with ⟨S, hbelow, hnode, hne, hsink, hred, hS⟩ | hdone
    · exact Or.inl ⟨_, S, hbelow, hnode, hne, hsink, hS, Or.inr ⟨rfl, hred⟩⟩
    · exact Or.inr hdone
  · have hW : isRed f.sib = false := by simpa using hW
    obtain ⟨t', node, hrun, hturn, hkey, hsent⟩ := blackSibling_spec h hs hT hW
    refine ⟨t', node, ?_, ?_, hkey, hsent⟩
    · rw [deleteStep, redSibling_black h hW, hrun]
    · rcases hturn with ⟨S, hbelow, hnode, hne, hsink, -, hS⟩ | hdone
      · exact Or.inl ⟨ctx, S, hbelow, hnode, hne, hsink, hS, Or.inl (Nat.lt_succ_self _)⟩
      · exact Or.inr hdone

/-- The root becomes black. -/
theorem At.blacken_root (h : t.At [] T) : (t.setRed t.root false).At [] (blacken T) := by
  have hroot : t.root = t.ptr T := h.above
  by_cases hT : T = .nil
  · subst hT
    rw [hroot, ptr_nil]
    have hsame : t.setRed t.sentinel false = t := by
      rw [RbTree.setRed]
      have : Function.update t.red t.sentinel false = t.red := by
        conv_lhs => rw [← h.black]
        exact Function.update_eq_self ..
      rw [this]
    rw [hsame]
    exact h
  · obtain ⟨c, x, a, b, rfl⟩ := exists_fork false hT
    rw [hroot, ptr_fork, blacken_fork]
    exact h.setRed false

/-- **The loop** comes to an end with a red-black tree. -/
theorem deleteFixup_spec : ∀ {fuel : ℕ} {t : RbTree} {ctx : List (RbFrame ℕ)} {T : RbShape ℕ},
    t.Below ctx T → Sinking ctx T → ctx.length + 1 < fuel →
    ∃ t' S, deleteFixup fuel t (t.ptr T) = some t' ∧ t'.At [] S ∧ IsRb S ∧
      toList S = toList (plug ctx T) ∧ t'.key = t.key ∧ t'.sentinel = t.sentinel := by
  -- A red node, or the root, becomes black, and the loop ends.
  have hstop : ∀ {fuel : ℕ} {t : RbTree} {ctx : List (RbFrame ℕ)} {T : RbShape ℕ},
      t.Below ctx T → Sinking ctx T → (isRed T = true ∨ ctx = []) →
      ∃ t' S, deleteFixup (fuel + 1) t (t.ptr T) = some t' ∧ t'.At [] S ∧ IsRb S ∧
        toList S = toList (plug ctx T) ∧ t'.key = t.key ∧ t'.sentinel = t.sentinel := by
    intro fuel t ctx T h hs hend
    have hcond : ¬ (t.ptr T ≠ t.root ∧ (!t.red (t.ptr T)) = true) := by
      rintro ⟨hne, hred⟩
      rcases hend with hT | rfl
      · rw [h.red_ptr, hT] at hred
        cases hred
      · have hroot : t.root = t.ptr T := h.above
        exact hne hroot.symm
    refine ⟨t.setRed (t.ptr T) false, plug ctx (blacken T), by rw [deleteFixup, if_neg hcond], ?_,
      hs.isRb hend, toList_plug_congr (toList_blacken T), rfl, rfl⟩
    refine at_root.mp ?_
    by_cases hnil : T = .nil
    · subst hnil
      rcases hend with hT | rfl
      · cases hT
      · have := h.toAt.blacken_root
        rwa [show t.root = t.ptr .nil from h.above] at this
    · obtain ⟨c, x, a, b, rfl⟩ := exists_fork false hnil
      rw [ptr_fork, blacken_fork]
      exact h.toAt.setRed false
  intro fuel
  induction fuel with
  | zero =>
    intro t ctx T _ _ hfuel
    omega
  | succ fuel ih =>
    intro t ctx T h hs hfuel
    by_cases hend : isRed T = true ∨ ctx = []
    · exact hstop h hs hend
    · obtain ⟨hT, hctx⟩ := not_or.mp hend
      have hT : isRed T = false := by simpa using hT
      cases ctx with
      | nil => exact absurd rfl hctx
      | cons f ctx =>
        -- The parent of the place and the side are found.
        have hp : t.parent (t.ptr T) = f.x := h.known
        have hside := h.side (Or.inr hs.sib)
        have hne : t.ptr T ≠ t.root := by
          intro heq
          have hroot := h.above.root_mem
          rw [← heq] at hroot
          by_cases hnil : T = .nil
          · subst hnil
            exact h.fresh (mem_append_right _ hroot)
          · exact h.ptr_notMem hnil hroot
        obtain ⟨t₁, node, hstep, hturn, hkey, hsent⟩ := deleteStep_spec h hs hT
        have hrun : deleteFixup (fuel + 1) t (t.ptr T) = deleteFixup fuel t₁ node := by
          rw [deleteFixup, if_pos ⟨hne, by rw [h.red_ptr, hT]; rfl⟩]
          simp only [hp, hside, hstep]
        rw [hrun]
        rw [length_cons] at hfuel
        rcases hturn with ⟨ctx', T', hbelow, rfl, -, hsink, hlist, hlen⟩ | ⟨S, hat, hSne, hrb,
          rfl, hlist⟩
        · have hnext : ∃ t' S, deleteFixup fuel t₁ (t₁.ptr T') = some t' ∧ t'.At [] S ∧ IsRb S ∧
              toList S = toList (plug ctx' T') ∧ t'.key = t₁.key ∧
              t'.sentinel = t₁.sentinel := by
            rcases hlen with hlen | ⟨-, hred⟩
            · exact ih hbelow hsink (by rw [length_cons] at hlen; omega)
            · obtain ⟨k, rfl⟩ : ∃ k, fuel = k + 1 := ⟨fuel - 1, by omega⟩
              exact hstop hbelow hsink (Or.inl hred)
          obtain ⟨t', S, hfix, hat, hrb, hS, hkey', hsent'⟩ := hnext
          exact ⟨t', S, hfix, hat, hrb, hS.trans hlist, hkey'.trans hkey, hsent'.trans hsent⟩
        · obtain ⟨k, rfl⟩ : ∃ k, fuel = k + 1 := ⟨fuel - 1, by omega⟩
          refine ⟨t₁.setRed t₁.root false, S, ?_, ?_, hrb, hlist, hkey, hsent⟩
          · rw [deleteFixup, if_neg (by simp)]
          · have := hat.blacken_root
            rwa [blacken_of_isRed hrb.2.2] at this

/-! ### Taking a node out -/

/-- **The smallest node** of a tree is reached over left children only. -/
theorem min_spec : ∀ {fuel : ℕ} {T : RbShape ℕ} {ctx : List (RbFrame ℕ)}, T ≠ .nil →
    (toList T).length < fuel → t.At ctx T →
    ∃ ctx' c s r, T = plug ctx' (.node c .nil s r) ∧ (∀ f ∈ ctx', f.side = false) ∧
      t.min fuel (t.ptr T) = some s := by
  intro fuel
  induction fuel with
  | zero =>
    intro T ctx _ hfuel
    omega
  | succ fuel ih =>
    intro T ctx hT hfuel h
    cases T with
    | nil => exact absurd rfl hT
    | node c l x r =>
      have hleft : t.child false x = t.ptr l := h.links.2.1
      have hptr : t.ptr (.node c l x r) = x := rfl
      rw [RbTree.min, hptr, hleft]
      by_cases hl : l = .nil
      · subst hl
        exact ⟨[], c, x, r, rfl, by simp, by simp⟩
      · have hdown : t.At (⟨false, c, x, r⟩ :: ctx) l := at_cons.mpr h
        have hlen : (toList l).length < fuel := by
          rw [toList, length_append, length_cons] at hfuel
          omega
        obtain ⟨ctx', c', s, r', rfl, hside, hmin⟩ := ih hl hlen hdown
        refine ⟨ctx' ++ [⟨false, c, x, r⟩], c', s, r', by rw [plug_append]; rfl, ?_, ?_⟩
        · intro f hf
          rcases mem_append.mp hf with hf | hf
          · exact hside f hf
          · rw [mem_singleton.mp hf]
        · rw [if_pos (hdown.ptr_ne_sentinel hl)]
          exact hmin

/-- **A node with one child at most** is replaced by the child. -/
theorem unhook_spec {cs e : Bool} (h : t.At (f :: ctx) (fork e cs s .nil U)) :
    ((t.hook false s (t.ptr U)).setParent (t.ptr U) (t.parent s)).Below (f :: ctx) U := by
  have hnd := h.fork_nodup
  simp only [toList, nil_append, nodup_cons, mem_append, not_or,
    nodup_append] at hnd
  obtain ⟨⟨hsU, hsctx⟩, hndU, hndc, hdis⟩ := hnd
  have hmem : ∀ z, z ∈ toList U ++ ctxList (f :: ctx) → z ≠ t.sentinel := by
    rintro z hz rfl
    refine h.fresh ?_
    rcases mem_append.mp hz with hz | hz
    · exact mem_append_left _ (mem_toList_fork.mpr (Or.inr (Or.inr hz)))
    · exact mem_append_right _ hz
  obtain ⟨-, -, -, -, -, -, hlU⟩ := links_fork.mp h.links
  have habove := h.above
  have hup := h.up fork_ne_nil
  rw [ptr_fork] at habove hup
  have hne : s ≠ t.root := fun heq => hsctx (heq ▸ habove.root_mem)
  have hss := h.x_ne_sentinel
  have hnotU : ∀ z ∈ ctxList (f :: ctx), z ≠ t.ptr U := by
    intro z hz
    refine (ptr_ne (Ne.symm (hmem z (mem_append_right _ hz))) fun hzU => ?_).symm
    exact hdis z hzU z hz rfl
  obtain ⟨t₁, ht₁⟩ : ∃ t₁, t₁ = (t.hook false s (t.ptr U)).setParent (t.ptr U) (t.parent s) :=
    ⟨_, rfl⟩
  have hsent : t₁.sentinel = t.sentinel := by rw [ht₁, sentinel_setParent, sentinel_hook]
  have hred : t₁.red = t.red := by rw [ht₁, red_setParent, red_hook]
  have hchild : ∀ e z, t₁.child e z =
      if s ≠ t.root ∧ z = t.parent s ∧ e = t.hookSide false s then t.ptr U else t.child e z := by
    intro e z
    rw [ht₁, child_setParent, child_hook]
  have hparent : ∀ z, z ≠ t.ptr U → t₁.parent z = t.parent z := by
    intro z hz
    rw [ht₁, parent_setParent, if_neg hz, parent_hook]
  have hown : t₁.parent (t₁.ptr U) = f.x := by
    rw [ptr_congr hsent, ht₁, parent_setParent, if_pos rfl]
    exact hup
  rw [← ht₁]
  have hat : t₁.At (f :: ctx) U := by
    refine ⟨?_, ?_, fun _ => hown, nodup_append.mpr ⟨hndU, hndc, hdis⟩, fun hz => ?_, ?_⟩
    · rw [ptr_congr hsent]
      refine habove.hooked hup hsctx hss hndc hsent ?_ (fun z _ e => hchild e z)
        (fun z _ => by rw [hred]) fun z hz => hparent z (hnotU z hz)
      rw [ht₁, root_setParent, root_hook]
    · refine hlU.same hsent hndU (fun z hz e => ?_) (fun z _ => by rw [hred]) fun z _ hzU =>
        hparent z hzU
      rw [hchild, if_neg]
      rintro ⟨-, rfl, -⟩
      exact hdis _ hz _ (parent_mem habove hup hne) rfl
    · exact hmem _ hz hsent
    · rw [hsent, hred, h.black]
  exact ⟨hat, hown⟩

@[simp] theorem child_clear (t : RbTree) (x z : ℕ) (e : Bool) (hz : z ≠ x) :
    (t.clear x).child e z = t.child e z := by
  simp [clear, child_setChild, hz]

theorem parent_clear (t : RbTree) (x z : ℕ) (hz : z ≠ x) : (t.clear x).parent z = t.parent z := by
  simp [clear, parent_setParent, hz]

/-- A node outside the tree is cleared. -/
theorem At.clear (h : t.At ctx T) (hx : x ∉ toList T ++ ctxList ctx) : (t.clear x).At ctx T := by
  have hT : ∀ z ∈ toList T, z ≠ x := fun z hz heq => hx (heq ▸ mem_append_left _ hz)
  have hctx : ∀ z ∈ ctxList ctx, z ≠ x := fun z hz heq => hx (heq ▸ mem_append_right _ hz)
  obtain ⟨hndT, hndc, -⟩ := nodup_append.mp h.nodup
  refine ⟨?_, ?_, fun hne => ?_, h.nodup, h.fresh, h.black⟩
  · exact h.above.same rfl rfl hndc (fun z hz e => child_clear t x z e (hctx z hz))
      (fun _ _ => rfl) fun z hz => parent_clear t x z (hctx z hz)
  · exact h.links.same rfl hndT (fun z hz e => child_clear t x z e (hT z hz)) (fun _ _ => rfl)
      fun z hz _ => parent_clear t x z (hT z hz)
  · have hup := h.up hne
    cases ctx with
    | nil => trivial
    | cons g ctx => exact (parent_clear t x _ (hT _ (ptr_mem hne))).trans hup

/-- Clearing a node that is no longer there concerns no subtree. -/
theorem Below.clear (h : t.Below ctx T) (hx : x ∉ toList T ++ ctxList ctx)
    (hxs : x ≠ t.sentinel) : (t.clear x).Below ctx T := by
  refine (h.toAt.clear hx).below fun hT => ?_
  subst hT
  have hknown := h.known
  cases ctx with
  | nil => trivial
  | cons g ctx => exact (parent_clear t x _ (Ne.symm hxs)).trans hknown

/-- The fields after `s` has taken the place of `x`. -/
structure Replaced (t : RbTree) (x s : ℕ) (t' : RbTree) : Prop where
  root : t'.root = if x = t.root then s else t.root
  child : ∀ e z, t'.child e z =
    if x ≠ t.root ∧ z = t.parent x ∧ e = t.hookSide false x then s
    else if z = s then t.child e x
    else t.child e z
  parent : ∀ z, t'.parent z =
    if z = t.child true x ∧ z ≠ t.sentinel then s
    else if z = t.child false x ∧ z ≠ t.sentinel then s
    else if z = s then t.parent x
    else t.parent z
  red : ∀ z, t'.red z = if z = s then t.red x else t.red z
  key : t'.key = t.key
  sentinel : t'.sentinel = t.sentinel

/-- What a replacement does, assignment by assignment. -/
theorem replaced (hxs : x ≠ s) (hp : x ≠ t.root → s ≠ t.parent x) :
    Replaced t x s (t.replace x s) := by
  obtain ⟨t₁, ht₁⟩ : ∃ t₁, t₁ = (((t.setChild false s (t.child false x)).setChild true s
      (t.child true x)).setParent s (t.parent x)).setRed s (t.red x) := ⟨_, rfl⟩
  have hchild₁ : ∀ e z, t₁.child e z = if z = s then t.child e x else t.child e z := by
    intro e z
    rw [ht₁, child_setRed, child_setParent, child_setChild, child_setChild]
    by_cases hz : z = s
    · subst hz
      cases e <;> simp
    · simp [hz]
  have hparent₁ : ∀ z, t₁.parent z = if z = s then t.parent x else t.parent z := by
    intro z
    rw [ht₁, parent_setRed, parent_setParent]
    rfl
  have hroot₁ : t₁.root = t.root := by
    rw [ht₁, root_setRed, root_setParent, root_setChild, root_setChild]
  have hsent₁ : t₁.sentinel = t.sentinel := by
    rw [ht₁, sentinel_setRed, sentinel_setParent, sentinel_setChild, sentinel_setChild]
  have hpx : t₁.parent x = t.parent x := by rw [hparent₁, if_neg hxs]
  -- The parent is not `s`, so the test for the side has the same result.
  have hhook : ∀ e z, (t₁.hook false x s).child e z =
      if x ≠ t.root ∧ z = t.parent x ∧ e = t.hookSide false x then s
      else if z = s then t.child e x
      else t.child e z := by
    intro e z
    rw [child_hook, hroot₁, hpx, hchild₁]
    by_cases hx : x = t.root
    · simp [hx]
    · have hside : t₁.hookSide false x = t.hookSide false x := by
        rw [hookSide, hookSide, hpx, hchild₁, if_neg (Ne.symm (hp hx))]
      rw [hside]
  have hown : ∀ e, (t₁.hook false x s).child e s = t.child e x := by
    intro e
    rw [hhook, if_neg fun hc => hp hc.1 hc.2.1, if_pos rfl]
  have hrun : t.replace x s =
      ((t₁.hook false x s).adopt (t.child false x) s).adopt (t.child true x) s := by
    have hstart : (((t.setChild false s (t.child false x)).setChild true s
        ((t.setChild false s (t.child false x)).child true x)).setParent s (t.parent x)).setRed s
        (t.red x) = t₁ := by
      rw [ht₁, child_setChild, if_neg (by simp)]
    rw [← hown false, ← hown true]
    simp [RbTree.replace, hstart]
  refine ⟨?_, fun e z => ?_, fun z => ?_, fun z => ?_, ?_, ?_⟩
  · rw [hrun, root_adopt, root_adopt, root_hook, hroot₁]
  · rw [hrun, child_adopt, child_adopt, hhook]
  · rw [hrun, parent_adopt, parent_adopt, parent_hook, sentinel_adopt, sentinel_hook, hsent₁,
      hparent₁]
  · rw [hrun, red_adopt, red_adopt, red_hook, ht₁, red_setRed]
    rfl
  · rw [hrun, ht₁]
    simp
  · rw [hrun, sentinel_adopt, sentinel_adopt, sentinel_hook, hsent₁]

/-- **A replacement**: `s` takes the place of `x`, with both its subtrees. -/
theorem replace_spec (habove : t.CtxLinks ctx x) (hup : t.Up ctx x) (hred : t.red x = c)
    (hl : t.child false x = t.ptr l) (hr : t.child true x = t.ptr r) (hLl : t.Links l)
    (hLr : t.Links r) (hnd : (x :: s :: (toList l ++ (toList r ++ ctxList ctx))).Nodup)
    (hfresh : t.sentinel ∉ x :: s :: (toList l ++ (toList r ++ ctxList ctx)))
    (hblack : t.red t.sentinel = false) :
    (t.replace x s).At ctx (.node c l s r) ∧
      (t.replace x s).parent t.sentinel = t.parent t.sentinel ∧
      (t.replace x s).key = t.key ∧ (t.replace x s).sentinel = t.sentinel := by
  simp only [nodup_cons, mem_cons, mem_append, not_or, nodup_append] at hnd
  simp only [mem_cons, mem_append, not_or] at hfresh
  obtain ⟨⟨hxs, hxl, hxr, hxc⟩, ⟨hsl, hsr, hsc⟩, hndl, ⟨hndr, hndc, hrc⟩, hlrc⟩ := hnd
  obtain ⟨hnx, hns, hnl, hnr, hnc⟩ := hfresh
  have hp : x ≠ t.root → s ≠ t.parent x := fun hne heq =>
    hsc (heq ▸ parent_mem habove hup hne)
  have hR := replaced hxs hp
  have hptr : ∀ S, (t.replace x s).ptr S = t.ptr S := ptr_congr hR.sentinel
  have hkeep : ∀ z, z ≠ s → z ∉ ctxList ctx → ∀ e, (t.replace x s).child e z = t.child e z := by
    intro z hzs hz e
    have hno : ¬ (x ≠ t.root ∧ z = t.parent x ∧ e = t.hookSide false x) := fun hc =>
      hz (hc.2.1 ▸ parent_mem habove hup hc.1)
    rw [hR.child, if_neg hno, if_neg hzs]
  have hkeepp : ∀ z, z ≠ s → z ≠ t.ptr l → z ≠ t.ptr r →
      (t.replace x s).parent z = t.parent z := by
    intro z hzs hzl hzr
    rw [hR.parent, if_neg fun hc => hzr (hc.1.trans hr), if_neg fun hc => hzl (hc.1.trans hl),
      if_neg hzs]
  have hkeepr : ∀ z, z ≠ s → (t.replace x s).red z = t.red z := by
    intro z hz
    rw [hR.red, if_neg hz]
  have hown : ∀ e, (t.replace x s).child e s = t.child e x := by
    intro e
    rw [hR.child, if_neg fun hc => hp hc.1 hc.2.1, if_pos rfl]
  have hneS : ∀ {S : RbShape ℕ} {z : ℕ}, z ∉ toList S → t.sentinel ≠ z → z ≠ t.ptr S :=
    fun hz hn => (ptr_ne hn hz).symm
  refine ⟨⟨?_, ⟨?_, ?_, ?_, fun hne => ?_, fun hne => ?_, ?_, ?_⟩, fun _ => ?_, ?_, ?_, ?_⟩, ?_,
    hR.key, hR.sentinel⟩
  · refine habove.hooked hup hxc (Ne.symm hnx) hndc hR.sentinel hR.root (d := false)
      (fun z hz e => ?_) (fun z hz => hkeepr z fun heq => hsc (heq ▸ hz)) fun z hz => ?_
    · have hzs : z ≠ s := fun heq => hsc (heq ▸ hz)
      rw [hR.child, if_neg hzs]
      rfl
    · have hn : t.sentinel ≠ z := fun heq => hnc (heq ▸ hz)
      refine hkeepp z (fun heq => hsc (heq ▸ hz)) (hneS (fun hzl => ?_) hn) (hneS (fun hzr => ?_) hn)
      · exact hlrc z hzl z (Or.inr hz) rfl
      · exact hrc z hzr z hz rfl
  · rw [hR.red, if_pos rfl, hred]
  · rw [hown, hl, hptr]
  · rw [hown, hr, hptr]
  · have hmem := ptr_mem (t := t) hne
    have hn : t.ptr l ≠ t.sentinel := fun heq => hnl (heq ▸ hmem)
    have hnr' : t.ptr l ≠ t.ptr r :=
      hneS (fun hzr => hlrc _ hmem _ (Or.inl hzr) rfl) (Ne.symm hn)
    rw [hptr, hR.parent, hr, hl, if_neg fun hc => hnr' hc.1, if_pos ⟨rfl, hn⟩]
  · have hmem := ptr_mem (t := t) hne
    have hn : t.ptr r ≠ t.sentinel := fun heq => hnr (heq ▸ hmem)
    rw [hptr, hR.parent, hr, if_pos ⟨rfl, hn⟩]
  · refine hLl.same hR.sentinel hndl (fun z hz e => ?_)
      (fun z hz => hkeepr z fun heq => hsl (heq ▸ hz)) fun z hz hzl => ?_
    · exact hkeep z (fun heq => hsl (heq ▸ hz)) (fun hc => hlrc z hz z (Or.inr hc) rfl) e
    · refine hkeepp z (fun heq => hsl (heq ▸ hz)) hzl (hneS (fun hzr => ?_) fun heq => ?_)
      · exact hlrc z hz z (Or.inl hzr) rfl
      · exact hnl (heq ▸ hz)
  · refine hLr.same hR.sentinel hndr (fun z hz e => ?_)
      (fun z hz => hkeepr z fun heq => hsr (heq ▸ hz)) fun z hz hzr => ?_
    · exact hkeep z (fun heq => hsr (heq ▸ hz)) (fun hc => hrc z hz z hc rfl) e
    · refine hkeepp z (fun heq => hsr (heq ▸ hz)) (hneS (fun hzl => ?_) fun heq => ?_) hzr
      · exact hlrc z hzl z (Or.inl hz) rfl
      · exact hnr (heq ▸ hz)
  · cases ctx with
    | nil => trivial
    | cons g ctx =>
      refine show (t.replace x s).parent s = g.x from ?_
      have hsl' : s ≠ t.ptr l := hneS hsl hns
      have hsr' : s ≠ t.ptr r := hneS hsr hns
      rw [hR.parent, hr, hl, if_neg fun hc => hsr' hc.1, if_neg fun hc => hsl' hc.1, if_pos rfl]
      exact hup
  · rw [toList, append_assoc, cons_append, perm_middle.nodup_iff, nodup_cons]
    refine ⟨by simp [hsl, hsr, hsc], ?_⟩
    simp only [nodup_append, mem_append]
    exact ⟨hndl, ⟨hndr, hndc, hrc⟩, hlrc⟩
  · rw [hR.sentinel]
    simp [toList, hns, hnl, hnr, hnc]
  · rw [hR.sentinel, hkeepr _ hns, hblack]
  · rw [hR.parent, if_neg fun hc => hc.2 rfl, if_neg fun hc => hc.2 rfl, if_neg hns]

theorem isRb_relabel : IsRb (plug ctx (.node c l x r)) ↔ IsRb (plug ctx (.node c l y r)) := by
  rw [isRb_plug, isRb_plug]
  exact Iff.rfl

/-- A red node with one subtree only may be spliced out. -/
theorem isRb_splice {e : Bool} (h : IsRb (plug ctx (fork e true x .nil U))) :
    IsRb (plug ctx U) := by
  obtain ⟨⟨n, hn, hctx⟩, hfair, hctxfair, -⟩ := isRb_plug.mp h
  obtain ⟨k, -, hU, rfl⟩ := bal_fork.mp hn
  obtain ⟨hred, -, hfU⟩ := fair_fork.mp hfair
  refine isRb_plug.mpr ⟨⟨_, hU, hctx⟩, hfU, hctxfair, fun hc => ?_⟩
  rw [(hred rfl).2] at hc
  cases hc

/-- Splicing out a black node leaves its side one black node short. -/
theorem sinking_splice {e : Bool} (h : IsRb (plug ctx (fork e false x .nil U))) :
    Sinking ctx U := by
  obtain ⟨⟨n, hn, hctx⟩, hfair, hctxfair, -⟩ := isRb_plug.mp h
  obtain ⟨k, -, hU, rfl⟩ := bal_fork.mp hn
  exact ⟨(fair_fork.mp hfair).2.2.blacken, ⟨k, hU, hctx⟩, hctxfair⟩

/-- **The end of a deletion**: if the node that left its place was black, the loop runs. -/
theorem finish_spec {e : Bool} (h : t.Below ctx U) (hrb : IsRb (plug ctx (fork e c x .nil U)))
    (hfuel : ctx.length + 1 < fuel) :
    ∃ t' S, (if c then some t else deleteFixup fuel t (t.ptr U)) = some t' ∧ t'.At [] S ∧ IsRb S ∧
      toList S = toList (plug ctx U) ∧ t'.key = t.key ∧ t'.sentinel = t.sentinel := by
  cases c with
  | true => exact ⟨t, plug ctx U, rfl, at_root.mp h.toAt, isRb_splice hrb, rfl, rfl, rfl⟩
  | false => exact deleteFixup_spec h (sinking_splice hrb) hfuel

/-- `ngx_rbtree_delete` behind the choice of the node that is spliced out. -/
theorem delete_eq {fuel temp : ℕ} (h : t.substOf fuel x = some (s, temp)) :
    t.delete fuel x =
      if s = t.root then some (((t.setRoot temp).setRed temp false).clear x)
      else
        let t' := (if s = x then (t.hook false s temp).setParent temp (t.parent s)
          else ((t.hook false s temp).setParent temp (if t.parent s = x then s else t.parent s)).replace
            x s).clear x
        if t.red s then some t' else deleteFixup fuel t' temp := by
  simp only [delete, h, Option.bind_eq_bind, Option.bind_some]

@[simp] theorem sentinel_clear : (t.clear x).sentinel = t.sentinel := rfl

@[simp] theorem key_clear : (t.clear x).key = Function.update t.key x 0 := rfl

/-- **A node with one child at most** is deleted. -/
theorem delete_single {e : Bool} (h : t.At ctx (fork e c x .nil U))
    (hrb : IsRb (plug ctx (fork e c x .nil U))) (hsub : t.substOf fuel x = some (x, t.ptr U))
    (hfuel : ctx.length + 1 < fuel) :
    ∃ t' S, t.delete fuel x = some t' ∧ t'.At [] S ∧ IsRb S ∧ toList S = toList (plug ctx U) ∧
      t'.key = Function.update t.key x 0 ∧ t'.sentinel = t.sentinel := by
  have hnd := h.fork_nodup
  simp only [toList, nil_append, nodup_cons] at hnd
  have hroot := h.eq_root fork_ne_nil
  rw [ptr_fork] at hroot
  cases ctx with
  | nil =>
    -- The root itself: its child becomes the root, and black.
    have hred : c = false := by
      have := hrb.2.2
      rwa [plug, isRed_fork] at this
    subst hred
    have hU : (t.setRoot (t.ptr U)).At [] U := by
      obtain ⟨-, -, -, -, -, -, hlU⟩ := links_fork.mp h.links
      refine ⟨rfl, ?_, fun _ => trivial, ?_, fun hc => ?_, h.black⟩
      · refine hlU.same rfl ?_ (fun _ _ _ => rfl) (fun _ _ => rfl) fun _ _ _ => rfl
        exact (nodup_append.mp hnd.2).1
      · exact hnd.2
      · refine h.fresh (mem_append_left _ (mem_toList_fork.mpr (Or.inr (Or.inr ?_))))
        simpa [ctxList] using hc
    have hblack := hU.blacken_root
    rw [root_setRoot] at hblack
    refine ⟨_, blacken U, by rw [delete_eq hsub, if_pos (hroot.mpr rfl)], ?_, ?_, ?_, ?_, ?_⟩
    · refine hblack.clear ?_
      rw [toList_blacken]
      exact hnd.1
    · exact (sinking_splice hrb).isRb (Or.inr rfl)
    · exact toList_blacken U
    · rfl
    · rfl
  | cons f ctx =>
    have hne : x ≠ t.root := fun heq => by cases hroot.mp heq
    have hbelow := (unhook_spec h).clear hnd.1 (by
      rw [sentinel_setParent, sentinel_hook]
      exact h.x_ne_sentinel)
    have hred : t.red x = c := by
      have := h.red_ptr
      rwa [ptr_fork, isRed_fork] at this
    obtain ⟨t', S, hrun, hat, hS, hlist, hkey, hsent⟩ := finish_spec hbelow hrb hfuel
    have hptr : (((t.hook false x (t.ptr U)).setParent (t.ptr U) (t.parent x)).clear x).ptr U =
        t.ptr U := ptr_congr (by simp) U
    rw [hptr] at hrun
    refine ⟨t', S, ?_, hat, hS, hlist, ?_, ?_⟩
    · rw [delete_eq hsub, if_neg hne, if_pos rfl, hred]
      exact hrun
    · rw [hkey, key_clear, key_setParent, key_hook]
    · rw [hsent, sentinel_clear, sentinel_setParent, sentinel_hook]

/-- The parent of a node outside the tree does not matter, nor does that of the root of `r`. -/
theorem At.reparent (h : t.At ctx (.node c l x r)) :
    (t.setParent (t.ptr r) y).CtxLinks ctx x ∧ (t.setParent (t.ptr r) y).Up ctx x ∧
      (t.setParent (t.ptr r) y).Links l ∧ (t.setParent (t.ptr r) y).Links r := by
  obtain ⟨-, -, -, -, -, hLl, hLr⟩ := h.links
  have hnd : (x :: (toList l ++ (toList r ++ ctxList ctx))).Nodup :=
    At.fork_nodup (d := false) h
  simp only [nodup_cons, mem_append, not_or, nodup_append] at hnd
  obtain ⟨⟨hxl, hxr, hxc⟩, hndl, ⟨hndr, hndc, hrc⟩, hlrc⟩ := hnd
  have hfresh := h.fresh
  simp only [toList, mem_append, mem_cons, not_or] at hfresh
  obtain ⟨⟨hsl, hsx, hsr⟩, hsc⟩ := hfresh
  have hkeep : ∀ z, z ≠ t.ptr r → (t.setParent (t.ptr r) y).parent z = t.parent z := by
    intro z hz
    rw [parent_setParent, if_neg hz]
  have hx : x ≠ t.ptr r := (ptr_ne hsx hxr).symm
  refine ⟨?_, ?_, ?_, ?_⟩
  · refine CtxLinks.same h.above rfl rfl hndc (fun _ _ _ => rfl) (fun _ _ => rfl) fun z hz => ?_
    refine hkeep z (ptr_ne (fun heq => hsc (heq ▸ hz)) fun hzr => ?_).symm
    exact hrc z hzr z hz rfl
  · have hup := h.up (fun hc => by cases hc)
    cases ctx with
    | nil => trivial
    | cons g ctx => exact (hkeep x hx).trans hup
  · refine hLl.same rfl hndl (fun _ _ _ => rfl) (fun _ _ => rfl) fun z hz _ => ?_
    refine hkeep z (ptr_ne (fun heq => hsl (heq ▸ hz)) fun hzr => ?_).symm
    exact hlrc z hz z (Or.inl hzr) rfl
  · exact hLr.same rfl hndr (fun _ _ _ => rfl) (fun _ _ => rfl) fun z _ hz => hkeep z hz

/-- The nodes when `s` is about to leave its place below `x`. -/
theorem subst_perm {cs : Bool} (ctxr ctx : List (RbFrame ℕ)) :
    (toList (.node cs .nil s U) ++ ctxList (ctxr ++ ⟨true, c, x, l⟩ :: ctx)).Perm
      (x :: s :: (toList l ++ (toList (plug ctxr U) ++ ctxList ctx))) := by
  have hs : (toList (plug ctxr (.node cs .nil s U))).Perm (s :: toList (plug ctxr U)) :=
    (toList_plug_perm ..).trans (List.Perm.cons s (toList_plug_perm ctxr U).symm)
  refine (toList_plug_perm ..).symm.trans ?_
  rw [plug_append, plug]
  refine (toList_plug_perm ..).trans ?_
  refine (toList_fork_perm.append_right _).trans ?_
  rw [cons_append, append_assoc]
  refine List.Perm.cons x ((hs.append_right _).trans ?_)
  rw [cons_append]
  refine List.Perm.cons s ?_
  rw [← append_assoc, ← append_assoc]
  exact perm_append_comm.append_right _

/-- **The next node takes the place of `x`**, after it has left its own. -/
theorem subst_spec {cs : Bool} {ctxr : List (RbFrame ℕ)}
    (h : t.At (ctxr ++ ⟨true, c, x, l⟩ :: ctx) (.node cs .nil s U)) :
    (((t.hook false s (t.ptr U)).setParent (t.ptr U)
        (if t.parent s = x then s else t.parent s)).replace x s).Below
      (ctxr ++ ⟨true, c, s, l⟩ :: ctx) U := by
  have hnd := h.nodup
  have hfresh := h.fresh
  rw [(subst_perm ctxr ctx).nodup_iff] at hnd
  rw [(subst_perm ctxr ctx).mem_iff] at hfresh
  cases ctxr with
  | nil =>
    -- The node is the right child of `x`, and remains the parent of its own child.
    have hup : t.parent s = x := h.up (fun hc => by cases hc)
    have hu := unhook_spec (e := false) h
    rw [hup] at hu
    rw [if_pos hup]
    obtain ⟨u, hudef⟩ : ∃ u, u = (t.hook false s (t.ptr U)).setParent (t.ptr U) x := ⟨_, rfl⟩
    rw [← hudef] at hu
    have hsent : u.sentinel = t.sentinel := by rw [hudef, sentinel_setParent, sentinel_hook]
    have hagain : (t.hook false s (t.ptr U)).setParent (t.ptr U) s = u.setParent (u.ptr U) s := by
      rw [ptr_congr hsent, hudef, RbTree.setParent, RbTree.setParent, RbTree.setParent]
      simp
    have hat : u.At ctx (.node c l x U) := at_cons.mp hu.toAt
    obtain ⟨hred, hl, hr, -⟩ := hat.links
    obtain ⟨habove, hupx, hLl, hLr⟩ := hat.reparent (y := s)
    rw [hagain]
    obtain ⟨hnew, hparent, -, hsent'⟩ := replace_spec habove hupx hred hl hr hLl hLr hnd
      (by rw [sentinel_setParent, hsent]; exact hfresh) hat.black
    refine (at_cons (f := ⟨true, c, s, l⟩)).mpr hnew |>.below fun hU => ?_
    subst hU
    refine show ((u.setParent u.sentinel s).replace x s).parent
      ((u.setParent u.sentinel s).replace x s).sentinel = s from ?_
    rw [ptr_nil] at hsent' hparent
    rw [hsent', hparent, sentinel_setParent, parent_setParent, if_pos rfl]
  | cons f ctxr =>
    have hup : t.parent s = f.x := h.up (fun hc => by cases hc)
    have hne : f.x ≠ x := by
      rintro rfl
      have hmem : f.x ∈ toList (plug (f :: ctxr) U) := by
        rw [(toList_plug_perm ..).mem_iff]
        simp [ctxList]
      simp [hmem] at hnd
    rw [if_neg (by rw [hup]; exact hne)]
    have hu := unhook_spec (e := false) h
    obtain ⟨u, hudef⟩ : ∃ u, u = (t.hook false s (t.ptr U)).setParent (t.ptr U) (t.parent s) :=
      ⟨_, rfl⟩
    rw [← hudef] at hu ⊢
    have hsent : u.sentinel = t.sentinel := by rw [hudef, sentinel_setParent, sentinel_hook]
    have hjoin : u.At (⟨true, c, x, l⟩ :: ctx) (plug (f :: ctxr) U) := at_append.mp hu.toAt
    have hat : u.At ctx (.node c l x (plug (f :: ctxr) U)) := at_cons.mp hjoin
    obtain ⟨hred, hl, hr, -, -, hLl, hLr⟩ := hat.links
    have habove : u.CtxLinks ctx x := hat.above
    obtain ⟨hnew, hparent, -, hsent'⟩ := replace_spec habove (hat.up (fun hc => by cases hc))
      hred hl hr hLl hLr hnd (by rw [hsent]; exact hfresh) hat.black
    have hdown := (at_cons (f := ⟨true, c, s, l⟩)).mpr hnew
    refine (at_append.mpr hdown).below fun hU => ?_
    subst hU
    refine show (u.replace x s).parent (u.replace x s).sentinel = f.x from ?_
    rw [hsent', hparent]
    exact hu.known

@[simp] theorem key_replace : (t.replace x s).key = t.key := by
  simp [RbTree.replace]

@[simp] theorem sentinel_replace : (t.replace x s).sentinel = t.sentinel := by
  simp [RbTree.replace]

theorem before_left (h : ∀ f ∈ ctx, f.side = false) : before ctx = [] := by
  induction ctx with
  | nil => rfl
  | cons f ctx ih =>
    rw [before, ih fun g hg => h g (mem_cons_of_mem _ hg), h f (mem_cons_self ..)]
    rfl

/-- **A node with two children** is deleted. -/
theorem delete_double (h : t.At ctx (.node c l x r)) (hrb : IsRb (plug ctx (.node c l x r)))
    (hl : l ≠ .nil) (hr : r ≠ .nil)
    (hfuel : (toList (plug ctx (.node c l x r))).length + 1 < fuel) :
    ∃ t' S, t.delete fuel x = some t' ∧ t'.At [] S ∧ IsRb S ∧
      toList S = before ctx ++ (toList l ++ toList r) ++ after ctx ∧
      t'.key = Function.update t.key x 0 ∧ t'.sentinel = t.sentinel := by
  have hlen : (toList (plug ctx (.node c l x r))).length =
      (toList l).length + ((toList r).length + 1) + (ctxList ctx).length := by
    rw [(toList_plug_perm ..).length_eq, toList, length_append, length_append,
      length_cons]
  rw [hlen] at hfuel
  have hright : t.At (⟨true, c, x, l⟩ :: ctx) r := at_cons.mpr h
  obtain ⟨ctxr, cs, s, U, rfl, hleft, hmin⟩ := min_spec hr (show _ < fuel by omega) hright
  obtain ⟨-, hcl, hcr, -⟩ := h.links
  have hsub : t.substOf fuel x = some (s, t.ptr U) := by
    have hat : t.At (ctxr ++ ⟨true, c, x, l⟩ :: ctx) (.node cs .nil s U) := at_append.mpr hright
    have hU : t.child true s = t.ptr U := hat.links.2.2.1
    have hlne : t.ptr l ≠ t.sentinel :=
      ((at_cons (f := ⟨false, c, x, _⟩)).mpr h).ptr_ne_sentinel hl
    rw [substOf, hcl, hcr, if_neg hlne, if_neg (hright.ptr_ne_sentinel hr), hmin]
    simp [hU]
  have hat : t.At (ctxr ++ ⟨true, c, x, l⟩ :: ctx) (.node cs .nil s U) := at_append.mpr hright
  have hnode : RbShape.node cs .nil s U ≠ .nil := fun hc => by cases hc
  have hnd := hat.nodup
  rw [(subst_perm ctxr ctx).nodup_iff] at hnd
  have hne : s ≠ t.root := by
    intro heq
    have := (hat.eq_root hnode).mp heq
    simp at this
  have hxs : s ≠ x := by
    rintro rfl
    simp at hnd
  -- The tree after `s` has taken the place of `x`.
  have hnew := subst_spec hat
  have hfree : x ∉ toList U ++ ctxList (ctxr ++ ⟨true, c, s, l⟩ :: ctx) := by
    intro hmem
    have hperm : (toList (.node cs .nil s U) ++
        ctxList (ctxr ++ ⟨true, c, s, l⟩ :: ctx)).Perm
        (s :: s :: (toList l ++ (toList (plug ctxr U) ++ ctxList ctx))) := subst_perm ctxr ctx
    have hrest : (toList U ++ ctxList (ctxr ++ ⟨true, c, s, l⟩ :: ctx)).Perm
        (s :: (toList l ++ (toList (plug ctxr U) ++ ctxList ctx))) := (perm_cons s).mp hperm
    rw [hrest.mem_iff, mem_cons] at hmem
    rcases hmem with hmem | hmem
    · exact hxs hmem.symm
    · exact (nodup_cons.mp hnd).1 (mem_cons_of_mem _ hmem)
  have hxsent : x ≠ t.sentinel := At.x_ne_sentinel (d := false) h
  have hbelow := hnew.clear hfree (by
    rw [sentinel_replace, sentinel_setParent, sentinel_hook]
    exact hxsent)
  have hrb' : IsRb (plug (ctxr ++ ⟨true, c, s, l⟩ :: ctx) (fork false cs s .nil U)) := by
    rw [plug_append]
    exact isRb_relabel.mp hrb
  have hdepth : (ctxr ++ ⟨true, c, s, l⟩ :: ctx).length + 1 < fuel := by
    have h₁ := length_le_ctxList ctx
    have h₂ := length_le_ctxList ctxr
    have h₃ := (toList_plug_perm ctxr (.node cs .nil s U)).length_eq
    rw [length_append] at h₃
    rw [length_append, length_cons]
    omega
  obtain ⟨t', S, hrun, hatS, hS, hlist, hkey, hsent⟩ := finish_spec hbelow hrb' hdepth
  refine ⟨t', S, ?_, hatS, hS, ?_, ?_, ?_⟩
  · have hred : t.red s = cs := hat.links.1
    have hptr : ((((t.hook false s (t.ptr U)).setParent (t.ptr U)
        (if t.parent s = x then s else t.parent s)).replace x s).clear x).ptr U = t.ptr U :=
      ptr_congr (by simp) U
    rw [hptr] at hrun
    rw [delete_eq hsub, if_neg hne, if_neg hxs, hred]
    exact hrun
  · -- The next node is the first one of the right subtree.
    have hfirst : toList (plug ctxr (.node cs .nil s U)) = s :: toList (plug ctxr U) := by
      rw [toList_plug, toList_plug, before_left hleft]
      simp [toList]
    rw [hlist, plug_append, plug, toList_plug, hfirst]
    rfl
  · rw [hkey, key_clear, key_replace, key_setParent, key_hook]
  · rw [hsent, sentinel_clear, sentinel_replace, sentinel_setParent, sentinel_hook]

theorem erase_middle {L₁ L₂ : List ℕ} (h : x ∉ L₁) : (L₁ ++ x :: L₂).erase x = L₁ ++ L₂ := by
  rw [erase_append_right _ h, erase_cons_head]

/-- **A deletion** takes the node out, and leaves the others in order. -/
theorem delete_spec {L : List ℕ} (h : t.Holds L) (hx : x ∈ L) (hfuel : L.length + 1 < fuel) :
    ∃ t', t.delete fuel x = some t' ∧ t'.Holds (L.erase x) ∧
      t'.key = Function.update t.key x 0 ∧ t'.sentinel = t.sentinel := by
  obtain ⟨⟨T, hat, hrb, rfl⟩, hsorted⟩ := h
  have hndT : (toList T).Nodup := by simpa [ctxList] using hat.nodup
  obtain ⟨ctx, c, l, r, rfl⟩ := exists_plug hx
  have hdown := at_root.mpr hat
  have hdepth : ctx.length + 1 < fuel := by
    have h₁ := length_le_ctxList ctx
    have h₂ := (toList_plug_perm ctx (.node c l x r)).length_eq
    rw [length_append] at h₂
    omega
  obtain ⟨-, hl, hr, -⟩ := hdown.links
  have hgoal : ∃ t' S, t.delete fuel x = some t' ∧ t'.At [] S ∧ IsRb S ∧
      toList S = before ctx ++ (toList l ++ toList r) ++ after ctx ∧
      t'.key = Function.update t.key x 0 ∧ t'.sentinel = t.sentinel := by
    by_cases hlnil : l = .nil
    · subst hlnil
      have hsub : t.substOf fuel x = some (x, t.ptr r) := by
        rw [substOf, hl, ptr_nil, if_pos rfl, hr]
      obtain ⟨t', S, hrun, hatS, hS, hlist, hrest⟩ :=
        delete_single (e := false) hdown hrb hsub hdepth
      exact ⟨t', S, hrun, hatS, hS, by rw [hlist, toList_plug]; rfl, hrest⟩
    · have hlne : t.ptr l ≠ t.sentinel :=
        ((at_cons (f := ⟨false, c, x, r⟩)).mpr hdown).ptr_ne_sentinel hlnil
      by_cases hrnil : r = .nil
      · subst hrnil
        have hsub : t.substOf fuel x = some (x, t.ptr l) := by
          rw [substOf, hl, if_neg hlne, hr, ptr_nil, if_pos rfl]
        obtain ⟨t', S, hrun, hatS, hS, hlist, hrest⟩ :=
          delete_single (e := true) hdown hrb hsub hdepth
        exact ⟨t', S, hrun, hatS, hS, by rw [hlist, toList_plug, toList, append_nil], hrest⟩
      · exact delete_double hdown hrb hlnil hrnil hfuel
  obtain ⟨t', S, hrun, hatS, hS, hlist, hkey, hsent⟩ := hgoal
  have herase : (toList (plug ctx (.node c l x r))).erase x =
      before ctx ++ (toList l ++ toList r) ++ after ctx := by
    have hsplit : toList (plug ctx (.node c l x r)) =
        (before ctx ++ toList l) ++ x :: (toList r ++ after ctx) := by
      rw [toList_plug, toList]
      simp
    rw [hsplit] at hndT ⊢
    have hnot : x ∉ before ctx ++ toList l := fun hmem =>
      (nodup_append.mp hndT).2.2 x hmem x (mem_cons_self ..) rfl
    rw [erase_middle hnot]
    simp
  refine ⟨t', hrun, ⟨⟨S, hatS, hS, by rw [hlist, herase]⟩, ?_⟩, hkey, hsent⟩
  have hkeep : Sorted t.key ((toList (plug ctx (.node c l x r))).erase x) :=
    List.Pairwise.sublist erase_sublist hsorted
  refine hkeep.imp_of_mem fun {u v} hu hv huv => ?_
  have hux : u ≠ x := fun heq => (hndT.not_mem_erase) (heq ▸ hu)
  have hvx : v ≠ x := fun heq => (hndT.not_mem_erase) (heq ▸ hv)
  rwa [hkey, Function.update_of_ne hux, Function.update_of_ne hvx]

end RbTree

end Hengine
