import Hengine.Core.RbTree
import Hengine.Lib.RedBlack

/-!
# The Links of the Red-Black Tree

This module relates the fields of the nodes to a tree: at each moment the program is at a subtree,
and the nodes above it are its context. To go to the parent and to recolour or to rotate there is
then to look at the same tree with a smaller context.

The parent of the root is never looked at, and neither does it matter what it is.
-/

namespace Hengine

open List Function

namespace RbTree

open RbShape

variable {t t' : RbTree} {d c c' : Bool} {x y z p : ℕ} {a b e T : RbShape ℕ} {f : RbFrame ℕ}
  {ctx : List (RbFrame ℕ)}

/-! ### Fields after an assignment -/

theorem child_setChild (t : RbTree) (d e : Bool) (x y z : ℕ) :
    (t.setChild d x y).child e z = if e = d ∧ z = x then y else t.child e z := by
  by_cases he : e = d
  · subst he
    simp only [setChild, update_self, true_and]
    exact update_apply ..
  · simp [setChild, he]

theorem parent_setParent (t : RbTree) (x y z : ℕ) :
    (t.setParent x y).parent z = if z = x then y else t.parent z := update_apply ..

theorem red_setRed (t : RbTree) (x z : ℕ) (c : Bool) :
    (t.setRed x c).red z = if z = x then c else t.red z := update_apply ..

@[simp] theorem parent_setChild : (t.setChild d x y).parent = t.parent := rfl
@[simp] theorem red_setChild : (t.setChild d x y).red = t.red := rfl
@[simp] theorem key_setChild : (t.setChild d x y).key = t.key := rfl
@[simp] theorem root_setChild : (t.setChild d x y).root = t.root := rfl
@[simp] theorem sentinel_setChild : (t.setChild d x y).sentinel = t.sentinel := rfl
@[simp] theorem child_setParent : (t.setParent x y).child = t.child := rfl
@[simp] theorem red_setParent : (t.setParent x y).red = t.red := rfl
@[simp] theorem key_setParent : (t.setParent x y).key = t.key := rfl
@[simp] theorem root_setParent : (t.setParent x y).root = t.root := rfl
@[simp] theorem sentinel_setParent : (t.setParent x y).sentinel = t.sentinel := rfl
@[simp] theorem child_setRed : (t.setRed x c).child = t.child := rfl
@[simp] theorem parent_setRed : (t.setRed x c).parent = t.parent := rfl
@[simp] theorem key_setRed : (t.setRed x c).key = t.key := rfl
@[simp] theorem root_setRed : (t.setRed x c).root = t.root := rfl
@[simp] theorem sentinel_setRed : (t.setRed x c).sentinel = t.sentinel := rfl
@[simp] theorem child_setRoot : (t.setRoot x).child = t.child := rfl
@[simp] theorem parent_setRoot : (t.setRoot x).parent = t.parent := rfl
@[simp] theorem red_setRoot : (t.setRoot x).red = t.red := rfl
@[simp] theorem key_setRoot : (t.setRoot x).key = t.key := rfl
@[simp] theorem root_setRoot : (t.setRoot x).root = x := rfl
@[simp] theorem sentinel_setRoot : (t.setRoot x).sentinel = t.sentinel := rfl

/-- The parent of a node after one has been adopted. -/
theorem parent_adopt (t : RbTree) (x p z : ℕ) :
    (t.adopt x p).parent z = if z = x ∧ z ≠ t.sentinel then p else t.parent z := by
  rw [adopt]
  split
  · next hx =>
      rw [parent_setParent]
      by_cases hz : z = x
      · subst hz
        simp [hx]
      · simp [hz]
  · next hx =>
      rw [if_neg]
      rintro ⟨rfl, hz⟩
      exact hx hz

@[simp] theorem child_adopt : (t.adopt x p).child = t.child := by
  rw [adopt]
  split <;> rfl

@[simp] theorem red_adopt : (t.adopt x p).red = t.red := by
  rw [adopt]
  split <;> rfl

@[simp] theorem key_adopt : (t.adopt x p).key = t.key := by
  rw [adopt]
  split <;> rfl

@[simp] theorem root_adopt : (t.adopt x p).root = t.root := by
  rw [adopt]
  split <;> rfl

@[simp] theorem sentinel_adopt : (t.adopt x p).sentinel = t.sentinel := by
  rw [adopt]
  split <;> rfl

/-- The side of its parent on which `hook` finds a node. -/
def hookSide (d : Bool) (t : RbTree) (x : ℕ) : Bool :=
  if x = t.child d (t.parent x) then d else !d

/-- The child of a node after one has been hooked to another. -/
theorem child_hook (t : RbTree) (d e : Bool) (x y z : ℕ) :
    (t.hook d x y).child e z =
      if x ≠ t.root ∧ z = t.parent x ∧ e = t.hookSide d x then y else t.child e z := by
  rw [hook, hookSide]
  split
  · next hx => simp [hx]
  · next hx =>
      split
      · rw [child_setChild]
        simp [hx, and_comm]
      · rw [child_setChild]
        simp [hx, and_comm]

theorem root_hook (t : RbTree) (d : Bool) (x y : ℕ) :
    (t.hook d x y).root = if x = t.root then y else t.root := by
  rw [hook]
  split
  · rfl
  · split <;> rfl

@[simp] theorem parent_hook : (t.hook d x y).parent = t.parent := by
  rw [hook]
  split
  · rfl
  · split <;> rfl

@[simp] theorem red_hook : (t.hook d x y).red = t.red := by
  rw [hook]
  split
  · rfl
  · split <;> rfl

@[simp] theorem key_hook : (t.hook d x y).key = t.key := by
  rw [hook]
  split
  · rfl
  · split <;> rfl

@[simp] theorem sentinel_hook : (t.hook d x y).sentinel = t.sentinel := by
  rw [hook]
  split
  · rfl
  · split <;> rfl

/-! ### A tree and a context in memory -/

/-- The pointer to a tree. -/
def ptr (t : RbTree) : RbShape ℕ → ℕ
  | .nil => t.sentinel
  | .node _ _ x _ => x

@[simp] theorem ptr_nil : t.ptr .nil = t.sentinel := rfl

@[simp] theorem ptr_fork : t.ptr (fork d c x a b) = x := by
  cases d <;> rfl

theorem ptr_mem (h : T ≠ .nil) : t.ptr T ∈ toList T := by
  cases T with
  | nil => exact absurd rfl h
  | node c l x r => simp [toList, ptr]

theorem ptr_ne (hs : t.sentinel ≠ z) (hz : z ∉ toList T) : t.ptr T ≠ z := by
  by_cases hT : T = .nil
  · rw [hT]
    exact hs
  · intro heq
    exact hz (heq ▸ ptr_mem hT)

theorem ptr_congr (h : t'.sentinel = t.sentinel) (T : RbShape ℕ) : t'.ptr T = t.ptr T := by
  cases T with
  | nil => exact h
  | node c l x r => rfl

/-- The fields of the nodes are those of the tree. The parent of its root is left open. -/
def Links (t : RbTree) : RbShape ℕ → Prop
  | .nil => True
  | .node c l x r => t.red x = c ∧ t.child false x = t.ptr l ∧ t.child true x = t.ptr r ∧
      (l ≠ .nil → t.parent (t.ptr l) = x) ∧ (r ≠ .nil → t.parent (t.ptr r) = x) ∧
      Links t l ∧ Links t r

/-- What the links say about a node and its children. -/
theorem links_fork : t.Links (fork d c x a b) ↔ t.red x = c ∧ t.child d x = t.ptr a ∧
    t.child (!d) x = t.ptr b ∧ (a ≠ .nil → t.parent (t.ptr a) = x) ∧
    (b ≠ .nil → t.parent (t.ptr b) = x) ∧ t.Links a ∧ t.Links b := by
  cases d with
  | false => exact Iff.rfl
  | true =>
    simp only [fork, if_true, Links, Bool.not_true]
    tauto

/-- The node above, if there is one, is the parent. -/
def Up (t : RbTree) : List (RbFrame ℕ) → ℕ → Prop
  | [], _ => True
  | f :: _, p => t.parent p = f.x

/-- The fields of the nodes of a context, with the pointer `p` at the hole. -/
def CtxLinks (t : RbTree) : List (RbFrame ℕ) → ℕ → Prop
  | [], p => t.root = p
  | f :: ctx, p => t.red f.x = f.red ∧ t.child f.side f.x = p ∧
      t.child (!f.side) f.x = t.ptr f.sib ∧ (f.sib ≠ .nil → t.parent (t.ptr f.sib) = f.x) ∧
      t.Links f.sib ∧ t.Up ctx f.x ∧ CtxLinks t ctx f.x

/-- **The program is at a subtree** of a tree in memory. -/
structure At (t : RbTree) (ctx : List (RbFrame ℕ)) (T : RbShape ℕ) : Prop where
  above : t.CtxLinks ctx (t.ptr T)
  links : t.Links T
  up : T ≠ .nil → t.Up ctx (t.ptr T)
  nodup : (toList T ++ ctxList ctx).Nodup
  fresh : t.sentinel ∉ toList T ++ ctxList ctx
  black : t.red t.sentinel = false

/-- Going up one frame keeps the nodes there are. -/
theorem fork_perm (f : RbFrame ℕ) (ctx : List (RbFrame ℕ)) (T : RbShape ℕ) :
    (toList T ++ ctxList (f :: ctx)).Perm
      (toList (fork f.side f.red f.x T f.sib) ++ ctxList ctx) := by
  refine List.Perm.trans ?_ (toList_fork_perm.append_right _).symm
  rw [ctxList, cons_append, append_assoc]
  exact perm_middle

/-- **Going up and down.** -/
theorem at_cons : t.At (f :: ctx) T ↔ t.At ctx (fork f.side f.red f.x T f.sib) := by
  have hperm := fork_perm f ctx T
  constructor
  · rintro ⟨⟨hred, hchild, hsib, hparent, hlinks, hup, hctx⟩, hT, hTup, hnd, hfresh, hblack⟩
    refine ⟨by rw [ptr_fork]; exact hctx, links_fork.mpr ⟨hred, hchild, hsib, hTup, hparent, hT,
      hlinks⟩, fun _ => by rw [ptr_fork]; exact hup, hperm.nodup_iff.mp hnd, ?_, hblack⟩
    rwa [← hperm.mem_iff]
  · rintro ⟨hctx, hfork, hup, hnd, hfresh, hblack⟩
    obtain ⟨hred, hchild, hsib, hTup, hparent, hT, hlinks⟩ := links_fork.mp hfork
    rw [ptr_fork] at hctx hup
    refine ⟨⟨hred, hchild, hsib, hparent, hlinks, hup fork_ne_nil, hctx⟩, hT, hTup,
      hperm.nodup_iff.mpr hnd, ?_, hblack⟩
    rwa [hperm.mem_iff]

theorem at_append {ctx' : List (RbFrame ℕ)} : t.At (ctx ++ ctx') T ↔ t.At ctx' (plug ctx T) := by
  induction ctx generalizing T with
  | nil => exact Iff.rfl
  | cons f ctx ih => rw [cons_append, at_cons, ih, plug]

theorem at_root : t.At ctx T ↔ t.At [] (plug ctx T) := by
  rw [← at_append, append_nil]

/-! ### What is not touched -/

/-- A tree whose nodes are left alone, except for the parent of its root. -/
theorem Links.same (h : t.Links T) (hs : t'.sentinel = t.sentinel) (hnd : (toList T).Nodup)
    (hchild : ∀ z ∈ toList T, ∀ d, t'.child d z = t.child d z)
    (hred : ∀ z ∈ toList T, t'.red z = t.red z)
    (hparent : ∀ z ∈ toList T, z ≠ t.ptr T → t'.parent z = t.parent z) : t'.Links T := by
  induction T with
  | nil => trivial
  | node c l x r ihl ihr =>
    obtain ⟨hc, hl, hr, hpl, hpr, hLl, hLr⟩ := h
    rw [toList, nodup_append, nodup_cons] at hnd
    obtain ⟨hndl, ⟨hxr, hndr⟩, hdis⟩ := hnd
    have hxl : x ∉ toList l := fun hx => hdis x hx x (mem_cons_self ..) rfl
    have hmeml : ∀ z ∈ toList l, z ∈ toList (.node c l x r) := fun z hz => by simp [toList, hz]
    have hmemr : ∀ z ∈ toList r, z ∈ toList (.node c l x r) := fun z hz => by simp [toList, hz]
    have hmemx : x ∈ toList (.node c l x r) := by simp [toList]
    have hnel : ∀ z ∈ toList l, z ≠ x := fun z hz heq => hxl (heq ▸ hz)
    have hner : ∀ z ∈ toList r, z ≠ x := fun z hz heq => hxr (heq ▸ hz)
    refine ⟨by rw [hred x hmemx, hc], by rw [hchild x hmemx, hl, ptr_congr hs],
      by rw [hchild x hmemx, hr, ptr_congr hs], fun hne => ?_, fun hne => ?_, ?_, ?_⟩
    · have hmem := ptr_mem (t := t) hne
      rw [ptr_congr hs, hparent _ (hmeml _ hmem) (hnel _ hmem), hpl hne]
    · have hmem := ptr_mem (t := t) hne
      rw [ptr_congr hs, hparent _ (hmemr _ hmem) (hner _ hmem), hpr hne]
    · refine ihl hLl hndl (fun z hz => hchild z (hmeml z hz)) (fun z hz => hred z (hmeml z hz)) ?_
      exact fun z hz _ => hparent z (hmeml z hz) (hnel z hz)
    · refine ihr hLr hndr (fun z hz => hchild z (hmemr z hz)) (fun z hz => hred z (hmemr z hz)) ?_
      exact fun z hz _ => hparent z (hmemr z hz) (hner z hz)

/-- A context whose nodes are left alone. -/
theorem CtxLinks.same (h : t.CtxLinks ctx p) (hs : t'.sentinel = t.sentinel)
    (hroot : t'.root = t.root) (hnd : (ctxList ctx).Nodup)
    (hchild : ∀ z ∈ ctxList ctx, ∀ d, t'.child d z = t.child d z)
    (hred : ∀ z ∈ ctxList ctx, t'.red z = t.red z)
    (hparent : ∀ z ∈ ctxList ctx, t'.parent z = t.parent z) : t'.CtxLinks ctx p := by
  induction ctx generalizing p with
  | nil => exact hroot.trans h
  | cons f ctx ih =>
    obtain ⟨hc, hp, hsib, hpsib, hlinks, hup, hctx⟩ := h
    rw [ctxList, nodup_cons, nodup_append] at hnd
    have hmemx : f.x ∈ ctxList (f :: ctx) := by simp [ctxList]
    have hmems : ∀ z ∈ toList f.sib, z ∈ ctxList (f :: ctx) := fun z hz => by simp [ctxList, hz]
    have hmemc : ∀ z ∈ ctxList ctx, z ∈ ctxList (f :: ctx) := fun z hz => by simp [ctxList, hz]
    refine ⟨by rw [hred _ hmemx, hc], by rw [hchild _ hmemx, hp],
      by rw [hchild _ hmemx, hsib, ptr_congr hs], fun hne => ?_, ?_, ?_, ?_⟩
    · rw [ptr_congr hs, hparent _ (hmems _ (ptr_mem hne)), hpsib hne]
    · exact hlinks.same hs hnd.2.1 (fun z hz => hchild z (hmems z hz))
        (fun z hz => hred z (hmems z hz)) fun z hz _ => hparent z (hmems z hz)
    · cases ctx with
      | nil => trivial
      | cons g ctx => exact (hparent _ hmemx).trans hup
    · exact ih hctx hnd.2.2.1 (fun z hz => hchild z (hmemc z hz))
        (fun z hz => hred z (hmemc z hz)) fun z hz => hparent z (hmemc z hz)

/-- A context with another pointer at its hole. -/
theorem CtxLinks.rehang {q : ℕ} (h : t.CtxLinks (f :: ctx) p) (hs : t'.sentinel = t.sentinel)
    (hroot : t'.root = t.root) (hnd : (ctxList (f :: ctx)).Nodup)
    (hhole : t'.child f.side f.x = q)
    (hother : t'.child (!f.side) f.x = t.child (!f.side) f.x)
    (hchild : ∀ z ∈ ctxList (f :: ctx), z ≠ f.x → ∀ d, t'.child d z = t.child d z)
    (hred : ∀ z ∈ ctxList (f :: ctx), t'.red z = t.red z)
    (hparent : ∀ z ∈ ctxList (f :: ctx), t'.parent z = t.parent z) :
    t'.CtxLinks (f :: ctx) q := by
  obtain ⟨hc, -, hsib, hpsib, hlinks, hup, hctx⟩ := h
  rw [ctxList, nodup_cons, mem_append, not_or, nodup_append] at hnd
  obtain ⟨⟨hxs, hxc⟩, hnds, hndc, -⟩ := hnd
  have hmemx : f.x ∈ ctxList (f :: ctx) := by simp [ctxList]
  have hmems : ∀ z ∈ toList f.sib, z ∈ ctxList (f :: ctx) := fun z hz => by simp [ctxList, hz]
  have hmemc : ∀ z ∈ ctxList ctx, z ∈ ctxList (f :: ctx) := fun z hz => by simp [ctxList, hz]
  refine ⟨by rw [hred _ hmemx, hc], hhole, by rw [hother, hsib, ptr_congr hs], fun hne => ?_, ?_, ?_,
    ?_⟩
  · rw [ptr_congr hs, hparent _ (hmems _ (ptr_mem hne)), hpsib hne]
  · exact hlinks.same hs hnds
      (fun z hz => hchild z (hmems z hz) fun heq => hxs (heq ▸ hz))
      (fun z hz => hred z (hmems z hz)) fun z hz _ => hparent z (hmems z hz)
  · cases ctx with
    | nil => trivial
    | cons g ctx => exact (hparent _ hmemx).trans hup
  · exact hctx.same hs hroot hndc (fun z hz => hchild z (hmemc z hz) fun heq => hxc (heq ▸ hz))
      (fun z hz => hred z (hmemc z hz)) fun z hz => hparent z (hmemc z hz)

/-! ### Colours -/

theorem At.fork_nodup (h : t.At ctx (fork d c x a b)) :
    (x :: (toList a ++ (toList b ++ ctxList ctx))).Nodup := by
  have hnd := h.nodup
  rw [(toList_fork_perm.append_right _).nodup_iff, cons_append, append_assoc] at hnd
  exact hnd

/-- **A new colour.** -/
theorem At.setRed (h : t.At ctx (fork d c x a b)) (c' : Bool) :
    (t.setRed x c').At ctx (fork d c' x a b) := by
  obtain ⟨hred, hda, hdb, hpa, hpb, hla, hlb⟩ := links_fork.mp h.links
  have hnd := h.fork_nodup
  simp only [nodup_cons, mem_append, not_or, nodup_append] at hnd
  obtain ⟨⟨hxa, hxb, hxc⟩, hnda, ⟨hndb, hndc, -⟩, -⟩ := hnd
  have hrest : ∀ z, z ≠ x → (t.setRed x c').red z = t.red z := by
    intro z hz
    rw [red_setRed, if_neg hz]
  have hsx : t.sentinel ≠ x := by
    intro heq
    exact h.fresh (mem_append_left _ (mem_toList_fork.mpr (Or.inl heq)))
  have hperm : (toList (fork d c' x a b)).Perm (toList (fork d c x a b)) :=
    toList_fork_perm.trans toList_fork_perm.symm
  refine ⟨?_, links_fork.mpr ⟨?_, hda, hdb, hpa, hpb, ?_, ?_⟩, fun _ => ?_, ?_, ?_, ?_⟩
  · have habove := h.above
    rw [ptr_fork] at habove ⊢
    exact habove.same rfl rfl hndc (fun _ _ _ => rfl)
      (fun z hz => hrest z fun heq => hxc (heq ▸ hz)) fun _ _ => rfl
  · rw [red_setRed, if_pos rfl]
  · exact hla.same rfl hnda (fun _ _ _ => rfl) (fun z hz => hrest z fun heq => hxa (heq ▸ hz))
      fun _ _ _ => rfl
  · exact hlb.same rfl hndb (fun _ _ _ => rfl) (fun z hz => hrest z fun heq => hxb (heq ▸ hz))
      fun _ _ _ => rfl
  · have hup := h.up fork_ne_nil
    rw [ptr_fork] at hup ⊢
    cases ctx with
    | nil => trivial
    | cons g ctx => exact hup
  · rw [(hperm.append_right _).nodup_iff]
    exact h.nodup
  · rw [(hperm.append_right _).mem_iff]
    exact h.fresh
  · rw [sentinel_setRed, hrest _ hsx, h.black]

/-! ### Rotations -/

/-- The fields after a rotation at `x`, whose child `y` comes up. -/
structure Rotated (d : Bool) (t : RbTree) (x y : ℕ) (t' : RbTree) : Prop where
  root : t'.root = if x = t.root then y else t.root
  child : ∀ e z, t'.child e z =
    if e = d ∧ z = y then x
    else if x ≠ t.root ∧ z = t.parent x ∧ e = t.hookSide d x then y
    else if e = (!d) ∧ z = x then t.child d y
    else t.child e z
  parent : ∀ z, t'.parent z =
    if z = x then y
    else if z = y then t.parent x
    else if z = t.child d y ∧ z ≠ t.sentinel then x
    else t.parent z
  red : t'.red = t.red
  key : t'.key = t.key
  sentinel : t'.sentinel = t.sentinel

/-- What a rotation does, assignment by assignment. -/
theorem rotated (hxy : x ≠ y) (hy : t.child (!d) x = y) (hx : t.child d y ≠ x) :
    Rotated d t x y (t.rotate d x) := by
  -- The tree before the rotated subtree is hooked in again.
  obtain ⟨t₃, ht₃⟩ : ∃ t₃, t₃ =
      ((t.setChild (!d) x (t.child d y)).adopt (t.child d y) x).setParent y (t.parent x) :=
    ⟨_, rfl⟩
  have hrot : t.rotate d x = ((t₃.hook d x y).setChild d y x).setParent x y := by
    have hβ : (t.setChild (!d) x (t.child d y)).child d y = t.child d y := by
      rw [child_setChild, if_neg]
      simp
    have hpx : ((t.setChild (!d) x (t.child d y)).adopt (t.child d y) x).parent x = t.parent x := by
      rw [parent_adopt, if_neg]
      · rfl
      · exact fun h => hx h.1.symm
    simp only [rotate, hy, hβ, hpx, ← ht₃]
  have hpx : t₃.parent x = t.parent x := by
    rw [ht₃, parent_setParent, if_neg hxy, parent_adopt, if_neg]
    · rfl
    · exact fun h => hx h.1.symm
  have hroot : t₃.root = t.root := by rw [ht₃, root_setParent, root_adopt, root_setChild]
  have hchild : ∀ e z, t₃.child e z = if e = (!d) ∧ z = x then t.child d y else t.child e z := by
    intro e z
    rw [ht₃, child_setParent, child_adopt, child_setChild]
  have hside : t₃.hookSide d x = t.hookSide d x := by
    have : t₃.child d (t.parent x) = t.child d (t.parent x) := by
      rw [hchild, if_neg]
      simp
    rw [hookSide, hookSide, hpx, this]
  refine ⟨?_, fun e z => ?_, fun z => ?_, ?_, ?_, ?_⟩
  · rw [hrot, root_setParent, root_setChild, root_hook, hroot]
  · rw [hrot, child_setParent, child_setChild, child_hook, hroot, hpx, hside, hchild]
  · rw [hrot, parent_setParent, parent_setChild, parent_hook, ht₃, parent_setParent, parent_adopt]
    rfl
  · rw [hrot, ht₃]
    simp
  · rw [hrot, ht₃]
    simp
  · rw [hrot, ht₃]
    simp
/-- The root of a tree is the last node of a context. -/
theorem CtxLinks.root_mem (h : t.CtxLinks (f :: ctx) p) : t.root ∈ ctxList (f :: ctx) := by
  induction ctx generalizing f p with
  | nil =>
    obtain ⟨-, -, -, -, -, -, hroot⟩ := h
    have hroot : t.root = f.x := hroot
    simp [ctxList, hroot]
  | cons g ctx ih =>
    obtain ⟨-, -, -, -, -, -, hctx⟩ := h
    rw [ctxList]
    exact mem_cons_of_mem _ (mem_append_right _ (ih hctx))

/-- The side on which the parent has a child is read off its pointers. -/
theorem hookSide_eq (h : t.CtxLinks (f :: ctx) p) (hp : t.parent p = f.x)
    (hne : t.ptr f.sib ≠ p) (d : Bool) : t.hookSide d p = f.side := by
  obtain ⟨-, hside, hother, -⟩ := h
  rw [hookSide, hp]
  by_cases hd : d = f.side
  · rw [hd, if_pos hside.symm]
  · have hd : d = !f.side := by
      revert hd
      cases d <;> cases f.side <;> simp
    rw [hd, hother, if_neg hne.symm, Bool.not_not]

/-- **Hooking in**: the pointer at the hole is changed, in the parent or in the root. -/
theorem CtxLinks.hooked (h : t.CtxLinks ctx x) (hup : t.Up ctx x) (hx : x ∉ ctxList ctx)
    (hxs : x ≠ t.sentinel) (hnd : (ctxList ctx).Nodup) (hs : t'.sentinel = t.sentinel)
    (hroot : t'.root = if x = t.root then y else t.root)
    (hchild : ∀ z ∈ ctxList ctx, ∀ e, t'.child e z =
      if x ≠ t.root ∧ z = t.parent x ∧ e = t.hookSide d x then y else t.child e z)
    (hred : ∀ z ∈ ctxList ctx, t'.red z = t.red z)
    (hparent : ∀ z ∈ ctxList ctx, t'.parent z = t.parent z) : t'.CtxLinks ctx y := by
  cases ctx with
  | nil =>
    have h : t.root = x := h
    exact hroot.trans (if_pos h.symm)
  | cons f ctx =>
    have hne : x ≠ t.root := fun heq => hx (heq ▸ h.root_mem)
    have hup : t.parent x = f.x := hup
    have hsib : t.ptr f.sib ≠ x := by
      by_cases hnil : f.sib = .nil
      · rw [hnil]
        exact hxs.symm
      · intro heq
        exact hx (by simp [ctxList, ← heq, ptr_mem hnil])
    have hside : t.hookSide d x = f.side := hookSide_eq h hup hsib d
    have hmemx : f.x ∈ ctxList (f :: ctx) := by simp [ctxList]
    refine h.rehang hs (by rw [hroot, if_neg hne]) hnd ?_ ?_ ?_ hred hparent
    · rw [hchild _ hmemx, if_pos ⟨hne, hup.symm, hside.symm⟩]
    · rw [hchild _ hmemx, if_neg]
      rintro ⟨-, -, heq⟩
      rw [hside] at heq
      revert heq
      cases f.side <;> simp
    · intro z hz hzf e
      rw [hchild z hz, if_neg]
      rintro ⟨-, heq, -⟩
      exact hzf (heq.trans hup)

/-- The parent of a node other than the root is on the way up. -/
theorem parent_mem (h : t.CtxLinks ctx x) (hup : t.Up ctx x) (hne : x ≠ t.root) :
    t.parent x ∈ ctxList ctx := by
  cases ctx with
  | nil =>
    have h : t.root = x := h
    exact absurd h.symm hne
  | cons f ctx =>
    have hup : t.parent x = f.x := hup
    rw [hup, ctxList]
    exact mem_cons_self ..

/-- **A rotation** at `x`: its child `y` comes up. -/
theorem At.rotate (h : t.At ctx (fork (!d) c x (fork d c' y b e) a)) :
    (t.rotate d x).At ctx (fork d c' y (fork (!d) c x b a) e) := by
  obtain ⟨hredx, hxy, hxa, hpy, hpa, hly, hla⟩ := links_fork.mp h.links
  obtain ⟨hredy, hyb, hye, hpb, hpe, hlb, hle⟩ := links_fork.mp hly
  rw [ptr_fork] at hxy hpy
  rw [Bool.not_not] at hxa
  have hperm : (toList (fork (!d) c x (fork d c' y b e) a) ++ ctxList ctx).Perm
      (x :: y :: (toList b ++ (toList e ++ (toList a ++ ctxList ctx)))) := by
    refine (toList_fork_perm.append_right _).trans ?_
    rw [cons_append, append_assoc]
    refine List.Perm.cons x ((toList_fork_perm.append_right _).trans ?_)
    rw [cons_append, append_assoc]
  have hperm' : (toList (fork d c' y (fork (!d) c x b a) e) ++ ctxList ctx).Perm
      (toList (fork (!d) c x (fork d c' y b e) a) ++ ctxList ctx) := by
    rw [toList_rotate]
  have hnd := h.nodup
  have hfresh := h.fresh
  rw [hperm.nodup_iff] at hnd
  rw [hperm.mem_iff] at hfresh
  simp only [nodup_cons, mem_cons, mem_append, not_or, nodup_append] at hnd
  simp only [mem_cons, mem_append, not_or] at hfresh
  obtain ⟨⟨hxney, hxb, hxe, hxna, hxctx⟩, ⟨hyb', hye', hya, hyctx⟩, hndb, ⟨hnde, ⟨hnda, hndc, hac⟩,
    heac⟩, hbeac⟩ := hnd
  obtain ⟨hsx, hsy, hsb, hse, hsa, hsctx⟩ := hfresh
  have habove := h.above
  have hup := h.up fork_ne_nil
  rw [ptr_fork] at habove hup
  have hR := rotated (d := d) hxney hxy (by rw [hyb]; exact ptr_ne hsx hxb)
  -- Nodes elsewhere keep their children; those of the context may be hooked to `y`.
  have hkeep : ∀ z, z ≠ x → z ≠ y → z ∉ ctxList ctx → ∀ e, (t.rotate d x).child e z = t.child e z := by
    intro z hzx hzy hz e
    rw [hR.child, if_neg fun hc => hzy hc.2, if_neg fun hc => ?_, if_neg fun hc => hzx hc.2]
    exact hz (hc.2.1 ▸ parent_mem habove hup hc.1)
  have hkeepp : ∀ z, z ≠ x → z ≠ y → z ≠ t.ptr b → (t.rotate d x).parent z = t.parent z := by
    intro z hzx hzy hzb
    rw [hR.parent, if_neg hzx, if_neg hzy, if_neg fun hc => hzb (hc.1.trans hyb)]
  have hptr : ∀ S, (t.rotate d x).ptr S = t.ptr S := ptr_congr hR.sentinel
  have hnb : ∀ z, z ∉ toList b → z ≠ t.sentinel → z ≠ t.ptr b := fun z hz hzs =>
    (ptr_ne (Ne.symm hzs) hz).symm
  have hxroot : x ≠ t.root → x ≠ t.parent x := fun hne heq =>
    hxctx (heq ▸ parent_mem habove hup hne)
  have hyroot : x ≠ t.root → y ≠ t.parent x := fun hne heq =>
    hyctx (heq ▸ parent_mem habove hup hne)
  refine ⟨?_, links_fork.mpr ⟨?_, ?_, ?_, fun _ => ?_, fun hne => ?_, links_fork.mpr ⟨?_, ?_, ?_,
    fun hne => ?_, fun hne => ?_, ?_, ?_⟩, ?_⟩, fun _ => ?_, ?_, ?_, ?_⟩
  · -- The context.
    rw [ptr_fork]
    refine habove.hooked hup hxctx (Ne.symm hsx) hndc hR.sentinel hR.root (d := d) (fun z hz e => ?_)
      (fun z _ => by rw [hR.red]) fun z hz => ?_
    · have hzx : z ≠ x := fun heq => hxctx (heq ▸ hz)
      have hzy : z ≠ y := fun heq => hyctx (heq ▸ hz)
      rw [hR.child, if_neg fun hc => hzy hc.2]
      congr 1
      rw [if_neg fun hc => hzx hc.2]
    · refine hkeepp z (fun heq => hxctx (heq ▸ hz)) (fun heq => hyctx (heq ▸ hz)) (hnb z ?_ ?_)
      · exact fun hzb => hbeac z hzb z (Or.inr (Or.inr hz)) rfl
      · exact fun heq => hsctx (heq ▸ hz)
  · rw [hR.red, hredy]
  · rw [hR.child, if_pos ⟨rfl, rfl⟩, ptr_fork]
  · rw [hR.child, if_neg (by simp), if_neg fun hc => hyroot hc.1 hc.2.1,
      if_neg fun hc => hxney hc.2.symm, hye, hptr]
  · rw [ptr_fork, hR.parent, if_pos rfl]
  · have hmem := ptr_mem (t := t) hne
    rw [hptr, hkeepp _ (fun heq => hxe (heq ▸ hmem)) (fun heq => hye' (heq ▸ hmem)) ?_, hpe hne]
    refine hnb _ (fun hb => ?_) fun heq => hse (heq ▸ hmem)
    exact hbeac _ hb _ (Or.inl hmem) rfl
  · rw [hR.red, hredx]
  · rw [hR.child, if_neg (by simp), if_neg fun hc => hxroot hc.1 hc.2.1, if_pos ⟨rfl, rfl⟩, hyb,
      hptr]
  · rw [Bool.not_not, hR.child, if_neg fun hc => hxney hc.2, if_neg fun hc => hxroot hc.1 hc.2.1,
      if_neg (by simp), hxa, hptr]
  · have hmem := ptr_mem (t := t) hne
    have hbx : t.ptr b ≠ x := ptr_ne hsx hxb
    have hby : t.ptr b ≠ y := ptr_ne hsy hyb'
    rw [hptr, hR.parent, if_neg hbx, if_neg hby,
      if_pos ⟨hyb.symm, fun heq : t.ptr b = t.sentinel => hsb (heq ▸ hmem)⟩]
  · have hmem := ptr_mem (t := t) hne
    rw [hptr, hkeepp _ (fun heq => hxna (heq ▸ hmem)) (fun heq => hya (heq ▸ hmem)) ?_, hpa hne]
    refine hnb _ (fun hb => ?_) fun heq => hsa (heq ▸ hmem)
    exact hbeac _ hb _ (Or.inr (Or.inl hmem)) rfl
  · refine hlb.same hR.sentinel hndb (fun z hz => ?_) (fun z _ => by rw [hR.red]) fun z hz hzb => ?_
    · refine hkeep z (fun heq => hxb (heq ▸ hz)) (fun heq => hyb' (heq ▸ hz)) fun hc => ?_
      exact hbeac z hz z (Or.inr (Or.inr hc)) rfl
    · exact hkeepp z (fun heq => hxb (heq ▸ hz)) (fun heq => hyb' (heq ▸ hz)) hzb
  · refine hla.same hR.sentinel hnda (fun z hz => ?_) (fun z _ => by rw [hR.red]) fun z hz _ => ?_
    · refine hkeep z (fun heq => hxna (heq ▸ hz)) (fun heq => hya (heq ▸ hz)) fun hc => ?_
      exact hac z hz z hc rfl
    · refine hkeepp z (fun heq => hxna (heq ▸ hz)) (fun heq => hya (heq ▸ hz)) (hnb z ?_ ?_)
      · exact fun hzb => hbeac z hzb z (Or.inr (Or.inl hz)) rfl
      · exact fun heq => hsa (heq ▸ hz)
  · refine hle.same hR.sentinel hnde (fun z hz => ?_) (fun z _ => by rw [hR.red]) fun z hz _ => ?_
    · refine hkeep z (fun heq => hxe (heq ▸ hz)) (fun heq => hye' (heq ▸ hz)) fun hc => ?_
      exact heac z hz z (Or.inr hc) rfl
    · refine hkeepp z (fun heq => hxe (heq ▸ hz)) (fun heq => hye' (heq ▸ hz)) (hnb z ?_ ?_)
      · exact fun hzb => hbeac z hzb z (Or.inl hz) rfl
      · exact fun heq => hse (heq ▸ hz)
  · rw [ptr_fork]
    cases ctx with
    | nil => trivial
    | cons f ctx =>
      have : (t.rotate d x).parent y = t.parent x := by
        rw [hR.parent, if_neg (Ne.symm hxney), if_pos rfl]
      exact this.trans hup
  · rw [hperm'.nodup_iff]
    exact h.nodup
  · rw [hR.sentinel, hperm'.mem_iff]
    exact h.fresh
  · rw [hR.sentinel, hR.red, h.black]

@[simp] theorem key_rotate : (t.rotate d x).key = t.key := by
  simp [RbTree.rotate]

@[simp] theorem sentinel_rotate : (t.rotate d x).sentinel = t.sentinel := by
  simp [RbTree.rotate]

/-! ### What the program finds out -/

/-- **Changing over** to the subtree on the other side. -/
theorem at_switch : t.At (f :: ctx) T ↔ t.At (⟨!f.side, f.red, f.x, T⟩ :: ctx) f.sib := by
  rw [at_cons, at_cons, fork_not]

theorem At.red_ptr (h : t.At ctx T) : t.red (t.ptr T) = isRed T := by
  cases T with
  | nil => exact h.black
  | node c l x r => exact h.links.1

theorem At.ptr_ne_sentinel (h : t.At ctx T) (hT : T ≠ .nil) : t.ptr T ≠ t.sentinel := by
  intro heq
  exact h.fresh (mem_append_left _ (heq ▸ ptr_mem hT))

theorem At.ptr_notMem (h : t.At ctx T) (hT : T ≠ .nil) : t.ptr T ∉ ctxList ctx := by
  intro hmem
  have hnd := h.nodup
  rw [nodup_append] at hnd
  exact hnd.2.2 _ (ptr_mem hT) _ hmem rfl

/-- A child is not its own sibling. -/
theorem At.ptr_ne_sib (h : t.At (f :: ctx) T) (hne : T ≠ .nil ∨ f.sib ≠ .nil) :
    t.ptr T ≠ t.ptr f.sib := by
  intro heq
  by_cases hT : T = .nil
  · have hsib := hne.resolve_left (not_not.mpr hT)
    rw [hT, ptr_nil] at heq
    exact (at_switch.mp h).ptr_ne_sentinel hsib heq.symm
  · have hnot := h.ptr_notMem hT
    by_cases hsib : f.sib = .nil
    · rw [hsib, ptr_nil] at heq
      exact h.ptr_ne_sentinel hT heq
    · exact hnot (by rw [heq]; simp [ctxList, ptr_mem hsib])

/-- **The test for the side**: the child on the left is looked at. -/
theorem At.side (h : t.At (f :: ctx) T) (hne : T ≠ .nil ∨ f.sib ≠ .nil) :
    (!decide (t.ptr T = t.child false f.x)) = f.side := by
  obtain ⟨-, hside, hother, -⟩ := h.above
  cases hf : f.side with
  | false =>
    rw [hf] at hside
    simp [hside]
  | true =>
    rw [hf] at hother
    have : t.ptr T ≠ t.child false f.x := by
      rw [show false = !true from rfl, hother]
      exact h.ptr_ne_sib hne
    simp [this]

/-- A node is the root when nothing is above it. -/
theorem At.eq_root (h : t.At ctx T) (hT : T ≠ .nil) : t.ptr T = t.root ↔ ctx = [] := by
  cases ctx with
  | nil =>
    have habove : t.root = t.ptr T := h.above
    simp [habove]
  | cons f ctx =>
    simp only [reduceCtorEq, iff_false]
    intro heq
    exact h.ptr_notMem hT (heq ▸ h.above.root_mem)

end RbTree

end Hengine
