import Mathlib.Data.List.Perm.Basic
import Mathlib.Order.Basic

/-!
# Red-Black Trees and Their Contexts

Binary trees with coloured nodes, and trees with a hole: a context is the list of the nodes from
the hole up to the root, each with the subtree on its other side. A program that walks up a tree
and changes it near the place where it is works on a context and on the tree in its hole.

The two sides are `false` and `true`, and what is the same on both sides is said once: `fork d`
makes a node whose first subtree is on the side `d`.
-/

namespace Hengine

open List

/-- A tree with coloured nodes. -/
inductive RbShape (α : Type*)
  | nil
  | node (red : Bool) (left : RbShape α) (x : α) (right : RbShape α)

/-- A node above a hole: the side on which the hole is, its colour, and the subtree on the other
side. -/
structure RbFrame (α : Type*) where
  side : Bool
  red : Bool
  x : α
  sib : RbShape α

namespace RbShape

variable {α : Type*} {d c : Bool} {x y : α} {a b t : RbShape α} {n m : ℕ}
  {f : RbFrame α} {ctx : List (RbFrame α)}

/-- A node with the subtree `a` on the side `d` and `b` on the other one. -/
def fork (d c : Bool) (x : α) (a b : RbShape α) : RbShape α :=
  if d then node c b x a else node c a x b

theorem fork_not (d c : Bool) (x : α) (a b : RbShape α) : fork (!d) c x a b = fork d c x b a := by
  cases d <;> rfl

@[simp] theorem fork_ne_nil : fork d c x a b ≠ nil := by
  cases d <;> exact fun h => by cases h

/-- A tree that is not empty, seen from either side. -/
theorem exists_fork (d : Bool) (ht : t ≠ nil) : ∃ c x a b, t = fork d c x a b := by
  cases t with
  | nil => exact absurd rfl ht
  | node c l x r =>
    cases d with
    | false => exact ⟨c, x, l, r, rfl⟩
    | true => exact ⟨c, x, r, l, rfl⟩

/-! ### The order of the nodes -/

/-- The nodes from left to right. -/
@[grind =]
def toList : RbShape α → List α
  | nil => []
  | node _ l x r => toList l ++ x :: toList r

/-- The nodes of a tree: its root and those of both sides. -/
theorem mem_toList_fork : y ∈ toList (fork d c x a b) ↔ y = x ∨ y ∈ toList a ∨ y ∈ toList b := by
  cases d with
  | false =>
    simp only [fork, Bool.false_eq_true, if_false, toList, mem_append, mem_cons]
    exact or_left_comm
  | true =>
    simp only [fork, if_true, toList, mem_append, mem_cons]
    rw [or_left_comm, or_comm (a := y ∈ toList b)]

/-- A rotation keeps the in-order walk. -/
theorem toList_rotate (d c c' : Bool) (x y : α) (a b e : RbShape α) :
    toList (fork d c' y (fork (!d) c x b a) e) = toList (fork (!d) c x (fork d c' y b e) a) := by
  cases d with
  | false => simp [fork, toList]
  | true => simp [fork, toList]

theorem toList_fork_congr {c' : Bool} {a' b' : RbShape α} (ha : toList a = toList a')
    (hb : toList b = toList b') : toList (fork d c x a b) = toList (fork d c' x a' b') := by
  cases d with
  | false => simp [fork, toList, ha, hb]
  | true => simp [fork, toList, ha, hb]

/-! ### Contexts -/

/-- The tree with `t` in the hole. -/
@[grind =]
def plug : List (RbFrame α) → RbShape α → RbShape α
  | [], t => t
  | f :: ctx, t => plug ctx (fork f.side f.red f.x t f.sib)

/-- The nodes before the hole. -/
@[grind =]
def before : List (RbFrame α) → List α
  | [] => []
  | f :: ctx => before ctx ++ if f.side then toList f.sib ++ [f.x] else []

/-- The nodes after the hole. -/
@[grind =]
def after : List (RbFrame α) → List α
  | [] => []
  | f :: ctx => (if f.side then [] else f.x :: toList f.sib) ++ after ctx

/-- **The order around a hole.** -/
theorem toList_plug (ctx : List (RbFrame α)) (t : RbShape α) :
    toList (plug ctx t) = before ctx ++ toList t ++ after ctx := by
  induction ctx generalizing t with
  | nil => simp [plug, before, after]
  | cons f ctx ih =>
    rw [plug, ih, before, after]
    cases hs : f.side with
    | false => simp [fork, toList]
    | true => simp [fork, toList]

theorem toList_plug_congr {t' : RbShape α} (h : toList t = toList t') :
    toList (plug ctx t) = toList (plug ctx t') := by
  rw [toList_plug, toList_plug, h]

/-- The nodes of a context, from the hole up. -/
@[grind =]
def ctxList : List (RbFrame α) → List α
  | [] => []
  | f :: ctx => f.x :: (toList f.sib ++ ctxList ctx)

theorem toList_fork_perm : (toList (fork d c x a b)).Perm (x :: (toList a ++ toList b)) := by
  cases d with
  | false => exact perm_middle
  | true =>
    refine perm_middle.trans (List.Perm.cons x ?_)
    exact perm_append_comm

/-- The nodes of a tree in its context. -/
theorem toList_plug_perm (ctx : List (RbFrame α)) (t : RbShape α) :
    (toList (plug ctx t)).Perm (toList t ++ ctxList ctx) := by
  induction ctx generalizing t with
  | nil => rw [plug, ctxList, append_nil]
  | cons f ctx ih =>
    refine (ih _).trans ((toList_fork_perm.append_right _).trans ?_)
    rw [ctxList, cons_append, append_assoc]
    exact perm_middle.symm

theorem length_le_ctxList (ctx : List (RbFrame α)) : ctx.length ≤ (ctxList ctx).length := by
  induction ctx with
  | nil => exact Nat.le_refl _
  | cons f ctx ih =>
    rw [ctxList, length_cons, length_cons, length_append]
    omega

theorem plug_append (ctx ctx' : List (RbFrame α)) (t : RbShape α) :
    plug (ctx ++ ctx') t = plug ctx' (plug ctx t) := by
  induction ctx generalizing t with
  | nil => rfl
  | cons f ctx ih => exact ih _

theorem plug_ne_nil (h : t ≠ nil) : plug ctx t ≠ nil := by
  induction ctx generalizing t with
  | nil => exact h
  | cons f ctx ih => exact ih fork_ne_nil

/-- **Every node is somewhere**: it is the root of a tree in a hole. -/
theorem exists_plug (h : x ∈ toList t) : ∃ ctx c l r, t = plug ctx (node c l x r) := by
  induction t with
  | nil => cases h
  | node c l y r ihl ihr =>
    rw [toList, mem_append, mem_cons] at h
    rcases h with h | rfl | h
    · obtain ⟨ctx, c', l', r', rfl⟩ := ihl h
      exact ⟨ctx ++ [⟨false, c, y, r⟩], c', l', r', by rw [plug_append]; rfl⟩
    · exact ⟨[], c, l, r, rfl⟩
    · obtain ⟨ctx, c', l', r', rfl⟩ := ihr h
      exact ⟨ctx ++ [⟨true, c, y, l⟩], c', l', r', by rw [plug_append]; rfl⟩

/-! ### Balance -/

/-- What a node adds to the black height. -/
def weight (c : Bool) : ℕ := if c then 0 else 1

/-- All ways down have `n` black nodes. -/
def Bal : RbShape α → ℕ → Prop
  | nil, n => n = 0
  | node c l _ r, n => ∃ k, Bal l k ∧ Bal r k ∧ n = k + weight c

theorem bal_fork : Bal (fork d c x a b) n ↔ ∃ k, Bal a k ∧ Bal b k ∧ n = k + weight c := by
  cases d with
  | false => exact Iff.rfl
  | true =>
    refine exists_congr fun k => ?_
    exact and_left_comm

/-- The hole needs a tree with `n` black nodes on all ways down. -/
def CtxBal : List (RbFrame α) → ℕ → Prop
  | [], _ => True
  | f :: ctx, n => Bal f.sib n ∧ CtxBal ctx (n + weight f.red)

/-- **Balance around a hole.** -/
theorem bal_plug : (∃ n, Bal (plug ctx t) n) ↔ ∃ n, Bal t n ∧ CtxBal ctx n := by
  induction ctx generalizing t with
  | nil => simp [plug, CtxBal]
  | cons f ctx ih =>
    rw [plug, ih]
    simp only [bal_fork, CtxBal]
    constructor
    · rintro ⟨n, ⟨k, ht, hsib, rfl⟩, hctx⟩
      exact ⟨k, ht, hsib, hctx⟩
    · rintro ⟨k, ht, hsib, hctx⟩
      exact ⟨_, ⟨k, ht, hsib, rfl⟩, hctx⟩

/-! ### Red nodes -/

/-- The root is red. -/
def isRed : RbShape α → Bool
  | nil => false
  | node c _ _ _ => c

@[simp] theorem isRed_fork : isRed (fork d c x a b) = c := by
  cases d <;> rfl

/-- No red node has a red child. -/
def Fair : RbShape α → Prop
  | nil => True
  | node c l _ r => (c = true → isRed l = false ∧ isRed r = false) ∧ Fair l ∧ Fair r

/-- No red node has a red child. -/
theorem fair_fork : Fair (fork d c x a b) ↔
    (c = true → isRed a = false ∧ isRed b = false) ∧ Fair a ∧ Fair b := by
  cases d with
  | false => exact Iff.rfl
  | true =>
    simp only [fork, if_true, Fair]
    rw [and_comm (a := Fair b), and_comm (a := isRed b = false)]

/-- A red node may be put into the hole: there is a node above, which is black. -/
def HeadBlack : List (RbFrame α) → Prop
  | [] => False
  | f :: _ => f.red = false

/-- No red node of the context has a red child or is the root. -/
def CtxFair : List (RbFrame α) → Prop
  | [] => True
  | f :: ctx => (f.red = true → isRed f.sib = false ∧ HeadBlack ctx) ∧ Fair f.sib ∧ CtxFair ctx

/-- **Red nodes around a hole.** -/
theorem fair_plug : (Fair (plug ctx t) ∧ isRed (plug ctx t) = false) ↔
    Fair t ∧ CtxFair ctx ∧ (isRed t = true → HeadBlack ctx) := by
  induction ctx generalizing t with
  | nil =>
    simp [plug, CtxFair, HeadBlack]
  | cons f ctx ih =>
    rw [plug, ih, fair_fork, isRed_fork]
    simp only [CtxFair, HeadBlack]
    constructor
    · rintro ⟨⟨hred, ht, hsib⟩, hctx, hhead⟩
      refine ⟨ht, ⟨fun hf => ⟨(hred hf).2, hhead hf⟩, hsib, hctx⟩, fun hr => ?_⟩
      by_contra hf
      have hf : f.red = true := by simpa using hf
      rw [(hred hf).1] at hr
      cases hr
    · rintro ⟨ht, ⟨hred, hsib, hctx⟩, hhead⟩
      refine ⟨⟨fun hf => ⟨?_, (hred hf).1⟩, ht, hsib⟩, hctx, fun hf => (hred hf).2⟩
      by_contra hr
      have := hhead (by simpa using hr)
      rw [this] at hf
      cases hf

/-- A red-black tree: balanced, with a black root, and no red node below a red one. -/
def IsRb (t : RbShape α) : Prop := (∃ n, Bal t n) ∧ Fair t ∧ isRed t = false

/-- The tree with a black root. -/
def blacken : RbShape α → RbShape α
  | nil => nil
  | node _ l x r => node false l x r

@[simp] theorem blacken_fork : blacken (fork d c x a b) = fork d false x a b := by
  cases d <;> rfl

@[simp] theorem toList_blacken (t : RbShape α) : toList (blacken t) = toList t := by
  cases t <;> rfl

@[simp] theorem isRed_blacken (t : RbShape α) : isRed (blacken t) = false := by
  cases t <;> rfl

theorem Fair.blacken (h : Fair t) : Fair (blacken t) := by
  cases t with
  | nil => trivial
  | node c l x r => exact ⟨fun hc => (by cases hc), h.2⟩

/-- A red root made black adds one to the black height. -/
theorem Bal.blacken (h : Bal t n) (hr : isRed t = true) : Bal (blacken t) (n + 1) := by
  cases t with
  | nil => cases hr
  | node c l x r =>
    obtain ⟨k, hl, hr', rfl⟩ := h
    have hc : c = true := hr
    subst hc
    exact ⟨k, hl, hr', rfl⟩

theorem blacken_of_isRed (h : isRed t = false) : blacken t = t := by
  cases t with
  | nil => rfl
  | node c l x r =>
    have hc : c = false := h
    rw [hc]
    rfl

theorem isRb_plug : IsRb (plug ctx t) ↔
    (∃ n, Bal t n ∧ CtxBal ctx n) ∧ Fair t ∧ CtxFair ctx ∧ (isRed t = true → HeadBlack ctx) := by
  rw [IsRb, bal_plug, fair_plug]

end RbShape

end Hengine
