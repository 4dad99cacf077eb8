import Mathlib.Algebra.Order.Ring.Nat
import Mathlib.Data.List.Basic

/-!
# Prefix Codes

A prefix code gives every symbol a word of bits such that no word starts with another. It
is the same as a binary tree with the symbols at its leaves, and the tree is how one checks
the property: it is enough to walk the word of each symbol once.

Words are often kept as numbers; `bitsOf n v` are the `n` lowest bits of `v`, highest first.
-/

namespace Hengine

open List

/-! ### Bits of numbers -/

/-- The `n` lowest bits of `v`, highest first. -/
@[grind =]
def bitsOf : ℕ → ℕ → List Bool
  | 0, _ => []
  | n + 1, v => v.testBit n :: bitsOf n v

@[simp]
theorem bitsOf_length (n v : ℕ) : (bitsOf n v).length = n := by
  induction n with
  | zero => rfl
  | succ n ih => rw [bitsOf, length_cons, ih]

theorem testBit_mem_bitsOf {n v j : ℕ} (h : j < n) : v.testBit j ∈ bitsOf n v := by
  induction n with
  | zero => omega
  | succ n ih =>
    rw [bitsOf, mem_cons]
    rcases Nat.lt_succ_iff_lt_or_eq.mp h with hlt | rfl
    · exact Or.inr (ih hlt)
    · exact Or.inl rfl

theorem bitsOf_congr {n v w : ℕ} (h : ∀ j < n, v.testBit j = w.testBit j) :
    bitsOf n v = bitsOf n w := by
  induction n with
  | zero => rfl
  | succ n ih => rw [bitsOf, bitsOf, h n (Nat.lt_succ_self n), ih fun j hj => h j (by omega)]

/-- **Appending bits** is shifting to the left. -/
theorem bitsOf_append {a b x y : ℕ} (hy : y < 2 ^ b) :
    bitsOf (a + b) (x * 2 ^ b + y) = bitsOf a x ++ bitsOf b y := by
  induction a with
  | zero =>
    rw [Nat.zero_add]
    refine bitsOf_congr fun j hj => ?_
    rw [Nat.mul_comm, Nat.testBit_two_pow_mul_add x hy, if_pos hj]
  | succ a ih =>
    have hbit : (x * 2 ^ b + y).testBit (a + b) = x.testBit a := by
      rw [Nat.mul_comm, Nat.testBit_two_pow_mul_add x hy, if_neg (by omega), Nat.add_sub_cancel]
    rw [Nat.add_right_comm, bitsOf, ih, hbit, bitsOf, cons_append]

/-- The bits of a number, in two parts. -/
theorem bitsOf_split (a b v : ℕ) : bitsOf (a + b) v = bitsOf a (v / 2 ^ b) ++ bitsOf b (v % 2 ^ b) := by
  have h := bitsOf_append (a := a) (x := v / 2 ^ b) (Nat.mod_lt v (Nat.two_pow_pos b))
  rwa [Nat.mul_comm, Nat.div_add_mod] at h

theorem bitsOf_mod (n v : ℕ) : bitsOf n (v % 2 ^ n) = bitsOf n v :=
  bitsOf_congr fun j hj => by rw [Nat.testBit_mod_two_pow, decide_eq_true hj, Bool.true_and]

/-- The bits of the largest number are ones. -/
theorem bitsOf_ones (n : ℕ) : bitsOf n (2 ^ n - 1) = List.replicate n true := by
  have h : ∀ k ≤ n, bitsOf k (2 ^ n - 1) = List.replicate k true := by
    intro k
    induction k with
    | zero =>
      intro _
      rfl
    | succ k ih =>
      intro hk
      rw [bitsOf, ih (by omega), replicate_succ, Nat.testBit_two_pow_sub_one,
        decide_eq_true (by omega)]
  exact h n (Nat.le_refl n)

/-- Bits that are all ones make the largest number. -/
theorem bitsOf_eq_ones {n : ℕ} : ∀ {v : ℕ}, v < 2 ^ n → (∀ b ∈ bitsOf n v, b = true) →
    v = 2 ^ n - 1 := by
  intro v hv h
  refine Nat.eq_of_testBit_eq fun j => ?_
  rw [Nat.testBit_two_pow_sub_one]
  by_cases hj : j < n
  · rw [decide_eq_true hj]
    exact h _ (testBit_mem_bitsOf hj)
  · rw [decide_eq_false hj]
    exact Nat.testBit_lt_two_pow (Nat.lt_of_lt_of_le hv (Nat.pow_le_pow_right (by omega) (by omega)))

/-! ### Code trees -/

/-- A binary tree with symbols at its leaves; a path that no word takes is `dead`. -/
inductive CodeTree (α : Type*)
  | dead
  | leaf (a : α)
  | node (zero one : CodeTree α)

namespace CodeTree

variable {α : Type*} {t : CodeTree α} {code : α → List Bool} {a b : α} {x y : List Bool}

/-- Where a path leads. -/
@[grind =]
def walk : CodeTree α → List Bool → CodeTree α
  | t, [] => t
  | node zero one, b :: bs => walk (if b then one else zero) bs
  | dead, _ :: _ => dead
  | leaf _, _ :: _ => dead

/-- The tree with one more word. -/
@[grind =]
def insert : List Bool → α → CodeTree α → CodeTree α
  | [], a, _ => leaf a
  | true :: bs, a, node zero one => node zero (insert bs a one)
  | false :: bs, a, node zero one => node (insert bs a zero) one
  | true :: bs, a, _ => node dead (insert bs a dead)
  | false :: bs, a, _ => node (insert bs a dead) dead

/-- Whether the node is an inner one. -/
def isNode : CodeTree α → Bool
  | node _ _ => true
  | _ => false

/-- Whether the node is the leaf of a symbol. -/
def isLeaf [DecidableEq α] (a : α) : CodeTree α → Bool
  | leaf b => b = a
  | _ => false

/-- The inner nodes from left to right, a node before those below it: the bits of the path to each,
as a number, and how many they are. `v` and `n` are those of the path to the tree. -/
def inner : CodeTree α → ℕ → ℕ → List (ℕ × ℕ)
  | node zero one, v, n => (v, n) :: (inner zero (2 * v) (n + 1) ++ inner one (2 * v + 1) (n + 1))
  | _, _, _ => []

theorem eq_leaf [DecidableEq α] (h : t.isLeaf a = true) : t = leaf a := by
  cases t with
  | dead => cases h
  | leaf b =>
    simp only [isLeaf, decide_eq_true_eq] at h
    rw [h]
  | node zero one => cases h

/-- A path is walked piece by piece. -/
theorem walk_append (x y : List Bool) : ∀ t : CodeTree α, t.walk (x ++ y) = (t.walk x).walk y := by
  induction x with
  | nil =>
    intro t
    cases t <;> rfl
  | cons b x ih =>
    intro t
    cases t with
    | dead =>
      rw [cons_append, walk, walk]
      cases y <;> rfl
    | leaf c =>
      rw [cons_append, walk, walk]
      cases y <;> rfl
    | node zero one => exact ih _

/-- The word of each symbol leads to its leaf. -/
def Fits (t : CodeTree α) (code : α → List Bool) : Prop := ∀ a, t.walk (code a) = leaf a

theorem Fits.eq_of_append (h : t.Fits code) (hab : code a ++ x = code b) : a = b := by
  have hb := h b
  rw [← hab, walk_append, h a] at hb
  cases x with
  | nil => exact leaf.inj hb
  | cons c x => cases hb

/-- **Texts are read in one way only.** -/
theorem Fits.append_inj (h : t.Fits code) (hxy : code a ++ x = code b ++ y) : a = b ∧ x = y := by
  have hab : a = b := by
    rcases append_eq_append_iff.mp hxy with ⟨z, hz, -⟩ | ⟨z, hz, -⟩
    · exact h.eq_of_append hz.symm
    · exact (h.eq_of_append hz.symm).symm
  subst hab
  exact ⟨rfl, append_cancel_left hxy⟩

/-- **The path to an inner node** starts with no word. -/
theorem Fits.inner_path (h : t.Fits code) (hx : (t.walk x).isNode = true) :
    ¬ code a ++ y = x := by
  rintro rfl
  rw [walk_append, h a] at hx
  cases y with
  | nil => cases hx
  | cons c y => cases hx

/-- By the induction that lists them. -/
theorem isNode_below (root t : CodeTree α) : ∀ {v n : ℕ}, root.walk (bitsOf n v) = t →
    ∀ p ∈ t.inner v n, (root.walk (bitsOf p.2 p.1)).isNode = true := by
  induction t with
  | dead | leaf _ => exact fun _ p hp => nomatch hp
  | node zero one ihz iho =>
    intro v n ht p hp
    rcases mem_cons.mp hp with rfl | hp
    · rw [ht, isNode]
    have hbits (b : ℕ) (hb : b < 2) : root.walk (bitsOf (n + 1) (2 * v + b)) =
        (node zero one).walk (bitsOf 1 b) := by
      rw [bitsOf_split, walk_append, ← ht]
      congr 3 <;> omega
    rcases mem_append.mp hp with hp | hp
    · exact ihz (hbits 0 Nat.two_pos) p hp
    · exact iho (hbits 1 Nat.one_lt_two) p hp

/-- **The inner nodes** are those that are listed. -/
theorem isNode_of_mem_inner {root : CodeTree α} {p : ℕ × ℕ} (hp : p ∈ root.inner 0 0) :
    (root.walk (bitsOf p.2 p.1)).isNode = true :=
  isNode_below root root (by cases root <;> rfl) p hp

end CodeTree

end Hengine
