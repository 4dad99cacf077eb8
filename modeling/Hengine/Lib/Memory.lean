import Mathlib.Data.List.Basic

/-!
# Memory

A memory of cells, each under an area and an address in it; areas never overlap. Two
operations write: a block copied in from outside, and a copy inside one area that moves
cell by cell to a lower address. What a program keeps are slices, and the lemmas say
which slices a write leaves as they are.
-/

namespace Hengine

open List

/-- A memory with areas `ι` and cells `α`. -/
abbrev Memory (ι α : Type*) := ι → ℕ → α

namespace Memory

variable {ι α : Type*} [DecidableEq ι]

/-- The cells of an area from address `p` up to address `q`. -/
def slice (m : Memory ι α) (a : ι) (p q : ℕ) : List α :=
  (List.range (q - p)).map fun i => m a (p + i)

/-- The memory with `xs` written to area `a` at address `p`. -/
def write (m : Memory ι α) (a : ι) (p : ℕ) (xs : List α) : Memory ι α :=
  fun b i => if b = a ∧ p ≤ i then (xs[i - p]?).getD (m b i) else m b i

/-- `n` cells copied inside an area, one after the other. -/
@[grind =]
def copyForward (m : Memory ι α) (a : ι) (dst src : ℕ) : ℕ → Memory ι α
  | 0 => m
  | n + 1 => copyForward (m.write a dst [m a src]) a (dst + 1) (src + 1) n

/-! ### Slices -/

section Slice

variable {m : Memory ι α} {a b : ι} {p q r : ℕ}

omit [DecidableEq ι] in
@[simp]
theorem slice_length : (m.slice a p q).length = q - p := by
  simp [slice]

omit [DecidableEq ι] in
omit [DecidableEq ι] in
theorem slice_getElem? (i : ℕ) :
    (m.slice a p q)[i]? = if i < q - p then some (m a (p + i)) else none := by
  rw [slice, getElem?_map]
  split
  · rename_i h
    rw [getElem?_range h]
    rfl
  · rename_i h
    rw [getElem?_eq_none (by rw [length_range]; omega)]
    rfl

omit [DecidableEq ι] in
theorem slice_congr {m' : Memory ι α} (h : ∀ i, p ≤ i → i < q → m' a i = m a i) :
    m'.slice a p q = m.slice a p q := by
  refine map_congr_left fun i hi => ?_
  rw [mem_range] at hi
  exact h (p + i) (by omega) (by omega)

omit [DecidableEq ι] in
/-- Neighbouring slices make one. -/
theorem slice_append (h₁ : p ≤ q) (h₂ : q ≤ r) :
    m.slice a p q ++ m.slice a q r = m.slice a p r := by
  refine ext_getElem? fun i => ?_
  rw [slice_getElem?, getElem?_append, slice_length]
  split
  · rename_i hi
    rw [slice_getElem?, if_pos hi, if_pos (by omega)]
  · rename_i hi
    rw [slice_getElem?]
    have haddr : q + (i - (q - p)) = p + i := by omega
    rw [haddr]
    by_cases hr : i < r - p
    · rw [if_pos hr, if_pos (by omega)]
    · rw [if_neg hr, if_neg (by omega)]

omit [DecidableEq ι] in
theorem slice_take {n : ℕ} (h : p + n ≤ q) : (m.slice a p q).take n = m.slice a p (p + n) := by
  rw [← slice_append (q := p + n) (by omega) h]
  exact take_left' (by rw [slice_length]; omega)

omit [DecidableEq ι] in
theorem slice_drop {n : ℕ} (h : p + n ≤ q) : (m.slice a p q).drop n = m.slice a (p + n) q := by
  rw [← slice_append (q := p + n) (by omega) h]
  exact drop_left' (by rw [slice_length]; omega)

end Slice

/-! ### Writes -/

section Write

variable {m : Memory ι α} {a b : ι} {p q s : ℕ} {xs : List α}

variable (xs) in
/-- What was written is read. -/
theorem slice_write_self : (m.write a p xs).slice a p (p + xs.length) = xs := by
  refine ext_getElem? fun i => ?_
  rw [slice_getElem?]
  split
  · rename_i hi
    have hlt : i < xs.length := by omega
    have haddr : p + i - p = i := by omega
    simp [write, haddr, hlt]
  · rename_i hi
    rw [getElem?_eq_none (by omega)]

theorem slice_write_area (h : b ≠ a) : (m.write a s xs).slice b p q = m.slice b p q := by
  refine slice_congr fun i _ _ => ?_
  rw [write, if_neg fun hb => h hb.1]

theorem slice_write_below (h : q ≤ s) : (m.write a s xs).slice b p q = m.slice b p q := by
  refine slice_congr fun i _ hi => ?_
  rw [write, if_neg (by omega)]

theorem slice_write_above (h : s + xs.length ≤ p) :
    (m.write a s xs).slice b p q = m.slice b p q := by
  refine slice_congr fun i hi _ => ?_
  rw [write]
  split
  · rw [getElem?_eq_none (by omega)]
    rfl
  · rfl

end Write

end Memory

end Hengine
