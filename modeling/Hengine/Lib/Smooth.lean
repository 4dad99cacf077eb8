import Mathlib.Algebra.BigOperators.Ring.Finset
import Mathlib.Algebra.Order.BigOperators.Group.Finset
import Mathlib.Tactic.Linarith
import Mathlib.Tactic.Ring

/-!
# Smooth Weighted Round Robin

The schedule in its own terms. Every contender `j` of a finite set `s` carries a signed
counter `c j` and a weight `w j`. In one round every counter grows by its weight, a
contender whose counter is then largest is picked, and the picked one pays back the
total weight `∑ w`. Ties may be broken in any way: nothing below looks at how.

## Main results

* `Rounds.counter`: after a list of picks the counter of `j` is its start value plus one
  weight for each round minus one total weight for each time `j` was picked.
* `Rounds.lower`: no counter ever falls to minus the total weight.
* `Rounds.exact`: **exactness** — from all-zero counters, after `k` rounds in which
  `k * w j` is the multiple `n j` of the total weight for every `j`, contender `j` was
  picked exactly `n j` times and every counter is zero again. The full period is `k = ∑ w`
  with `n = w`; a common divisor of the weights gives a shorter one.
-/

namespace Hengine.Smooth

open List

variable {ι : Type*} [DecidableEq ι] {s : Finset ι} {w : ι → ℤ}

/-- One round from counters `c` to counters `c'`, picking `i`. -/
structure Round (s : Finset ι) (w c : ι → ℤ) (i : ι) (c' : ι → ℤ) : Prop where
  mem : i ∈ s
  max : ∀ j ∈ s, c j + w j ≤ c i + w i
  pay : ∀ j ∈ s, c' j = c j + w j - if j = i then ∑ k ∈ s, w k else 0

/-- A list of rounds from counters `c`, with the picks oldest first. -/
inductive Rounds (s : Finset ι) (w : ι → ℤ) (c : ι → ℤ) : List ι → (ι → ℤ) → Prop
  | nil : Rounds s w c [] c
  | snoc {is : List ι} {i : ι} {c' c'' : ι → ℤ} :
      Rounds s w c is c' → Round s w c' i c'' → Rounds s w c (is ++ [i]) c''

variable {c c' : ι → ℤ} {is : List ι}

/-- A round keeps the sum of the current weights. -/
theorem Round.sum_eq {i : ι} (h : Round s w c i c') : ∑ j ∈ s, c' j = ∑ j ∈ s, c j := by
  have hpay : ∑ j ∈ s, c' j
      = ∑ j ∈ s, (c j + w j - if j = i then ∑ k ∈ s, w k else 0) :=
    Finset.sum_congr rfl h.pay
  rw [hpay, Finset.sum_sub_distrib, Finset.sum_add_distrib, Finset.sum_ite_eq',
    if_pos h.mem]
  ring

/-- With counters that sum to zero and a positive total weight the picked counter is
positive before it pays, so it stays above minus the total weight. -/
theorem Round.lower {i : ι} (h : Round s w c i c') (hsum : ∑ j ∈ s, c j = 0)
    (hpos : 0 < ∑ j ∈ s, w j) (hw : ∀ j ∈ s, 0 ≤ w j) (hlow : ∀ j ∈ s, -(∑ k ∈ s, w k) < c j) :
    ∀ j ∈ s, -(∑ k ∈ s, w k) < c' j := by
  have hbest : 0 < c i + w i := by
    by_contra hle
    have hall : ∑ j ∈ s, (c j + w j) ≤ 0 :=
      Finset.sum_nonpos fun j hj => le_trans (h.max j hj) (not_lt.mp hle)
    rw [Finset.sum_add_distrib, hsum] at hall
    omega
  intro j hj
  rw [h.pay j hj]
  by_cases hji : j = i
  · rw [if_pos hji, hji]
    omega
  · rw [if_neg hji]
    have := hlow j hj
    have := hw j hj
    omega

section

variable (h : Rounds s w c is c')
include h

theorem Rounds.mem : ∀ i ∈ is, i ∈ s := by
  induction h with
  | nil =>
    intro i hi
    simp at hi
  | snoc _ hr ih =>
    intro i hi
    rcases mem_append.mp hi with hi | hi
    · exact ih i hi
    · rw [mem_singleton.mp hi]
      exact hr.mem

/-- The counter after a list of rounds. -/
theorem Rounds.counter : ∀ j ∈ s, c' j = c j + is.length * w j - is.count j * ∑ k ∈ s, w k := by
  induction h with
  | nil =>
    intro j _
    simp
  | @snoc is i c' c'' _ hr ih =>
    intro j hj
    rw [hr.pay j hj, ih j hj, length_append, count_append]
    by_cases hji : j = i
    · subst hji
      simp only [if_true, length_singleton, count_singleton_self]
      push_cast
      ring
    · have hcount : [i].count j = 0 := count_eq_zero.mpr (by simpa using hji)
      rw [if_neg hji, hcount]
      push_cast
      simp only [length_singleton, Nat.cast_one]
      ring

theorem Rounds.sum_eq : ∑ j ∈ s, c' j = ∑ j ∈ s, c j := by
  induction h with
  | nil => rfl
  | snoc _ hr ih => rw [hr.sum_eq, ih]

/-- **No current weight** falls below the negative total. -/
theorem Rounds.lower (hsum : ∑ j ∈ s, c j = 0) (hpos : 0 < ∑ j ∈ s, w j) (hw : ∀ j ∈ s, 0 ≤ w j)
    (hlow : ∀ j ∈ s, -(∑ k ∈ s, w k) < c j) : ∀ j ∈ s, -(∑ k ∈ s, w k) < c' j := by
  induction h with
  | nil => exact hlow
  | snoc hrs hr ih => exact hr.lower (by rw [hrs.sum_eq, hsum]) hpos hw ih

/-- The rounds are those of all together. -/
theorem Rounds.sum_count : ∑ j ∈ s, (is.count j : ℤ) = is.length := by
  have hsub : is.toFinset ⊆ s := by
    intro i hi
    exact h.mem i (mem_toFinset.mp hi)
  have hnat : ∑ j ∈ s, is.count j = is.length := by
    rw [← sum_toFinset_count_eq_length is]
    refine (Finset.sum_subset hsub ?_).symm
    intro j _ hj
    exact count_eq_zero.mpr fun hm => hj (mem_toFinset.mpr hm)
  exact_mod_cast hnat

/-- **Exactness.** If after `k` rounds from zero every `k * w j` is the total weight
times `n j`, then every contender `j` was picked exactly `n j` times and every counter
is back at zero. The lower bound on the counters leaves no contender more than its
share, and the shares add up to the number of rounds. -/
theorem Rounds.exact {n : ι → ℤ} (hzero : ∀ j ∈ s, c j = 0) (hw : ∀ j ∈ s, 0 ≤ w j)
    (hpos : 0 < ∑ j ∈ s, w j) (hn : ∀ j ∈ s, (is.length : ℤ) * w j = n j * ∑ k ∈ s, w k) :
    ∀ j ∈ s, (is.count j : ℤ) = n j ∧ c' j = 0 := by
  set T := ∑ k ∈ s, w k with hT
  have hsum : ∑ j ∈ s, c j = 0 := Finset.sum_eq_zero hzero
  have hc : ∀ j ∈ s, c' j = (n j - is.count j) * T := by
    intro j hj
    rw [h.counter j hj, hzero j hj, hn j hj]
    ring
  have hle : ∀ j ∈ s, (is.count j : ℤ) ≤ n j := by
    intro j hj
    have hlow : -T < c' j := by
      refine h.lower hsum hpos hw ?_ j hj
      intro k hk
      rw [hzero k hk]
      omega
    rw [hc j hj] at hlow
    by_contra hgt
    have hneg : n j - is.count j ≤ -1 := by omega
    have : (n j - is.count j) * T ≤ -1 * T := mul_le_mul_of_nonneg_right hneg hpos.le
    omega
  have hshares : ∑ j ∈ s, n j = is.length := by
    have hmul : (is.length : ℤ) * T = (∑ j ∈ s, n j) * T := by
      calc (is.length : ℤ) * T = ∑ j ∈ s, (is.length : ℤ) * w j := by
            rw [hT, Finset.mul_sum]
        _ = ∑ j ∈ s, n j * T := Finset.sum_congr rfl hn
        _ = (∑ j ∈ s, n j) * T := by rw [Finset.sum_mul]
    exact (mul_right_cancel₀ hpos.ne' hmul).symm
  have heq : ∑ j ∈ s, (is.count j : ℤ) = ∑ j ∈ s, n j := by
    rw [h.sum_count, hshares]
  have hcount : ∀ j ∈ s, (is.count j : ℤ) = n j :=
    (Finset.sum_eq_sum_iff_of_le hle).mp heq
  intro j hj
  refine ⟨hcount j hj, ?_⟩
  rw [hc j hj, hcount j hj]
  ring

end

end Hengine.Smooth
