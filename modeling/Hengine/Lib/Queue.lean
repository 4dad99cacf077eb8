import Mathlib.Data.Nat.ModEq

/-!
# Queues in an Array

A queue in an array of `N` places with two indices that go round. Nothing checks that there is
room: if more is put in than the array holds, the oldest entries are overwritten, and whenever
`N` entries have been put in that way, the queue looks as if they had never been there.
-/

namespace Hengine

open List Function

variable {α : Type*} {N head tail : ℕ} {q : ℕ → α} {R : List α} {x : α}

/-- The array holds what has been put into the queue, less what has been overwritten. -/
structure QueueRep (N : ℕ) (q : ℕ → α) (head tail : ℕ) (R : List α) : Prop where
  tail_lt : tail < N
  head_eq : head = (tail + R.length) % N
  entry : ∀ j (h : j < R.length), R.length ≤ j + N → q ((tail + j) % N) = R[j]

/-- An entry more. -/
theorem QueueRep.push (h : QueueRep N q head tail R) (x : α) :
    QueueRep N (update q head x) ((head + 1) % N) tail (R ++ [x]) := by
  refine ⟨h.tail_lt, ?_, fun j hj hle => ?_⟩
  · rw [h.head_eq, length_append, length_singleton, Nat.mod_add_mod, Nat.add_assoc]
  · rw [length_append, length_singleton] at hj hle
    by_cases hlast : j = R.length
    · subst hlast
      rw [← h.head_eq, update_self]
      simp
    · have hlt : j < R.length := by omega
      -- The entries that count are fewer than the places, so none of them is overwritten.
      have hne : (tail + j) % N ≠ head := by
        rw [h.head_eq]
        intro heq
        have hdvd := (Nat.modEq_iff_dvd' (show tail + j ≤ tail + R.length by omega)).mp heq
        have hpos : 0 < tail + R.length - (tail + j) := by omega
        have := Nat.le_of_dvd hpos hdvd
        omega
      rw [update_of_ne hne, h.entry j hlt (by omega)]
      simp [getElem_append_left, hlt]

/-- The oldest entry. -/
theorem QueueRep.pop (h : QueueRep N q head tail (x :: R)) (hlen : R.length < N) :
    q tail = x ∧ QueueRep N q head ((tail + 1) % N) R := by
  have hN : 0 < N := Nat.zero_lt_of_lt h.tail_lt
  constructor
  · have := h.entry 0 (by simp) (by rw [length_cons]; omega)
    rw [Nat.add_zero, Nat.mod_eq_of_lt h.tail_lt] at this
    exact this
  · refine ⟨Nat.mod_lt _ hN, ?_, fun j hj hle => ?_⟩
    · rw [h.head_eq, length_cons, Nat.mod_add_mod]
      congr 1
      omega
    · have := h.entry (j + 1) (by rw [length_cons]; omega) (by rw [length_cons]; omega)
      rw [Nat.mod_add_mod, show tail + 1 + j = tail + (j + 1) by omega, this]
      rfl

/-- The indices are equal if nothing is in the queue, unless it is full. -/
theorem QueueRep.empty_iff (h : QueueRep N q head tail R) (hlen : R.length < N) :
    head = tail ↔ R = [] := by
  rw [h.head_eq]
  constructor
  · intro heq
    rw [← length_eq_zero_iff]
    have htail := h.tail_lt
    by_cases hwrap : tail + R.length < N
    · rw [Nat.mod_eq_of_lt hwrap] at heq
      omega
    · rw [Nat.mod_eq_sub_mod (by omega), Nat.mod_eq_of_lt (by omega)] at heq
      omega
  · rintro rfl
    exact Nat.mod_eq_of_lt h.tail_lt

/-- **Without room** the queue keeps the latest entries only, as many as do not fill the array. -/
theorem QueueRep.wrap (h : QueueRep N q head tail R) :
    QueueRep N q head tail (R.drop (R.length / N * N)) := by
  have hlen : R.length / N * N ≤ R.length := Nat.div_mul_le_self ..
  refine ⟨h.tail_lt, ?_, fun j hj hle => ?_⟩
  · rw [h.head_eq, length_drop]
    have hsplit : tail + R.length = tail + (R.length - R.length / N * N) + R.length / N * N := by
      omega
    rw [hsplit, Nat.add_mul_mod_self_right]
  · rw [length_drop] at hj hle
    rw [getElem_drop, ← h.entry (R.length / N * N + j) (by omega) (by omega)]
    congr 1
    rw [show tail + (R.length / N * N + j) = tail + j + R.length / N * N by omega,
      Nat.add_mul_mod_self_right]

theorem QueueRep.length_wrap (h : QueueRep N q head tail R) :
    (R.drop (R.length / N * N)).length < N := by
  have hN : 0 < N := Nat.zero_lt_of_lt h.tail_lt
  have hmod := Nat.mod_lt R.length hN
  have hdiv := Nat.div_add_mod' R.length N
  rw [length_drop]
  omega

end Hengine
