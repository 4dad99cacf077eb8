import Mathlib.Algebra.Order.BigOperators.Group.Finset
import Mathlib.Data.Fintype.BigOperators
import Mathlib.Data.Int.Basic

/-!
# Counting Processes by Where They Are

Finitely many processes are each in a place, and every place counts for something. One process
moves at a time, so the total changes by the difference between two places.
-/

namespace Hengine.Tally

open Function

variable {P C : Type*} [Fintype P]

/-- What the places of all processes count for. -/
def total (f : C → ℤ) (pc : P → C) : ℤ := ∑ p, f (pc p)

variable {f : C → ℤ} {pc : P → C}

/-- **One process moves.** -/
theorem total_update [DecidableEq P] (p : P) (c : C) :
    total f (update pc p c) = total f pc - f (pc p) + f c := by
  have hrest : ∑ q ∈ Finset.univ.erase p, f (update pc p c q) =
      ∑ q ∈ Finset.univ.erase p, f (pc q) := by
    apply Finset.sum_congr rfl
    intro q hq
    rw [update_of_ne (Finset.ne_of_mem_erase hq)]
  rw [total, total, ← Finset.add_sum_erase _ _ (Finset.mem_univ p), hrest, update_self,
    ← Finset.add_sum_erase _ _ (Finset.mem_univ p)]
  omega

theorem exists_neg {p : P} (hp : 0 < f (pc p)) (h : total f pc ≤ 0) : ∃ q, f (pc q) < 0 := by
  by_contra hall
  push Not at hall
  have hle : f (pc p) ≤ total f pc :=
    Finset.single_le_sum (fun q _ => hall q) (Finset.mem_univ p)
  omega

theorem le_total (hf : ∀ c, 0 ≤ f c) (p : P) : f (pc p) ≤ total f pc :=
  Finset.single_le_sum (fun q _ => hf (pc q)) (Finset.mem_univ p)

theorem add_le_total (hf : ∀ c, 0 ≤ f c) {p q : P} (hpq : p ≠ q) :
    f (pc p) + f (pc q) ≤ total f pc :=
  Finset.add_le_sum (fun r _ => hf (pc r)) (Finset.mem_univ p) (Finset.mem_univ q) hpq

theorem total_le_card (hf : ∀ c, f c ≤ 1) : total f pc ≤ Fintype.card P := by
  have hle := Finset.sum_le_card_nsmul Finset.univ (fun p => f (pc p)) 1 fun p _ => hf (pc p)
  simpa [total] using hle

end Hengine.Tally
