import Mathlib.Algebra.Order.Ring.Nat
import Mathlib.Data.List.Basic

/-!
# Numerals

Numbers as they are written: the digits in a base `k + 2`, the highest first, and at least one of them.
What reads a numeral digit by digit is followed with `numeral_induction`, which lets a numeral grow at its
end.

What a text of digits denotes is a fold over the text.
-/

namespace Hengine

open List Option

variable {α : Type*}

/-- The digits of a number, written with the characters `c`. -/
def numeral (c : ℕ → α) (k n : ℕ) : List α :=
  if n < k + 2 then [c n] else numeral c k (n / (k + 2)) ++ [c (n % (k + 2))]
termination_by n
decreasing_by exact Nat.div_lt_self (by omega) (by omega)

variable {c : ℕ → α} {k : ℕ}

theorem numeral_digit {d : ℕ} (h : d < k + 2) : numeral c k d = [c d] := by
  rw [numeral, if_pos h]

/-- One more digit at the end. -/
theorem numeral_snoc {n d : ℕ} (hn : 0 < n) (hd : d < k + 2) :
    numeral c k (n * (k + 2) + d) = numeral c k n ++ [c d] := by
  have hbase : 0 < k + 2 := by omega
  have hge : ¬ n * (k + 2) + d < k + 2 := by
    have := Nat.le_mul_of_pos_left (k + 2) hn
    omega
  rw [numeral, if_neg hge, Nat.add_comm, Nat.add_mul_div_right _ _ hbase, Nat.div_eq_of_lt hd,
    Nat.zero_add, Nat.add_mul_mod_self_right, Nat.mod_eq_of_lt hd]

/-- **Numerals grow from one digit**, the highest, by more of them at the end. -/
theorem numeral_induction {P : ℕ → List α → Prop} (digit : ∀ d < k + 2, P d [c d])
    (snoc : ∀ n d, 0 < n → d < k + 2 → P n (numeral c k n) →
      P (n * (k + 2) + d) (numeral c k n ++ [c d])) (n : ℕ) : P n (numeral c k n) := by
  induction n using Nat.strongRecOn with
  | _ n ih =>
    by_cases hlt : n < k + 2
    · rw [numeral_digit hlt]
      exact digit n hlt
    · have hbase : 0 < k + 2 := by omega
      have hpos : 0 < n / (k + 2) := Nat.div_pos (by omega) hbase
      have hmod : n % (k + 2) < k + 2 := Nat.mod_lt _ hbase
      have hsplit : n / (k + 2) * (k + 2) + n % (k + 2) = n := Nat.div_add_mod' n (k + 2)
      have hgrown := snoc _ _ hpos hmod (ih _ (Nat.div_lt_self (by omega) (by omega)))
      rwa [← numeral_snoc hpos hmod, hsplit] at hgrown

theorem numeral_ne_nil (n : ℕ) : numeral c k n ≠ [] := by
  induction n using numeral_induction (c := c) (k := k) with
  | digit => simp
  | snoc => simp

/-- A numeral has digits only. -/
theorem mem_numeral (n : ℕ) : ∀ x ∈ numeral c k n, ∃ d < k + 2, x = c d := by
  refine numeral_induction (P := fun _ s => ∀ x ∈ s, ∃ d < k + 2, x = c d) ?_ ?_ n
  · intro d hd x hx
    exact ⟨d, hd, mem_singleton.1 hx⟩
  · intro n d _ hd ih x hx
    rcases mem_append.1 hx with hx | hx
    · exact ih x hx
    · exact ⟨d, hd, mem_singleton.1 hx⟩

theorem map_numeral {β : Type*} (f : α → β) (n : ℕ) :
    (numeral c k n).map f = numeral (f ∘ c) k n := by
  induction n using numeral_induction (c := f ∘ c) (k := k) with
  | digit d hd => rw [numeral_digit hd]; rfl
  | snoc n d hn hd ih => rw [numeral_snoc hn hd, map_append, ih]; rfl

/-- **The value of a numeral** is the number. -/
theorem foldl_numeral {v : α → ℕ} (hv : ∀ d < k + 2, v (c d) = d) (n : ℕ) :
    (numeral c k n).foldl (fun acc x => acc * (k + 2) + v x) 0 = n := by
  refine numeral_induction
    (P := fun n s => s.foldl (fun acc x => acc * (k + 2) + v x) 0 = n) ?_ ?_ n
  · intro d hd
    rw [foldl_cons, foldl_nil, hv d hd, Nat.zero_mul, Nat.zero_add]
  · intro n d _ hd ih
    rw [foldl_append, ih, foldl_cons, foldl_nil, hv d hd]

/-- The length of a numeral. -/
theorem length_numeral_le (m : ℕ) : ∀ {n : ℕ}, n < (k + 2) ^ (m + 1) →
    (numeral c k n).length ≤ m + 1 := by
  induction m with
  | zero =>
    intro n hn
    rw [numeral_digit (by simpa using hn)]
    exact Nat.le_refl 1
  | succ m ih =>
    intro n hn
    by_cases hlt : n < k + 2
    · rw [numeral_digit hlt, length_singleton]
      omega
    · have hdiv : n / (k + 2) < (k + 2) ^ (m + 1) := by
        rw [Nat.div_lt_iff_lt_mul (by omega), ← Nat.pow_succ]
        exact hn
      rw [numeral, if_neg hlt, length_append, length_singleton]
      exact Nat.succ_le_succ (ih hdiv)

/-! ### Texts of digits -/

variable {digit : α → Option ℕ} {b : ℕ}

/-- The number that a text denotes whose digits stand behind those of `v`. -/
def denoteFrom (digit : α → Option ℕ) (b v : ℕ) (s : List α) : Option ℕ :=
  s.foldlM (fun v x => (digit x).map fun d => v * b + d) v

/-- The number that a text denotes, which has a digit. -/
def denote (digit : α → Option ℕ) (b : ℕ) (s : List α) : Option ℕ :=
  if s.isEmpty then none else denoteFrom digit b 0 s

@[simp]
theorem denoteFrom_nil (v : ℕ) : denoteFrom digit b v [] = some v := rfl

theorem denoteFrom_cons (v : ℕ) (x : α) (s : List α) :
    denoteFrom digit b v (x :: s) = (digit x).bind fun d => denoteFrom digit b (v * b + d) s := by
  cases hx : digit x <;> simp [denoteFrom, hx]

/-- Reading on does not make a number smaller. -/
theorem le_denoteFrom (hb : 0 < b) : ∀ {s : List α} {v n : ℕ}, denoteFrom digit b v s = some n → v ≤ n
  | [], v, n, h => by
    rw [denoteFrom_nil, some_inj] at h
    exact h.le
  | x :: s, v, n, h => by
    rw [denoteFrom_cons] at h
    obtain ⟨d, -, h⟩ := bind_eq_some_iff.1 h
    have hgrown := le_denoteFrom hb h
    have := Nat.le_mul_of_pos_right v hb
    omega

/-- A number beyond the limit stays beyond it. -/
theorem filter_denoteFrom_eq_none (hb : 0 < b) {max v : ℕ} (h : max < v) (s : List α) :
    (denoteFrom digit b v s).filter (· ≤ max) = none := by
  cases hn : denoteFrom digit b v s with
  | none => rfl
  | some n =>
    have := le_denoteFrom hb hn
    rw [filter_some, if_neg (by simp; omega)]

end Hengine
