import Mathlib.Algebra.Order.Ring.Nat
import Mathlib.Data.List.Basic

/-!
# Readers

A reader takes what it needs from the front of a list of symbols and gives a value, or it fails. What
has been written is read back when the reader takes exactly these symbols, whatever follows them:
`Reads r w a` says so, and readers that are put together read what their parts read, one after the
other.

Numbers are written with the highest byte first.
-/

namespace Hengine

open List

/-- A reader of symbols. -/
abbrev Reader (β α : Type) := StateT (List β) Option α

variable {β α γ : Type}

/-- **A reader takes exactly `w`**, whatever follows, and gives `a`. -/
def Reads (r : Reader β α) (w : List β) (a : α) : Prop :=
  ∀ rest, r.run (w ++ rest) = some (a, rest)

theorem reads_pure (a : α) : Reads (pure a : Reader β α) [] a := fun _ => rfl

variable {w : List β} {r : Reader β α}

/-- **One reader after another.** -/
theorem Reads.bind {f : α → Reader β γ} {w w' : List β} {a : α} {c : γ} (h : Reads r w a)
    (h' : Reads (f a) w' c) : Reads (r >>= f) (w ++ w') c := by
  intro rest
  rw [StateT.run_bind, append_assoc, h]
  exact h' rest

theorem Reads.map {a : α} (f : α → γ) (h : Reads r w a) : Reads (f <$> r) w (f a) := by
  intro rest
  rw [StateT.run_map, h]
  rfl

/-! ### Single symbols -/

/-- The next symbol. -/
def Reader.next : Reader β β := fun s =>
  match s with
  | [] => none
  | b :: s => some (b, s)

/-- The next symbol, which stays. -/
def Reader.peek : Reader β β := fun s => s.head?.map fun b => (b, s)

theorem reads_next (b : β) : Reads Reader.next [b] b := fun _ => rfl

theorem run_next_cons (b : β) (s : List β) : (Reader.next : Reader β β).run (b :: s) = some (b, s) :=
  rfl

/-! ### A given number of symbols -/

/-- The next `n` symbols. -/
def Reader.bytes (n : ℕ) : Reader β (List β) := fun s =>
  if n ≤ s.length then some (s.take n, s.drop n) else none

theorem reads_bytes {n : ℕ} (h : w.length = n) : Reads (Reader.bytes n) w w := by
  intro rest
  subst h
  show (if w.length ≤ (w ++ rest).length then _ else _) = _
  rw [if_pos (by simp), take_left, drop_left]

/-! ### Numbers -/

/-- The `n` lowest bytes of a number, highest first. -/
@[grind =]
def numberBytes : ℕ → ℕ → List UInt8
  | 0, _ => []
  | n + 1, v => numberBytes n (v / 256) ++ [UInt8.ofNat v]

/-- The number that the bytes stand for, highest first. -/
def ofNumberBytes (w : List UInt8) : ℕ := w.foldl (fun v b => v * 256 + b.toNat) 0

@[simp]
theorem numberBytes_length (n v : ℕ) : (numberBytes n v).length = n := by
  induction n generalizing v with
  | zero => rfl
  | succ n ih => rw [numberBytes, length_append, ih, length_singleton]

/-- **A number that is read back.** -/
theorem ofNumberBytes_numberBytes (n v : ℕ) : ofNumberBytes (numberBytes n v) = v % 256 ^ n := by
  induction n generalizing v with
  | zero => rw [pow_zero, Nat.mod_one]; rfl
  | succ n ih =>
    have hlast : ofNumberBytes (numberBytes (n + 1) v) =
        ofNumberBytes (numberBytes n (v / 256)) * 256 + (UInt8.ofNat v).toNat := by
      rw [numberBytes, ofNumberBytes, foldl_append]
      rfl
    have hmod : v % 256 ^ (n + 1) = v % 256 + 256 * (v / 256 % 256 ^ n) := by
      rw [Nat.pow_succ, Nat.mul_comm, Nat.mod_mul]
    rw [hlast, ih, hmod, UInt8.toNat_ofNat']
    omega

/-- A number of `n` bytes. -/
def Reader.number (n : ℕ) : Reader UInt8 ℕ := ofNumberBytes <$> Reader.bytes n

/-- **A number in network order** is read back. -/
theorem reads_number {n v : ℕ} (h : v < 256 ^ n) :
    Reads (Reader.number n) (numberBytes n v) v := by
  have hread := (reads_bytes (numberBytes_length n v)).map ofNumberBytes
  rwa [ofNumberBytes_numberBytes, Nat.mod_eq_of_lt h] at hread

end Hengine
