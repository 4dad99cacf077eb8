import Mathlib.Data.Nat.Bitwise
import Mathlib.Algebra.Order.Ring.Nat
import Hengine.Core.RadixTreeOps

/-!
# The Keys of Radix Trees

A walk along a key of 32 bits shifts a bit to the right; one along a key of 16 bytes does so
within a byte and then goes on to the next byte. Either way it reads a number from its top bit
down. The loops of the three functions for 16 bytes end differently after the last bit, and a
search may even read beyond it; that makes no difference to the bits that matter.
-/

namespace Hengine

open List

/-- The bits of a number of `W` bits, from the top. -/
def topBits (W v : ℕ) : List Bool := (List.range W).map fun j => v.testBit (W - 1 - j)

/-- The bits of a key under the leading ones of a mask. -/
def maskedBits (W key mask : ℕ) : List Bool :=
  ((List.range W).takeWhile fun j => mask.testBit (W - 1 - j)).map fun j => key.testBit (W - 1 - j)

/-- The number that some bytes are, the first of them at the top. -/
@[grind =]
def bigEndian (key : ℕ → UInt8) : ℕ → ℕ
  | 0 => 0
  | n + 1 => 2 ^ 8 * bigEndian key n + (key n).toNat

namespace RadixTree

variable {κ : Type} {C : BitCursor κ} {W key mask : ℕ} {c : ℕ → κ}

/-- The positions `c` of a cursor are those of the bits of a key and of a mask. The loops end after
the last bit, either there or because the mask has no more bits. -/
structure Spells (C : BitCursor κ) (W key mask : ℕ) (c : ℕ → κ) : Prop where
  keyBit : ∀ j < W, C.keyBit (c j) = key.testBit (W - 1 - j)
  maskBit : ∀ j < W, C.maskBit (c j) = mask.testBit (W - 1 - j)
  advance : ∀ j, j + 1 < W → C.advance (c j) = some (c (j + 1))
  last : ∀ j, j + 1 = W →
    C.advance (c j) = none ∨ C.advance (c j) = some (c W) ∧ C.maskBit (c W) = false

/-- The positions of a cursor are those of the bits of a key, and the cursor never ends. -/
structure Reads (C : BitCursor κ) (W key : ℕ) (c : ℕ → κ) : Prop where
  keyBit : ∀ j < W, C.keyBit (c j) = key.testBit (W - 1 - j)
  advance : ∀ j < W, C.advance (c j) = some (c (j + 1))

/-- From each position on, the loop goes through the bits that are left. -/
theorem Spells.word_from (h : Spells C W key mask c) : ∀ {n j : ℕ}, j + (n + 1) = W →
    Word C (c j) (((List.range' j (n + 1)).takeWhile fun j => mask.testBit (W - 1 - j)).map
      fun j => key.testBit (W - 1 - j)) := by
  intro n
  induction n with
  | zero =>
    intro j hj
    have hlt : j < W := by omega
    by_cases hm : mask.testBit (W - 1 - j) = true
    · have hmask := (h.maskBit j hlt).trans hm
      have hlist : ((List.range' j 1).takeWhile fun j => mask.testBit (W - 1 - j)).map
          (fun j => key.testBit (W - 1 - j)) = [C.keyBit (c j)] := by
        simp [range'_succ, hm, h.keyBit j hlt]
      rw [hlist]
      rcases h.last j (by omega) with hnone | ⟨hsome, hend⟩
      · exact .last hmask hnone
      · exact .step hmask hsome (.stop hend)
    · have hm : mask.testBit (W - 1 - j) = false := by simpa using hm
      have hlist : ((List.range' j 1).takeWhile fun j => mask.testBit (W - 1 - j)).map
          (fun j => key.testBit (W - 1 - j)) = [] := by
        simp [range'_succ, hm]
      rw [hlist]
      exact .stop ((h.maskBit j hlt).trans hm)
  | succ n ih =>
    intro j hj
    have hlt : j < W := by omega
    rw [range'_succ]
    by_cases hm : mask.testBit (W - 1 - j) = true
    · rw [takeWhile_cons_of_pos (by exact hm), map_cons, ← h.keyBit j hlt]
      exact .step ((h.maskBit j hlt).trans hm) (h.advance j (by omega)) (ih (by omega))
    · rw [takeWhile_cons_of_neg (by exact hm), map_nil]
      exact .stop ((h.maskBit j hlt).trans (by simpa using hm))

/-- **The word of an insertion or of a deletion.** -/
theorem Spells.word (h : Spells C W key mask c) (hW : 0 < W) :
    Word C (c 0) (maskedBits W key mask) := by
  obtain ⟨n, rfl⟩ : ∃ n, W = n + 1 := ⟨W - 1, by omega⟩
  rw [maskedBits, range_eq_range']
  exact h.word_from (by omega)

/-- **The bits on the way of a search.** -/
theorem Reads.taken (h : Reads C W key c) {n : ℕ} (hn : n ≤ W) :
    RadixTree.taken C n (c 0) = (topBits W key).take n := by
  have hfrom : ∀ {n j : ℕ}, j + n ≤ W → RadixTree.taken C n (c j) =
      (List.range' j n).map fun j => key.testBit (W - 1 - j) := by
    intro n
    induction n with
    | zero => exact fun _ => rfl
    | succ n ih =>
      intro j hj
      rw [RadixTree.taken, h.keyBit j (by omega), h.advance j (by omega), range'_succ,
        map_cons, Option.elim_some, ih (by omega)]
  rw [hfrom (by omega), topBits, ← map_take, range_eq_range',
    take_range'_of_length_ge hn]

/-! ### Keys of 32 bits -/

/-- The bit that the cursor is at, for the first bit on; after the last one it is zero. -/
def at32 (j : ℕ) : UInt32 := UInt32.ofNat (2 ^ 31 / 2 ^ j)

theorem toNat_at32 (j : ℕ) : (at32 j).toNat = 2 ^ 31 / 2 ^ j := by
  have : 2 ^ 31 / 2 ^ j ≤ 2 ^ 31 := Nat.div_le_self ..
  rw [at32, UInt32.toNat_ofNat_of_lt']
  exact Nat.lt_of_le_of_lt this (by decide)

theorem and_two_pow_ne_zero (n i : ℕ) : (n &&& 2 ^ i != 0) = n.testBit i := by
  rw [Nat.and_two_pow]
  cases n.testBit i <;> simp

/-- The bit under the cursor of a 32-bit key. -/
theorem bit32 (k : UInt32) {j : ℕ} (hj : j < 32) : (k &&& at32 j != 0) = k.toNat.testBit (31 - j) := by
  have hpow : 2 ^ 31 / 2 ^ j = 2 ^ (31 - j) := Nat.pow_div (by omega) (by decide)
  rw [← and_two_pow_ne_zero, ← hpow, ← toNat_at32, ← UInt32.toNat_and, Bool.eq_iff_iff, bne_iff_ne,
    bne_iff_ne, ne_eq, ne_eq, ← UInt32.toNat_inj]
  rfl

theorem at32_shift (j : ℕ) : at32 j >>> 1 = at32 (j + 1) := by
  rw [← UInt32.toNat_inj, UInt32.toNat_shiftRight, toNat_at32, toNat_at32, pow_succ 2 j,
    ← Nat.div_div_eq_div_mul]
  rfl

/-- **The cursor of the functions for 32 bits.** -/
theorem spells32 (k m : UInt32) : Spells (cursor32 k m) 32 k.toNat m.toNat at32 := by
  refine ⟨fun j hj => bit32 k hj, fun j hj => ?_, fun j _ => ?_, fun j hj => Or.inr ⟨?_, ?_⟩⟩
  · rw [← bit32 m hj]
    simp only [cursor32, UInt32.and_comm]
  · simp only [cursor32, at32_shift]
  · simp only [cursor32, at32_shift, hj]
  · simp only [cursor32]
    have : at32 32 = 0 := by decide
    simp [this]

theorem reads32 (k m : UInt32) : Reads (cursor32 k m) 32 k.toNat at32 := by
  refine ⟨fun j hj => bit32 k hj, fun j _ => ?_⟩
  simp only [cursor32, at32_shift]

/-! ### Keys of 16 bytes -/

/-- The byte and the bit that the cursor is at. -/
def at128 (j : ℕ) : ℕ × UInt8 := (j / 8, UInt8.ofNat (2 ^ 7 / 2 ^ (j % 8)))

/-- The mask of the cursor selects one bit of a byte. -/
theorem toNat_at128 (j : ℕ) : (at128 j).2.toNat = 2 ^ (7 - j % 8) := by
  have hpow : 2 ^ 7 / 2 ^ (j % 8) = 2 ^ (7 - j % 8) := Nat.pow_div (by omega) (by decide)
  have hle : 2 ^ (7 - j % 8) ≤ 2 ^ 7 := Nat.pow_le_pow_right (by decide) (by omega)
  rw [at128, hpow, UInt8.toNat_ofNat_of_lt']
  exact Nat.lt_of_le_of_lt hle (by decide)

theorem bit8 (b : UInt8) (j : ℕ) : (b &&& (at128 j).2 != 0) = b.toNat.testBit (7 - j % 8) := by
  rw [← and_two_pow_ne_zero, ← toNat_at128, ← UInt8.toNat_and, Bool.eq_iff_iff, bne_iff_ne,
    bne_iff_ne, ne_eq, ne_eq, ← UInt8.toNat_inj]
  rfl

/-- **A bit of the number is a bit of one of its bytes.** -/
theorem testBit_bigEndian (b : ℕ → UInt8) : ∀ {n j : ℕ}, j < 8 * n →
    (bigEndian b n).testBit (8 * n - 1 - j) = (b (j / 8)).toNat.testBit (7 - j % 8) := by
  intro n
  induction n with
  | zero =>
    intro j hj
    omega
  | succ n ih =>
    intro j hj
    rw [bigEndian, Nat.testBit_two_pow_mul_add _ (b n).toNat_lt]
    by_cases hlast : j < 8 * n
    · -- The bit is in one of the earlier bytes.
      rw [if_neg (by omega), ← ih hlast]
      congr 1
      omega
    · have hn : j / 8 = n := by omega
      rw [if_pos (by omega), hn]
      congr 1
      omega

theorem bit128 (b : ℕ → UInt8) {j : ℕ} (hj : j < 128) :
    (b (at128 j).1 &&& (at128 j).2 != 0) = (bigEndian b 16).testBit (127 - j) := by
  rw [bit8]
  exact (testBit_bigEndian b (show j < 8 * 16 from hj)).symm

/-- Within a byte the bit is shifted, and at its end the next byte follows. -/
theorem at128_shift (j : ℕ) :
    ((at128 j).2 >>> 1 = 0 ↔ j % 8 = 7) ∧
      (j % 8 ≠ 7 → ((at128 j).1, (at128 j).2 >>> 1) = at128 (j + 1)) ∧
      (j % 8 = 7 → ((at128 j).1 + 1, (0x80 : UInt8)) = at128 (j + 1)) := by
  have hdiv : ∀ r < 8, (UInt8.ofNat (2 ^ 7 / 2 ^ r) >>> 1 = 0 ↔ r = 7) ∧
      (r ≠ 7 → UInt8.ofNat (2 ^ 7 / 2 ^ r) >>> 1 = UInt8.ofNat (2 ^ 7 / 2 ^ (r + 1))) := by
    decide
  have hr : j % 8 < 8 := by omega
  refine ⟨(hdiv _ hr).1, fun h7 => ?_, fun h7 => ?_⟩
  · have hq : (j + 1) / 8 = j / 8 := by omega
    have hm : (j + 1) % 8 = j % 8 + 1 := by omega
    simp only [at128, hq, hm, (hdiv _ hr).2 h7]
  · have hq : (j + 1) / 8 = j / 8 + 1 := by omega
    have hm : (j + 1) % 8 = 0 := by omega
    simp only [at128, hq, hm]
    rfl

/-- **The cursor of the functions for 16 bytes** stops after the last bit. -/
theorem spells128 (k m : ℕ → UInt8) :
    Spells (cursor128 k m) 128 (bigEndian k 16) (bigEndian m 16) at128 := by
  refine ⟨fun j hj => bit128 k hj, fun j hj => ?_, fun j hj => ?_, fun j hj => Or.inl ?_⟩
  · rw [← bit128 m hj]
    simp only [cursor128, UInt8.and_comm]
  · obtain ⟨hzero, hshift, hnext⟩ := at128_shift j
    simp only [cursor128, hzero]
    by_cases h7 : j % 8 = 7
    · have hbyte : (at128 j).1 + 1 ≠ 16 := by simp only [at128]; omega
      rw [if_pos h7, if_neg hbyte, hnext h7]
    · rw [if_neg h7, hshift h7]
  · obtain rfl : j = 127 := by omega
    have hzero : (at128 127).2 >>> 1 = 0 := by decide
    have hbyte : (at128 127).1 + 1 = 16 := by decide
    simp only [cursor128, hzero, hbyte, if_true]

/-- The cursor over 16 bytes reads the number they are in network order. -/
theorem reads128 (k : ℕ → UInt8) : Reads (cursorFind128 k) 128 (bigEndian k 16) at128 := by
  refine ⟨fun j hj => bit128 k hj, fun j _ => ?_⟩
  obtain ⟨hzero, hshift, hnext⟩ := at128_shift j
  simp only [cursorFind128, hzero]
  by_cases h7 : j % 8 = 7
  · rw [if_pos h7, hnext h7]
  · rw [if_neg h7, hshift h7]

end RadixTree

/-! ### Contiguous masks -/

/-- **A contiguous mask** of `n` ones cuts a key after its first `n` bits. -/
theorem maskedBits_contiguous {W n : ℕ} (hn : n ≤ W) (key : ℕ) :
    maskedBits W key (2 ^ W - 2 ^ (W - n)) = (topBits W key).take n := by
  have hmask : 2 ^ W - 2 ^ (W - n) = 2 ^ (W - n) * (2 ^ n - 1) := by
    rw [Nat.mul_sub, ← Nat.pow_add, Nat.sub_add_cancel hn, Nat.mul_one]
  have hbit : ∀ j < W, (2 ^ W - 2 ^ (W - n)).testBit (W - 1 - j) = decide (j < n) := by
    intro j hj
    rw [hmask, Nat.testBit_two_pow_mul, Nat.testBit_two_pow_sub_one, Bool.eq_iff_iff]
    simp only [Bool.and_eq_true, decide_eq_true_eq]
    omega
  have htake : (List.range W).takeWhile (fun j => (2 ^ W - 2 ^ (W - n)).testBit (W - 1 - j)) =
      List.range n := by
    obtain ⟨m, rfl⟩ : ∃ m, W = n + m := ⟨W - n, by omega⟩
    rw [range_eq_range', range_eq_range', ← range'_append_1, Nat.zero_add,
      takeWhile_append_of_pos]
    · cases m with
      | zero => simp
      | succ m =>
        rw [range'_succ, takeWhile_cons_of_neg, append_nil]
        rw [hbit n (by omega)]
        simp
    · intro j hj
      rw [mem_range'_1] at hj
      rw [hbit j (by omega), decide_eq_true_eq]
      omega
  rw [maskedBits, htake, topBits, ← map_take, take_range, Nat.min_eq_left hn]

end Hengine
