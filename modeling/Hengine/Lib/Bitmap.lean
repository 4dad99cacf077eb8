import Mathlib.Data.List.Basic
import Mathlib.Data.Nat.Bits
import Mathlib.Tactic.Ring

/-!
# Machine Words as Bitmaps

A machine word is a `BitVec 64`; the code tests bit `i` with `x & (1 << i)`, sets it with
`x |= 1 << i` and clears it with `x &= ~(1 << i)`. A bitmap is a list of words in which
bit `i` lives in word `i / 64` at position `i % 64`. The lemmas below turn each of these
operations into its effect on the single bits, which is all later proofs look at.
-/

namespace Hengine

open List

/-- A machine word of the 64-bit build (`uintptr_t`). -/
abbrev Word := BitVec 64

/-- `(uintptr_t) 1 << i`. -/
def bit (i : ℕ) : Word := 1#64 <<< i

/-- `x & (1 << i)` as a truth value. -/
def Word.test (x : Word) (i : ℕ) : Bool := (x &&& bit i) != 0#64

/-- The bits of a word with one bit. -/
theorem getLsbD_bit {i : ℕ} (hi : i < 64) (j : ℕ) :
    (bit i).getLsbD j = decide (j = i) := by
  rw [bit, BitVec.getLsbD_shiftLeft]
  by_cases hj : j = i
  · subst hj
    simp [hi]
  · rcases Nat.lt_or_gt_of_ne hj with h | h
    · simp [h, hj]
    · have : ¬ (j - i = 0) := by omega
      simp [hj, this, BitVec.getLsbD_one]

/-- Testing the mask `1 << i` reads bit `i`. -/
theorem Word.test_eq_getLsbD (x : Word) {i : ℕ} (hi : i < 64) :
    x.test i = x.getLsbD i := by
  cases hx : x.getLsbD i with
  | false =>
    have hz : x &&& bit i = 0#64 := by
      apply BitVec.eq_of_getLsbD_eq
      intro j _
      rw [BitVec.getLsbD_and, getLsbD_bit hi, BitVec.getLsbD_zero]
      by_cases hj : j = i
      · simp [hj, hx]
      · simp [hj]
    simp [Word.test, hz]
  | true =>
    have hnz : x &&& bit i ≠ 0#64 := by
      intro hz
      have hb := congrArg (fun y : Word => y.getLsbD i) hz
      simp only [BitVec.getLsbD_and, getLsbD_bit hi, hx, BitVec.getLsbD_zero] at hb
      simp at hb
    simpa [Word.test] using hnz

theorem getLsbD_or_bit (x : Word) {i : ℕ} (hi : i < 64) (j : ℕ) :
    (x ||| bit i).getLsbD j = (decide (j = i) || x.getLsbD j) := by
  rw [BitVec.getLsbD_or, getLsbD_bit hi, Bool.or_comm]

theorem getLsbD_and_not_bit (x : Word) {i j : ℕ} (hi : i < 64) (hj : j < 64) :
    (x &&& ~~~(bit i)).getLsbD j = (!decide (j = i) && x.getLsbD j) := by
  rw [BitVec.getLsbD_and, BitVec.getLsbD_not, getLsbD_bit hi, Bool.and_comm]
  simp [hj]

theorem bit_succ (i : ℕ) : bit i <<< 1 = bit (i + 1) := by
  rw [bit, bit, BitVec.shiftLeft_add]

theorem and_bit_eq_zero (x : Word) {i : ℕ} (hi : i < 64) :
    x &&& bit i = 0#64 ↔ x.getLsbD i = false := by
  have htest := x.test_eq_getLsbD hi
  rw [Word.test] at htest
  rw [← htest, bne_eq_false_iff_eq]

/-- The lowest bits are set, and no others. -/
theorem getLsbD_lowMask {n : ℕ} (hn : n < 64) (b : ℕ) :
    ((1#64 <<< n) - 1#64).getLsbD b = decide (b < n) := by
  have hlt : 2 ^ n < 2 ^ 64 := Nat.pow_lt_pow_right (by omega) hn
  have hpos : 0 < 2 ^ n := Nat.two_pow_pos n
  have hshift : (1#64 <<< n).toNat = 2 ^ n := by
    rw [BitVec.toNat_shiftLeft, Nat.shiftLeft_eq, BitVec.toNat_ofNat,
      Nat.mod_eq_of_lt (by decide : 1 < 2 ^ 64), Nat.one_mul, Nat.mod_eq_of_lt hlt]
  have hnat : ((1#64 <<< n) - 1#64).toNat = 2 ^ n - 1 := by
    rw [BitVec.toNat_sub_of_le (by rw [BitVec.le_def, hshift]; exact hpos), hshift]
    rfl
  rw [← BitVec.testBit_toNat, hnat, Nat.testBit_two_pow_sub_one]

/-- A word is full when each of its bits is set. -/
theorem eq_allOnes_iff (x : Word) :
    x = BitVec.allOnes 64 ↔ ∀ b < 64, x.getLsbD b = true := by
  constructor
  · rintro rfl b hb
    rw [BitVec.getLsbD_allOnes, decide_eq_true hb]
  · intro h
    apply BitVec.eq_of_getLsbD_eq
    intro b hb
    rw [h b hb, BitVec.getLsbD_allOnes, decide_eq_true hb]

theorem eq_zero_iff (x : Word) : x = 0#64 ↔ ∀ b < 64, x.getLsbD b = false := by
  constructor
  · rintro rfl b _
    exact BitVec.getLsbD_zero
  · intro h
    apply BitVec.eq_of_getLsbD_eq
    intro b hb
    rw [h b hb, BitVec.getLsbD_zero]

/-! ### Bitmaps -/

/-- `map[i / 64] & (1 << i % 64)`. -/
def testBit (map : List Word) (i : ℕ) : Bool :=
  (map.getD (i / 64) 0#64).test (i % 64)

/-- `map[i / 64] |= 1 << i % 64`. -/
def setBit (map : List Word) (i : ℕ) : List Word :=
  map.set (i / 64) (map.getD (i / 64) 0#64 ||| bit (i % 64))

/-- `for (i = 0; i < n; i++) map[i] = 0`. -/
def clearWords (map : List Word) (n : ℕ) : List Word :=
  (List.range n).foldl (fun m i => m.set i 0#64) map

@[simp] theorem length_setBit (map : List Word) (i : ℕ) :
    (setBit map i).length = map.length := by
  simp [setBit]

/-- Setting a bit of an allocated word changes that bit only. -/
theorem testBit_setBit {map : List Word} {i : ℕ} (hi : i / 64 < map.length) (j : ℕ) :
    testBit (setBit map i) j = (decide (j = i) || testBit map j) := by
  have hi64 : i % 64 < 64 := Nat.mod_lt _ (by omega)
  have hj64 : j % 64 < 64 := Nat.mod_lt _ (by omega)
  rw [testBit, testBit, Word.test_eq_getLsbD _ hj64, Word.test_eq_getLsbD _ hj64, setBit]
  by_cases hw : j / 64 = i / 64
  · have hset : (map.set (i / 64) (map.getD (i / 64) 0#64 ||| bit (i % 64))).getD
        (j / 64) 0#64 = map.getD (i / 64) 0#64 ||| bit (i % 64) := by
      rw [hw, getD_eq_getElem?_getD, getElem?_set_self hi, Option.getD_some]
    rw [hset, getLsbD_or_bit _ hi64, hw]
    have hiff : (j % 64 = i % 64) ↔ j = i := by omega
    simp [hiff]
  · have hne : j ≠ i := fun h => hw (by rw [h])
    have hset : (map.set (i / 64) (map.getD (i / 64) 0#64 ||| bit (i % 64))).getD
        (j / 64) 0#64 = map.getD (j / 64) 0#64 := by
      rw [getD_eq_getElem?_getD, getElem?_set_ne (Ne.symm hw),
        getD_eq_getElem?_getD]
    rw [hset]
    simp [hne]

theorem clearWords_succ (map : List Word) (n : ℕ) :
    clearWords map (n + 1) = (clearWords map n).set n 0#64 := by
  simp [clearWords, range_succ]

@[simp] theorem length_clearWords (map : List Word) (n : ℕ) :
    (clearWords map n).length = map.length := by
  induction n with
  | zero => simp [clearWords]
  | succ n ih => rw [clearWords_succ, length_set, ih]

/-- What the clearing loop leaves in each word. -/
theorem getElem?_clearWords (map : List Word) (n k : ℕ) :
    (clearWords map n)[k]? = if k < n then map[k]?.map (fun _ => 0#64) else map[k]? := by
  induction n with
  | zero => simp [clearWords]
  | succ n ih =>
    rw [clearWords_succ, getElem?_set, ih, length_clearWords]
    rcases Nat.lt_trichotomy k n with hk | hk | hk
    · rw [if_neg (by omega), if_pos hk, if_pos (by omega)]
    · subst hk
      by_cases hkl : k < map.length
      · simp [hkl]
      · simp [hkl]
    · rw [if_neg (by omega), if_neg (by omega), if_neg (by omega)]

/-- No bit of a cleared word is set. -/
theorem testBit_clearWords {map : List Word} {n i : ℕ} (hi : i / 64 < n) :
    testBit (clearWords map n) i = false := by
  have hw : (clearWords map n).getD (i / 64) 0#64 = 0#64 := by
    rw [getD_eq_getElem?_getD, getElem?_clearWords, if_pos hi]
    cases map[i / 64]? with
    | none => rfl
    | some x => rfl
  rw [testBit, hw]
  simp [Word.test]

theorem testBit_replicate_zero (n i : ℕ) : testBit (List.replicate n 0#64) i = false := by
  have hw : (List.replicate n (0#64 : Word)).getD (i / 64) 0#64 = 0#64 := by
    rw [getD_eq_getElem?_getD, getElem?_replicate]
    split <;> rfl
  rw [testBit, hw]
  simp [Word.test]

end Hengine
