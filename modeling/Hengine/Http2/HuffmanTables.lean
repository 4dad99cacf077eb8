import Hengine.Http2.Huffman
import Hengine.Lib.PrefixCode
import Hengine.Lib.Tables

/-!
# The Tables of the Huffman Code

Each state of the decoder stands for the beginning of a code: the bits that have been read
and belong to no character yet. That the tables are right is then one equation for each
state and each four bits, which is checked on numbers; the code tree says that reading is
unambiguous.
-/

namespace Hengine

open List

/-! ### The code -/

/-- The code of a character, and the number of its bits. -/
def huffCode (c : UInt8) : ℕ × ℕ := huffEncodeTable.getD c.toNat (0, 0)

/-- The code of a character, as bits. -/
def codeBits (c : UInt8) : List Bool := bitsOf (huffCode c).2 (huffCode c).1

/-- The code tree. -/
def huffTree : CodeTree UInt8 :=
  huffEncodeTable.zipIdx.foldl (fun t p => t.insert (bitsOf p.1.2 p.1.1) (UInt8.ofNat p.2)) .dead

/-- **The table of codes** has a code for each byte, which leads to its leaf and is not all ones. -/
theorem huffEncodeTable_ok : huffEncodeTable.length = 256 ∧
    (huffEncodeTable.zipIdx.all fun q =>
      (huffTree.walk (bitsOf q.1.2 q.1.1)).isLeaf (UInt8.ofNat q.2)) = true ∧
    (huffEncodeTable.zipIdx.all fun q =>
      decide (q.1.1 < 2 ^ q.1.2 ∧ 5 ≤ q.1.2 ∧ q.1.2 ≤ 30)) = true ∧
    (huffEncodeTable.zipIdx.all fun q => (bitsOf q.1.2 q.1.1).any not) = true := by
  decide +kernel

theorem toNat_lt_table (c : UInt8) : c.toNat < huffEncodeTable.length := by
  rw [huffEncodeTable_ok.1]
  exact c.toNat_lt

/-- **The code is a prefix code.** -/
theorem huffTree_fits : huffTree.Fits codeBits := by
  intro c
  have h := getD_of_all huffEncodeTable
    (p := fun q i => (huffTree.walk (bitsOf q.2 q.1)).isLeaf (UInt8.ofNat i)) huffEncodeTable_ok.2.1
    (toNat_lt_table c) (0, 0)
  rw [UInt8.ofNat_toNat] at h
  exact CodeTree.eq_leaf h

/-- A code has 5 to 30 bits. -/
theorem huffCode_range (c : UInt8) :
    (huffCode c).1 < 2 ^ (huffCode c).2 ∧ 5 ≤ (huffCode c).2 ∧ (huffCode c).2 ≤ 30 := by
  have h := getD_of_all huffEncodeTable
    (p := fun q _ => decide (q.1 < 2 ^ q.2 ∧ 5 ≤ q.2 ∧ q.2 ≤ 30)) huffEncodeTable_ok.2.2.1
    (toNat_lt_table c) (0, 0)
  exact of_decide_eq_true h

/-- Every code has a zero. -/
theorem codeBits_zero (c : UInt8) : ∃ b ∈ codeBits c, b = false := by
  have h := getD_of_all huffEncodeTable (p := fun q _ => (bitsOf q.2 q.1).any not)
    huffEncodeTable_ok.2.2.2 (toNat_lt_table c) (0, 0)
  obtain ⟨b, hb, hnot⟩ := any_eq_true.mp h
  exact ⟨b, hb, by simpa using hnot⟩

/-! ### Tables as numbers -/

/-- The entries of a table of numbers below `2 ^ w`, as the digits of one number. -/
def packTable (w : ℕ) (xs : List ℕ) : ℕ := xs.foldr (fun x n => n * 2 ^ w + x) 0

/-- A digit is an entry. -/
theorem packTable_get {w : ℕ} : ∀ (xs : List ℕ) (i : ℕ), (∀ x ∈ xs, x < 2 ^ w) →
    packTable w xs / 2 ^ (w * i) % 2 ^ w = xs.getD i 0 := by
  intro xs
  induction xs with
  | nil =>
    intro i _
    simp [packTable]
  | cons x xs ih =>
    intro i h
    have hx : x < 2 ^ w := h x (mem_cons_self ..)
    have hcons : packTable w (x :: xs) = packTable w xs * 2 ^ w + x := rfl
    cases i with
    | zero =>
      rw [hcons, Nat.mul_zero, Nat.pow_zero, Nat.div_one, Nat.mul_comm, Nat.mul_add_mod,
        Nat.mod_eq_of_lt hx]
      rfl
    | succ i =>
      have hdiv : (packTable w xs * 2 ^ w + x) / 2 ^ w = packTable w xs := by
        rw [Nat.mul_comm, Nat.mul_add_div (Nat.two_pow_pos w), Nat.div_eq_of_lt hx, Nat.add_zero]
      rw [hcons, Nat.mul_succ, Nat.pow_add, Nat.mul_comm (2 ^ (w * i)), ← Nat.div_div_eq_div_mul,
        hdiv, ih i fun y hy => h y (mem_cons_of_mem x hy)]
      rfl

/-- A pair of a value and a number of bits, as one number. -/
def pairNum (p : ℕ × ℕ) : ℕ := p.1 * 32 + p.2

/-- The table of the codes as a number. -/
def packedCodes : ℕ := packTable 40 (huffEncodeTable.map pairNum)

/-- For each state of the decoder, the bits that have been read of the next code, and how many they
are: the states are numbered as the inner nodes of the code tree stand in it. -/
def huffStates : List (ℕ × ℕ) := huffTree.inner 0 0

/-- The table of the states as a number. -/
def packedStates : ℕ := packTable 40 (huffStates.map pairNum)

/-- The table of the decoder as a number. -/
def packedDecode : ℕ := packTable 320 huffDecodeCodes

/-- Entries of a packed table of pairs. -/
theorem packed_pair {xs : List (ℕ × ℕ)}
    (h : (xs.all fun p => Nat.blt p.2 32 && Nat.blt p.1 (2 ^ 35)) = true) (i : ℕ) :
    let n := packTable 40 (xs.map pairNum) / 2 ^ (40 * i) % 2 ^ 40
    xs.getD i (0, 0) = (n / 32, n % 32) := by
  have hbound : ∀ p ∈ xs, p.2 < 32 ∧ p.1 < 2 ^ 35 := by
    intro p hp
    have := all_eq_true.mp h p hp
    simpa using this
  have hget := packTable_get (w := 40) (xs.map pairNum) i (by
    intro x hx
    obtain ⟨p, hp, rfl⟩ := mem_map.mp hx
    have := hbound p hp
    rw [pairNum]
    omega)
  intro n
  have hn : n = (xs.map pairNum).getD i 0 := hget
  rcases Nat.lt_or_ge i xs.length with hi | hi
  · have hp := hbound xs[i] (getElem_mem hi)
    rw [getD_eq_getElem?_getD, getElem?_map, getElem?_eq_getElem hi] at hn
    rw [getD_eq_getElem?_getD, getElem?_eq_getElem hi, hn]
    simp only [Option.map_some, Option.getD_some, pairNum]
    refine Prod.ext ?_ ?_
    · dsimp only
      omega
    · dsimp only
      omega
  · rw [getD_eq_getElem?_getD, getElem?_eq_none (by simpa using hi)] at hn
    rw [getD_eq_getElem?_getD, getElem?_eq_none hi, hn]
    rfl

/-! ### The states of the decoder -/

/-- The bits a state stands for. -/
def stateBits (s : ℕ) : List Bool :=
  bitsOf (huffStates.getD s (0, 0)).2 (huffStates.getD s (0, 0)).1

/-- There are 256 states, and they and the codes fit their words. -/
theorem huffStates_ok : huffStates.length = 256 ∧
    (huffStates.all fun p => Nat.blt p.2 32 && Nat.blt p.1 (2 ^ 35)) = true ∧
    (huffEncodeTable.all fun p => Nat.blt p.2 32 && Nat.blt p.1 (2 ^ 35)) = true := by
  decide +kernel

/-- Every state is an inner node of the tree of codes. -/
theorem stateBits_node {s : ℕ} (h : s < 256) : (huffTree.walk (stateBits s)).isNode = true := by
  rw [← huffStates_ok.1] at h
  rw [stateBits, getD_eq_getElem?_getD, getElem?_eq_getElem h]
  exact CodeTree.isNode_of_mem_inner (getElem_mem h)

/-- The first state stands for no bits. -/
theorem stateBits_zero : stateBits 0 = [] := by decide +kernel

/-- The entry of a state and four bits, as a number. -/
def entryNum (s n : ℕ) : ℕ :=
  packedDecode / 2 ^ (320 * s) % 2 ^ 320 / 2 ^ (20 * (15 - n))

/-- The bits of a state, as a pair that is one number. -/
def stateNum (s : ℕ) : ℕ := packedStates / 2 ^ (40 * s) % 2 ^ 40

/-- The code of a character, as a pair that is one number. -/
def codeNum (c : ℕ) : ℕ := packedCodes / 2 ^ (40 * c) % 2 ^ 40

/-- Whether an entry of the decoder's table is right: it fails at the code that stands for the
end of the string, which is 30 ones; it gives the character whose code is complete; and it
says that the string may end where only ones are left. -/
def entryOk (s n e st nx cd : ℕ) : Bool :=
  Nat.blt (nx / 32) (2 ^ (nx % 32)) &&
    bif Nat.beq (e / 2 ^ 12 % 256) s then
      Nat.ble 26 (st % 32) && Nat.beq ((st / 32 * 16 + n) / 2 ^ (st % 32 - 26)) (2 ^ 30 - 1)
    else
      (bif Nat.beq (e / 2 % 2) 0 then
        Nat.beq (st % 32 + 4) (nx % 32) && Nat.beq (st / 32 * 16 + n) (nx / 32)
      else
        Nat.beq (st % 32 + 4) (cd % 32 + nx % 32) &&
          Nat.beq (st / 32 * 16 + n) (cd / 32 * 2 ^ (nx % 32) + nx / 32)) &&
      (!Nat.beq (nx / 32) (2 ^ (nx % 32) - 1) || !Nat.beq (e % 2) 0)

/-- **Every entry of the decoding table** leads from its state to the next one. -/
theorem huffDecodeCodes_ok :
    ((List.range 256).all fun s => (List.range 16).all fun n =>
      entryOk s n (entryNum s n) (stateNum s) (stateNum (entryNum s n / 2 ^ 12 % 256))
        (codeNum (entryNum s n / 2 ^ 4 % 256))) = true ∧
      (huffDecodeCodes.all fun x => Nat.blt x (2 ^ 320)) = true := by
  decide +kernel

/-- The fields of an entry are digits of the one number. -/
theorem huffDecodeCode_eq (s n : ℕ) : huffDecodeCode s n =
    ⟨entryNum s n / 2 ^ 12 % 256, entryNum s n / 2 % 2, entryNum s n / 2 ^ 4 % 256,
      entryNum s n % 2⟩ := by
  have hbound : ∀ x ∈ huffDecodeCodes, x < 2 ^ 320 := by
    intro x hx
    exact Nat.blt_eq.mp (all_eq_true.mp huffDecodeCodes_ok.2 x hx)
  have hrow := packTable_get huffDecodeCodes s hbound
  simp only [huffDecodeCode, Nat.shiftRight_eq_div_pow, entryNum, packedDecode, hrow, Nat.pow_one]

theorem huffStates_eq (s : ℕ) : huffStates.getD s (0, 0) = (stateNum s / 32, stateNum s % 32) :=
  packed_pair huffStates_ok.2.1 s

theorem huffCode_eq (c : UInt8) : huffCode c = (codeNum c.toNat / 32, codeNum c.toNat % 32) :=
  packed_pair huffStates_ok.2.2 c.toNat

/-- Four bits behind the bits of a state. -/
theorem stateBits_append (s : ℕ) {n : ℕ} (hn : n < 16) :
    stateBits s ++ bitsOf 4 n = bitsOf (stateNum s % 32 + 4) (stateNum s / 32 * 16 + n) := by
  have := bitsOf_append (a := stateNum s % 32) (b := 4) (x := stateNum s / 32) (y := n) hn
  rw [stateBits, huffStates_eq]
  exact this.symm

/-- **What an entry of the decoder's table does.** -/
theorem huffDecodeCode_spec {s n : ℕ} (hs : s < 256) (hn : n < 16) :
    let e := huffDecodeCode s n
    e.next < 256 ∧
    (e.next = s → ∃ rest, stateBits s ++ bitsOf 4 n = List.replicate 30 true ++ rest) ∧
    (e.next ≠ s →
      (e.emit = 0 → stateBits s ++ bitsOf 4 n = stateBits e.next) ∧
      (e.emit ≠ 0 →
        stateBits s ++ bitsOf 4 n = codeBits (UInt8.ofNat e.sym) ++ stateBits e.next) ∧
      ((∀ b ∈ stateBits e.next, b = true) → e.ending ≠ 0)) := by
  have hrow := all_eq_true.mp huffDecodeCodes_ok.1 s (mem_range.mpr hs)
  have hok := all_eq_true.mp hrow n (mem_range.mpr hn)
  rw [huffDecodeCode_eq]
  set e := entryNum s n
  dsimp only
  set next := e / 2 ^ 12 % 256 with hnext
  have hsym : (UInt8.ofNat (e / 2 ^ 4 % 256)).toNat = e / 2 ^ 4 % 256 := by
    rw [UInt8.toNat_ofNat', Nat.mod_mod]
  rw [stateBits_append s hn, codeBits, huffCode_eq, hsym]
  have hbits : stateBits next = bitsOf (stateNum next % 32) (stateNum next / 32) := by
    rw [stateBits, huffStates_eq]
  rw [hbits]
  simp only [entryOk, Bool.and_eq_true, Nat.blt_eq, ← hnext] at hok
  obtain ⟨hfits, hok⟩ := hok
  refine ⟨Nat.mod_lt _ (by omega), ?_, ?_⟩
  · intro heq
    have hbeq : Nat.beq next s = true := by rw [Nat.beq_eq, heq]
    simp only [hbeq, cond_true, Bool.and_eq_true, Nat.ble_eq, Nat.beq_eq] at hok
    obtain ⟨hlong, hones⟩ := hok
    -- The bits are 30 ones and what is left below them.
    set v := stateNum s / 32 * 16 + n
    have hlen : stateNum s % 32 + 4 = 30 + (stateNum s % 32 - 26) := by omega
    have hval : v = (2 ^ 30 - 1) * 2 ^ (stateNum s % 32 - 26) + v % 2 ^ (stateNum s % 32 - 26) := by
      rw [← hones, Nat.mul_comm, Nat.div_add_mod]
    refine ⟨bitsOf (stateNum s % 32 - 26) (v % 2 ^ (stateNum s % 32 - 26)), ?_⟩
    rw [← bitsOf_ones, hlen, ← bitsOf_append (Nat.mod_lt _ (Nat.two_pow_pos _)), ← hval]
  · intro hne
    have hbeq : Nat.beq next s = false := by
      rw [← Bool.not_eq_true, Nat.beq_eq]
      exact hne
    simp only [hbeq, cond_false, Bool.and_eq_true, Bool.or_eq_true, Bool.not_eq_true'] at hok
    obtain ⟨hstep, hend⟩ := hok
    refine ⟨?_, ?_, ?_⟩
    · intro hemit
      have hzero : Nat.beq (e / 2 % 2) 0 = true := by rw [Nat.beq_eq, hemit]
      simp only [hzero, cond_true, Bool.and_eq_true, Nat.beq_eq] at hstep
      rw [hstep.1, hstep.2]
    · intro hemit
      have hzero : Nat.beq (e / 2 % 2) 0 = false := by
        rw [← Bool.not_eq_true, Nat.beq_eq]
        exact hemit
      simp only [hzero, cond_false, Bool.and_eq_true, Nat.beq_eq] at hstep
      rw [hstep.1, hstep.2, bitsOf_append hfits]
    · intro hones hzero
      rcases hend with hnot | hnot
      · -- Bits that are all ones make the largest number.
        have hall := bitsOf_eq_ones hfits hones
        rw [hall, ← Bool.not_eq_true, Nat.beq_eq] at hnot
        exact hnot rfl
      · rw [← Bool.not_eq_true, Nat.beq_eq] at hnot
        exact hnot hzero

end Hengine
