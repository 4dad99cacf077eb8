import Hengine.Core.SlabChunks

/-!
# Releasing Chunks

The three cases of `ngx_slab_free_locked` for chunks, in terms of the bits of the page.
Given the address of a busy chunk, each passes its checks, puts a full page back on the
list of its slot, clears the bit, and finds out whether a chunk is left.
-/

namespace Hengine

open Function Option

/-- The page before its bit is cleared: a full page has been put back on its list. -/
def Attached (z : SlabZone) (s i : ℕ) (pool poolA : SlabPool) : Prop :=
  (pool.Full z s i → pool.attach i (s - z.minShift) (z.typeOf s) = some poolA) ∧
    (¬ pool.Full z s i → poolA = pool)

/-- What a release of chunk `c` does: the bit is cleared, and the page is freed if no chunk
is left. -/
def ReleaseSpec (z : SlabZone) (s i c : ℕ) (poolA : SlabPool) (res : Option SlabPool) :
    Prop :=
  ∃ pool₁ n empty, ChunkWrite z s i c false poolA pool₁ ∧
    (empty = true ↔
      ∀ c', z.reserved s ≤ c' → c' < z.chunks s → pool₁.chunkBit z s i c' = false) ∧
    res = slabDropChunk i (s - z.minShift) n empty pool₁

section Release

variable {z : SlabZone} {pool poolA : SlabPool} {s i c p : ℕ}

/-- Linking a page into a list changes links only. -/
theorem attach_fields {slot : ℕ} {type : SlabType} (h : pool.attach i slot type = some poolA) :
    poolA.slab = pool.slab ∧ poolA.mem = pool.mem ∧ poolA.last = pool.last ∧
      poolA.start = pool.start ∧ poolA.pfree = pool.pfree ∧ poolA.log = pool.log := by
  rw [SlabPool.attach] at h
  obtain ⟨next, -, h⟩ := bind_eq_some_iff.mp h
  obtain rfl := Option.some.inj h
  exact ⟨rfl, rfl, rfl, rfl, rfl, rfl⟩

/-- Attaching a page to its slot leaves all but the links. -/
theorem Attached.fields (A : Attached z s i pool poolA) :
    poolA.slab = pool.slab ∧ poolA.mem = pool.mem ∧ poolA.last = pool.last ∧
      poolA.start = pool.start ∧ poolA.pfree = pool.pfree ∧ poolA.log = pool.log := by
  by_cases hfull : pool.Full z s i
  · exact attach_fields (A.1 hfull)
  · rw [A.2 hfull]
    exact ⟨rfl, rfl, rfl, rfl, rfl, rfl⟩

/-- The page is attached exactly where it was full. -/
theorem Attached.eq (A : Attached z s i pool poolA) {test : Prop} [Decidable test]
    (htest : test ↔ pool.Full z s i) :
    (if test then pool.attach i (s - z.minShift) (z.typeOf s) else some pool) =
      some poolA := by
  by_cases hfull : pool.Full z s i
  · rw [if_pos (htest.mpr hfull), A.1 hfull]
  · rw [if_neg fun h => hfull (htest.mp h), A.2 hfull]

/-- The words of a small page from its own chunks on are empty. -/
theorem empty_small (hs : s < z.exactShift) (words : ℕ → Word) :
    (decide (words (z.mapChunks s / (8 * 8)) &&&
        ~~~((1#64 <<< (z.mapChunks s % (8 * 8))) - 1#64) = 0#64) &&
      !slabAnyWord words 0#64 (z.mapWords s - (z.mapChunks s / (8 * 8) + 1))
        (z.mapChunks s / (8 * 8) + 1)) = true ↔
    ∀ c, z.mapChunks s ≤ c → c < z.chunks s → (words (c / 64)).getLsbD (c % 64) = false := by
  obtain ⟨hwords, hchunks⟩ := SlabZone.chunks_small hs
  obtain ⟨-, hone, hle⟩ := SlabZone.mapWords_le hs
  generalize z.mapChunks s = n at *
  rw [Bool.and_eq_true, decide_eq_true_eq, Bool.not_eq_true', ← Bool.not_eq_true,
    slabAnyWord_iff, eq_zero_iff]
  simp only [Nat.reduceMul]
  constructor
  · rintro ⟨hfirst, hrest⟩ c h₁ h₂
    by_cases hk : c / 64 = n / 64
    · have hlt : c % 64 < 64 := Nat.mod_lt _ (by omega)
      have hge : ¬ c % 64 < n % 64 := by omega
      have hbit := hfirst (c % 64) hlt
      rw [BitVec.getLsbD_and, BitVec.getLsbD_not, getLsbD_lowMask (by omega),
        decide_eq_false hge] at hbit
      rw [hk]
      simpa [hlt] using hbit
    · have hzero : words (c / 64) = 0#64 := by
        by_contra hne
        exact hrest ⟨c / 64, by omega, by omega, hne⟩
      rw [hzero, BitVec.getLsbD_zero]
  · intro h
    have hsplit : ∀ w b, b < 64 → (64 * w + b) / 64 = w ∧ (64 * w + b) % 64 = b := by
      intro w b hb
      omega
    constructor
    · intro b hb
      rw [BitVec.getLsbD_and, BitVec.getLsbD_not, getLsbD_lowMask (by omega)]
      by_cases hn : b < n % 64
      · simp [hn]
      · have hbit := h (64 * (n / 64) + b) (by omega) (by omega)
        rw [(hsplit (n / 64) b hb).1, (hsplit (n / 64) b hb).2] at hbit
        simp [hbit]
    · rintro ⟨w, h₁, h₂, hne⟩
      apply hne
      rw [eq_zero_iff]
      intro b hb
      have hbit := h (64 * w + b) (by omega) (by omega)
      rwa [(hsplit w b hb).1, (hsplit w b hb).2] at hbit

/-- The upper half of the word of a big page is empty when its chunks are. -/
theorem ChunkWrite.empty_big {v : Bool} (W : ChunkWrite z s i c v pool poolA)
    (hexact : z.exactShift < s) (hs : s < z.pagesizeShift)
    (hhigh : ∀ b, z.chunks s ≤ b → (pool.slab (.page i)).getLsbD (slabMapShift + b) = false) :
    poolA.slab (.page i) &&& slabMapMask = 0#64 ↔
      ∀ c, 0 ≤ c → c < z.chunks s → poolA.chunkBit z s i c = false := by
  obtain ⟨-, hle⟩ := SlabZone.chunks_big hexact hs
  simp only [chunkBit_big hexact, Nat.zero_le, true_implies, eq_zero_iff]
  constructor
  · intro h c hc
    have hb := h (slabMapShift + c) (by rw [slabMapShift]; omega)
    rw [BitVec.getLsbD_and, getLsbD_mapMask _ (by rw [slabMapShift]; omega)] at hb
    simpa [slabMapShift] using hb
  · intro h b hb
    rw [BitVec.getLsbD_and, getLsbD_mapMask b hb]
    by_cases h32 : 32 ≤ b
    · have hbit : (poolA.slab (.page i)).getLsbD (slabMapShift + (b - 32)) = false := by
        by_cases hlt : b - 32 < z.chunks s
        · exact h (b - 32) hlt
        · rw [W.high hexact (b - 32) (by omega)]
          exact hhigh (b - 32) (by omega)
      have hsum : slabMapShift + (b - 32) = b := by
        rw [slabMapShift]
        omega
      rw [hsum] at hbit
      simp [hbit]
    · simp [h32]

/-- **Release of a small chunk.** -/
theorem freeSmall_spec (P : SlotPage z s i pool) (hs : s < z.exactShift)
    (hbit : pool.chunkBit z s i c = true)
    (halign : p &&& (2 ^ s - 1) = 0) (hoff : (p &&& (z.pagesize - 1)) >>> s = c)
    (hnext : pool.next (.page i) = none ↔ pool.Full z s i) (A : Attached z s i pool poolA) :
    ReleaseSpec z s i c poolA (slabFreeSmall z p i pool) := by
  have hword := P.word (by omega)
  have htype := SlabZone.typeOf_small hs
  have hres := SlabZone.reserved_small hs
  have hsize : ¬ (p &&& (1 <<< s - 1) ≠ 0) := by
    rw [Nat.shiftLeft_eq, Nat.one_mul, halign]
    simp
  have hset : pool.mem i (c / (8 * 8)) &&& bit (c % (8 * 8)) ≠ 0#64 := by
    rw [ne_eq, and_bit_eq_zero _ (by omega)]
    rw [chunkBit_small hs] at hbit
    simp [hbit]
  obtain ⟨hslab, hmem, -⟩ := A.fields
  have hwrite : ChunkWrite z s i c false poolA (poolA.setWord i (c / 64)
      (poolA.mem i (c / 64) &&& ~~~(bit (c % 64)))) := by
    refine chunkWrite_small hs fun b hb => ?_
    rw [getLsbD_clear _ (by omega) hb]
  have hattach := A.eq hnext
  rw [htype] at hattach
  simp only [slabFreeSmall, hword]
  rw [if_neg hsize, hoff, if_pos hset, hattach, bind_some]
  refine ⟨_, _, _, hwrite, ?_, rfl⟩
  rw [hres]
  simp only [chunkBit_small hs]
  exact empty_small hs _

/-- **Release of a chunk of the exact size.** -/
theorem freeExact_spec (hc : c < z.chunks z.exactShift)
    (hbit : pool.chunkBit z z.exactShift i c = true)
    (halign : p &&& (2 ^ z.exactShift - 1) = 0)
    (hoff : (p &&& (z.pagesize - 1)) >>> z.exactShift = c)
    (A : Attached z z.exactShift i pool poolA) :
    ReleaseSpec z z.exactShift i c poolA (slabFreeExact z p i pool) := by
  have hge := z.pagesize_ge
  have hchunks := z.chunks_exact
  have htype := z.typeOf_exact
  have hres := SlabZone.reserved_eq_zero (Nat.le_refl z.exactShift)
  have hpow : z.pagesize / (8 * 8) = 2 ^ z.exactShift := by
    rw [SlabZone.exactShift_eq]
    exact Nat.pow_div (x := 2) (n := 6) (by omega) (by omega)
  have hsize : ¬ (p &&& (z.pagesize / (8 * 8) - 1) ≠ 0) := by
    rw [hpow, halign]
    simp
  have hset : pool.slab (.page i) &&& bit c ≠ 0#64 := by
    rw [ne_eq, and_bit_eq_zero _ (by omega)]
    rw [chunkBit_exact] at hbit
    simp [hbit]
  have hwrite : ChunkWrite z z.exactShift i c false poolA { poolA with
      slab := update poolA.slab (.page i)
        (poolA.slab (.page i) &&& ~~~(bit c)) } := by
    refine chunkWrite_word (Nat.lt_irrefl _) (Or.inl ⟨rfl, rfl⟩) hc (by omega) fun b hb => ?_
    rw [Nat.zero_add, getLsbD_clear _ (by omega) hb]
  have hattach := A.eq full_exact.symm
  rw [htype] at hattach
  simp only [slabFreeExact]
  rw [if_neg hsize, hoff, if_pos hset, hattach, bind_some]
  refine ⟨_, _, _, hwrite, ?_, rfl⟩
  rw [hres, decide_eq_true_eq, eq_zero_iff, hchunks]
  simp [chunkBit_exact]

/-- **Release of a big chunk.** -/
theorem freeBig_spec (P : SlotPage z s i pool) (hexact : z.exactShift < s)
    (hc : c < z.chunks s) (hbit : pool.chunkBit z s i c = true)
    (halign : p &&& (2 ^ s - 1) = 0) (hoff : (p &&& (z.pagesize - 1)) >>> s = c)
    (hnext : pool.next (.page i) = none ↔ pool.Full z s i) (A : Attached z s i pool poolA) :
    ReleaseSpec z s i c poolA (slabFreeBig z p i pool) := by
  have hns : ¬ s < z.exactShift := by omega
  have hne : s ≠ z.exactShift := by omega
  have hword := P.word hne
  have htype := SlabZone.typeOf_big hexact
  have hres := SlabZone.reserved_eq_zero (Nat.le_of_lt hexact)
  obtain ⟨-, hle⟩ := SlabZone.chunks_big hexact P.max
  have hsize : ¬ (p &&& (1 <<< s - 1) ≠ 0) := by
    rw [Nat.shiftLeft_eq, Nat.one_mul, halign]
    simp
  have hset : pool.slab (.page i) &&& bit (c + slabMapShift) ≠ 0#64 := by
    rw [slabMapShift, ne_eq, and_bit_eq_zero _ (by omega), Nat.add_comm]
    rw [chunkBit_big hexact, slabMapShift] at hbit
    simp [hbit]
  obtain ⟨hslab, hmem, -⟩ := A.fields
  have hwrite : ChunkWrite z s i c false poolA { poolA with
      slab := update poolA.slab (.page i)
        (poolA.slab (.page i) &&& ~~~(bit (c + slabMapShift))) } := by
    refine chunkWrite_word hns (Or.inr ⟨hne, rfl⟩) hc (by omega) fun b hb => ?_
    rw [slabMapShift, Nat.add_comm c, getLsbD_clear _ (by omega) hb]
  have hattach := A.eq hnext
  rw [htype] at hattach
  simp only [slabFreeBig, hword]
  rw [if_neg hsize, hoff, if_pos hset, hattach, bind_some]
  refine ⟨_, _, _, hwrite, ?_, rfl⟩
  rw [hres, decide_eq_true_eq]
  refine hwrite.empty_big hexact P.max fun b hb => ?_
  rw [hslab]
  exact P.high hexact b hb

end Release

end Hengine
