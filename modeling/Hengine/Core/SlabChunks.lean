import Hengine.Core.SlabPages

/-!
# Pages Cut Into Chunks

A page of a slot keeps one bit per chunk, in one of three places. `SlabPool.chunkBit`
reads it wherever it is, and the lemmas here say what the code's three variants of "find a
free chunk", "is the page full" and "is the page empty" do in terms of these bits alone.
-/

namespace Hengine

open Function

/-! ### Loops over words -/

theorem slabBusy_eq : slabBusy = BitVec.allOnes 64 := by
  decide

/-- The scan of a word whose mask has `n` bits from `o` on: the first clear bit. -/
theorem slabScan_spec (word mask : Word) (fuel : ℕ) {o n i : ℕ} (hn : o + n ≤ 64)
    (hmask : ∀ b < 64, mask.getLsbD b = decide (o ≤ b ∧ b < o + n))
    (hi : i ≤ n) (hfuel : n - i < fuel) :
    ((∀ c, i ≤ c → c < n → word.getLsbD (o + c) = true) ∧
      slabScan word mask fuel i (bit (o + i)) = none) ∨
    ∃ c, i ≤ c ∧ c < n ∧ word.getLsbD (o + c) = false ∧
      (∀ c', i ≤ c' → c' < c → word.getLsbD (o + c') = true) ∧
      slabScan word mask fuel i (bit (o + i)) = some (c, bit (o + c)) := by
  induction fuel generalizing i with
  | zero => omega
  | succ fuel ih =>
    rcases Nat.eq_or_lt_of_le hi with rfl | hlt
    · refine Or.inl ⟨fun c h₁ h₂ => by omega, ?_⟩
      have hzero : bit (o + i) &&& mask = 0#64 := by
        rw [BitVec.and_comm]
        by_cases h64 : o + i < 64
        · rw [and_bit_eq_zero _ h64, hmask _ h64]
          simp
        · have heq : o + i = 64 := by omega
          rw [heq]
          exact BitVec.and_zero
      rw [slabScan, if_pos hzero]
    · have h64 : o + i < 64 := by omega
      have hin : bit (o + i) &&& mask ≠ 0#64 := by
        rw [BitVec.and_comm, ne_eq, and_bit_eq_zero _ h64, hmask _ h64]
        simp [hlt]
      rw [slabScan, if_neg hin]
      cases hbit : word.getLsbD (o + i) with
      | false =>
        refine Or.inr ⟨i, Nat.le_refl i, hlt, hbit, fun c' h₁ h₂ => by omega, ?_⟩
        have hclear : ¬ (word &&& bit (o + i) ≠ 0#64) := by
          rw [ne_eq, not_not, and_bit_eq_zero _ h64, hbit]
        rw [if_neg hclear]
      | true =>
        have hset : word &&& bit (o + i) ≠ 0#64 := by
          rw [ne_eq, and_bit_eq_zero _ h64, hbit]
          simp
        rw [if_pos hset, bit_succ, Nat.add_assoc]
        rcases ih (i := i + 1) (by omega) (by omega) with
          ⟨hall, hres⟩ | ⟨c, h₁, h₂, hc, hbefore, hres⟩
        · refine Or.inl ⟨fun c h₁ h₂ => ?_, hres⟩
          rcases Nat.eq_or_lt_of_le h₁ with rfl | hlt'
          · exact hbit
          · exact hall c hlt' h₂
        · refine Or.inr ⟨c, by omega, h₂, hc, fun c' h₁' h₂' => ?_, hres⟩
          rcases Nat.eq_or_lt_of_le h₁' with rfl | hlt'
          · exact hbit
          · exact hbefore c' hlt' h₂'

/-- The scan of a whole word. -/
theorem slabScan_word (word : Word) :
    ((∀ c < 64, word.getLsbD c = true) ∧ slabScan word slabBusy 65 0 1#64 = none) ∨
    ∃ c < 64, word.getLsbD c = false ∧ slabScan word slabBusy 65 0 1#64 = some (c, bit c) := by
  have hmask : ∀ b < 64, slabBusy.getLsbD b = decide (0 ≤ b ∧ b < 0 + 64) := by
    intro b hb
    rw [slabBusy_eq, (eq_allOnes_iff _).mp rfl b hb]
    simp [hb]
  have h := slabScan_spec word slabBusy 65 (o := 0) (n := 64) (i := 0) (by omega) hmask
    (by omega) (by omega)
  simp only [Nat.zero_add, Nat.zero_le, true_implies] at h
  rcases h with ⟨hall, hres⟩ | ⟨c, -, hc, hbit, -, hres⟩
  · exact Or.inl ⟨hall, hres⟩
  · exact Or.inr ⟨c, hc, hbit, hres⟩

/-- The scan of a bitmap: a clear bit of the first word that has one. -/
theorem slabScanMap_spec (words : ℕ → Word) (count n : ℕ) :
    ((∀ w, n ≤ w → w < n + count → words w = slabBusy) ∧ slabScanMap words count n = none) ∨
    ∃ w b, n ≤ w ∧ w < n + count ∧ b < 64 ∧ (words w).getLsbD b = false ∧
      (∀ w', n ≤ w' → w' < w → words w' = slabBusy) ∧
      slabScanMap words count n = some (w, b, bit b) := by
  induction count generalizing n with
  | zero => exact Or.inl ⟨fun w h₁ h₂ => by omega, rfl⟩
  | succ count ih =>
    by_cases hbusy : words n = slabBusy
    · have hskip : slabScanMap words (count + 1) n = slabScanMap words count (n + 1) := by
        rw [slabScanMap, if_neg (by simp [hbusy])]
      rw [hskip]
      rcases ih (n + 1) with ⟨hall, hres⟩ | ⟨w, b, h₁, h₂, hb, hbit, hbefore, hres⟩
      · refine Or.inl ⟨fun w h₁ h₂ => ?_, hres⟩
        rcases Nat.eq_or_lt_of_le h₁ with rfl | hlt
        · exact hbusy
        · exact hall w hlt (by omega)
      · refine Or.inr ⟨w, b, by omega, by omega, hb, hbit, fun w' h₁' h₂' => ?_, hres⟩
        rcases Nat.eq_or_lt_of_le h₁' with rfl | hlt
        · exact hbusy
        · exact hbefore w' hlt h₂'
    · rcases slabScan_word (words n) with ⟨hall, -⟩ | ⟨b, hb, hbit, hres⟩
      · exact absurd ((slabBusy_eq ▸ (eq_allOnes_iff _).mpr hall)) hbusy
      · refine Or.inr ⟨n, b, Nat.le_refl n, by omega, hb, hbit, fun w' h₁ h₂ => by omega, ?_⟩
        rw [slabScanMap, if_pos hbusy, hres]

/-- The loop that looks for another word. -/
theorem slabAnyWord_iff (words : ℕ → Word) (x : Word) (count n : ℕ) :
    slabAnyWord words x count n = true ↔ ∃ w, n ≤ w ∧ w < n + count ∧ words w ≠ x := by
  induction count generalizing n with
  | zero =>
    simp only [slabAnyWord, Bool.false_eq_true, false_iff]
    rintro ⟨w, h₁, h₂, -⟩
    omega
  | succ count ih =>
    rw [slabAnyWord, Bool.or_eq_true, bne_iff_ne, ih]
    constructor
    · rintro (h | ⟨w, h₁, h₂, h⟩)
      · exact ⟨n, by omega, by omega, h⟩
      · exact ⟨w, by omega, by omega, h⟩
    · rintro ⟨w, h₁, h₂, h⟩
      rcases Nat.eq_or_lt_of_le h₁ with rfl | hlt
      · exact Or.inl h
      · exact Or.inr ⟨w, hlt, by omega, h⟩

/-- The filling loop, all at once. -/
theorem slabFill_eq (i : ℕ) (x : Word) (count w : ℕ) (pool : SlabPool) :
    slabFill i x count w pool =
      { pool with
        mem := update pool.mem i
          fun v => if w ≤ v ∧ v < w + count then x else pool.mem i v } := by
  induction count generalizing w pool with
  | zero =>
    have hnone : ∀ v, ¬ (w ≤ v ∧ v < w + 0) := by
      intro v
      omega
    simp only [slabFill, hnone, if_false, update_eq_self]
  | succ count ih =>
    rw [slabFill, ih]
    simp only [SlabPool.setWord, update_self, update_idem,
      SlabPool.mk.injEq, true_and, and_true]
    congr 1
    funext v
    by_cases hv : v = w
    · subst hv
      simp
    · have hiff : (w + 1 ≤ v ∧ v < w + 1 + count) ↔ (w ≤ v ∧ v < w + (count + 1)) := by omega
      simp only [hiff, update_of_ne hv]

/-! ### The geometry of a page -/

namespace SlabZone

open SlabSizes

variable {z : SlabZone} {s : ℕ}

theorem exactShift_eq (z : SlabZone) : z.exactShift = z.pagesizeShift - 6 := by
  have hge := z.pagesize_ge
  have hdiv : z.pagesize / (8 * 8) = 2 ^ (z.pagesizeShift - 6) := by
    exact Nat.pow_div (x := 2) (n := 6) (by omega) (by omega)
  rw [exactShift, hdiv, Nat.log2_two_pow]

theorem chunks_eq (hs : s ≤ z.pagesizeShift) : z.chunks s = 2 ^ (z.pagesizeShift - s) := by
  rw [chunks, pagesize, Nat.shiftRight_eq_div_pow, Nat.pow_div hs (by omega)]

theorem chunks_mul (hs : s ≤ z.pagesizeShift) : z.chunks s * 2 ^ s = z.pagesize := by
  rw [chunks_eq hs, pagesize, ← Nat.pow_add, Nat.sub_add_cancel hs]

theorem chunks_exact (z : SlabZone) : z.chunks z.exactShift = 64 := by
  have hge := z.pagesize_ge
  have hsub : z.pagesizeShift - (z.pagesizeShift - 6) = 6 := by omega
  rw [exactShift_eq, chunks_eq (by omega), hsub]
  rfl

/-- Pages of big chunks have two to thirty-two of them. -/
theorem chunks_big (hexact : z.exactShift < s) (hs : s < z.pagesizeShift) :
    2 ≤ z.chunks s ∧ z.chunks s ≤ 32 := by
  rw [exactShift_eq] at hexact
  rw [chunks_eq (by omega)]
  constructor
  · calc 2 = 2 ^ 1 := rfl
      _ ≤ 2 ^ (z.pagesizeShift - s) := Nat.pow_le_pow_right (by omega) (by omega)
  · calc 2 ^ (z.pagesizeShift - s) ≤ 2 ^ 5 := Nat.pow_le_pow_right (by omega) (by omega)
      _ = 32 := rfl

/-- A page of small chunks has whole words of them, at least two. -/
theorem chunks_small (hs : s < z.exactShift) :
    2 ≤ z.mapWords s ∧ z.chunks s = 64 * z.mapWords s := by
  have hge := z.pagesize_ge
  rw [exactShift_eq] at hs
  have hwords : z.mapWords s = 2 ^ (z.pagesizeShift - s - 6) := by
    rw [mapWords, chunks_eq (by omega)]
    exact Nat.pow_div (x := 2) (n := 6) (by omega) (by omega)
  constructor
  · rw [hwords]
    calc 2 = 2 ^ 1 := rfl
      _ ≤ 2 ^ (z.pagesizeShift - s - 6) := Nat.pow_le_pow_right (by omega) (by omega)
  · calc z.chunks s = 2 ^ (6 + (z.pagesizeShift - s - 6)) := by
          rw [chunks_eq (by omega)]
          congr 1
          omega
      _ = 64 * z.mapWords s := by rw [Nat.pow_add, hwords]

/-- The bitmap of a small page fits into its chunks, and leaves most of the page. -/
theorem mapWords_le (hs : s < z.exactShift) :
    z.mapWords s * 8 ≤ z.mapChunks s * 2 ^ s ∧ 1 ≤ z.mapChunks s ∧
      z.mapChunks s ≤ 8 * z.mapWords s := by
  obtain ⟨hwords, hchunks⟩ := chunks_small hs
  have hpos : 0 < 2 ^ s := Nat.two_pow_pos s
  have hge := z.pagesize_ge
  rw [exactShift_eq] at hs
  simp only [mapChunks, Nat.shiftLeft_eq, Nat.one_mul]
  split_ifs with hzero
  · have hlt : z.chunks s < 2 ^ s * 8 := by
      by_contra hge
      have := Nat.div_pos (Nat.le_of_not_lt hge) (by omega)
      omega
    omega
  · -- the powers of two divide exactly
    have hpow : 2 ^ s * 8 = 2 ^ (s + 3) := (Nat.pow_add 2 s 3).symm
    have hexp : s + 3 ≤ z.pagesizeShift - s := by
      by_contra hlt
      apply hzero
      rw [chunks_eq (by omega), hpow]
      exact Nat.div_eq_of_lt (Nat.pow_lt_pow_right (by omega) (by omega))
    have hdiv : z.chunks s / (2 ^ s * 8) * 2 ^ s * 8 = z.chunks s := by
      rw [Nat.mul_assoc]
      refine Nat.div_mul_cancel ?_
      rw [chunks_eq (by omega), hpow]
      exact Nat.pow_dvd_pow 2 hexp
    have hle : z.chunks s / (2 ^ s * 8) ≤ z.chunks s / (2 ^ s * 8) * 2 ^ s :=
      Nat.le_mul_of_pos_right _ hpos
    generalize z.chunks s / (2 ^ s * 8) = n at *
    omega

/-- The chunks of a page that are not handed out. -/
def reserved (z : SlabZone) (s : ℕ) : ℕ :=
  if s < z.exactShift then z.mapChunks s else 0

theorem reserved_small (hs : s < z.exactShift) : z.reserved s = z.mapChunks s := by
  rw [reserved, if_pos hs]

theorem reserved_eq_zero (hs : z.exactShift ≤ s) : z.reserved s = 0 := by
  rw [reserved, if_neg (Nat.not_lt.mpr hs)]

theorem typeOf_small (hs : s < z.exactShift) : z.typeOf s = .small := by
  rw [typeOf, if_pos hs]

theorem typeOf_exact (z : SlabZone) : z.typeOf z.exactShift = .exact := by
  rw [typeOf, if_neg (Nat.lt_irrefl _), if_pos rfl]

theorem typeOf_big (hs : z.exactShift < s) : z.typeOf s = .big := by
  rw [typeOf, if_neg (Nat.lt_asymm hs), if_neg (Nat.ne_of_gt hs)]

end SlabZone

/-! ### The bits of the chunks -/

/-- Chunk `c` of the slot page `i` is busy. -/
def SlabPool.chunkBit (z : SlabZone) (pool : SlabPool) (s i c : ℕ) : Bool :=
  if s < z.exactShift then (pool.mem i (c / 64)).getLsbD (c % 64)
  else if s = z.exactShift then (pool.slab (.page i)).getLsbD c
  else (pool.slab (.page i)).getLsbD (slabMapShift + c)

/-- Every chunk of the page is busy. -/
def SlabPool.Full (z : SlabZone) (pool : SlabPool) (s i : ℕ) : Prop :=
  ∀ c < z.chunks s, pool.chunkBit z s i c = true

/-- The descriptor of a page of chunks of `1 << s` bytes. Its own chunks, if it has any,
are busy, and so is at least one other. -/
structure SlotPage (z : SlabZone) (s i : ℕ) (pool : SlabPool) : Prop where
  min : z.minShift ≤ s
  max : s < z.pagesizeShift
  kind : (pool.prev (.page i)).type = z.typeOf s
  word : s ≠ z.exactShift → (pool.slab (.page i) &&& slabShiftMask).toNat = s
  high : z.exactShift < s → ∀ b, z.chunks s ≤ b →
    (pool.slab (.page i)).getLsbD (slabMapShift + b) = false
  reserved : ∀ c < z.reserved s, pool.chunkBit z s i c = true
  used : ∃ c, z.reserved s ≤ c ∧ c < z.chunks s ∧ pool.chunkBit z s i c = true

/-- The bit of one chunk is written, and nothing else. -/
structure ChunkWrite (z : SlabZone) (s i c : ℕ) (v : Bool) (pool pool' : SlabPool) :
    Prop where
  bit : ∀ c' < z.chunks s, pool'.chunkBit z s i c' =
    if c' = c then v else pool.chunkBit z s i c'
  word : s ≠ z.exactShift → pool'.slab (.page i) &&& slabShiftMask =
    pool.slab (.page i) &&& slabShiftMask
  high : z.exactShift < s → ∀ b, z.chunks s ≤ b →
    (pool'.slab (.page i)).getLsbD (slabMapShift + b) =
      (pool.slab (.page i)).getLsbD (slabMapShift + b)
  slab : ∀ q, q ≠ .page i → pool'.slab q = pool.slab q
  mem : ∀ i', i' ≠ i → pool'.mem i' = pool.mem i'
  next : pool'.next = pool.next
  prev : pool'.prev = pool.prev
  last : pool'.last = pool.last
  start : pool'.start = pool.start
  pfree : pool'.pfree = pool.pfree
  log : pool'.log = pool.log

section Bits

variable {z : SlabZone} {pool : SlabPool} {s i c : ℕ}

theorem chunkBit_small (hs : s < z.exactShift) :
    pool.chunkBit z s i c = (pool.mem i (c / 64)).getLsbD (c % 64) := by
  rw [SlabPool.chunkBit, if_pos hs]

theorem chunkBit_exact :
    pool.chunkBit z z.exactShift i c = (pool.slab (.page i)).getLsbD c := by
  rw [SlabPool.chunkBit, if_neg (Nat.lt_irrefl _), if_pos rfl]

theorem chunkBit_big (hs : z.exactShift < s) :
    pool.chunkBit z s i c = (pool.slab (.page i)).getLsbD (slabMapShift + c) := by
  rw [SlabPool.chunkBit, if_neg (Nat.lt_asymm hs), if_neg (Nat.ne_of_gt hs)]

theorem getLsbD_shiftMask : ∀ b < 64, slabShiftMask.getLsbD b = decide (b < 4) := by
  decide

theorem getLsbD_mapMask : ∀ b < 64, slabMapMask.getLsbD b = decide (32 ≤ b) := by
  decide

/-- The map of big chunks stands in the high half of the word. -/
theorem getLsbD_bigMask (hs : z.chunks s ≤ 32) {b : ℕ} (hb : b < 64) :
    (slabBigMask z s).getLsbD b = decide (32 ≤ b ∧ b < 32 + z.chunks s) := by
  rw [slabBigMask, BitVec.getLsbD_shiftLeft, getLsbD_lowMask (by omega), slabMapShift]
  simp only [hb, decide_true, Bool.true_and]
  by_cases h32 : b < 32
  · simp [h32]
  · have hiff : b - 32 < z.chunks s ↔ b < 32 + z.chunks s := by omega
    simp [h32, hiff, Nat.not_lt.mp h32]

/-- A small page is full when the words of its bitmap are. -/
theorem full_small (hs : s < z.exactShift) :
    pool.Full z s i ↔ ∀ w < z.mapWords s, pool.mem i w = slabBusy := by
  obtain ⟨-, hchunks⟩ := SlabZone.chunks_small hs
  simp only [SlabPool.Full, chunkBit_small hs]
  constructor
  · intro h w hw
    rw [slabBusy_eq, eq_allOnes_iff]
    intro b hb
    have hw' : (64 * w + b) / 64 = w := by omega
    have hb' : (64 * w + b) % 64 = b := by omega
    have hc := h (64 * w + b) (by omega)
    rwa [hw', hb'] at hc
  · intro h c hc
    rw [h (c / 64) (by omega), slabBusy_eq]
    exact (eq_allOnes_iff _).mp rfl _ (by omega)

theorem full_exact : pool.Full z z.exactShift i ↔ pool.slab (.page i) = slabBusy := by
  simp only [SlabPool.Full, chunkBit_exact, SlabZone.chunks_exact, slabBusy_eq, eq_allOnes_iff]

/-- A big page is full when the upper half of its word is the mask. -/
theorem full_big (hexact : z.exactShift < s) (hs : s < z.pagesizeShift)
    (hhigh : ∀ b, z.chunks s ≤ b → (pool.slab (.page i)).getLsbD (slabMapShift + b) = false) :
    pool.Full z s i ↔ pool.slab (.page i) &&& slabMapMask = slabBigMask z s := by
  obtain ⟨-, hle⟩ := SlabZone.chunks_big hexact hs
  simp only [SlabPool.Full, chunkBit_big hexact]
  constructor
  · intro h
    apply BitVec.eq_of_getLsbD_eq
    intro b hb
    rw [BitVec.getLsbD_and, getLsbD_mapMask b hb, getLsbD_bigMask hle hb]
    by_cases h32 : 32 ≤ b
    · have hsum : slabMapShift + (b - 32) = b := by
        rw [slabMapShift]
        omega
      by_cases hc : b < 32 + z.chunks s
      · have hbit := h (b - 32) (by omega)
        rw [hsum] at hbit
        simp [hbit, h32, hc]
      · have hbit := hhigh (b - 32) (by omega)
        rw [hsum] at hbit
        simp [hbit, hc]
    · simp [h32]
  · intro h c hc
    have h64 : 32 + c < 64 := by omega
    have hbit := congrArg (fun x : Word => x.getLsbD (32 + c)) h
    simp only [BitVec.getLsbD_and, getLsbD_mapMask (32 + c) h64, getLsbD_bigMask hle h64] at hbit
    simpa [hc, slabMapShift] using hbit

/-- Writing a bit of the bitmap in a small page. -/
theorem chunkWrite_small {v : Bool} {x : Word} (hs : s < z.exactShift)
    (hx : ∀ b < 64, x.getLsbD b = if b = c % 64 then v else (pool.mem i (c / 64)).getLsbD b) :
    ChunkWrite z s i c v pool (pool.setWord i (c / 64) x) := by
  refine ⟨?_, fun _ => rfl, fun _ _ _ => rfl, fun _ _ => rfl, ?_, rfl, rfl, rfl, rfl, rfl, rfl⟩
  · intro c' _
    simp only [chunkBit_small hs, SlabPool.setWord, update_self]
    by_cases hw : c' / 64 = c / 64
    · have hiff : c' % 64 = c % 64 ↔ c' = c := by omega
      rw [hw, update_self, hx _ (by omega)]
      simp only [hiff]
    · have hne : c' ≠ c := fun h => hw (by rw [h])
      rw [update_of_ne hw, if_neg hne]
  · intro i' hi'
    simp only [SlabPool.setWord, update_of_ne hi']

/-- Writing a bit of the word of another page: the bits of its chunks start at `o`. -/
theorem chunkWrite_word {v : Bool} {x : Word} {o : ℕ} (hs : ¬ s < z.exactShift)
    (ho : s = z.exactShift ∧ o = 0 ∨ s ≠ z.exactShift ∧ o = 32) (hc : c < z.chunks s)
    (hlen : o + z.chunks s ≤ 64)
    (hx : ∀ b < 64, x.getLsbD b =
      if b = o + c then v else (pool.slab (.page i)).getLsbD b) :
    ChunkWrite z s i c v pool { pool with slab := update pool.slab (.page i) x } := by
  refine ⟨?_, ?_, ?_, ?_, fun _ _ => rfl, rfl, rfl, rfl, rfl, rfl, rfl⟩
  · intro c' hc'
    simp only [SlabPool.chunkBit, if_neg hs, update_self]
    rcases ho with ⟨heq, rfl⟩ | ⟨hne, rfl⟩
    · rw [if_pos heq, if_pos heq, hx _ (by omega), Nat.zero_add]
    · rw [if_neg hne, if_neg hne, slabMapShift, hx _ (by omega)]
      simp
  · intro hne
    rcases ho with ⟨heq, -⟩ | ⟨-, rfl⟩
    · exact absurd heq hne
    · apply BitVec.eq_of_getLsbD_eq
      intro b hb
      simp only [BitVec.getLsbD_and, getLsbD_shiftMask b hb, update_self, hx b hb]
      by_cases h4 : b < 4
      · rw [if_neg (by omega)]
      · simp [h4]
  · intro hlt b hb
    rcases ho with ⟨heq, -⟩ | ⟨-, rfl⟩
    · omega
    · simp only [update_self, slabMapShift]
      by_cases h64 : 32 + b < 64
      · rw [hx _ h64, if_neg (by omega)]
      · rw [BitVec.getLsbD_of_ge _ _ (by omega), BitVec.getLsbD_of_ge _ _ (by omega)]
  · intro q hq
    simp only [update_of_ne hq]

theorem getLsbD_set (x : Word) {k b : ℕ} (hk : k < 64) :
    (x ||| bit k).getLsbD b = if b = k then true else x.getLsbD b := by
  rw [getLsbD_or_bit x hk]
  by_cases h : b = k
  · simp [h]
  · simp [h]

theorem getLsbD_clear (x : Word) {k b : ℕ} (hk : k < 64) (hb : b < 64) :
    (x &&& ~~~(bit k)).getLsbD b = if b = k then false else x.getLsbD b := by
  rw [getLsbD_and_not_bit x hk hb]
  by_cases h : b = k
  · simp [h]
  · simp [h]

/-- What taking a chunk of a page that has a free one does. -/
def TakeSpec (z : SlabZone) (s i : ℕ) (pool : SlabPool)
    (res : Option (Option ℕ × SlabPool)) : Prop :=
  ∃ c pool₁, c < z.chunks s ∧ pool.chunkBit z s i c = false ∧
    ChunkWrite z s i c true pool pool₁ ∧
    (pool₁.Full z s i →
      res = (pool₁.detach i (z.typeOf s)).map fun pool₂ => (some c, pool₂)) ∧
    (¬ pool₁.Full z s i → res = some (some c, pool₁))

/-- Taking a small chunk. -/
theorem takeSmall_spec (hs : s < z.exactShift) (hfull : ¬ pool.Full z s i) :
    TakeSpec z s i pool (slabTakeSmall z s i pool) := by
  obtain ⟨-, hchunks⟩ := SlabZone.chunks_small hs
  have htype := SlabZone.typeOf_small hs
  rcases slabScanMap_spec (pool.mem i) (z.mapWords s) 0 with
    ⟨hall, -⟩ | ⟨w, b, -, hw, hb, hbit, hbefore, hres⟩
  · exact absurd ((full_small hs).mpr fun w hw => hall w (by omega) (by omega)) hfull
  · have hc : w * 8 * 8 + b = 64 * w + b := by omega
    have hcw : (64 * w + b) / 64 = w := by omega
    have hcb : (64 * w + b) % 64 = b := by omega
    have hwrite : ChunkWrite z s i (64 * w + b) true pool
        (pool.setWord i ((64 * w + b) / 64) (pool.mem i w ||| bit b)) := by
      refine chunkWrite_small hs fun b' _ => ?_
      rw [hcw, hcb, getLsbD_set _ hb]
    rw [hcw] at hwrite
    -- the words before the one found are all busy
    have hiff : (pool.setWord i w (pool.mem i w ||| bit b)).Full z s i ↔
        (pool.setWord i w (pool.mem i w ||| bit b)).mem i w = slabBusy ∧
          ¬ slabAnyWord ((pool.setWord i w (pool.mem i w ||| bit b)).mem i) slabBusy
            (z.mapWords s - (w + 1)) (w + 1) = true := by
      rw [full_small hs, slabAnyWord_iff]
      constructor
      · intro h
        refine ⟨h w (by omega), ?_⟩
        rintro ⟨w', h₁, h₂, hne⟩
        exact hne (h w' (by omega))
      · rintro ⟨hself, hafter⟩ w' hw'
        rcases Nat.lt_trichotomy w' w with hlt | rfl | hgt
        · have hne : w' ≠ w := by omega
          simp only [SlabPool.setWord, update_self, update_of_ne hne]
          exact hbefore w' (by omega) hlt
        · exact hself
        · by_contra hne
          exact hafter ⟨w', by omega, by omega, hne⟩
    refine ⟨64 * w + b, _, by omega, ?_, hwrite, ?_, ?_⟩
    · rw [chunkBit_small hs, hcw, hcb, hbit]
    · intro hf
      rw [slabTakeSmall, hres]
      simp only
      rw [if_pos (hiff.mp hf), hc, htype]
    · intro hf
      rw [slabTakeSmall, hres]
      simp only
      rw [if_neg fun h => hf (hiff.mpr h), hc]

/-- Taking a chunk of the exact size. -/
theorem takeExact_spec (hfull : ¬ pool.Full z z.exactShift i) :
    TakeSpec z z.exactShift i pool (slabTakeExact i pool) := by
  have htype := z.typeOf_exact
  have hchunks := z.chunks_exact
  rcases slabScan_word (pool.slab (.page i)) with ⟨hall, -⟩ | ⟨c, hc, hbit, hres⟩
  · refine absurd (full_exact.mpr ?_) hfull
    rw [slabBusy_eq, eq_allOnes_iff]
    exact hall
  · have hwrite : ChunkWrite z z.exactShift i c true pool { pool with
        slab := update pool.slab (.page i) (pool.slab (.page i) ||| bit c) } := by
      refine chunkWrite_word (Nat.lt_irrefl _) (Or.inl ⟨rfl, rfl⟩) (by omega) (by omega)
        fun b _ => ?_
      rw [Nat.zero_add, getLsbD_set _ hc]
    refine ⟨c, _, by omega, ?_, hwrite, ?_, ?_⟩
    · rw [chunkBit_exact, hbit]
    · intro hf
      rw [slabTakeExact, hres]
      simp only
      rw [if_pos (full_exact.mp hf), htype]
    · intro hf
      rw [slabTakeExact, hres]
      simp only
      rw [if_neg fun h => hf (full_exact.mpr h)]

/-- Taking a big chunk. -/
theorem takeBig_spec (hexact : z.exactShift < s) (hs : s < z.pagesizeShift)
    (hhigh : ∀ b, z.chunks s ≤ b → (pool.slab (.page i)).getLsbD (slabMapShift + b) = false)
    (hfull : ¬ pool.Full z s i) : TakeSpec z s i pool (slabTakeBig z s i pool) := by
  have hns : ¬ s < z.exactShift := by omega
  have hne : s ≠ z.exactShift := by omega
  have htype := SlabZone.typeOf_big hexact
  obtain ⟨-, hle⟩ := SlabZone.chunks_big hexact hs
  have hscan := slabScan_spec (pool.slab (.page i)) (slabBigMask z s) 65 (o := 32) (i := 0)
    (by omega) (fun b hb => getLsbD_bigMask hle hb) (by omega) (by omega)
  rw [Nat.add_zero] at hscan
  rcases hscan with ⟨hall, -⟩ | ⟨c, -, hc, hbit, -, hres⟩
  · refine absurd ?_ hfull
    intro c hc
    rw [chunkBit_big hexact]
    exact hall c (by omega) hc
  · have hwrite : ChunkWrite z s i c true pool { pool with
        slab := update pool.slab (.page i) (pool.slab (.page i) ||| bit (32 + c)) } := by
      refine chunkWrite_word hns (Or.inr ⟨hne, rfl⟩) hc (by omega) fun b _ => ?_
      rw [getLsbD_set _ (by omega)]
    have hiff := full_big hexact hs (fun b hb => (hwrite.high hexact b hb).trans (hhigh b hb))
    have hres' : slabScan (pool.slab (.page i)) (slabBigMask z s) 65 0 (1#64 <<< slabMapShift) =
        some (c, bit (32 + c)) := hres
    refine ⟨c, _, hc, ?_, hwrite, ?_, ?_⟩
    · rw [chunkBit_big hexact, slabMapShift, hbit]
    · intro hf
      simp only [slabTakeBig, hres']
      rw [if_pos (hiff.mp hf), htype]
    · intro hf
      simp only [slabTakeBig, hres']
      rw [if_neg fun h => hf (hiff.mpr h)]

/-- **Taking a chunk** of a page with a free one. -/
theorem takeChunk_spec (P : SlotPage z s i pool) (hfull : ¬ pool.Full z s i) :
    TakeSpec z s i pool (slabTakeChunk z s i pool) := by
  rw [slabTakeChunk]
  split_ifs with hlt heq
  · exact takeSmall_spec hlt hfull
  · subst heq
    exact takeExact_spec hfull
  · have hexact : z.exactShift < s := by omega
    exact takeBig_spec hexact P.max (P.high hexact) hfull

/-! ### New pages -/

/-- A new page of slot `s - min_shift`: it is alone on its list, and only its own chunks
and the first of the others are busy. -/
structure PageNew (z : SlabZone) (s i : ℕ) (pool pool' : SlabPool) : Prop where
  bit : ∀ c < z.chunks s, pool'.chunkBit z s i c = decide (c ≤ z.reserved s)
  word : s ≠ z.exactShift → (pool'.slab (.page i) &&& slabShiftMask).toNat = s
  high : z.exactShift < s → ∀ b, z.chunks s ≤ b →
    (pool'.slab (.page i)).getLsbD (slabMapShift + b) = false
  slab : ∀ q, q ≠ .page i → pool'.slab q = pool.slab q
  next : ∀ q, pool'.next q = if q = .slot (s - z.minShift) then some (.page i)
    else if q = .page i then some (.slot (s - z.minShift)) else pool.next q
  prev : ∀ q, pool'.prev q =
    if q = .page i then ⟨some (.slot (s - z.minShift)), z.typeOf s⟩ else pool.prev q
  mem : ∀ i', i' ≠ i → pool'.mem i' = pool.mem i'
  last : pool'.last = pool.last
  start : pool'.start = pool.start
  pfree : pool'.pfree = pool.pfree
  log : pool'.log = pool.log

/-- The bitmap of a new small page has one bit more than its own chunks. -/
theorem initMap_spec (pool : SlabPool) (i : ℕ) (hs : s < z.exactShift) :
    (∀ c < z.chunks s, ((slabInitMap z s i pool).mem i (c / 64)).getLsbD (c % 64) =
      decide (c ≤ z.mapChunks s)) ∧
    (∀ i', i' ≠ i → (slabInitMap z s i pool).mem i' = pool.mem i') ∧
    slabInitMap z s i pool = { pool with mem := (slabInitMap z s i pool).mem } := by
  obtain ⟨hwords, hchunks⟩ := SlabZone.chunks_small hs
  obtain ⟨-, hone, hle⟩ := SlabZone.mapWords_le hs
  generalize hn : z.mapChunks s = n at *
  have hk : (n + 1) / (8 * 8) < z.mapWords s := by omega
  simp only [slabInitMap, hn, slabFill_eq, SlabPool.setWord, update_self,
    update_idem]
  refine ⟨?_, ?_, trivial⟩
  · intro c hc
    simp only [Nat.zero_le, true_and, Nat.zero_add, Nat.reduceMul] at hk ⊢
    rcases Nat.lt_trichotomy (c / 64) ((n + 1) / 64) with hlt | heq | hgt
    · rw [if_neg (by omega), update_of_ne (by omega), if_pos hlt, slabBusy_eq,
        (eq_allOnes_iff _).mp rfl _ (by omega), decide_eq_true (by omega)]
    · rw [if_neg (by omega), heq, update_self, getLsbD_lowMask (by omega)]
      have hiff : c % 64 < (n + 1) % 64 ↔ c ≤ n := by omega
      simp only [hiff]
    · rw [if_pos (by omega), BitVec.getLsbD_zero, decide_eq_false (by omega)]
  · intro i' hi'
    rw [update_of_ne hi']

/-- The word of a page of big chunks: the shift, and the first chunk taken. -/
theorem bigWord_spec : ∀ s < 16,
    (((1#64 <<< slabMapShift) ||| BitVec.ofNat 64 s) &&& slabShiftMask).toNat = s ∧
      ∀ c < 32, ((1#64 <<< slabMapShift) ||| BitVec.ofNat 64 s).getLsbD (slabMapShift + c) =
        decide (c ≤ 0) := by
  decide

theorem smallWord_spec : ∀ s < 16, (BitVec.ofNat 64 s &&& slabShiftMask).toNat = s := by
  decide

/-- **A new page.** -/
theorem newPage_spec (hs : s < z.pagesizeShift) :
    (slabNewPage z s i pool).1 = z.reserved s ∧
      PageNew z s i pool (slabNewPage z s i pool).2 := by
  have h16 : s < 16 := Nat.lt_of_lt_of_le hs z.pagesize_le
  rcases Nat.lt_trichotomy s z.exactShift with hlt | heq | hgt
  · obtain ⟨hbit, hmem, hpool⟩ := initMap_spec pool i hlt
    have htype := SlabZone.typeOf_small hlt
    have hres := SlabZone.reserved_small hlt
    have hslab : (slabInitMap z s i pool).slab = pool.slab := by rw [hpool]
    have hnext : (slabInitMap z s i pool).next = pool.next := by rw [hpool]
    have hprev : (slabInitMap z s i pool).prev = pool.prev := by rw [hpool]
    simp only [slabNewPage, if_pos hlt, SlabPool.setPage, SlabPool.setStat]
    refine ⟨hres.symm, ?_, ?_, fun hgt => absurd hlt (by omega), ?_, ?_, ?_, hmem, ?_, ?_, ?_,
      ?_⟩
    · intro c hc
      rw [chunkBit_small hlt, hbit c hc, hres]
    · intro _
      simp only [update_self]
      exact smallWord_spec s h16
    · intro q hq
      simp only [update_of_ne hq, hslab]
    · intro q
      simp only [hnext, update_apply]
    · intro q
      simp only [hprev, htype, update_apply]
    all_goals
      simp only
      rw [hpool]
  · subst heq
    have htype := z.typeOf_exact
    have hres := SlabZone.reserved_eq_zero (Nat.le_refl z.exactShift)
    simp only [slabNewPage, Nat.lt_irrefl, if_false, if_true, SlabPool.setPage, SlabPool.setStat]
    refine ⟨hres.symm, ?_, fun hne => absurd rfl hne, fun hgt => absurd hgt (Nat.lt_irrefl _), ?_,
      ?_, ?_, fun _ _ => rfl, rfl, rfl, rfl, rfl⟩
    · intro c hc
      simp only [chunkBit_exact, update_self, hres, BitVec.getLsbD_one]
      simp
    · intro q hq
      simp only [update_of_ne hq]
    · intro q
      simp only [update_apply]
    · intro q
      simp only [htype, update_apply]
  · have htype := SlabZone.typeOf_big hgt
    have hres := SlabZone.reserved_eq_zero (Nat.le_of_lt hgt)
    obtain ⟨htwo, hle⟩ := SlabZone.chunks_big hgt hs
    obtain ⟨hword, hbits⟩ := bigWord_spec s h16
    simp only [slabNewPage, if_neg (Nat.lt_asymm hgt), if_neg (Nat.ne_of_gt hgt),
      SlabPool.setPage, SlabPool.setStat]
    refine ⟨hres.symm, ?_, ?_, ?_, ?_, ?_, ?_, fun _ _ => rfl, rfl, rfl, rfl, rfl⟩
    · intro c hc
      simp only [chunkBit_big hgt, update_self, hres]
      exact hbits c (by omega)
    · intro _
      simp [hword]
    · intro _ b hb
      simp only [update_self]
      by_cases h32 : b < 32
      · rw [hbits b h32, decide_eq_false (by omega)]
      · exact BitVec.getLsbD_of_ge _ _ (by rw [slabMapShift]; omega)
    · intro q hq
      simp only [update_of_ne hq]
    · intro q
      simp only [update_apply]
    · intro q
      simp only [htype, update_apply]

end Bits

end Hengine
