import Hengine.Core.SlabLinks

/-!
# Allocation

What `ngx_slab_alloc_locked` does to a pool that satisfies the invariant, in terms of its
live blocks. A live block is an allocation of whole pages or a busy chunk of a page of a
slot: an allocation adds one, which is large enough, and does not touch the others.
-/

namespace Hengine

open List Option Function

/-! ### The size of a request -/

namespace SlabZone

open SlabSizes

variable {z : SlabZone} {size : ℕ}

/-- A request for whole pages gets enough of them. -/
theorem pages_spec (hsize : 0 < size) :
    0 < z.pages size ∧ size ≤ z.pages size * z.pagesize := by
  have hP : 0 < z.pagesize := Nat.two_pow_pos _
  have hdiv := Nat.div_add_mod size z.pagesize
  have hmod := Nat.mod_lt size hP
  rw [pages, Nat.shiftRight_eq_div_pow, ← pagesize]
  generalize size / z.pagesize = q at *
  generalize size % z.pagesize = r at *
  split_ifs with h
  · rw [Nat.add_mul, Nat.one_mul, Nat.mul_comm q]
    omega
  · have hq : 0 < q := by
      rw [Nat.pos_iff_ne_zero]
      rintro rfl
      omega
    rw [Nat.add_zero, Nat.mul_comm q]
    omega

/-- Another request gets a chunk that is large enough. -/
theorem shift_spec (hsize : size ≤ z.maxSize) :
    z.minShift ≤ z.shift size ∧ z.shift size < z.pagesizeShift ∧
      size ≤ 2 ^ z.shift size := by
  have hge := z.pagesize_ge
  have hmin := z.min_lt
  have hhalf : z.maxSize = 2 ^ (z.pagesizeShift - 1) := by
    rw [maxSize, pagesize]
    exact Nat.pow_div (x := 2) (n := 1) (by omega) (by omega)
  rw [shift, Nat.shiftLeft_eq, Nat.one_mul]
  split_ifs with h
  · have hpos : size - 1 ≠ 0 := by
      have := Nat.two_pow_pos z.minShift
      omega
    have hlog : Nat.log2 (size - 1) < z.pagesizeShift - 1 :=
      (Nat.log2_lt hpos).mpr (by omega)
    have hle : z.minShift ≤ Nat.log2 (size - 1) := (Nat.le_log2 hpos).mpr (by omega)
    have hlt : size - 1 < 2 ^ (Nat.log2 (size - 1) + 1) := Nat.lt_log2_self
    rw [Nat.add_comm 1]
    omega
  · omega

end SlabZone

/-! ### Owners -/

/-- What a live block is: an allocation of `k` pages at `i`, or chunk `c` of page `i`. -/
inductive SlabOwner
  | block (i k : ℕ)
  | chunk (s i c : ℕ)
  deriving DecidableEq

/-- The address of a block. -/
def SlabOwner.addr (z : SlabZone) (start : ℕ) : SlabOwner → ℕ
  | block i _ => (i <<< z.pagesizeShift) + start
  | chunk s i c => (i <<< z.pagesizeShift) + start + (c <<< s)

/-- Its size. -/
def SlabOwner.room (z : SlabZone) : SlabOwner → ℕ
  | block _ k => k * z.pagesize
  | chunk s _ _ => 2 ^ s

/-- The live blocks of a pool. -/
def Owns (z : SlabZone) (blocks : List (ℕ × ℕ)) (pool : SlabPool) : SlabOwner → Prop
  | .block i k => (i, k) ∈ blocks
  | .chunk s i c => i < pool.last ∧ SlotPage z s i pool ∧ z.reserved s ≤ c ∧
      c < z.chunks s ∧ pool.chunkBit z s i c = true

/-- A pool between two calls. -/
structure SlabOk (z : SlabZone) (runs blocks : List (ℕ × ℕ)) (slots : ℕ → List ℕ)
    (pool : SlabPool) : Prop where
  inv : SlabInv z ∅ runs blocks slots pool
  pfree : pool.pfree = runPages runs
  empty : pool.last = 0 → runs = [(0, 0)]
  aligned : z.pagesize ∣ pool.start
  fits : 0 < pool.last → pool.start + pool.last * z.pagesize ≤ z.stop
  log : ∀ e ∈ pool.log, e = .noMemory

/-- One more live block. -/
structure SlabGains (z : SlabZone) (o : SlabOwner) (blocks : List (ℕ × ℕ)) (pool : SlabPool)
    (blocks' : List (ℕ × ℕ)) (pool' : SlabPool) : Prop where
  start : pool'.start = pool.start
  fresh : ¬ Owns z blocks pool o
  owns : ∀ o', Owns z blocks' pool' o' ↔ Owns z blocks pool o' ∨ o' = o

/-- One live block less. -/
structure SlabLoses (z : SlabZone) (o : SlabOwner) (blocks : List (ℕ × ℕ)) (pool : SlabPool)
    (blocks' : List (ℕ × ℕ)) (pool' : SlabPool) : Prop where
  start : pool'.start = pool.start
  owns : ∀ o', Owns z blocks' pool' o' ↔ Owns z blocks pool o' ∧ o' ≠ o

/-- What an allocation of `size` bytes does: it fails and the live blocks are the same, or
it adds one that is large enough. -/
def AllocSpec (z : SlabZone) (size : ℕ) (runs blocks : List (ℕ × ℕ)) (slots : ℕ → List ℕ)
    (pool : SlabPool) (res : Option (Option ℕ × SlabPool)) : Prop :=
  (∃ pool', res = some (none, pool') ∧ SlabOk z runs blocks slots pool' ∧
    pool'.start = pool.start ∧ ∀ o, Owns z blocks pool' o ↔ Owns z blocks pool o) ∨
  ∃ o runs' blocks' slots' pool', res = some (some (o.addr z pool.start), pool') ∧
    SlabOk z runs' blocks' slots' pool' ∧ SlabGains z o blocks pool blocks' pool' ∧
    size ≤ o.room z

/-! ### Addresses -/

section Address

variable {z : SlabZone} {start s i k c : ℕ}

theorem shiftLeft_page (z : SlabZone) (i : ℕ) : i <<< z.pagesizeShift = i * z.pagesize :=
  Nat.shiftLeft_eq i z.pagesizeShift

/-- A chunk ends inside its page. -/
theorem chunk_end_le (hs : s < z.pagesizeShift) (hc : c < z.chunks s) :
    c <<< s + 2 ^ s ≤ z.pagesize := by
  calc c <<< s + 2 ^ s = (c + 1) * 2 ^ s := by rw [Nat.shiftLeft_eq, Nat.add_mul, Nat.one_mul]
    _ ≤ z.chunks s * 2 ^ s := Nat.mul_le_mul_right _ hc
    _ = z.pagesize := SlabZone.chunks_mul (by omega)

/-- The page of an address. -/
theorem addr_page (start i : ℕ) {off : ℕ} (hoff : off < z.pagesize) :
    ((i <<< z.pagesizeShift) + start + off - start) >>> z.pagesizeShift = i := by
  have hsub : (i <<< z.pagesizeShift) + start + off - start = off + i * z.pagesize := by
    rw [shiftLeft_page]
    omega
  have hP : 0 < z.pagesize := Nat.two_pow_pos _
  rw [hsub, Nat.shiftRight_eq_div_pow, ← SlabSizes.pagesize, Nat.add_mul_div_right _ _ hP,
    Nat.div_eq_of_lt hoff, Nat.zero_add]

/-- The offset of an address in its page. -/
theorem addr_offset (hstart : z.pagesize ∣ start) {off : ℕ} (hoff : off < z.pagesize) :
    ((i <<< z.pagesizeShift) + start + off) &&& (z.pagesize - 1) = off := by
  obtain ⟨m, rfl⟩ := hstart
  have hsum : (i <<< z.pagesizeShift) + z.pagesize * m + off = off + z.pagesize * (i + m) := by
    rw [shiftLeft_page, Nat.mul_add, Nat.mul_comm i]
    omega
  have hpow := Nat.and_two_pow_sub_one_eq_mod (off + z.pagesize * (i + m)) z.pagesizeShift
  rw [← SlabSizes.pagesize] at hpow
  rw [hsum, hpow, Nat.add_mul_mod_self_left, Nat.mod_eq_of_lt hoff]

/-- The address of a chunk is a multiple of its size. -/
theorem addr_aligned (hstart : z.pagesize ∣ start) (hs : s ≤ z.pagesizeShift) :
    ((i <<< z.pagesizeShift) + start + (c <<< s)) &&& (2 ^ s - 1) = 0 := by
  have hdvd : 2 ^ s ∣ z.pagesize := Nat.pow_dvd_pow 2 hs
  rw [Nat.and_two_pow_sub_one_eq_mod]
  refine Nat.mod_eq_zero_of_dvd (Nat.dvd_add (Nat.dvd_add ?_ (hdvd.trans hstart)) ?_)
  · rw [Nat.shiftLeft_eq]
    exact hdvd.mul_left i
  · rw [Nat.shiftLeft_eq]
    exact Nat.dvd_mul_left _ _

end Address

section Calls

variable {z : SlabZone} {runs runs' blocks blocks' : List (ℕ × ℕ)} {slots : ℕ → List ℕ}
  {pool pool' pool'' : SlabPool} {s t i j c k size : ℕ} {o : SlabOwner} {l : List ℕ}

/-- A chunk of a page that was not written, and that neither was nor is in another use. -/
theorem owns_chunk_congr (hlast : pool'.last = pool.last)
    (hsame : (pool.prev (.page j)).type ≠ .page ∨ (pool'.prev (.page j)).type ≠ .page →
      pool'.slab (.page j) = pool.slab (.page j) ∧ pool'.mem j = pool.mem j ∧
        (pool'.prev (.page j)).type = (pool.prev (.page j)).type) :
    Owns z blocks' pool' (.chunk s j c) ↔ Owns z blocks pool (.chunk s j c) := by
  simp only [Owns, hlast]
  constructor
  · rintro ⟨hj, P, h₁, h₂, hbit⟩
    obtain ⟨hslab, hmem, htype⟩ := hsame (Or.inr P.type_ne)
    have S : SamePage z s j pool pool' := SamePage.of_mem hslab hmem
    exact ⟨hj, (slotPage_congr S htype).mp P, h₁, h₂, (S.chunkBit h₂).symm.trans hbit⟩
  · rintro ⟨hj, P, h₁, h₂, hbit⟩
    obtain ⟨hslab, hmem, htype⟩ := hsame (Or.inl P.type_ne)
    have S : SamePage z s j pool pool' := SamePage.of_mem hslab hmem
    exact ⟨hj, P.congr S htype, h₁, h₂, (S.chunkBit h₂).trans hbit⟩

theorem Relisted.owns {old new : List ℕ} (R : Relisted t i old new pool pool') (hj : j ≠ i) :
    Owns z blocks pool' (.chunk s j c) ↔ Owns z blocks pool (.chunk s j c) :=
  owns_chunk_congr R.last fun _ => ⟨R.slab _ (by simpa using hj), R.mem j hj, R.type j hj⟩

/-- A page stays one of its slot when the bit of one of its chunks is written, as long as a
chunk is busy. -/
theorem ChunkWrite.slotPage {v : Bool} (W : ChunkWrite z s i c v pool pool')
    (P : SlotPage z s i pool) (hc : z.reserved s ≤ c)
    (hused : ∃ c', z.reserved s ≤ c' ∧ c' < z.chunks s ∧ pool'.chunkBit z s i c' = true) :
    SlotPage z s i pool' := by
  have hlt := reserved_lt P.max
  refine ⟨P.min, P.max, ?_, ?_, ?_, ?_, hused⟩
  · rw [W.prev]
    exact P.kind
  · intro hs
    rw [W.word hs]
    exact P.word hs
  · intro hs b hb
    rw [W.high hs b hb]
    exact P.high hs b hb
  · intro c' hc'
    rw [W.bit c' (by omega), if_neg (by omega)]
    exact P.reserved c' hc'

/-- The chunks of a page, when a bit is written. -/
theorem owns_of_write {v : Bool} {old new : List ℕ} (R : Relisted t i old new pool pool')
    (P : SlotPage z s i pool) (P' : SlotPage z s i pool')
    (hbit : ∀ c' < z.chunks s, pool'.chunkBit z s i c' =
      if c' = c then v else pool.chunkBit z s i c') {o' : SlabOwner} (ho : o' ≠ .chunk s i c) :
    Owns z blocks pool' o' ↔ Owns z blocks pool o' := by
  cases o' with
  | block i' k' => exact Iff.rfl
  | chunk s' j c' =>
    by_cases hj : j = i
    · subst hj
      simp only [Owns, R.last]
      constructor
      · rintro ⟨hj, Q, h₁, h₂, hb⟩
        obtain rfl := Q.unique P'
        rw [hbit c' h₂, if_neg (by rintro rfl; exact ho rfl)] at hb
        exact ⟨hj, P, h₁, h₂, hb⟩
      · rintro ⟨hj, Q, h₁, h₂, hb⟩
        obtain rfl := Q.unique P
        refine ⟨hj, P', h₁, h₂, ?_⟩
        rw [hbit c' h₂, if_neg (by rintro rfl; exact ho rfl)]
        exact hb
    · exact R.owns hj

/-- **One more bit is set**: the chunk is owned as well, and nothing else changes. -/
theorem owns_of_set {old new : List ℕ} (R : Relisted t i old new pool pool')
    (hi : i < pool.last) (P : SlotPage z s i pool) (P' : SlotPage z s i pool')
    (h₁ : z.reserved s ≤ c) (h₂ : c < z.chunks s)
    (hbit : ∀ c' < z.chunks s, pool'.chunkBit z s i c' =
      if c' = c then true else pool.chunkBit z s i c') (o' : SlabOwner) :
    Owns z blocks pool' o' ↔ Owns z blocks pool o' ∨ o' = .chunk s i c := by
  by_cases ho : o' = .chunk s i c
  · subst ho
    refine iff_of_true ⟨R.last ▸ hi, P', h₁, h₂, ?_⟩ (Or.inr rfl)
    rw [hbit c h₂, if_pos rfl]
  · rw [owns_of_write R P P' hbit ho]
    simp [ho]

/-- What changes no owner afterwards keeps the gain. -/
theorem SlabGains.after (G : SlabGains z o blocks pool blocks' pool')
    (howns : ∀ o, Owns z blocks' pool'' o ↔ Owns z blocks' pool' o)
    (hstart : pool''.start = pool'.start) :
    SlabGains z o blocks pool blocks' pool'' :=
  ⟨hstart.trans G.start, G.fresh, fun o' => (howns o').trans (G.owns o')⟩

/-- Likewise the loss. -/
theorem SlabLoses.after (L : SlabLoses z o blocks pool blocks' pool')
    (howns : ∀ o, Owns z blocks' pool'' o ↔ Owns z blocks' pool' o)
    (hstart : pool''.start = pool'.start) :
    SlabLoses z o blocks pool blocks' pool'' :=
  ⟨hstart.trans L.start, fun o' => (howns o').trans (L.owns o')⟩

/-- What was done before the search does not matter, if it owned the same. -/
theorem AllocSpec.before {pool₀ : SlabPool} {res : Option (Option ℕ × SlabPool)}
    (hstart : pool.start = pool₀.start)
    (howns : ∀ o, Owns z blocks pool o ↔ Owns z blocks pool₀ o)
    (h : AllocSpec z size runs blocks slots pool res) :
    AllocSpec z size runs blocks slots pool₀ res := by
  rcases h with
    ⟨pool', hres, hok, hst, ho⟩ | ⟨o, runs', blocks', slots', pool', hres, hok, G, hroom⟩
  · exact Or.inl ⟨pool', hres, hok, hst.trans hstart, fun o => (ho o).trans (howns o)⟩
  · refine Or.inr ⟨o, runs', blocks', slots', pool', hstart ▸ hres, hok,
      ⟨G.start.trans hstart, fun hold => G.fresh ((howns o).mpr hold), fun o' => ?_⟩, hroom⟩
    rw [G.owns, howns]

namespace SlabOk

section

variable (h : SlabOk z runs blocks slots pool)
include h

/-- **Bookkeeping** leaves the live blocks alone. -/
theorem book (hslab : pool'.slab = pool.slab) (hnext : pool'.next = pool.next)
    (hprev : pool'.prev = pool.prev) (hlast : pool'.last = pool.last)
    (hpfree : pool'.pfree = pool.pfree) (hstart : pool'.start = pool.start)
    (hlog : ∀ e ∈ pool'.log, e = .noMemory)
    (hmem : ∀ j < pool.last, ∀ s < z.exactShift, SlotPage z s j pool → ∀ w < z.mapWords s,
      pool'.mem j w = pool.mem j w) :
    SlabOk z runs blocks slots pool' ∧ ∀ o, Owns z blocks pool' o ↔ Owns z blocks pool o := by
  refine ⟨⟨h.inv.book hslab hnext hprev hlast hmem, hpfree.trans h.pfree, hlast ▸ h.empty,
    hstart ▸ h.aligned, ?_, hlog⟩, ?_⟩
  · rw [hlast, hstart]
    exact h.fits
  · intro o
    cases o with
    | block i k => exact Iff.rfl
    | chunk s i c =>
      simp only [Owns, hlast]
      constructor
      · rintro ⟨hi, P, h₁, h₂, hbit⟩
        obtain ⟨hslot, hsame⟩ := h.inv.same_slots (s := s) hslab hprev hmem hi (by simp)
        have S := hsame (hslot.mp P)
        exact ⟨hi, hslot.mp P, h₁, h₂, (S.chunkBit h₂).symm.trans hbit⟩
      · rintro ⟨hi, P, h₁, h₂, hbit⟩
        obtain ⟨hslot, hsame⟩ := h.inv.same_slots (s := s) hslab hprev hmem hi (by simp)
        exact ⟨hi, hslot.mpr P, h₁, h₂, ((hsame P).chunkBit h₂).trans hbit⟩

theorem setStat (slot : ℕ) (f : SlabStat → SlabStat) :
    SlabOk z runs blocks slots (pool.setStat slot f) ∧
      ∀ o, Owns z blocks (pool.setStat slot f) o ↔ Owns z blocks pool o :=
  h.book rfl rfl rfl rfl rfl rfl h.log fun _ _ _ _ _ _ _ => rfl

/-- The message that memory is short. -/
theorem nomem :
    SlabOk z runs blocks slots (if pool.logNomem then pool.error .noMemory else pool) ∧
      (if pool.logNomem then pool.error .noMemory else pool).start = pool.start ∧
      ∀ o, Owns z blocks (if pool.logNomem then pool.error .noMemory else pool) o ↔
        Owns z blocks pool o := by
  split_ifs
  · have hlog : ∀ e ∈ (pool.error .noMemory).log, e = .noMemory := by
      intro e he
      rcases mem_cons.mp he with rfl | he
      · rfl
      · exact h.log e he
    have hbook : SlabOk z runs blocks slots (pool.error .noMemory) ∧
        ∀ o, Owns z blocks (pool.error .noMemory) o ↔ Owns z blocks pool o :=
      h.book rfl rfl rfl rfl rfl rfl hlog fun _ _ _ _ _ _ _ => rfl
    exact ⟨hbook.1, rfl, hbook.2⟩
  · exact ⟨h, rfl, fun _ => Iff.rfl⟩

/-! ### Allocation -/

section

variable (A : PagesAlloc k runs pool i runs' pool')
include A

theorem alloc_inside (hk : 0 < k) : i + k ≤ pool.last := by
  have hcov : Covered runs (i + k - 1) := (A.covered _).mpr (Or.inr ⟨by omega, by omega⟩)
  have := h.inv.free.lt_last hcov
  omega

/-- Taking pages leaves the chunks alone. -/
theorem alloc_chunks :
    Owns z blocks' pool' (.chunk s j c) ↔ Owns z blocks pool (.chunk s j c) := by
  refine owns_chunk_congr A.frame.last fun htype => ?_
  -- a page of the runs is of the other kind before and after
  have hcov : ¬ Covered runs j := by
    intro hcov
    rcases htype with htype | htype
    · exact htype (h.inv.free.kind j hcov)
    · rcases (A.covered j).mp hcov with hcov | ⟨h₁, h₂⟩
      · exact htype (A.free.kind j hcov)
      · exact htype (by rw [A.taken.prev j h₁ h₂])
  have hS := not_onFree hcov
  exact ⟨A.frame.slab _ hS, by rw [A.frame.mem], by rw [A.frame.prev _ hS]⟩

theorem alloc_pfree : pool'.pfree = runPages runs' := by
  have hpages := A.pages
  rw [A.pfree, h.pfree]
  omega

/-- **An allocation of whole pages.** -/
theorem allocBlock (hk : 0 < k) :
    SlabOk z runs' ((i, k) :: blocks) slots pool' ∧
      SlabGains z (.block i k) blocks pool ((i, k) :: blocks) pool' := by
  have hin := h.alloc_inside A hk
  have hlast := A.frame.last
  refine ⟨⟨(h.inv.allocPages A).giveBlock hk (by omega) A.taken, h.alloc_pfree A, by omega, ?_,
    ?_, ?_⟩, A.frame.start, ?_, ?_⟩
  · rw [A.frame.start]
    exact h.aligned
  · rw [A.frame.start, hlast]
    exact h.fits
  · rw [A.frame.log]
    exact h.log
  · intro hmem
    exact (h.inv.blockKind i ⟨(i, k), hmem, by simp, by simp only; omega⟩).2.1
      ((A.covered i).mpr (Or.inr ⟨by omega, by omega⟩))
  · intro o'
    cases o' with
    | block i' k' =>
      simp only [Owns, mem_cons, Prod.mk.injEq, SlabOwner.block.injEq]
      tauto
    | chunk s j c =>
      rw [h.alloc_chunks A]
      simp

end

/-- **A change of one page of a slot**, which belongs to the slot before and after it. -/
theorem flip (hi : i < pool.last) (P : SlotPage z s i pool) (P' : SlotPage z s i pool')
    (R : Relisted (s - z.minShift) i (slots (s - z.minShift)) l pool pool')
    (hl : i ∈ l ↔ ¬ pool'.Full z s i) (hnext : pool'.Full z s i → pool'.next (.page i) = none)
    (hpfree : pool'.pfree = pool.pfree) :
    SlabOk z runs blocks (update slots (s - z.minShift) l) pool' := by
  obtain ⟨ht, hts⟩ := P.slot
  refine ⟨h.inv.relist R ht hi (by simp) (h.inv.not_covered P.type_ne)
    (h.inv.not_block P.type_ne) ?_ ?_, hpfree.trans h.pfree, R.last ▸ h.empty,
    R.start ▸ h.aligned, ?_, R.log ▸ h.log⟩
  · rw [hts]
    exact fun _ => P
  · rw [hts]
    exact Or.inr ⟨by simp, P', hl, hnext⟩
  · rw [R.last, R.start]
    exact h.fits

/-- **A chunk of a page on a list.** -/
theorem takeChunk {rest : List ℕ} (ht : s - z.minShift < z.slotCount)
    (hs : s - z.minShift + z.minShift = s) (hlist : slots (s - z.minShift) = i :: rest) :
    ∃ c slots' pool', slabTakeChunk z s i pool = some (some c, pool') ∧
      SlabOk z runs blocks slots' pool' ∧
      SlabGains z (.chunk s i c) blocks pool blocks pool' := by
  have hring := h.inv.ring _ ht
  obtain ⟨hi, -, P, hfull⟩ := (h.inv.listed _ ht i).mp (by simp [hlist])
  rw [hs] at P hfull
  obtain ⟨c, pool₁, hc, hclear, W, hthen, helse⟩ := takeChunk_spec P hfull
  have hres : z.reserved s ≤ c := by
    by_contra hlt
    rw [P.reserved c (by omega)] at hclear
    simp at hclear
  have hset : pool₁.chunkBit z s i c = true := by
    rw [W.bit c hc, if_pos rfl]
  have P₁ : SlotPage z s i pool₁ := W.slotPage P hres ⟨c, hres, hc, hset⟩
  have R₁ := Relisted.of_write hring W
  by_cases hfull₁ : pool₁.Full z s i
  · have htype : ∀ j ∈ [] ++ i :: rest, (pool₁.prev (.page j)).type = z.typeOf s := by
      intro j hj
      rw [nil_append, ← hlist] at hj
      have Pj := h.inv.slotPage_of_mem ht hj
      rw [W.prev, Pj.kind, hs]
    have hring₁ := R₁.ring
    rw [hlist] at hring₁
    obtain ⟨pool₂, hexec, R₂, hslab, hmem, hpfree, hnone, hkind⟩ :=
      Relisted.detach (by exact hring₁) htype
    rw [nil_append, ← hlist] at R₂
    have hsame : SamePage z s i pool₁ pool₂ :=
      SamePage.of_mem (by rw [hslab]) (by rw [hmem])
    have P₂ : SlotPage z s i pool₂ := P₁.congr hsame (by rw [hkind, P₁.kind])
    have hnot : i ∉ rest := by
      have hnd := (nodup_cons.mp hring₁.nodup).2
      rw [map_cons, nodup_cons] at hnd
      exact fun hmem => hnd.1 (mem_map_of_mem hmem)
    refine ⟨c, _, pool₂, ?_, h.flip hi P P₂ (R₁.trans R₂) ?_ (fun _ => hnone)
      (hpfree.trans W.pfree), R₂.start.trans R₁.start, ?_, ?_⟩
    · rw [hthen hfull₁, hexec, map_some]
    · exact iff_of_false hnot fun hnf => hnf (hsame.full.mpr hfull₁)
    · rintro ⟨-, -, -, -, hbit⟩
      simp [hclear] at hbit
    · exact owns_of_set (R₁.trans R₂) hi P P₂ hres hc fun c' hc' =>
        (hsame.chunkBit hc').trans (W.bit c' hc')
  · refine ⟨c, _, pool₁, helse hfull₁, h.flip hi P P₁ R₁ ?_ (fun hf => absurd hf hfull₁) W.pfree,
      W.start, ?_, ?_⟩
    · rw [hlist]
      exact iff_of_true mem_cons_self hfull₁
    · rintro ⟨-, -, -, -, hbit⟩
      simp [hclear] at hbit
    · exact owns_of_set R₁ hi P P₁ hres hc W.bit

/-- **A new page of a slot.** -/
theorem newPage (A : PagesAlloc 1 runs pool i runs' pool') (hmin : z.minShift ≤ s)
    (hs : s < z.pagesizeShift) (hnil : slots (s - z.minShift) = [])
    (N : PageNew z s i pool' pool'') :
    SlabOk z runs' blocks (update slots (s - z.minShift) [i]) pool'' ∧
      SlabGains z (.chunk s i (z.reserved s)) blocks pool blocks pool'' := by
  have hin := h.alloc_inside A (by omega)
  have hlast := A.frame.last
  have hlt := reserved_lt hs
  have hcov : Covered runs i := (A.covered i).mpr (Or.inr ⟨by omega, by omega⟩)
  have hpage : ∀ j, j ≠ i → SlabPtr.page j ≠ .page i := by
    intro j hj
    simpa using hj
  have P : SlotPage z s i pool'' := by
    refine ⟨hmin, hs, ?_, N.word, N.high, ?_, z.reserved s, by omega, by omega, ?_⟩
    · rw [N.prev, if_pos rfl]
    · intro c hc
      rw [N.bit c (by omega), decide_eq_true (by omega)]
    · rw [N.bit _ (by omega), decide_eq_true (by omega)]
  obtain ⟨ht, hts⟩ := P.slot
  have R : Relisted (s - z.minShift) i (slots (s - z.minShift)) [i] pool' pool'' := by
    refine ⟨N.last, N.start, N.log, N.slab, N.mem, ?_, ?_, ?_, ⟨⟨?_, ?_, ?_⟩, ?_⟩, ?_⟩
    · intro j hj
      rw [N.prev, if_neg (hpage j hj)]
    · intro q hqi hqt _
      rw [N.next, if_neg hqt, if_neg hqi]
    · intro q hqi _ _
      rw [N.prev, if_neg hqi]
    · rw [N.next, if_pos rfl]
    · rw [SlabPool.back, N.prev, if_pos rfl]
    · rw [map_nil, Links, N.next, if_neg (by simp), if_pos rfl]
    · simp
    · intro j hj
      simp [hnil, hj]
  have hfull : ¬ pool''.Full z s i := by
    intro hf
    have hbit := hf (z.reserved s + 1) (by omega)
    rw [N.bit _ (by omega), decide_eq_false (by omega)] at hbit
    simp at hbit
  have hnot : ∀ s' c', ¬ Owns z blocks pool (.chunk s' i c') := by
    rintro s' c' ⟨-, P', -⟩
    exact P'.type_ne (h.inv.free.kind i hcov)
  refine ⟨⟨(h.inv.allocPages A).relist R ht (by omega) ?_ (A.apart i (by omega) (by omega)) ?_ ?_
    ?_, ?_, ?_, ?_, ?_, ?_⟩, N.start.trans A.frame.start, hnot _ _, ?_⟩
  · intro j hj
    exact ⟨by simp only [Set.mem_ofPred_eq]; omega, by simp⟩
  · exact fun hb => (h.inv.blockKind i hb).2.1 hcov
  · exact fun hi => absurd ⟨Nat.le_refl i, Nat.lt_succ_self i⟩ hi
  · rw [hts]
    exact Or.inr ⟨by simp, P, iff_of_true (by simp) hfull, fun hf => absurd hf hfull⟩
  · exact N.pfree.trans (h.alloc_pfree A)
  · intro hzero
    rw [N.last, hlast] at hzero
    omega
  · rw [N.start, A.frame.start]
    exact h.aligned
  · rw [N.start, N.last, A.frame.start, hlast]
    exact h.fits
  · rw [N.log, A.frame.log]
    exact h.log
  · intro o'
    cases o' with
    | block i' k' => simp [Owns]
    | chunk s' j c' =>
      by_cases hj : j = i
      · subst hj
        constructor
        · rintro ⟨-, Q, h₁, h₂, hb⟩
          obtain rfl := Q.unique P
          rw [N.bit c' h₂, decide_eq_true_eq] at hb
          obtain rfl : c' = z.reserved s' := by omega
          exact Or.inr rfl
        · rintro (ho | ho)
          · exact absurd ho (hnot s' c')
          · simp only [SlabOwner.chunk.injEq] at ho
            obtain ⟨rfl, -, rfl⟩ := ho
            refine ⟨by rw [N.last, hlast]; omega, P, by omega, by omega, ?_⟩
            rw [N.bit _ (by omega), decide_eq_true (by omega)]
      · rw [R.owns hj, h.alloc_chunks A]
        simp [hj]

/-- The tail of an allocation, for a slot with an empty list. -/
theorem allocNew (hmin : z.minShift ≤ s) (hs : s < z.pagesizeShift)
    (hnil : slots (s - z.minShift) = []) (hroom : size ≤ 2 ^ s) :
    AllocSpec z size runs blocks slots pool (slabAllocNew z s pool) := by
  rcases h.inv.free.allocPages Nat.one_pos with ⟨-, hexec⟩ | ⟨i, runs', pool', hexec, A⟩
  · obtain ⟨hok, hstart, howns⟩ := h.nomem
    obtain ⟨hok', howns'⟩ := hok.setStat (s - z.minShift) fun st =>
      { st with fails := st.fails + 1#64 }
    refine Or.inl ⟨_, ?_, hok', hstart, fun o => (howns' o).trans (howns o)⟩
    simp [slabAllocNew, hexec]
  · obtain ⟨hfirst, N⟩ : _ ∧ PageNew z s i pool' _ := newPage_spec hs
    obtain ⟨hok, hgains⟩ := h.newPage A hmin hs hnil N
    obtain ⟨hok', howns'⟩ := hok.setStat (s - z.minShift) fun st =>
      { st with used := st.used + 1#64 }
    refine Or.inr ⟨.chunk s i (z.reserved s), _, _, _, _, ?_, hok', hgains.after howns' rfl, hroom⟩
    simp [slabAllocNew, hexec, hfirst, SlabPool.pageAddr, N.start, A.frame.start, SlabOwner.addr]

/-- **`ngx_slab_alloc_locked`** either fails, and then the live blocks are the same, or
adds a block that is large enough. -/
theorem alloc (size : ℕ) :
    AllocSpec z size runs blocks slots pool (slabAllocLocked z size pool) := by
  rw [slabAllocLocked]
  split_ifs with hsize
  · have hsize' : 0 < size := by omega
    obtain ⟨hpos, hroom⟩ := SlabZone.pages_spec (z := z) hsize'
    rcases h.inv.free.allocPages hpos with ⟨-, hexec⟩ | ⟨i, runs', pool', hexec, A⟩
    · obtain ⟨hok, hstart, howns⟩ := h.nomem
      refine Or.inl ⟨_, ?_, hok, hstart, howns⟩
      simp [hexec]
    · obtain ⟨hok, hgains⟩ := h.allocBlock A hpos
      refine Or.inr ⟨.block i (z.pages size), _, _, _, pool', ?_, hok, hgains, hroom⟩
      simp only [hexec, map_some, SlabPool.pageAddr, A.frame.start, SlabOwner.addr]
  · obtain ⟨hmin, hmax, hroom⟩ := SlabZone.shift_spec (Nat.le_of_not_lt hsize)
    simp only
    generalize z.shift size = s at *
    obtain ⟨hok, howns⟩ := h.setStat (s - z.minShift) fun st =>
      { st with reqs := st.reqs + 1#64 }
    refine AllocSpec.before (by rfl) howns ?_
    generalize pool.setStat (s - z.minShift) (fun st =>
      { st with reqs := st.reqs + 1#64 }) = pool₀ at *
    have ht : s - z.minShift < z.slotCount := by rw [SlabZone.slotCount]; omega
    have hring := hok.inv.ring _ ht
    cases hlist : slots (s - z.minShift) with
    | nil =>
      rw [hlist] at hring
      have hself : pool₀.next (.slot (s - z.minShift)) = some (.slot (s - z.minShift)) :=
        hring.links.next_eq
      simp only [hself, bind_some, ne_eq, not_true_eq_false, if_false]
      exact hok.allocNew hmin hmax hlist hroom
    | cons i rest =>
      rw [hlist, map_cons] at hring
      have hfirst : pool₀.next (.slot (s - z.minShift)) = some (.page i) :=
        hring.links.next_eq
      have hnext : pool₀.next (.page i) ≠ some (.page i) := by
        have hsplit : Ring pool₀.next pool₀.back (.slot (s - z.minShift))
            ([] ++ .page i :: rest.map .page) := hring
        obtain ⟨-, hnext, -, -, -, hne⟩ := hsplit.mem_links
        rw [hnext]
        simpa using hne
      obtain ⟨c, slots', pool', hexec, hok', hgains⟩ :=
        hok.takeChunk ht (by omega) hlist
      obtain ⟨hok'', howns''⟩ := hok'.setStat (s - z.minShift) fun st =>
        { st with used := st.used + 1#64 }
      refine Or.inr ⟨.chunk s i c, _, _, _, _, ?_, hok'', hgains.after howns'' rfl, hroom⟩
      simp only [hfirst, bind_some, if_pos hnext, hexec, SlabPool.pageAddr,
        hgains.start, SlabOwner.addr]

end

end SlabOk

end Calls

end Hengine
