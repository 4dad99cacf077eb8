import Hengine.Core.SlabAlloc

/-!
# Release

What `ngx_slab_free_locked` does when it is given the address of a live block: it passes
all of its checks, and the block is gone. The last chunk of a page takes the page with it,
which goes back to the free pages as an allocation of whole pages does.
-/

namespace Hengine

open List Function Option

section Free

variable {z : SlabZone} {runs runs' blocks : List (ℕ × ℕ)} {slots : ℕ → List ℕ}
  {pool pool' poolA : SlabPool} {s t i j c k : ℕ} {type : SlabType} {o : SlabOwner}
  {l l₁ l₂ : List ℕ}

/-- The descriptor of an allocation, taken apart. -/
theorem blockWord_spec (hk : k < 2 ^ 62) :
    (BitVec.ofNat 64 k ||| slabPageStart) &&& slabPageStart ≠ 0#64 ∧
      BitVec.ofNat 64 k ||| slabPageStart ≠ slabBusy ∧
      ((BitVec.ofNat 64 k ||| slabPageStart) &&& ~~~slabPageStart).toNat = k := by
  have hbit : ∀ b, 62 ≤ b → (BitVec.ofNat 64 k).getLsbD b = false := by
    intro b hb
    have hlt : k < 2 ^ b := Nat.lt_of_lt_of_le hk (Nat.pow_le_pow_right (by omega) hb)
    rw [BitVec.getLsbD_ofNat, Nat.testBit_lt_two_pow hlt, Bool.and_false]
  have hstart : ∀ b < 64, slabPageStart.getLsbD b = decide (b = 63) := by
    decide
  refine ⟨?_, ?_, ?_⟩
  · intro h
    have hb : ((BitVec.ofNat 64 k ||| slabPageStart) &&& slabPageStart).getLsbD 63 = false := by
      rw [h, BitVec.getLsbD_zero]
    rw [BitVec.getLsbD_and, BitVec.getLsbD_or, hstart 63 (by omega)] at hb
    simp at hb
  · intro h
    have hb : (BitVec.ofNat 64 k ||| slabPageStart).getLsbD 62 = true := by
      rw [h]
      rfl
    rw [BitVec.getLsbD_or, hbit 62 (by omega), hstart 62 (by omega)] at hb
    simp at hb
  · have hword : (BitVec.ofNat 64 k ||| slabPageStart) &&& ~~~slabPageStart =
        BitVec.ofNat 64 k := by
      refine BitVec.eq_of_getLsbD_eq fun b hb => ?_
      rw [BitVec.getLsbD_and, BitVec.getLsbD_or, BitVec.getLsbD_not, hstart b hb]
      by_cases h63 : b = 63
      · rw [hbit b (by omega)]
        simp [h63]
      · simp [hb, h63]
    rw [hword, BitVec.toNat_ofNat, Nat.mod_eq_of_lt (by omega)]

theorem not_within_split {q : SlabPtr} (hk : 0 < k) (hq : ¬ q.Within i (i + k)) :
    q ≠ .page i ∧ ¬ q.Within (i + 1) (i + k) := by
  cases q with
  | page j =>
    simp only [within_page, ne_eq, SlabPtr.page.injEq] at hq ⊢
    omega
  | free => simp
  | slot t => simp

theorem slabZero_self (a : ℕ) (pool : SlabPool) : slabZero a a pool = pool := by
  have hnone : ∀ q : SlabPtr, ¬ q.Within a a := by
    intro q
    cases q with
    | page j => simp only [within_page]; omega
    | free => exact id
    | slot t => exact id
  simp [slabZero, hnone]

/-- Freeing pages that are on no list: their descriptors as they are before the neighbours
are looked at. -/
theorem slabFreePages_unlinked (hk : 0 < k) (hnext : pool.next (.page i) = none) :
    ∃ pool₁, slabFreePages i k pool = slabCoalesce i (k - 1) pool₁ ∧
      SlabFrame (fun q => q.Within i (i + k)) pool pool₁ ∧ pool₁.pfree = pool.pfree + k ∧
      pool₁.slab (.page i) = BitVec.ofNat 64 k ∧
      ∀ j, i < j → j < i + k →
        pool₁.slab (.page j) = 0#64 ∧ (pool₁.prev (.page j)).type = .page := by
  have hself : ¬ (i + 1 ≤ i ∧ i < i + k) := by omega
  have hnext' : (slabZero (i + 1) (i + k) { pool with
      pfree := pool.pfree + k
      slab := update pool.slab (.page i) (BitVec.ofNat 64 k) }).next (.page i) = none := by
    simp only [slabZero, within_page, hself, if_false, hnext]
  rw [slabFreePages]
  simp only [hnext', ne_eq, not_true_eq_false, if_false, bind_some]
  refine ⟨_, rfl, ⟨?_, ?_, ?_, rfl, rfl, rfl, rfl⟩, rfl, ?_, ?_⟩
  · intro q hq
    obtain ⟨hqi, hqw⟩ := not_within_split hk hq
    simp [slabZero, hqw, update_of_ne hqi]
  · intro q hq
    simp [slabZero, (not_within_split hk hq).2]
  · intro q hq
    simp only [slabZero, (not_within_split hk hq).2, if_false]
  · simp only [slabZero, within_page, hself, if_false, update_self]
  · intro j h₁ h₂
    have hin : i + 1 ≤ j ∧ j < i + k := ⟨h₁, h₂⟩
    simp [slabZero, hin]

/-- Freeing a page that is on the list of its slot: it leaves the list. -/
theorem slabFreePages_linked
    (R : Ring pool.next pool.back (.slot t) ((l₁ ++ i :: l₂).map .page))
    (htype : ∀ j ∈ l₁ ++ i :: l₂, (pool.prev (.page j)).type = type) :
    ∃ pool₁, slabFreePages i 1 pool = slabCoalesce i 0 pool₁ ∧
      Relisted t i (l₁ ++ i :: l₂) (l₁ ++ l₂) pool pool₁ ∧ pool₁.pfree = pool.pfree + 1 ∧
      (pool₁.slab (.page i)).toNat = 1 := by
  -- the descriptor with its new length, still on the list
  generalize hpool₁ : ({ pool with
    pfree := pool.pfree + 1
    slab := update pool.slab (.page i) (BitVec.ofNat 64 1) } : SlabPool) = pool₁
  have R₁ : Relisted t i (l₁ ++ i :: l₂) (l₁ ++ i :: l₂) pool pool₁ := by
    rw [← hpool₁]
    exact Relisted.of_links R rfl rfl rfl rfl rfl (fun q hq => by simp [hq]) fun _ _ => rfl
  have htype₁ : ∀ j ∈ l₁ ++ i :: l₂, (pool₁.prev (.page j)).type = type := by
    rw [← hpool₁]
    exact htype
  obtain ⟨pool₂, hunlink, R₂, hslab, -, hpfree, -⟩ := Relisted.unlink R₁.ring htype₁
  have hlinked : pool₁.next (.page i) ≠ none := by
    have hring := R₁.ring
    rw [map_append, map_cons] at hring
    rw [hring.mem_links.2.1]
    simp
  refine ⟨pool₂, ?_, R₁.trans R₂, ?_, ?_⟩
  · rw [slabFreePages, hpool₁]
    simp [slabZero_self, if_pos hlinked, hunlink]
  · rw [hpfree, ← hpool₁]
  · rw [hslab, ← hpool₁]
    simp

/-- The chunks that are left when pages have been given back. -/
theorem Joined.owns_chunk (J : Joined ((i, k) :: runs) pool runs' pool')
    (F : FreeRuns ∅ runs' pool')
    (hkind : ∀ j, Covered runs j → (pool.prev (.page j)).type = .page) :
    Owns z blocks pool' (.chunk s j c) ↔
      Owns z blocks pool (.chunk s j c) ∧ ¬ (i ≤ j ∧ j < i + k) := by
  have hcov : ∀ j, Covered runs' j ↔ (i ≤ j ∧ j < i + k) ∨ Covered runs j := by
    intro j
    rw [J.covered, covered_cons]
  by_cases hseg : i ≤ j ∧ j < i + k
  · refine iff_of_false ?_ fun h => h.2 hseg
    rintro ⟨-, P, -⟩
    exact P.type_ne (F.kind j ((hcov j).mpr (Or.inl hseg)))
  · rw [and_iff_left hseg]
    refine owns_chunk_congr J.frame.last fun htype => ?_
    have hncov : ¬ Covered runs' j := by
      intro hj
      rcases htype with htype | htype
      · exact htype (hkind j (((hcov j).mp hj).resolve_left hseg))
      · exact htype (F.kind j hj)
    have hS := not_onFree fun hcov => hncov ((J.covered j).mpr hcov)
    exact ⟨J.frame.slab _ hS, by rw [J.frame.mem], by rw [J.frame.prev _ hS]⟩

/-- **Pages in transit go back.** -/
theorem SlabInv.giveBack (h : SlabInv z {j | i ≤ j ∧ j < i + k} runs blocks slots pool)
    (L : Loose runs i k pool) (hpfree : pool.pfree = runPages runs + k)
    (halign : z.pagesize ∣ pool.start)
    (hfits : pool.start + pool.last * z.pagesize ≤ z.stop)
    (hlog : ∀ e ∈ pool.log, e = .noMemory) :
    ∃ runs' pool', slabCoalesce i (k - 1) pool = some pool' ∧
      SlabOk z runs' blocks slots pool' ∧ pool'.start = pool.start ∧
      ∀ s j c, Owns z blocks pool' (.chunk s j c) ↔
        Owns z blocks pool (.chunk s j c) ∧ ¬ (i ≤ j ∧ j < i + k) := by
  obtain ⟨runs', pool', hexec, F, J⟩ := L.coalesce
  have hpos := L.pos
  have hin := L.inside
  have hlast := J.frame.last
  refine ⟨runs', pool', hexec, ⟨h.coalesce J F, ?_, by omega, ?_, ?_, ?_⟩, J.frame.start,
    fun s j c => J.owns_chunk F h.free.kind⟩
  · rw [J.pfree, hpfree, J.pages, runPages_cons, Nat.add_comm]
  · rw [J.frame.start]
    exact halign
  · rw [J.frame.start, hlast]
    exact fun _ => hfits
  · rw [J.frame.log]
    exact hlog

namespace SlabOk

section

variable (h : SlabOk z runs blocks slots pool)
include h

/-- An address of a page lies inside the pool. -/
theorem addr_inside {off : ℕ} (hi : i < pool.last) (hoff : off ≤ z.pagesize) :
    ¬ ((i <<< z.pagesizeShift) + pool.start + off < pool.start ∨
      z.stop < (i <<< z.pagesizeShift) + pool.start + off) := by
  have hfits := h.fits (by omega)
  have hle : (i + 1) * z.pagesize ≤ pool.last * z.pagesize := Nat.mul_le_mul_right _ hi
  rw [Nat.add_mul, Nat.one_mul] at hle
  rw [shiftLeft_page]
  omega

theorem last_lt (hpos : 0 < pool.last) : pool.last < 2 ^ 51 := by
  have hfits := h.fits hpos
  have hstop := z.stop_lt
  have hP : 2 ^ 12 ≤ z.pagesize := Nat.pow_le_pow_right (by omega) z.pagesize_ge
  have hmul : pool.last * 2 ^ 12 ≤ pool.last * z.pagesize := Nat.mul_le_mul_left _ hP
  omega

/-- The address of an allocation of whole pages leads to `ngx_slab_free_pages`. -/
theorem freeLocked_block (hmem : (i, k) ∈ blocks) :
    slabFreeLocked z (SlabOwner.addr z pool.start (.block i k)) pool =
      slabFreePages i k pool := by
  obtain ⟨hpos, hin⟩ := h.inv.blockInside _ hmem
  simp only at hpos hin
  have hi : i < pool.last := by omega
  have hlt := h.last_lt (by omega)
  have hk : k < 2 ^ 62 := by omega
  have htype := (h.inv.blockKind i (h.inv.covered_block hmem)).1
  have hslab := h.inv.blockHead _ hmem
  simp only at hslab
  obtain ⟨hstart, hbusy, hlen⟩ := blockWord_spec hk
  have hinside := h.addr_inside hi (Nat.zero_le _)
  have hindex := addr_page pool.start i (Nat.two_pow_pos z.pagesizeShift)
  have hoff := addr_offset (i := i) h.aligned (Nat.two_pow_pos z.pagesizeShift)
  rw [Nat.add_zero] at hinside hindex hoff
  rw [SlabOwner.addr, slabFreeLocked, if_neg hinside]
  simp only [hindex, htype, slabFreePage, hoff, hslab, ne_eq, not_true_eq_false, if_false,
    if_neg hstart, if_neg hbusy, hlen]

/-- **Release of whole pages.** -/
theorem freeBlock (hmem : (i, k) ∈ blocks) :
    ∃ runs' blocks' pool', slabFreeLocked z (SlabOwner.addr z pool.start (.block i k)) pool =
        some pool' ∧
      SlabOk z runs' blocks' slots pool' ∧
      SlabLoses z (.block i k) blocks pool blocks' pool' := by
  have hexec := h.freeLocked_block hmem
  obtain ⟨b₁, b₂, rfl⟩ := append_of_mem hmem
  obtain ⟨hpos, hin⟩ := h.inv.blockInside _ hmem
  simp only at hpos hin
  have hcov : ∀ j, i ≤ j → j < i + k → Covered (b₁ ++ (i, k) :: b₂) j :=
    fun j h₁ h₂ => ⟨_, hmem, h₁, h₂⟩
  obtain ⟨htype, hncov, -⟩ := h.inv.blockKind i (hcov i (by omega) (by omega))
  obtain ⟨hnext, -⟩ := h.inv.free.taken i (by omega) hncov (by simp) htype
  obtain ⟨pool₁, hfree, hframe, hpfree, hhead, htail⟩ := slabFreePages_unlinked hpos hnext
  have hlt := h.last_lt (by omega)
  have hinv := h.inv.dropBlock hframe
  have L : Loose runs i k pool₁ := by
    refine ⟨hinv.free, hpos, by rw [hframe.last]; exact hin,
      fun j h₁ h₂ => hinv.transit j ⟨h₁, h₂⟩, ?_, fun j h₁ h₂ => (htail j h₁ h₂).2,
      fun _ _ => (htail _ (by omega) (by omega)).1⟩
    rw [hhead, BitVec.toNat_ofNat]
    exact Nat.mod_eq_of_lt (by omega)
  obtain ⟨runs', pool', hco, hok, hstart, howns⟩ := hinv.giveBack L
    (by rw [hpfree, h.pfree]) (hframe.start ▸ h.aligned)
    (by rw [hframe.start, hframe.last]; exact h.fits (by omega)) (hframe.log ▸ h.log)
  refine ⟨runs', b₁ ++ b₂, pool', (hexec.trans hfree).trans hco, hok,
    hstart.trans hframe.start, fun o' => ?_⟩
  cases o' with
  | block i' k' =>
    simp only [Owns, mem_split, ne_eq, SlabOwner.block.injEq, Prod.mk.injEq]
    constructor
    · intro hb
      refine ⟨Or.inr hb, ?_⟩
      rintro ⟨rfl, rfl⟩
      obtain ⟨-, -, hout⟩ := hinv.blockKind i' (hinv.covered_block hb)
      exact hout ⟨by omega, by omega⟩
    · rintro ⟨heq | hb, hne⟩
      · exact absurd heq hne
      · exact hb
  | chunk s j c =>
    have hsame : Owns z (b₁ ++ b₂) pool₁ (.chunk s j c) ∧ ¬ (i ≤ j ∧ j < i + k) ↔
        Owns z (b₁ ++ (i, k) :: b₂) pool (.chunk s j c) := by
      by_cases hj : i ≤ j ∧ j < i + k
      · refine iff_of_false (fun hr => hr.2 hj) ?_
        rintro ⟨-, P, -⟩
        exact P.type_ne (h.inv.blockKind j (hcov j hj.1 hj.2)).1
      · rw [and_iff_left hj]
        exact owns_chunk_congr hframe.last fun _ =>
          ⟨hframe.slab (.page j) hj, by rw [hframe.mem], by rw [hframe.prev (.page j) hj]⟩
    rw [howns, hsame]
    simp

/-- The page of a slot is linked unless it is full. -/
theorem next_eq_none (hi : i < pool.last) (P : SlotPage z s i pool) :
    pool.next (.page i) = none ↔ pool.Full z s i := by
  obtain ⟨ht, hts⟩ := P.slot
  constructor
  · intro hnone
    by_contra hfull
    have hmem : i ∈ slots (s - z.minShift) :=
      (h.inv.listed _ ht i).mpr ⟨hi, by simp, by rwa [hts], by rwa [hts]⟩
    obtain ⟨l₁, l₂, hlist⟩ := append_of_mem hmem
    have hring := h.inv.ring _ ht
    rw [hlist, map_append, map_cons] at hring
    rw [hring.mem_links.2.1] at hnone
    simp at hnone
  · intro hfull
    obtain ⟨s', P', hnone⟩ := h.inv.page i hi (by simp) P.type_ne
    rw [P.unique P'] at hfull
    exact hnone hfull

/-- The page before its bit is cleared: it is on the list of its slot. -/
theorem attached (hi : i < pool.last) (P : SlotPage z s i pool) :
    ∃ poolA l, Attached z s i pool poolA ∧ i ∈ l ∧
      Relisted (s - z.minShift) i (slots (s - z.minShift)) l pool poolA ∧
      (poolA.prev (.page i)).type = z.typeOf s := by
  obtain ⟨ht, hts⟩ := P.slot
  have hlisted := h.inv.listed _ ht i
  rw [hts] at hlisted
  by_cases hfull : pool.Full z s i
  · have hnot : i ∉ slots (s - z.minShift) := fun hmem => (hlisted.mp hmem).2.2.2 hfull
    obtain ⟨poolA, hexec, R, hkind⟩ := Relisted.attach (h.inv.ring _ ht) hnot fun j hj => by
      rw [(h.inv.slotPage_of_mem ht hj).kind, hts]
    exact ⟨poolA, _, ⟨fun _ => hexec, fun hnf => absurd hfull hnf⟩, mem_cons_self, R, hkind⟩
  · refine ⟨pool, _, ⟨fun hf => absurd hf hfull, fun _ => rfl⟩,
      hlisted.mpr ⟨hi, by simp, P, hfull⟩, ?_, P.kind⟩
    exact Relisted.of_links (h.inv.ring _ ht) rfl rfl rfl rfl rfl (fun _ _ => rfl) fun _ _ => rfl

/-- **The last chunk** takes the page with it. -/
theorem freeLast (hi : i < pool.last) (P : SlotPage z s i pool) (hl : i ∈ l)
    (R : Relisted (s - z.minShift) i (slots (s - z.minShift)) l pool pool')
    (hkind : (pool'.prev (.page i)).type = z.typeOf s) (hpfree : pool'.pfree = pool.pfree)
    (hlone : ∀ c', z.reserved s ≤ c' → c' < z.chunks s → pool.chunkBit z s i c' = true → c' = c) :
    ∃ runs' slots' pool'', slabFreePages i 1 pool' = some pool'' ∧
      SlabOk z runs' blocks slots' pool'' ∧
      SlabLoses z (.chunk s i c) blocks pool blocks pool'' := by
  obtain ⟨ht, hts⟩ := P.slot
  obtain ⟨l₁, l₂, rfl⟩ := append_of_mem hl
  have hring := R.ring
  have htype : ∀ j ∈ l₁ ++ i :: l₂, (pool'.prev (.page j)).type = z.typeOf s := by
    intro j hj
    by_cases hji : j = i
    · rw [hji, hkind]
    · rw [R.type j hji, (h.inv.slotPage_of_mem ht ((R.others j hji).mp hj)).kind, hts]
  obtain ⟨pool₁, hfree, R₁, hpfree₁, hsize⟩ := slabFreePages_linked hring htype
  have RR := R.trans R₁
  have hnot : i ∉ l₁ ++ l₂ := by
    rw [map_append, map_cons] at hring
    have hni := hring.nodup_of_split.2
    rw [← map_append] at hni
    exact fun hmem => hni (mem_cons_of_mem _ (mem_map_of_mem hmem))
  have hinv : SlabInv z {j | i ≤ j ∧ j < i + 1} runs blocks
      (update slots (s - z.minShift) (l₁ ++ l₂)) pool₁ := by
    refine h.inv.relist RR ht hi ?_ (h.inv.not_covered P.type_ne) (h.inv.not_block P.type_ne) ?_
      (Or.inl ⟨⟨Nat.le_refl i, Nat.lt_succ_self i⟩, hnot⟩)
    · intro j hj
      exact ⟨by simp, by simp only [Set.mem_ofPred_eq]; omega⟩
    · rw [hts]
      exact fun _ => P
  have L : Loose runs i 1 pool₁ :=
    ⟨hinv.free, Nat.one_pos, by rw [RR.last]; exact hi,
      fun j h₁ h₂ => hinv.transit j ⟨h₁, h₂⟩, hsize, by omega, by omega⟩
  obtain ⟨runs', pool'', hco, hok, hstart, howns⟩ := hinv.giveBack L
    (by rw [hpfree₁, hpfree, h.pfree]) (RR.start ▸ h.aligned)
    (by rw [RR.start, RR.last]; exact h.fits (by omega)) (RR.log ▸ h.log)
  refine ⟨runs', _, pool'', hfree.trans hco, hok, hstart.trans RR.start, fun o' => ?_⟩
  cases o' with
  | block i' k' => simp [Owns]
  | chunk s' j c' =>
    rw [howns]
    by_cases hj : j = i
    · subst hj
      refine iff_of_false (fun hr => hr.2 ⟨by omega, by omega⟩) ?_
      rintro ⟨⟨-, Q, h₁, h₂, hb⟩, hne⟩
      obtain rfl := Q.unique P
      exact hne (by rw [hlone c' h₁ h₂ hb])
    · rw [RR.owns hj]
      have hout : ¬ (i ≤ j ∧ j < i + 1) := by omega
      have hne : SlabOwner.chunk s' j c' ≠ .chunk s i c := fun heq => hj (by injection heq)
      exact and_congr_right fun _ => iff_of_true hout hne

/-- **Release of a chunk**, from the point where its page is known. -/
theorem freeChunk {res : Option SlabPool} (ho : Owns z blocks pool (.chunk s i c))
    (hspec : ∀ poolA, Attached z s i pool poolA → ReleaseSpec z s i c poolA res) :
    ∃ runs' slots' pool', res = some pool' ∧ SlabOk z runs' blocks slots' pool' ∧
      SlabLoses z (.chunk s i c) blocks pool blocks pool' := by
  obtain ⟨hi, P, h₁, h₂, hbit⟩ := ho
  obtain ⟨poolA, l, A, hl, RA, hkind⟩ := h.attached hi P
  obtain ⟨hslab, hmem, -, -, hpfree, -⟩ := A.fields
  obtain ⟨pool₁, n, empty, W, hempty, rfl⟩ := hspec poolA A
  have R : Relisted (s - z.minShift) i (slots (s - z.minShift)) l pool pool₁ :=
    RA.trans (Relisted.of_write RA.ring W)
  have hbits : ∀ c' < z.chunks s, pool₁.chunkBit z s i c' =
      if c' = c then false else pool.chunkBit z s i c' := by
    have hsame : SamePage z s i pool poolA := SamePage.of_mem (by rw [hslab]) (by rw [hmem])
    intro c' hc'
    rw [W.bit c' hc', hsame.chunkBit hc']
  have hc : pool₁.chunkBit z s i c = false := by rw [hbits c h₂, if_pos rfl]
  cases empty with
  | true =>
    obtain ⟨runs', slots', pool₂, hexec, hok, hloses⟩ := h.freeLast hi P hl R
      (by rw [W.prev, hkind]) (W.pfree.trans hpfree) (by
        intro c' h₁' h₂' hb
        by_contra hne
        have hclear := hempty.mp rfl c' h₁' h₂'
        rw [hbits c' h₂', if_neg hne, hb] at hclear
        simp at hclear)
    obtain ⟨hok', howns'⟩ := hok.setStat (s - z.minShift) fun st =>
      { st with total := st.total - BitVec.ofNat 64 n }
    obtain ⟨hok'', howns''⟩ := hok'.setStat (s - z.minShift) fun st =>
      { st with used := st.used - 1#64 }
    refine ⟨runs', slots', _, ?_, hok'', (hloses.after howns' rfl).after howns'' rfl⟩
    simp [slabDropChunk, hexec]
  | false =>
    have hused : ∃ c', z.reserved s ≤ c' ∧ c' < z.chunks s ∧
        pool₁.chunkBit z s i c' = true := by
      by_contra hnone
      have hall : (false : Bool) = true := by
        refine hempty.mpr fun c' h₁' h₂' => ?_
        by_contra hb
        exact hnone ⟨c', h₁', h₂', by simpa using hb⟩
      simp at hall
    have PA : SlotPage z s i poolA := P.congr (SamePage.of_mem (by rw [hslab]) (by rw [hmem]))
      (by rw [hkind, P.kind])
    have P₁ : SlotPage z s i pool₁ := W.slotPage PA h₁ hused
    have hfull : ¬ pool₁.Full z s i := by
      intro hf
      rw [hf c h₂] at hc
      simp at hc
    have hok := h.flip hi P P₁ R (iff_of_true hl hfull) (fun hf => absurd hf hfull)
      (W.pfree.trans hpfree)
    obtain ⟨hok', howns'⟩ := hok.setStat (s - z.minShift) fun st =>
      { st with used := st.used - 1#64 }
    refine ⟨runs, _, _, ?_, hok', R.start, fun o' => ?_⟩
    · simp [slabDropChunk]
    · rw [howns']
      by_cases ho : o' = .chunk s i c
      · subst ho
        refine iff_of_false ?_ fun hr => hr.2 rfl
        rintro ⟨-, -, -, -, hb⟩
        simp [hc] at hb
      · rw [owns_of_write R P P₁ hbits ho]
        simp [ho]

/-- The address of a busy chunk leads to the case of its page, which releases it. -/
theorem freeLocked_chunk (ho : Owns z blocks pool (.chunk s i c)) (A : Attached z s i pool poolA) :
    ReleaseSpec z s i c poolA
      (slabFreeLocked z (SlabOwner.addr z pool.start (.chunk s i c)) pool) := by
  obtain ⟨hi, P, -, hc, hbit⟩ := ho
  have hend := chunk_end_le P.max hc
  have hpow := Nat.two_pow_pos s
  have hoff : c <<< s < z.pagesize := by omega
  have hinside := h.addr_inside hi (Nat.le_of_lt hoff)
  have hindex := addr_page pool.start i hoff
  have halign := addr_aligned (i := i) (c := c) h.aligned (Nat.le_of_lt P.max)
  have hchunk := addr_offset (i := i) h.aligned hoff
  rw [SlabOwner.addr, slabFreeLocked, if_neg hinside, hindex]
  generalize (i <<< z.pagesizeShift) + pool.start + (c <<< s) = p at *
  have hnum : (p &&& (z.pagesize - 1)) >>> s = c := by
    rw [hchunk, Nat.shiftLeft_shiftRight]
  rcases Nat.lt_trichotomy s z.exactShift with hlt | heq | hgt
  · have htype : (pool.prev (.page i)).type = .small := by
      rw [P.kind, SlabZone.typeOf_small hlt]
    simp only [htype]
    exact freeSmall_spec P hlt hbit halign hnum (h.next_eq_none hi P) A
  · subst heq
    have htype : (pool.prev (.page i)).type = .exact := by
      rw [P.kind, z.typeOf_exact]
    simp only [htype]
    exact freeExact_spec hc hbit halign hnum A
  · have htype : (pool.prev (.page i)).type = .big := by
      rw [P.kind, SlabZone.typeOf_big hgt]
    simp only [htype]
    exact freeBig_spec P hgt hc hbit halign hnum (h.next_eq_none hi P) A

/-- **`ngx_slab_free_locked`** of a live block. -/
theorem release (ho : Owns z blocks pool o) :
    ∃ runs' blocks' slots' pool', slabFreeLocked z (o.addr z pool.start) pool = some pool' ∧
      SlabOk z runs' blocks' slots' pool' ∧ SlabLoses z o blocks pool blocks' pool' := by
  cases o with
  | block i k =>
    obtain ⟨runs', blocks', pool', hrest⟩ := h.freeBlock ho
    exact ⟨runs', blocks', slots, pool', hrest⟩
  | chunk s i c =>
    obtain ⟨runs', slots', pool', hrest⟩ :=
      h.freeChunk ho fun poolA A => h.freeLocked_chunk ho A
    exact ⟨runs', blocks, slots', pool', hrest⟩

end

end SlabOk

end Free

end Hengine
