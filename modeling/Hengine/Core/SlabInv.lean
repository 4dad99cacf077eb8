import Hengine.Core.SlabCoalesce
import Hengine.Core.SlabRelease

/-!
# The Invariant of a Slab Pool

Every page of the pool has one owner: a run of the free list, an allocation of whole pages,
or a slot. `SlabInv` records the three with the lists that hold them, and leaves room for
pages in transit `T`, which are between two owners while a call is at work. Each part of
`ngx_slab_alloc_locked` and `ngx_slab_free_locked` moves some pages from one owner to the
next; the theorems below are these moves.
-/

namespace Hengine

open List Function

/-- The slots of a pool. -/
def SlabZone.slotCount (z : SlabZone) : ℕ := z.pagesizeShift - z.minShift

/-- The pages of the pool and their owners. -/
structure SlabInv (z : SlabZone) (T : Set ℕ) (runs blocks : List (ℕ × ℕ))
    (slots : ℕ → List ℕ) (pool : SlabPool) : Prop where
  free : FreeRuns T runs pool
  transit : ∀ j ∈ T, ¬ Covered runs j
  blockInside : ∀ b ∈ blocks, 0 < b.2 ∧ b.1 + b.2 ≤ pool.last
  blockApart : blocks.Pairwise fun a b => a.1 + a.2 ≤ b.1 ∨ b.1 + b.2 ≤ a.1
  blockHead : ∀ b ∈ blocks, pool.slab (.page b.1) = BitVec.ofNat 64 b.2 ||| slabPageStart
  blockKind : ∀ j, Covered blocks j →
    (pool.prev (.page j)).type = .page ∧ ¬ Covered runs j ∧ j ∉ T
  owned : ∀ j < pool.last, j ∉ T → ¬ Covered runs j → (pool.prev (.page j)).type = .page →
    Covered blocks j
  ring : ∀ t < z.slotCount, Ring pool.next pool.back (.slot t) ((slots t).map .page)
  listed : ∀ t < z.slotCount, ∀ j, j ∈ slots t ↔ j < pool.last ∧ j ∉ T ∧
    SlotPage z (t + z.minShift) j pool ∧ ¬ pool.Full z (t + z.minShift) j
  page : ∀ j < pool.last, j ∉ T → (pool.prev (.page j)).type ≠ .page →
    ∃ s, SlotPage z s j pool ∧ (pool.Full z s j → pool.next (.page j) = none)

/-- A change of page `i` and of the links of slot `t`, whose list was `old` and is `new`
now. -/
structure Relisted (t i : ℕ) (old new : List ℕ) (pool pool' : SlabPool) : Prop where
  last : pool'.last = pool.last
  start : pool'.start = pool.start
  log : pool'.log = pool.log
  slab : ∀ q, q ≠ .page i → pool'.slab q = pool.slab q
  mem : ∀ j, j ≠ i → pool'.mem j = pool.mem j
  type : ∀ j, j ≠ i → (pool'.prev (.page j)).type = (pool.prev (.page j)).type
  next : ∀ q, q ≠ .page i → q ≠ .slot t → (∀ j ∈ old, q ≠ .page j) →
    pool'.next q = pool.next q
  prev : ∀ q, q ≠ .page i → q ≠ .slot t → (∀ j ∈ old, q ≠ .page j) →
    pool'.prev q = pool.prev q
  ring : Ring pool'.next pool'.back (.slot t) (new.map .page)
  others : ∀ j, j ≠ i → (j ∈ new ↔ j ∈ old)

section Slots

variable {z : SlabZone} {T : Set ℕ} {runs runs' blocks b₁ b₂ : List (ℕ × ℕ)}
  {slots : ℕ → List ℕ} {pool pool' : SlabPool} {s s' t i j k : ℕ}

/-- The descriptor and the bitmap of a page that was not written. -/
def SamePage (z : SlabZone) (s j : ℕ) (pool pool' : SlabPool) : Prop :=
  pool'.slab (.page j) = pool.slab (.page j) ∧
    (s < z.exactShift → ∀ w < z.mapWords s, pool'.mem j w = pool.mem j w)

theorem SamePage.symm (h : SamePage z s j pool pool') : SamePage z s j pool' pool :=
  ⟨h.1.symm, fun hs w hw => (h.2 hs w hw).symm⟩

theorem SamePage.of_mem (hslab : pool'.slab (.page j) = pool.slab (.page j))
    (hmem : pool'.mem j = pool.mem j) : SamePage z s j pool pool' :=
  ⟨hslab, fun _ _ _ => by rw [hmem]⟩

/-- Where a page is the same, its map is. -/
theorem SamePage.chunkBit (h : SamePage z s j pool pool') {c : ℕ} (hc : c < z.chunks s) :
    pool'.chunkBit z s j c = pool.chunkBit z s j c := by
  by_cases hs : s < z.exactShift
  · obtain ⟨-, hchunks⟩ := SlabZone.chunks_small hs
    rw [chunkBit_small hs, chunkBit_small hs, h.2 hs (c / 64) (by omega)]
  · rw [SlabPool.chunkBit, SlabPool.chunkBit, h.1, if_neg hs, if_neg hs]

theorem SamePage.full (h : SamePage z s j pool pool') :
    pool'.Full z s j ↔ pool.Full z s j := by
  constructor
  · exact fun hf c hc => (h.chunkBit hc).symm.trans (hf c hc)
  · exact fun hf c hc => (h.chunkBit hc).trans (hf c hc)

/-- What a page holds depends on that page only. -/
theorem SlotPage.congr (P : SlotPage z s j pool) (h : SamePage z s j pool pool')
    (htype : (pool'.prev (.page j)).type = (pool.prev (.page j)).type) :
    SlotPage z s j pool' := by
  obtain ⟨hmin, hmax, hkind, hword, hhigh, hreserved, c, h₁, h₂, hc⟩ := P
  refine ⟨hmin, hmax, htype.trans hkind, ?_, ?_, ?_, c, h₁, h₂, (h.chunkBit h₂).trans hc⟩
  · rw [h.1]
    exact hword
  · rw [h.1]
    exact hhigh
  · exact fun c hc => (h.chunkBit (by omega)).trans (hreserved c hc)

/-- Where a page is the same, it serves the slot as before. -/
theorem slotPage_congr (h : SamePage z s j pool pool')
    (htype : (pool'.prev (.page j)).type = (pool.prev (.page j)).type) :
    SlotPage z s j pool' ↔ SlotPage z s j pool :=
  ⟨fun P => P.congr h.symm htype.symm, fun P => P.congr h htype⟩

theorem typeOf_ne_page (z : SlabZone) (s : ℕ) : z.typeOf s ≠ .page := by
  rw [SlabSizes.typeOf]
  split_ifs <;> decide

theorem SlotPage.type_ne (P : SlotPage z s j pool) : (pool.prev (.page j)).type ≠ .page := by
  rw [P.kind]
  exact typeOf_ne_page z s

theorem typeOf_eq_exact : z.typeOf s = .exact ↔ s = z.exactShift := by
  rw [SlabSizes.typeOf]
  split_ifs with h₁ h₂
  · simp only [false_iff]
    omega
  · simp [h₂]
  · simp [h₂]

/-- A page has chunks of one size. -/
theorem SlotPage.unique (P : SlotPage z s j pool) (P' : SlotPage z s' j pool) : s = s' := by
  have hkind : z.typeOf s = z.typeOf s' := P.kind.symm.trans P'.kind
  by_cases hs : s = z.exactShift
  · rw [hs, eq_comm, ← typeOf_eq_exact, ← hkind, typeOf_eq_exact]
    exact hs
  · have hs' : s' ≠ z.exactShift := by
      rw [ne_eq, ← typeOf_eq_exact, ← hkind, typeOf_eq_exact]
      exact hs
    exact (P.word hs).symm.trans (P'.word hs')

theorem SlotPage.slot (P : SlotPage z s j pool) :
    s - z.minShift < z.slotCount ∧ s - z.minShift + z.minShift = s := by
  have h₁ := P.min
  have h₂ := P.max
  rw [SlabZone.slotCount]
  omega

/-- A page has room for two chunks besides its map. -/
theorem reserved_lt (hs : s < z.pagesizeShift) : z.reserved s + 1 < z.chunks s := by
  rcases Nat.lt_trichotomy s z.exactShift with hlt | heq | hgt
  · obtain ⟨hwords, hchunks⟩ := SlabZone.chunks_small hlt
    obtain ⟨-, -, hle⟩ := SlabZone.mapWords_le hlt
    rw [SlabZone.reserved_small hlt]
    omega
  · have hchunks := z.chunks_exact
    rw [heq, SlabZone.reserved_eq_zero (Nat.le_refl _)]
    omega
  · obtain ⟨htwo, -⟩ := SlabZone.chunks_big hgt hs
    rw [SlabZone.reserved_eq_zero (Nat.le_of_lt hgt)]
    omega

namespace SlabInv

theorem slotPage_of_mem (h : SlabInv z T runs blocks slots pool) (ht : t < z.slotCount)
    (hj : j ∈ slots t) : SlotPage z (t + z.minShift) j pool :=
  ((h.listed t ht j).mp hj).2.2.1

theorem not_covered (h : SlabInv z T runs blocks slots pool)
    (hj : (pool.prev (.page j)).type ≠ .page) : ¬ Covered runs j :=
  fun hcov => hj (h.free.kind j hcov)

theorem mem_ring {q : SlabPtr} {l : List ℕ} (hq : q ∈ .slot t :: l.map SlabPtr.page) :
    q = .slot t ∨ ∃ j ∈ l, q = .page j := by
  rcases mem_cons.mp hq with hq | hq
  · exact Or.inl hq
  · obtain ⟨j, hj, heq⟩ := mem_map.mp hq
    exact Or.inr ⟨j, hj, heq.symm⟩

section

variable (h : SlabInv z T runs blocks slots pool)
include h

/-- **A change of free pages** leaves the slots alone: `S` is where descriptors changed, and
neither a page of a slot before nor one after is among them. -/
theorem slots_frame {S : SlabPtr → Prop} {U : Set ℕ} (hframe : SlabFrame S pool pool')
    (hslot : ∀ t, ¬ S (.slot t))
    (hold : ∀ j, j ∉ T → (pool.prev (.page j)).type ≠ .page → ¬ S (.page j) ∧ j ∉ U)
    (hnew : ∀ j < pool.last, j ∉ U → (pool'.prev (.page j)).type ≠ .page → ¬ S (.page j) ∧ j ∉ T) :
    (∀ t < z.slotCount, Ring pool'.next pool'.back (.slot t) ((slots t).map .page)) ∧
    (∀ t < z.slotCount, ∀ j, j ∈ slots t ↔ j < pool'.last ∧ j ∉ U ∧
      SlotPage z (t + z.minShift) j pool' ∧ ¬ pool'.Full z (t + z.minShift) j) ∧
    ∀ j < pool'.last, j ∉ U → (pool'.prev (.page j)).type ≠ .page →
      ∃ s, SlotPage z s j pool' ∧ (pool'.Full z s j → pool'.next (.page j) = none) := by
  have hpage : ∀ j, ¬ S (.page j) → ∀ s, (SlotPage z s j pool' ↔ SlotPage z s j pool) ∧
      (pool'.Full z s j ↔ pool.Full z s j) := by
    intro j hj s
    have hsame : SamePage z s j pool pool' :=
      SamePage.of_mem (hframe.slab _ hj) (by rw [hframe.mem])
    exact ⟨slotPage_congr hsame (by rw [hframe.prev _ hj]), hsame.full⟩
  refine ⟨?_, ?_, ?_⟩
  · intro t ht
    have hnode : ∀ j ∈ slots t, ¬ S (.page j) := by
      intro j hj
      obtain ⟨-, hjT, P, -⟩ := (h.listed t ht j).mp hj
      exact (hold j hjT P.type_ne).1
    refine (h.ring t ht).congr ?_ ?_
    · intro q hq
      rcases mem_ring hq with rfl | ⟨j, hj, rfl⟩
      · exact hframe.next _ (hslot t)
      · exact hframe.next _ (hnode j hj)
    · intro q hq
      obtain ⟨j, hj, rfl⟩ := mem_map.mp hq
      rw [SlabPool.back, hframe.prev _ (hnode j hj), SlabPool.back]
  · intro t ht j
    rw [h.listed t ht j, hframe.last]
    constructor
    · rintro ⟨hlt, hjT, P, hfull⟩
      obtain ⟨hjS, hjU⟩ := hold j hjT P.type_ne
      exact ⟨hlt, hjU, (hpage j hjS _).1.mpr P, fun hf => hfull ((hpage j hjS _).2.mp hf)⟩
    · rintro ⟨hlt, hjU, P, hfull⟩
      obtain ⟨hjS, hjT⟩ := hnew j hlt hjU P.type_ne
      exact ⟨hlt, hjT, (hpage j hjS _).1.mp P, fun hf => hfull ((hpage j hjS _).2.mpr hf)⟩
  · intro j hlt hjU htype
    rw [hframe.last] at hlt
    obtain ⟨hjS, hjT⟩ := hnew j hlt hjU htype
    rw [hframe.prev _ hjS] at htype
    obtain ⟨s, P, hfull⟩ := h.page j hlt hjT htype
    refine ⟨s, (hpage j hjS s).1.mpr P, fun hf => ?_⟩
    rw [hframe.next _ hjS]
    exact hfull ((hpage j hjS s).2.mp hf)

theorem not_block (hj : (pool.prev (.page j)).type ≠ .page) : ¬ Covered blocks j :=
  fun hcov => hj (h.blockKind j hcov).1

theorem covered_block {b : ℕ × ℕ} (hb : b ∈ blocks) : Covered blocks b.1 := by
  have := (h.blockInside b hb).1
  exact ⟨b, hb, by omega, by omega⟩

end

/-- **From a run into transit.** -/
theorem allocPages (h : SlabInv z ∅ runs blocks slots pool)
    (A : PagesAlloc k runs pool i runs' pool') :
    SlabInv z {j | i ≤ j ∧ j < i + k} runs' blocks slots pool' := by
  have hout : ∀ j, ¬ Covered runs j → ¬ Covered runs' j ∧ ¬ (i ≤ j ∧ j < i + k) := by
    intro j hj
    rw [A.covered, not_or] at hj
    exact hj
  obtain ⟨hring, hlisted, hpage⟩ := h.slots_frame (U := {j | i ≤ j ∧ j < i + k}) A.frame
    (by simp) (fun j _ hj => ⟨not_onFree (h.not_covered hj), (hout j (h.not_covered hj)).2⟩) (by
      intro j hlt hjT htype
      refine ⟨not_onFree fun hcov => ?_, by simp⟩
      rcases (A.covered j).mp hcov with hcov | hseg
      · exact htype (A.free.kind j hcov)
      · exact hjT hseg)
  refine ⟨A.free.settle (by simp), fun j hj => A.apart j hj.1 hj.2, ?_, h.blockApart, ?_, ?_, ?_,
    hring, hlisted, hpage⟩
  · rw [A.frame.last]
    exact h.blockInside
  · intro b hb
    rw [A.frame.slab _ (not_onFree (h.blockKind _ (h.covered_block hb)).2.1), h.blockHead b hb]
  · intro j hj
    obtain ⟨htype, hcov, -⟩ := h.blockKind j hj
    rw [A.frame.prev _ (not_onFree hcov)]
    exact ⟨htype, hout j hcov⟩
  · intro j hlt hjT hncov htype
    have hcov : ¬ Covered runs j := by
      rw [A.covered, not_or]
      exact ⟨hncov, hjT⟩
    rw [A.frame.last] at hlt
    rw [A.frame.prev _ (not_onFree hcov)] at htype
    exact h.owned j hlt (by simp) hcov htype

/-- **From transit to an allocation.** -/
theorem giveBlock (h : SlabInv z {j | i ≤ j ∧ j < i + k} runs blocks slots pool)
    (hk : 0 < k) (hin : i + k ≤ pool.last) (P : PagesTaken i k pool) :
    SlabInv z ∅ runs ((i, k) :: blocks) slots pool := by
  have hseg : ∀ j, i ≤ j ∧ j < i + k → (pool.prev (.page j)).type = .page := by
    rintro j ⟨h₁, h₂⟩
    rw [P.prev j h₁ h₂]
  refine ⟨h.free.settle ?_, by simp, ?_, ?_, ?_, ?_, ?_, h.ring, ?_, ?_⟩
  · rintro j ⟨h₁, h₂⟩ - -
    exact ⟨P.next j h₁ h₂, P.slab_ne_zero h₁ h₂⟩
  · rintro b hb
    rcases mem_cons.mp hb with rfl | hb
    · exact ⟨hk, hin⟩
    · exact h.blockInside b hb
  · refine pairwise_cons.mpr ⟨fun b hb => ?_, h.blockApart⟩
    -- the later of the two starts would be a page of both
    by_contra hmeet
    have hpos := (h.blockInside b hb).1
    simp only [not_or, Nat.not_le] at hmeet
    by_cases hle : i ≤ b.1
    · exact (h.blockKind b.1 ⟨b, hb, by omega, by omega⟩).2.2 ⟨hle, by omega⟩
    · exact (h.blockKind i ⟨b, hb, by omega, by omega⟩).2.2 ⟨by omega, by omega⟩
  · intro b hb
    rcases mem_cons.mp hb with rfl | hb
    · exact P.head
    · exact h.blockHead b hb
  · intro j hj
    rcases covered_cons.mp hj with hj | hj
    · exact ⟨hseg j hj, h.transit j hj, by simp⟩
    · obtain ⟨htype, hcov, -⟩ := h.blockKind j hj
      exact ⟨htype, hcov, by simp⟩
  · intro j hlt _ hcov htype
    rw [covered_cons]
    by_cases hj : i ≤ j ∧ j < i + k
    · exact Or.inl hj
    · exact Or.inr (h.owned j hlt hj hcov htype)
  · intro t ht j
    rw [h.listed t ht j]
    constructor
    · rintro ⟨hlt, -, hpage⟩
      exact ⟨hlt, by simp, hpage⟩
    · rintro ⟨hlt, -, hpage⟩
      exact ⟨hlt, fun hj => hpage.1.type_ne (hseg j hj), hpage⟩
  · intro j hlt _ htype
    exact h.page j hlt (fun hj => htype (hseg j hj)) htype

/-- **From an allocation into transit.** The descriptors of its pages may change. -/
theorem dropBlock (h : SlabInv z ∅ runs (b₁ ++ (i, k) :: b₂) slots pool)
    (hframe : SlabFrame (fun q => q.Within i (i + k)) pool pool') :
    SlabInv z {j | i ≤ j ∧ j < i + k} runs (b₁ ++ b₂) slots pool' := by
  have hmem : (i, k) ∈ b₁ ++ (i, k) :: b₂ := by simp
  have hsub : ∀ b ∈ b₁ ++ b₂, b ∈ b₁ ++ (i, k) :: b₂ := fun b hb => mem_split.mpr (Or.inr hb)
  obtain ⟨hpos, hin⟩ := h.blockInside _ hmem
  simp only at hpos hin
  have hsegcov : ∀ j, i ≤ j → j < i + k → Covered (b₁ ++ (i, k) :: b₂) j :=
    fun j h₁ h₂ => ⟨_, hmem, h₁, h₂⟩
  have hseg : ∀ j, i ≤ j ∧ j < i + k → ¬ Covered runs j :=
    fun j hj => (h.blockKind j (hsegcov j hj.1 hj.2)).2.1
  have hapart : ∀ b ∈ b₁ ++ b₂, i + k ≤ b.1 ∨ b.1 + b.2 ≤ i := by
    intro b hb
    have hpair := h.blockApart
    rw [pairwise_append, pairwise_cons] at hpair
    obtain ⟨-, ⟨hx, -⟩, h₁₂⟩ := hpair
    rcases mem_append.mp hb with hb | hb
    · exact (h₁₂ b hb _ mem_cons_self).symm
    · exact hx b hb
  have hcov : ∀ j, Covered (b₁ ++ b₂) j →
      Covered (b₁ ++ (i, k) :: b₂) j ∧ ¬ (i ≤ j ∧ j < i + k) := by
    rintro j ⟨b, hb, h₁, h₂⟩
    have := hapart b hb
    exact ⟨⟨b, hsub b hb, h₁, h₂⟩, by omega⟩
  obtain ⟨hring, hlisted, hpage⟩ := h.slots_frame (U := {j | i ≤ j ∧ j < i + k}) hframe
    (by simp) (by
      intro j _ hj
      have hnot : ¬ (i ≤ j ∧ j < i + k) := fun hin => h.not_block hj (hsegcov j hin.1 hin.2)
      exact ⟨hnot, hnot⟩) (fun j _ hj _ => ⟨hj, by simp⟩)
  refine ⟨?_, hseg, ?_, ?_, ?_, ?_, ?_, hring, hlisted, hpage⟩
  · exact h.free.congr (Set.empty_subset _) hseg (by omega) hframe.last
      (hframe.next _ not_within_free) (fun j hj => hframe.slab (.page j) hj)
      (fun j hj => hframe.next (.page j) hj) (fun j hj => hframe.prev (.page j) hj)
  · intro b hb
    rw [hframe.last]
    exact h.blockInside b (hsub b hb)
  · exact h.blockApart.sublist ((sublist_cons_self _ _).append_left _)
  · intro b hb
    have := hapart b hb
    have := (h.blockInside b (hsub b hb)).1
    rw [hframe.slab (.page b.1) (by simp only [within_page]; omega), h.blockHead b (hsub b hb)]
  · intro j hj
    obtain ⟨hold, hout⟩ := hcov j hj
    obtain ⟨ht, hncov, -⟩ := h.blockKind j hold
    rw [hframe.prev (.page j) hout]
    exact ⟨ht, hncov, hout⟩
  · intro j hlt hjT hncov ht
    rw [hframe.last] at hlt
    rw [hframe.prev (.page j) hjT] at ht
    obtain ⟨b, hb, h₁, h₂⟩ := h.owned j hlt (by simp) hncov ht
    rcases mem_split.mp hb with rfl | hb
    · exact absurd ⟨h₁, h₂⟩ hjT
    · exact ⟨b, hb, h₁, h₂⟩

/-- **From transit to the runs.** -/
theorem coalesce (h : SlabInv z {j | i ≤ j ∧ j < i + k} runs blocks slots pool)
    (J : Joined ((i, k) :: runs) pool runs' pool') (F : FreeRuns ∅ runs' pool') :
    SlabInv z ∅ runs' blocks slots pool' := by
  have hcov : ∀ j, Covered runs' j ↔ (i ≤ j ∧ j < i + k) ∨ Covered runs j := by
    intro j
    rw [J.covered, covered_cons]
  have hout : ∀ j, ¬ Covered runs' j → ¬ (i ≤ j ∧ j < i + k) ∧ ¬ Covered runs j := by
    intro j hj
    rw [hcov, not_or] at hj
    exact hj
  have hS : ∀ j, ¬ Covered runs' j → ¬ (SlabPtr.page j = .free ∨
      ∃ j', SlabPtr.page j = .page j' ∧ Covered ((i, k) :: runs) j') :=
    fun j hj => not_onFree fun hcov => hj ((J.covered j).mpr hcov)
  have hblock : ∀ j, Covered blocks j → ¬ Covered runs' j := by
    intro j hj
    obtain ⟨-, hncov, hjT⟩ := h.blockKind j hj
    rw [hcov, not_or]
    exact ⟨hjT, hncov⟩
  obtain ⟨hring, hlisted, hpage⟩ := h.slots_frame (U := ∅) J.frame (by simp) (by
      intro j hjT hj
      have hncov : ¬ Covered runs' j := by
        rw [hcov, not_or]
        exact ⟨hjT, h.not_covered hj⟩
      exact ⟨hS j hncov, by simp⟩) (by
      intro j _ _ htype
      have hncov : ¬ Covered runs' j := fun hcov => htype (F.kind j hcov)
      exact ⟨hS j hncov, (hout j hncov).1⟩)
  refine ⟨F, by simp, ?_, h.blockApart, ?_, ?_, ?_, hring, hlisted, hpage⟩
  · rw [J.frame.last]
    exact h.blockInside
  · intro b hb
    rw [J.frame.slab _ (hS _ (hblock b.1 (h.covered_block hb))), h.blockHead b hb]
  · intro j hj
    rw [J.frame.prev _ (hS j (hblock j hj))]
    exact ⟨(h.blockKind j hj).1, hblock j hj, by simp⟩
  · intro j hlt _ hncov htype
    rw [J.frame.last] at hlt
    rw [J.frame.prev _ (hS j hncov)] at htype
    exact h.owned j hlt (hout j hncov).1 (hout j hncov).2 htype

/-- **A change of a page of a slot.** Before it the page belongs to slot `t` or is in
transit, and the same holds after it. -/
theorem relist {T' : Set ℕ} {l : List ℕ} (h : SlabInv z T runs blocks slots pool)
    (R : Relisted t i (slots t) l pool pool') (ht : t < z.slotCount) (hi : i < pool.last)
    (hT : ∀ j, j ≠ i → j ∉ T ∧ j ∉ T') (hcov : ¬ Covered runs i) (hblock : ¬ Covered blocks i)
    (hold : i ∉ T → SlotPage z (t + z.minShift) i pool)
    (hnew : i ∈ T' ∧ i ∉ l ∨ i ∉ T' ∧ SlotPage z (t + z.minShift) i pool' ∧
      (i ∈ l ↔ ¬ pool'.Full z (t + z.minShift) i) ∧
      (pool'.Full z (t + z.minShift) i → pool'.next (.page i) = none)) :
    SlabInv z T' runs blocks (update slots t l) pool' := by
  have hTi : ∀ j, j ∈ T → j = i := fun j hj => by_contra fun hne => (hT j hne).1 hj
  have hTi' : ∀ j, j ∈ T' → j = i := fun j hj => by_contra fun hne => (hT j hne).2 hj
  have hsame : ∀ j, j ≠ i → ∀ s, SamePage z s j pool pool' := fun j hj s =>
    SamePage.of_mem (R.slab _ (by simpa using hj)) (R.mem j hj)
  have hslot : ∀ j, j ≠ i → ∀ s, SlotPage z s j pool' ↔ SlotPage z s j pool :=
    fun j hj s => slotPage_congr (hsame j hj s) (R.type j hj)
  have hkind : i ∉ T' → (pool'.prev (.page i)).type ≠ .page := by
    intro hi'
    rcases hnew with ⟨hmem, -⟩ | ⟨-, P, -⟩
    · exact absurd hmem hi'
    · exact P.type_ne
  -- the lists of other slots hold neither `i` nor a page of slot `t`
  have hother : ∀ t' < z.slotCount, t' ≠ t → ∀ j ∈ slots t', j ≠ i ∧ j ∉ slots t := by
    intro t' ht' hne j hj
    obtain ⟨-, hjT, P, -⟩ := (h.listed t' ht' j).mp hj
    constructor
    · rintro rfl
      have := P.unique (hold hjT)
      omega
    · intro hjt
      have := P.unique (h.slotPage_of_mem ht hjt)
      omega
  refine ⟨?_, ?_, ?_, h.blockApart, ?_, ?_, ?_, ?_, ?_, ?_⟩
  · have hpage : ∀ j, j ∉ {j | j = i ∨ j ∈ slots t} → SlabPtr.page j ≠ .page i ∧
        ∀ j' ∈ slots t, SlabPtr.page j ≠ .page j' := by
      intro j hj
      simp only [Set.mem_ofPred_eq, not_or] at hj
      simp only [ne_eq, SlabPtr.page.injEq]
      exact ⟨hj.1, fun j' hj' heq => hj.2 (heq ▸ hj')⟩
    have F : FreeRuns {j | j = i ∨ j ∈ slots t} runs pool' := by
      refine h.free.congr (fun j hj => Or.inl (hTi j hj)) ?_ (by omega) R.last ?_ ?_ ?_ ?_
      · rintro j (rfl | hj)
        · exact hcov
        · exact h.not_covered (h.slotPage_of_mem ht hj).type_ne
      · exact R.next _ (by simp) (by simp) (by simp)
      · exact fun j hj => R.slab _ (hpage j hj).1
      · exact fun j hj => R.next _ (hpage j hj).1 (by simp) (hpage j hj).2
      · exact fun j hj => R.prev _ (hpage j hj).1 (by simp) (hpage j hj).2
    refine F.settle ?_
    rintro j hj hjT' htype
    by_cases hji : j = i
    · subst hji
      exact absurd htype (hkind hjT')
    · rw [R.type j hji] at htype
      rcases hj with hj | hj
      · exact absurd hj hji
      · exact absurd htype (h.slotPage_of_mem ht hj).type_ne
  · intro j hj
    rw [hTi' j hj]
    exact hcov
  · rw [R.last]
    exact h.blockInside
  · intro b hb
    have hne : b.1 ≠ i := by
      rintro rfl
      exact hblock (h.covered_block hb)
    rw [R.slab _ (by simpa using hne), h.blockHead b hb]
  · intro j hj
    have hne : j ≠ i := by
      rintro rfl
      exact hblock hj
    obtain ⟨htype, hncov, -⟩ := h.blockKind j hj
    rw [R.type j hne]
    exact ⟨htype, hncov, (hT j hne).2⟩
  · intro j hlt hjT' hncov htype
    rw [R.last] at hlt
    by_cases hne : j = i
    · subst hne
      exact absurd htype (hkind hjT')
    · rw [R.type j hne] at htype
      exact h.owned j hlt (hT j hne).1 hncov htype
  · intro t' ht'
    by_cases heq : t' = t
    · subst heq
      rw [update_self]
      exact R.ring
    · rw [update_of_ne heq]
      refine (h.ring t' ht').congr ?_ ?_
      · intro q hq
        rcases mem_ring hq with rfl | ⟨j, hj, rfl⟩
        · exact R.next _ (by simp) (by simpa using heq) (by simp)
        · obtain ⟨hji, hjt⟩ := hother t' ht' heq j hj
          refine R.next _ (by simpa using hji) (by simp) ?_
          rintro j' hj' hjj
          rw [SlabPtr.page.injEq] at hjj
          exact hjt (hjj ▸ hj')
      · intro q hq
        obtain ⟨j, hj, rfl⟩ := mem_map.mp hq
        obtain ⟨hji, hjt⟩ := hother t' ht' heq j hj
        rw [SlabPool.back, R.prev _ (by simpa using hji) (by simp), SlabPool.back]
        rintro j' hj' hjj
        rw [SlabPtr.page.injEq] at hjj
        exact hjt (hjj ▸ hj')
  · intro t' ht' j
    rw [R.last]
    by_cases hji : j = i
    · subst hji
      by_cases heq : t' = t
      · subst heq
        rw [update_self]
        rcases hnew with ⟨hmem, hl⟩ | ⟨hmem, P, hl, -⟩
        · exact iff_of_false hl fun hr => hr.2.1 hmem
        · rw [hl]
          exact ⟨fun hfull => ⟨hi, hmem, P, hfull⟩, fun hr => hr.2.2.2⟩
      · rw [update_of_ne heq]
        refine iff_of_false (fun hj => (hother t' ht' heq j hj).1 rfl) ?_
        rintro ⟨-, hjT', P, -⟩
        rcases hnew with ⟨hmem, -⟩ | ⟨-, P', -⟩
        · exact hjT' hmem
        · have := P.unique P'
          omega
    · have hlist : j ∈ update slots t l t' ↔ j ∈ slots t' := by
        by_cases heq : t' = t
        · subst heq
          rw [update_self, R.others j hji]
        · rw [update_of_ne heq]
      rw [hlist, h.listed t' ht' j, hslot j hji, (hsame j hji _).full]
      simp only [(hT j hji).1, (hT j hji).2]
  · intro j hlt hjT' htype
    rw [R.last] at hlt
    by_cases hji : j = i
    · subst hji
      rcases hnew with ⟨hmem, -⟩ | ⟨-, P, -, hfull⟩
      · exact absurd hmem hjT'
      · exact ⟨_, P, hfull⟩
    · rw [R.type j hji] at htype
      obtain ⟨s, P, hfull⟩ := h.page j hlt (hT j hji).1 htype
      refine ⟨s, (hslot j hji s).mpr P, fun hf => ?_⟩
      rw [(hsame j hji s).full] at hf
      rw [R.next _ (by simpa using hji) (by simp), hfull hf]
      rintro j' hj' hjj
      rw [SlabPtr.page.injEq] at hjj
      subst hjj
      obtain ⟨-, -, P', hnf⟩ := (h.listed t ht j).mp hj'
      rw [P.unique P'] at hf
      exact hnf hf

/-- The pages of the slots are the same after a change of words outside the bitmaps. -/
theorem same_slots (h : SlabInv z T runs blocks slots pool) (hslab : pool'.slab = pool.slab)
    (hprev : pool'.prev = pool.prev)
    (hmem : ∀ j < pool.last, ∀ s < z.exactShift, SlotPage z s j pool →
      ∀ w < z.mapWords s, pool'.mem j w = pool.mem j w) (hj : j < pool.last) (hjT : j ∉ T) :
    (SlotPage z s j pool' ↔ SlotPage z s j pool) ∧
      (SlotPage z s j pool → SamePage z s j pool pool') := by
  have hsame : ∀ s, SlotPage z s j pool → SamePage z s j pool pool' :=
    fun s P => ⟨by rw [hslab], fun hs => hmem j hj s hs P⟩
  refine ⟨⟨fun P => ?_, fun P => P.congr (hsame s P) (by rw [hprev])⟩, hsame s⟩
  have htype := P.type_ne
  rw [hprev] at htype
  obtain ⟨s', P', -⟩ := h.page j hj hjT htype
  have := (P'.congr (hsame s' P') (by rw [hprev])).unique P
  exact this ▸ P'

/-- **Bookkeeping.** Statistics, messages, and words outside the bitmaps do not matter. -/
theorem book (h : SlabInv z T runs blocks slots pool) (hslab : pool'.slab = pool.slab)
    (hnext : pool'.next = pool.next) (hprev : pool'.prev = pool.prev)
    (hlast : pool'.last = pool.last)
    (hmem : ∀ j < pool.last, ∀ s < z.exactShift, SlotPage z s j pool →
      ∀ w < z.mapWords s, pool'.mem j w = pool.mem j w) :
    SlabInv z T runs blocks slots pool' := by
  have hback : pool'.back = pool.back := by
    funext q
    rw [SlabPool.back, hprev, SlabPool.back]
  have hpage : ∀ j < pool.last, j ∉ T → ∀ s, _ := fun j hj hjT s =>
    h.same_slots (s := s) hslab hprev hmem hj hjT
  obtain ⟨F, h₁, h₂, h₃, h₄, h₅, h₆, h₇, h₈, h₉⟩ := h
  refine ⟨⟨?_, ?_, ?_, ?_, F.apart, ?_, ?_, ?_, ?_⟩, h₁, ?_, h₃, ?_, ?_, ?_, ?_, ?_, ?_⟩
  · exact hlast ▸ F.bound
  · rw [hnext, hback]
    exact F.ring
  · exact hlast ▸ F.pos
  · exact hlast ▸ F.inside
  · rw [hslab]
    exact F.size
  · rw [hprev]
    exact F.kind
  · rw [hslab, hback, hlast]
    exact F.tail
  · rw [hslab, hnext, hprev, hlast]
    exact F.taken
  · exact hlast ▸ h₂
  · rw [hslab]
    exact h₄
  · rw [hprev]
    exact h₅
  · rw [hprev, hlast]
    exact h₆
  · rw [hnext, hback]
    exact h₇
  · intro t ht j
    rw [hlast, h₈ t ht j]
    constructor
    · rintro ⟨hlt, hjT, P, hfull⟩
      obtain ⟨hslot, hsame⟩ := hpage j hlt hjT (t + z.minShift)
      exact ⟨hlt, hjT, hslot.mpr P, fun hf => hfull ((hsame P).full.mp hf)⟩
    · rintro ⟨hlt, hjT, P', hfull⟩
      obtain ⟨hslot, hsame⟩ := hpage j hlt hjT (t + z.minShift)
      have P := hslot.mp P'
      exact ⟨hlt, hjT, P, fun hf => hfull ((hsame P).full.mpr hf)⟩
  · intro j hlt hjT htype
    rw [hlast] at hlt
    rw [hprev] at htype
    obtain ⟨s, P, hfull⟩ := h₉ j hlt hjT htype
    obtain ⟨hslot, hsame⟩ := hpage j hlt hjT s
    refine ⟨s, hslot.mpr P, fun hf => ?_⟩
    rw [hnext]
    exact hfull ((hsame P).full.mp hf)

end SlabInv

end Slots

end Hengine
