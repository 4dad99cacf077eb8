import Hengine.Core.SlabRun

/-!
# The Pages of a Zone

What the lists of a pool say about its pages, in every reachable state. The lists are read
as the code reads them, by following `next` from the head, so that the statements do not
mention the ghost lists of the invariant.
-/

namespace Hengine

open List Option

/-- The runs of the free list from a descriptor on, as `(first page, length)`. -/
@[grind =]
def slabWalkFree (pool : SlabPool) : ℕ → SlabPtr → Option (List (ℕ × ℕ))
  | 0, _ => none
  | _ + 1, .free => some []
  | _ + 1, .slot _ => none
  | fuel + 1, .page i =>
    (pool.next (.page i)).bind fun next =>
      (slabWalkFree pool fuel next).map fun runs =>
        (i, (pool.slab (.page i)).toNat) :: runs

/-- The runs on `pool->free`. -/
def slabFreeList (pool : SlabPool) : Option (List (ℕ × ℕ)) :=
  (pool.next .free).bind (slabWalkFree pool (pool.last + 2))

/-- The pages of the list of slot `t` from a descriptor on. -/
@[grind =]
def slabWalkSlot (pool : SlabPool) (t : ℕ) : ℕ → SlabPtr → Option (List ℕ)
  | 0, _ => none
  | _ + 1, .free => none
  | _ + 1, .slot t' => if t' = t then some [] else none
  | fuel + 1, .page i =>
    (pool.next (.page i)).bind fun next =>
      (slabWalkSlot pool t fuel next).map fun pages => i :: pages

/-- The pages on the list of slot `t`. -/
def slabSlotList (pool : SlabPool) (t : ℕ) : Option (List ℕ) :=
  (pool.next (.slot t)).bind (slabWalkSlot pool t (pool.last + 2))

section Walks

variable {z : SlabZone} {T : Set ℕ} {runs blocks : List (ℕ × ℕ)} {slots : ℕ → List ℕ}
  {pool : SlabPool} {l : List ℕ} {r : ℕ × ℕ} {t i k : ℕ}

/-- The walk along the free list. -/
theorem slabWalkFree_eq {a : SlabPtr} {fuel : ℕ}
    (hlinks : Links pool.next pool.back a (runHeads runs) .free)
    (hsize : ∀ r ∈ runs, (pool.slab (.page r.1)).toNat = r.2) (hfuel : runs.length < fuel) :
    slabWalkFree pool fuel ((runHeads runs).headD .free) = some runs := by
  induction runs generalizing a fuel with
  | nil =>
    cases fuel with
    | zero => simp at hfuel
    | succ fuel => rfl
  | cons r runs ih =>
    cases fuel with
    | zero => simp at hfuel
    | succ fuel =>
      obtain ⟨-, -, hrest⟩ := hlinks
      have hr := hsize r mem_cons_self
      simp only [runHeads, map_cons, headD_cons, slabWalkFree, hr]
      rw [hrest.next_eq, bind_some]
      have htail := ih hrest (fun r hr => hsize r (mem_cons_of_mem _ hr))
        (Nat.lt_of_succ_lt_succ hfuel)
      rw [runHeads] at htail
      rw [htail, map_some]

/-- The walk along the list of a slot. -/
theorem slabWalkSlot_eq {a : SlabPtr} {fuel : ℕ}
    (hlinks : Links pool.next pool.back a (l.map .page) (.slot t)) (hfuel : l.length < fuel) :
    slabWalkSlot pool t fuel ((l.map SlabPtr.page).headD (.slot t)) = some l := by
  induction l generalizing a fuel with
  | nil =>
    cases fuel with
    | zero => simp at hfuel
    | succ fuel => simp [slabWalkSlot]
  | cons j l ih =>
    cases fuel with
    | zero => simp at hfuel
    | succ fuel =>
      obtain ⟨-, -, hrest⟩ := hlinks
      simp only [map_cons, headD_cons, slabWalkSlot]
      rw [hrest.next_eq, bind_some, ih hrest (Nat.lt_of_succ_lt_succ hfuel),
        map_some]

theorem FreeRuns.freeList_eq (F : FreeRuns T runs pool) : slabFreeList pool = some runs := by
  rw [slabFreeList, F.ring.links.next_eq, bind_some]
  exact slabWalkFree_eq F.ring.links F.size F.length_le

/-- The list of a slot is followed from the slot itself, and no page is in it twice. -/
theorem SlabInv.slotList_eq (h : SlabInv z T runs blocks slots pool) (ht : t < z.slotCount) :
    slabSlotList pool t = some (slots t) ∧ (slots t).Nodup := by
  have hring := h.ring t ht
  have hnodup : (slots t).Nodup := (nodup_cons.mp hring.nodup).2.of_map
  have hsub : slots t ⊆ List.range pool.last := by
    intro i hi
    exact mem_range.mpr ((h.listed t ht i).mp hi).1
  have hlen := (subperm_of_subset hnodup hsub).length_le
  rw [length_range] at hlen
  rw [slabSlotList, hring.links.next_eq, bind_some]
  exact ⟨slabWalkSlot_eq hring.links (by omega), hnodup⟩

/-- **Contiguous free pages are in one run.** Between two runs there is a page that is in
none. -/
theorem covered_segment (F : FreeRuns T runs pool) (hk : 0 < k)
    (hcov : ∀ j, i ≤ j → j < i + k → Covered runs j) :
    ∃ r ∈ runs, r.1 ≤ i ∧ i + k ≤ r.1 + r.2 := by
  induction k with
  | zero => omega
  | succ k ih =>
    obtain ⟨r, hr, h₁, h₂⟩ := hcov (i + k) (by omega) (by omega)
    by_cases hzero : k = 0
    · exact ⟨r, hr, by omega, by omega⟩
    · obtain ⟨r', hr', h₁', h₂'⟩ := ih (by omega) fun j hj hj' => hcov j hj (by omega)
      by_cases heq : r' = r
      · subst heq
        exact ⟨r', hr', h₁', by omega⟩
      · have hapart : RunsApart r' r := by
          have : Std.Symm RunsApart := ⟨fun _ _ => RunsApart.symm⟩
          exact F.apart.forall hr' hr heq
        rw [RunsApart] at hapart
        omega

/-- If all pages are free they are one run. -/
theorem runs_of_all_free (F : FreeRuns T runs pool) (hpos : 0 < pool.last)
    (hcov : ∀ j < pool.last, Covered runs j) : runs = [(0, pool.last)] := by
  obtain ⟨r, hr, h₁, h₂⟩ := covered_segment (i := 0) F hpos fun j _ hj => hcov j (by omega)
  have hin := F.inside r hr
  have hr0 : r = (0, pool.last) := Prod.ext (by simp only; omega) (by simp only; omega)
  obtain ⟨l₁, l₂, rfl⟩ := append_of_mem hr
  have hothers : ∀ r' ∈ l₁ ++ l₂, False := by
    intro r' hr'
    have hapart := (apart_of_split F.apart).1 r' hr'
    have hin' := F.inside r' (mem_split.mpr (Or.inr hr'))
    have hpos' := F.pos hpos r' (mem_split.mpr (Or.inr hr'))
    rw [RunsApart] at hapart
    omega
  have hnil : l₁ ++ l₂ = [] := eq_nil_iff_forall_not_mem.mpr hothers
  obtain ⟨rfl, rfl⟩ := append_eq_nil_iff.mp hnil
  rw [nil_append, hr0]

end Walks

/-- A live block has bytes in page `j`. -/
def SlabState.Holds (z : SlabZone) (σ : SlabState) (j : ℕ) : Prop :=
  ∃ b ∈ σ.live, b.addr < σ.pool.pageAddr z (j + 1) ∧
    σ.pool.pageAddr z j < b.addr + slabRoom z σ.pool b.addr

section Account

variable {z : SlabZone} {runs blocks : List (ℕ × ℕ)} {slots : ℕ → List ℕ}
  {owners : List (SlabOwner × ℕ)} {σ : SlabState} {o : SlabOwner} {j : ℕ}

namespace SlabAccount

/-- A page of a live block holds it. -/
theorem holds_of_owner (h : SlabAccount z runs blocks slots owners σ)
    (ho : Owns z blocks σ.pool o) (hpage : o.first ≤ j ∧ j < o.first + o.span) :
    σ.Holds z j := by
  obtain ⟨b, hb, haddr⟩ := h.live_of_owner ho
  refine ⟨b, hb, ?_⟩
  obtain ⟨hroom, -⟩ := h.ok.extent_pages ho
  obtain ⟨h₁, h₂⟩ := hpage
  rw [haddr, h.ok.room_eq ho, SlabPool.pageAddr, SlabPool.pageAddr, shiftLeft_page,
    shiftLeft_page]
  cases o with
  | block i k =>
    simp only [SlabOwner.first, SlabOwner.span] at h₁ h₂
    have hlo : (i + 1) * z.pagesize ≤ (j + 1) * z.pagesize :=
      Nat.mul_le_mul_right _ (by omega)
    have hhi : (j + 1) * z.pagesize ≤ (i + k) * z.pagesize := Nat.mul_le_mul_right _ h₂
    have hP : 0 < z.pagesize := Nat.two_pow_pos _
    simp only [SlabOwner.addr, SlabOwner.room, shiftLeft_page, Nat.add_mul, Nat.one_mul]
      at hlo hhi ⊢
    omega
  | chunk s i c =>
    simp only [SlabOwner.first, SlabOwner.span] at h₁ h₂
    obtain rfl : j = i := by omega
    obtain ⟨-, P, -, hc, -⟩ := ho
    have hend := chunk_end_le P.max hc
    simp only [SlabOwner.addr, SlabOwner.room, shiftLeft_page, Nat.add_mul, Nat.one_mul]
      at hroom ⊢
    generalize c <<< s = off at *
    omega

/-- **A page without a live block is free.** -/
theorem covered_of_not_holds (h : SlabAccount z runs blocks slots owners σ)
    (hj : j < σ.pool.last) (hfree : ¬ σ.Holds z j) : Covered runs j := by
  by_contra hncov
  by_cases htype : (σ.pool.prev (.page j)).type = .page
  · obtain ⟨⟨i, k⟩, hb, h₁, h₂⟩ := h.ok.inv.owned j hj (by simp) hncov htype
    exact hfree (h.holds_of_owner (o := .block i k) hb ⟨h₁, h₂⟩)
  · obtain ⟨s, P, -⟩ := h.ok.inv.page j hj (by simp) htype
    obtain ⟨c, h₁, h₂, hbit⟩ := P.used
    exact hfree (h.holds_of_owner (o := .chunk s j c) ⟨hj, P, h₁, h₂, hbit⟩
      ⟨Nat.le_refl j, Nat.lt_succ_self j⟩)

end SlabAccount

end Account

/-- The accounts of the pages of a zone: `pool->pfree` is the length of the runs on the free
list, which are not adjacent, and one run when nothing is live; `ngx_slab_alloc_pages` fails
only when every `k` contiguous pages hold a live block; and the lists of the slots hold
their pages that are not full, each once. -/
structure SlabAccounted (z : SlabZone) (σ : SlabState) : Prop where
  free : ∃ runs, slabFreeList σ.pool = some runs ∧ σ.pool.pfree = runPages runs ∧
    runs.Pairwise RunsApart ∧ (σ.live = [] → runs = [(0, σ.pool.last)])
  fails : ∀ k pool', 0 < k → slabAllocPages k σ.pool = some (none, pool') →
    ∀ i, i + k ≤ σ.pool.last → ∃ j, i ≤ j ∧ j < i + k ∧ σ.Holds z j
  lists : ∀ t < z.slotCount, ∃ l, slabSlotList σ.pool t = some l ∧ l.Nodup ∧ ∀ i, i ∈ l ↔
    i < σ.pool.last ∧ (σ.pool.prev (.page i)).type ≠ .page ∧
      slabPageShift z σ.pool i = t + z.minShift ∧
      ¬ σ.pool.Full z (slabPageShift z σ.pool i) i
  slots : ∀ i < σ.pool.last, (σ.pool.prev (.page i)).type ≠ .page →
    ∃ t < z.slotCount, slabPageShift z σ.pool i = t + z.minShift

/-- **Accounting.** For every zone, in every state that allocations, releases of live blocks
and writes to live blocks lead to. -/
theorem slab_accounted {z : SlabZone} {σ : SlabState} (h : (slabMachine z).Reachable σ) :
    SlabAccounted z σ := by
  obtain ⟨runs, blocks, slots, owners, hinv⟩ := slab_invariant h
  have hok := hinv.ok
  refine ⟨⟨runs, hok.inv.free.freeList_eq, hok.pfree, hok.inv.free.apart, ?_⟩, ?_, ?_, ?_⟩
  · intro hlive
    rcases Nat.eq_zero_or_pos σ.pool.last with hzero | hpos
    · rw [hzero, hok.empty hzero]
    · refine runs_of_all_free hok.inv.free hpos fun j hj => hinv.covered_of_not_holds hj ?_
      rintro ⟨b, hb, -⟩
      simp [hlive] at hb
  · intro k pool' hk hfail i hi
    by_contra hnone
    have hsmall : ∀ r ∈ runs, r.2 < k := by
      rcases hok.inv.free.allocPages hk with ⟨hsmall, -⟩ | ⟨i', runs', pool'', hexec, -⟩
      · exact hsmall
      · rw [hexec] at hfail
        simp at hfail
    obtain ⟨r, hr, h₁, h₂⟩ := covered_segment hok.inv.free hk fun j hj hj' =>
      hinv.covered_of_not_holds (by omega) fun hholds => hnone ⟨j, hj, hj', hholds⟩
    have := hsmall r hr
    omega
  · intro t ht
    obtain ⟨hlist, hnodup⟩ := hok.inv.slotList_eq ht
    refine ⟨slots t, hlist, hnodup, fun i => ?_⟩
    rw [hok.inv.listed t ht]
    constructor
    · rintro ⟨hi, -, P, hfull⟩
      rw [P.pageShift]
      exact ⟨hi, P.type_ne, rfl, hfull⟩
    · rintro ⟨hi, htype, hshift, hfull⟩
      obtain ⟨s, P, -⟩ := hok.inv.page i hi (by simp) htype
      rw [P.pageShift] at hshift hfull
      subst hshift
      exact ⟨hi, by simp, P, hfull⟩
  · intro i hi htype
    obtain ⟨s, P, -⟩ := hok.inv.page i hi (by simp) htype
    obtain ⟨ht, hts⟩ := P.slot
    exact ⟨s - z.minShift, ht, by rw [P.pageShift, hts]⟩

/-- A run that leaves a hole in the pool: the two free runs are not adjacent. -/
theorem slab_accounted_hole : ∃ σ, (slabMachine smallZone).Reachable σ ∧
    slabFreeList σ.pool = some [(0, 2), (3, 15)] ∧ SlabAccounted smallZone σ := by
  have hlist : (Machine.replay (slabStep smallZone) [] ⟨slabInit smallZone fun _ _ => 0#64, []⟩
      [.alloc 5000, .alloc 100, .free 8192]).map (fun r => slabFreeList r.2.pool) =
        some (some [(0, 2), (3, 15)]) := by
    decide
  obtain ⟨⟨tr, σ⟩, hreplay, hlist⟩ := map_eq_some_iff.mp hlist
  have hreach : (slabMachine smallZone).Reachable σ :=
    ⟨tr, Machine.run_of_replay _ ⟨_, rfl⟩ hreplay⟩
  exact ⟨σ, hreach, hlist, slab_accounted hreach⟩

end Hengine
