import Hengine.Core.SlabFresh

/-!
# The size of a strategy's zone

`ngx_shm_cal_slab_pool_size` of `ngx_proc_strategy_module.c` computes the size of the zone in which
`ngx_strategy_slot_init` makes its allocations. The size of the pool header depends on the platform, and so
does the page size; both are parameters. The numbers of the computation are 64 bits wide.
-/

namespace Hengine.Strategy

open List

/-! ### The computation -/

/-- `sizeof(ngx_slab_page_t)`. -/
def slabPageSize : ℕ := 24

/-- `sizeof(ngx_shm_pool_t)`. -/
def shmPoolSize : ℕ := 32

/-- `sizeof(ngx_strategy_slot_shm_ctx_t)`. -/
def slotShmCtxSize : ℕ := 56

/-- `NGX_MAX_INT_T_VALUE`. -/
def maxIntValue : ℤ := 9223372036854775807

/-- A value of `ngx_uint_t`. -/
def u64 (n : ℕ) : ℕ := n % 2 ^ 64

/-- `NGX_CEIL_INT`, for `1 ≤ m`. -/
def ceilInt (m n : ℕ) : ℕ := (m - 1) / n + 1

/-- `ngx_shm_cal_slab_pool_size`, or `none` for `NGX_ERROR`. -/
def calSlabPoolSize (header pagesizeShift : ℕ) (appPoolSize : ℤ) : Option ℕ :=
  if appPoolSize < 0 ∨ maxIntValue / 2 < appPoolSize then none
  else
    let pagesize := 2 ^ pagesizeShift
    let gradeArraySize := u64 (pagesizeShift * slabPageSize)
    let extraSize := u64 (header + max pagesize (u64 (gradeArraySize + gradeArraySize)))
    let pageNum := u64 (ceilInt (u64 (appPoolSize.toNat + shmPoolSize)) pagesize * 2)
    let pageArraySize := u64 (u64 (pageNum * slabPageSize) + pagesize)
    let extraSize := u64 (extraSize + pageArraySize)
    let extraSize := u64 (u64 (pagesizeShift + ceilInt extraSize pagesize) * pagesize)
    let totalSize := u64 (u64 (pageNum * pagesize) + extraSize)
    -- `totalSize` is read as a signed number
    if 2 ^ 63 ≤ totalSize then none else some totalSize

/-! ### The numbers without a width -/

/-- `page_num`. -/
def pageNum (pagesizeShift appPoolSize : ℕ) : ℕ :=
  ceilInt (appPoolSize + shmPoolSize) (2 ^ pagesizeShift) * 2

/-- `extra_size`, before it is rounded up to pages. -/
def extraSize (header pagesizeShift appPoolSize : ℕ) : ℕ :=
  header + max (2 ^ pagesizeShift) (pagesizeShift * slabPageSize + pagesizeShift * slabPageSize) +
    (pageNum pagesizeShift appPoolSize * slabPageSize + 2 ^ pagesizeShift)

/-- The pages of `extra_size`. -/
def extraPages (header pagesizeShift appPoolSize : ℕ) : ℕ :=
  pagesizeShift + ceilInt (extraSize header pagesizeShift appPoolSize) (2 ^ pagesizeShift)

/-- `total_size`. -/
def totalSize (header pagesizeShift appPoolSize : ℕ) : ℕ :=
  pageNum pagesizeShift appPoolSize * 2 ^ pagesizeShift +
    extraPages header pagesizeShift appPoolSize * 2 ^ pagesizeShift

/-- All intermediate values of the computation. -/
def poolSizeSteps (header pagesizeShift appPoolSize : ℕ) : List ℕ := [
  pagesizeShift * slabPageSize,
  pagesizeShift * slabPageSize + pagesizeShift * slabPageSize,
  header + max (2 ^ pagesizeShift) (pagesizeShift * slabPageSize + pagesizeShift * slabPageSize),
  appPoolSize + shmPoolSize,
  pageNum pagesizeShift appPoolSize,
  pageNum pagesizeShift appPoolSize * slabPageSize,
  pageNum pagesizeShift appPoolSize * slabPageSize + 2 ^ pagesizeShift,
  extraSize header pagesizeShift appPoolSize,
  extraPages header pagesizeShift appPoolSize,
  extraPages header pagesizeShift appPoolSize * 2 ^ pagesizeShift,
  pageNum pagesizeShift appPoolSize * 2 ^ pagesizeShift,
  totalSize header pagesizeShift appPoolSize]

/-! ### The allocations -/

/-- Allocations one after the other, or `none` where one fails. -/
@[grind =]
def allocAll (z : SlabSizes) : List ℕ → SlabPool → Option (List ℕ)
  | [], _ => some []
  | size :: sizes, pool =>
    match slabAllocLocked z size pool with
    | some (some p, pool) => (allocAll z sizes pool).map (p :: ·)
    | _ => none

/-- The allocations of `ngx_strategy_slot_init`: the shared context, and for each slot its data and its
pool. -/
def slotInitSizes (slotSize appPoolSize : ℕ) : List ℕ :=
  [slotShmCtxSize, slotSize, appPoolSize + shmPoolSize, slotSize, appPoolSize + shmPoolSize]

/-- The zone of `size` bytes at `addr`, as `ngx_init_zone_pool` makes it. -/
def zoneOf (header pagesizeShift addr size : ℕ) : SlabSizes :=
  ⟨pagesizeShift, 3, addr + header, addr + size⟩

/-! ### No number is too wide -/

section

variable {header k app : ℕ}

/-- Rounding up goes to the next multiple. -/
theorem ceilInt_mul {m n : ℕ} (hm : 0 < m) (hn : 0 < n) :
    m ≤ ceilInt m n * n ∧ ceilInt m n * n < m + n := by
  have hmod := Nat.div_add_mod (m - 1) n
  have hlt := Nat.mod_lt (m - 1) hn
  rw [ceilInt, Nat.add_mul, Nat.one_mul]
  rw [Nat.mul_comm] at hmod
  omega

theorem grade_le (hk : 12 ≤ k) : k * slabPageSize + k * slabPageSize ≤ 2 ^ k ∧ 56 * k + 40 ≤ 2 ^ k := by
  induction k, hk using Nat.le_induction with
  | base => decide
  | succ k hk ih =>
    rw [slabPageSize] at *
    rw [Nat.pow_succ]
    omega

/-- **All values of the computation** fit in 64 bits. -/
theorem poolSizeSteps_lt (hk : 12 ≤ k) (hk' : k ≤ 57) (hheader : header ≤ 4096)
    (happ : app ≤ 2 ^ 62 - 1) : ∀ v ∈ poolSizeSteps header k app, v < 2 ^ 64 := by
  have hP : 2 ^ 12 ≤ 2 ^ k := Nat.pow_le_pow_right (by omega) hk
  have hP' : 2 ^ k ≤ 2 ^ 57 := Nat.pow_le_pow_right (by omega) hk'
  have hgrade := (grade_le hk).1
  have hmax : max (2 ^ k) (k * slabPageSize + k * slabPageSize) = 2 ^ k := Nat.max_eq_left hgrade
  have hkP : k * 2 ^ k ≤ 57 * 2 ^ k := Nat.mul_le_mul_right _ hk'
  obtain ⟨-, hpages⟩ := ceilInt_mul (m := app + shmPoolSize) (n := 2 ^ k) (by rw [shmPoolSize]; omega)
    (by omega)
  have hextra : 0 < extraSize header k app := by
    rw [extraSize]
    omega
  obtain ⟨-, hextras⟩ := ceilInt_mul hextra (n := 2 ^ k) (by omega)
  have hnum : pageNum k app * 2 ^ 12 ≤ pageNum k app * 2 ^ k := Nat.mul_le_mul_left _ hP
  have hnumP : pageNum k app * 2 ^ k = ceilInt (app + shmPoolSize) (2 ^ k) * 2 ^ k * 2 := by
    rw [pageNum]
    ring
  have hpagesP : extraPages header k app * 2 ^ k =
      k * 2 ^ k + ceilInt (extraSize header k app) (2 ^ k) * 2 ^ k := by
    rw [extraPages, Nat.add_mul]
  have hpages' : extraPages header k app ≤ extraPages header k app * 2 ^ k :=
    Nat.le_mul_of_pos_right _ (by omega)
  have hsize : extraSize header k app =
      header + 2 ^ k + (pageNum k app * slabPageSize + 2 ^ k) := by rw [extraSize, hmax]
  have htotal : totalSize header k app =
      pageNum k app * 2 ^ k + extraPages header k app * 2 ^ k := rfl
  intro v hv
  simp only [poolSizeSteps, hmax, mem_cons, not_mem_nil, or_false] at hv
  simp only [slabPageSize, shmPoolSize] at *
  rcases hv with h | h | h | h | h | h | h | h | h | h | h | h <;> subst h <;> omega

/-- **The computation**, without the width of its numbers. -/
theorem calSlabPoolSize_eq (hk : 12 ≤ k) (hk' : k ≤ 57) (hheader : header ≤ 4096)
    (happ : app ≤ 2 ^ 62 - 1) : calSlabPoolSize header k app =
      if 2 ^ 63 ≤ totalSize header k app then none else some (totalSize header k app) := by
  have hsteps := poolSizeSteps_lt hk hk' hheader happ
  have hw : ∀ v ∈ poolSizeSteps header k app, u64 v = v := fun v hv => Nat.mod_eq_of_lt (hsteps v hv)
  simp only [poolSizeSteps, forall_mem_cons, not_mem_nil, false_implies, implies_true,
    and_true] at hw
  obtain ⟨hgrade, hgrades, hmax, hpool, hnum, harray, hpageArray, hextra, hpages, hextraP, hnumP,
    htotal⟩ := hw
  have hrange : ¬ ((app : ℤ) < 0 ∨ maxIntValue / 2 < (app : ℤ)) := by
    rw [show maxIntValue / 2 = 2 ^ 62 - 1 by decide]
    omega
  have hnum' : u64 (ceilInt (app + shmPoolSize) (2 ^ k) * 2) = pageNum k app := hnum
  have hextra' : u64 (header + max (2 ^ k) (k * slabPageSize + k * slabPageSize) +
      (pageNum k app * slabPageSize + 2 ^ k)) = extraSize header k app := hextra
  have hpages' : u64 (k + ceilInt (extraSize header k app) (2 ^ k)) = extraPages header k app := hpages
  have htotal' : u64 (pageNum k app * 2 ^ k + extraPages header k app * 2 ^ k) =
      totalSize header k app := htotal
  rw [calSlabPoolSize, if_neg hrange]
  simp only [Int.toNat_natCast, hgrade, hgrades, hmax, hpool, hnum', harray, hpageArray, hextra',
    hpages', hextraP, hnumP, htotal']

/-! ### The zone is large enough -/

/-- Enough pages for all allocations. -/
theorem allocAll_of_fresh {z : SlabSizes} : ∀ {sizes : List ℕ} {k : ℕ} {pool : SlabPool},
    SlabFresh k pool → k + (sizes.map z.need).sum ≤ pool.last →
    ∃ addrs, allocAll z sizes pool = some addrs := by
  intro sizes
  induction sizes with
  | nil => exact fun _ _ => ⟨[], rfl⟩
  | cons size sizes ih =>
    intro k pool h hsum
    rw [map_cons, sum_cons] at hsum
    obtain ⟨p, pool', k', hexec, hfresh, hk', hlast⟩ := h.alloc z size (by omega)
    obtain ⟨addrs, hrest⟩ := ih hfresh (by omega)
    refine ⟨p :: addrs, ?_⟩
    rw [allocAll, hexec]
    dsimp only
    rw [hrest]
    rfl

/-- An allocation takes no more pages than its size has. -/
theorem need_le {z : SlabSizes} {size : ℕ} (hsize : 0 < size) :
    z.need size ≤ ceilInt size z.pagesize := by
  have hP : 0 < z.pagesize := Nat.two_pow_pos _
  rw [SlabSizes.need, ceilInt]
  split_ifs
  · have hmod := Nat.div_add_mod size z.pagesize
    rw [SlabSizes.pages, Nat.shiftRight_eq_div_pow, ← SlabSizes.pagesize]
    by_cases hzero : size % z.pagesize = 0
    · rw [if_neg (not_not.mpr hzero), Nat.add_zero]
      have hle : (size / z.pagesize - 1) * z.pagesize ≤ size - 1 := by
        rw [Nat.sub_mul, Nat.mul_comm]
        omega
      have := (Nat.le_div_iff_mul_le hP).mpr hle
      omega
    · rw [if_pos hzero]
      have hle : size / z.pagesize * z.pagesize ≤ size - 1 := by
        rw [Nat.mul_comm]
        omega
      have := (Nat.le_div_iff_mul_le hP).mpr hle
      omega
  · exact Nat.le_add_left 1 _

/-- What fits a page needs no more than one. -/
theorem need_le_one {z : SlabSizes} {size : ℕ} (hsize : size ≤ z.pagesize) : z.need size ≤ 1 := by
  by_cases hzero : size = 0
  · rw [SlabSizes.need, if_neg (by omega)]
  · have hle := need_le (z := z) (Nat.pos_of_ne_zero hzero)
    have hdiv : (size - 1) / z.pagesize = 0 := Nat.div_eq_of_lt (by omega)
    rwa [ceilInt, hdiv] at hle

/-- **The pages of the zone.** -/
theorem zone_pages (header app : ℕ) (hk : 12 ≤ k) (addr : ℕ) (mem : ℕ → ℕ → Word) :
    pageNum k app + 3 ≤
      (slabInit (zoneOf header k addr (totalSize header k app)) mem).last := by
  have hP : 2 ^ 12 ≤ 2 ^ k := Nat.pow_le_pow_right (by omega) hk
  have hgrade := grade_le hk
  have hextra : 0 < extraSize header k app := by
    rw [extraSize]
    omega
  obtain ⟨hextras, -⟩ := ceilInt_mul hextra (n := 2 ^ k) (by omega)
  have hpages : extraPages header k app * 2 ^ k =
      k * 2 ^ k + ceilInt (extraSize header k app) (2 ^ k) * 2 ^ k := by
    rw [extraPages, Nat.add_mul]
  have hsize : header + 2 ^ k + (pageNum k app * slabPageSize + 2 ^ k) ≤ extraSize header k app := by
    rw [extraSize]
    omega
  have hkP : 12 * 2 ^ k ≤ k * 2 ^ k := Nat.mul_le_mul_right _ hk
  refine slabInit_last_ge _ mem ?_
  show (pageNum k app + 3 + 1) * (2 ^ k + 24) + (k - 3) * (24 + 32) ≤
    addr + totalSize header k app - (addr + header)
  have hsplit : (pageNum k app + 3 + 1) * (2 ^ k + 24) =
      pageNum k app * 2 ^ k + 4 * 2 ^ k + pageNum k app * 24 + 96 := by ring
  rw [hsplit, totalSize, hpages]
  rw [slabPageSize] at *
  omega

/-- **The size of the zone suffices** for all allocations of the slots, for pages of 4096 to `2^57` bytes; and
no number of the computation is too wide, unless it is reported. -/
theorem pool_size_suffices {appPoolSize : ℤ} {size slotSize : ℕ} (hk : 12 ≤ k) (hk' : k ≤ 57)
    (hheader : header ≤ 4096) (h : calSlabPoolSize header k appPoolSize = some size)
    (hslot : slotSize ≤ 2 ^ k) (addr : ℕ) (mem : ℕ → ℕ → Word) :
    (∃ addrs, allocAll (zoneOf header k addr size) (slotInitSizes slotSize appPoolSize.toNat)
      (slabInit (zoneOf header k addr size) mem) = some addrs) ∧
    (∀ v ∈ poolSizeSteps header k appPoolSize.toNat, v < 2 ^ 64) ∧
    size = totalSize header k appPoolSize.toNat := by
  have hrange : ¬ (appPoolSize < 0 ∨ maxIntValue / 2 < appPoolSize) := fun hout => by
    rw [calSlabPoolSize, if_pos hout] at h
    exact nomatch h
  rw [show maxIntValue / 2 = 2 ^ 62 - 1 by decide] at hrange
  obtain ⟨app, rfl⟩ : ∃ app : ℕ, appPoolSize = app := ⟨appPoolSize.toNat, by omega⟩
  have happ : app ≤ 2 ^ 62 - 1 := by omega
  rw [calSlabPoolSize_eq hk hk' hheader happ] at h
  split_ifs at h with hlarge
  obtain rfl := Option.some.inj h
  rw [Int.toNat_natCast]
  refine ⟨?_, poolSizeSteps_lt hk hk' hheader happ, rfl⟩
  have hpages := zone_pages header app hk addr mem
  have hlast := slabInit_last_le (zoneOf header k addr (totalSize header k app)) mem
  have hstop : (zoneOf header k addr (totalSize header k app)).stop -
      (zoneOf header k addr (totalSize header k app)).slots = totalSize header k app - header :=
    Nat.add_sub_add_left ..
  have hfresh := slabInit_fresh (zoneOf header k addr (totalSize header k app)) mem (by omega) (by omega)
  refine allocAll_of_fresh hfresh ?_
  generalize hz : zoneOf header k addr (totalSize header k app) = z at *
  have hpagesize : z.pagesize = 2 ^ k := by rw [← hz]; rfl
  have hP : 2 ^ 12 ≤ 2 ^ k := Nat.pow_le_pow_right (by omega) hk
  have h₁ : z.need slotShmCtxSize ≤ 1 := need_le_one (by rw [hpagesize, slotShmCtxSize]; omega)
  have h₂ : z.need slotSize ≤ 1 := need_le_one (by rw [hpagesize]; exact hslot)
  have h₃ : z.need (app + shmPoolSize) ≤ ceilInt (app + shmPoolSize) (2 ^ k) := by
    rw [← hpagesize]
    exact need_le (Nat.add_pos_right _ (by decide))
  simp only [slotInitSizes, map_cons, map_nil, sum_cons, sum_nil]
  rw [pageNum] at hpages
  omega

/-- An application with a pool of 1 MiB. -/
theorem pool_size_suffices_mebibyte :
    calSlabPoolSize 200 12 1048576 = some 2179072 ∧
    ∃ addrs, allocAll (zoneOf 200 12 4096 2179072) (slotInitSizes 64 1048576)
      (slabInit (zoneOf 200 12 4096 2179072) fun _ _ => 0#64) = some addrs := by
  have hsize : calSlabPoolSize 200 12 1048576 = some 2179072 := by decide
  exact ⟨hsize, (pool_size_suffices (by decide) (by decide) (by decide) hsize (by decide) 4096
    fun _ _ => 0#64).1⟩

/-! ### Larger pages -/

/-- **Pages of `2^58` bytes**: for the largest pool the computation wraps and no error is reported, and the
allocations of a zone of that size fail. -/
theorem pool_size_wraps : calSlabPoolSize 200 58 (2 ^ 62 - 1) = some (31 * 2 ^ 58) ∧
    allocAll (zoneOf 200 58 (2 ^ 58) (31 * 2 ^ 58)) (slotInitSizes (2 ^ 58) (2 ^ 62 - 1))
      (slabInit (zoneOf 200 58 (2 ^ 58) (31 * 2 ^ 58)) fun _ _ => 0#64) = none := by
  refine ⟨by decide, ?_⟩
  have hlast : (slabInit (zoneOf 200 58 (2 ^ 58) (31 * 2 ^ 58)) fun _ _ => 0#64).last = 30 := by
    decide
  have hfresh := slabInit_fresh (zoneOf 200 58 (2 ^ 58) (31 * 2 ^ 58)) (fun _ _ => 0#64) (by omega)
    (by omega)
  generalize slabInit (zoneOf 200 58 (2 ^ 58) (31 * 2 ^ 58)) (fun _ _ => 0#64) = pool at *
  have hneed : (zoneOf 200 58 (2 ^ 58) (31 * 2 ^ 58)).need slotShmCtxSize = 1 := by decide
  have hslot : (zoneOf 200 58 (2 ^ 58) (31 * 2 ^ 58)).pages (2 ^ 58) = 1 := by decide
  have hpool : (zoneOf 200 58 (2 ^ 58) (31 * 2 ^ 58)).pages (2 ^ 62 - 1 + shmPoolSize) = 17 := by
    decide
  have hslotBig : (zoneOf 200 58 (2 ^ 58) (31 * 2 ^ 58)).maxSize < 2 ^ 58 := by decide
  have hpoolBig : (zoneOf 200 58 (2 ^ 58) (31 * 2 ^ 58)).maxSize < 2 ^ 62 - 1 + shmPoolSize := by
    decide
  generalize zoneOf 200 58 (2 ^ 58) (31 * 2 ^ 58) = z at *
  obtain ⟨p₁, pool₁, k₁, hexec₁, hfresh₁, hk₁, hlast₁⟩ := hfresh.alloc z slotShmCtxSize (by omega)
  obtain ⟨p₂, pool₂, hexec₂, hfresh₂, hlast₂⟩ := hfresh₁.alloc_pages z hslotBig (by omega)
  obtain ⟨p₃, pool₃, hexec₃, hfresh₃, hlast₃⟩ := hfresh₂.alloc_pages z hpoolBig (by omega)
  obtain ⟨p₄, pool₄, hexec₄, hfresh₄, hlast₄⟩ := hfresh₃.alloc_pages z hslotBig (by omega)
  obtain ⟨pool₅, hexec₅⟩ := hfresh₄.alloc_short z hpoolBig (by omega)
  simp only [slotInitSizes, allocAll, hexec₁, hexec₂, hexec₃, hexec₄, hexec₅, Option.map_none]

end

end Hengine.Strategy
