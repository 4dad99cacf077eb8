import Hengine.Core.SlabChunks

/-!
# Allocations in a New Pool

Before anything is freed, the free pages of a pool are those behind the pages that were taken, in one run.
Then an allocation fails only if too few pages are left: a chunk takes one page at most. All this holds for
pages of any size; only what is freed later relies on pages of at most 64 KiB.
-/

namespace Hengine

open Function Option

/-- The run of the pages from `k` on. -/
def tailRun (k last : ℕ) : List (ℕ × ℕ) := if k < last then [(k, last - k)] else []

theorem covered_tailRun {k last j : ℕ} : Covered (tailRun k last) j ↔ k ≤ j ∧ j < last := by
  rw [tailRun]
  split_ifs with h
  · rw [covered_singleton]
    simp only
    omega
  · simp only [not_covered_nil, false_iff]
    omega

/-- A page `i` is alone in the list of the slot `t`. -/
structure AloneIn (t i : ℕ) (pool : SlabPool) : Prop where
  head : pool.next (.slot t) = some (.page i)
  next : pool.next (.page i) = some (.slot t)
  prev : (pool.prev (.page i)).ptr = some (.slot t)
  type : (pool.prev (.page i)).type ≠ .page

/-- A pool of which the first `k` pages were taken and nothing was freed. -/
structure SlabFresh (k : ℕ) (pool : SlabPool) : Prop where
  free : FreeRuns ∅ (tailRun k pool.last) pool
  le : k ≤ pool.last
  slot : ∀ t, pool.next (.slot t) = some (.slot t) ∨ ∃ i < k, AloneIn t i pool

/-- The pages that an allocation takes at most. -/
def SlabSizes.need (z : SlabSizes) (size : ℕ) : ℕ := if z.maxSize < size then z.pages size else 1

section

variable {z : SlabSizes} {k n t i s : ℕ} {pool pool' : SlabPool}

/-! ### Pages -/

/-- **Pages from the run**, if there are enough. -/
theorem SlabFresh.pages (h : SlabFresh k pool) (hn : 0 < n) (hle : k + n ≤ pool.last) :
    ∃ pool', slabAllocPages n pool = some (some k, pool') ∧ SlabFresh (k + n) pool' ∧
      pool'.last = pool.last ∧ pool'.next (.page k) = none := by
  have hrun : tailRun k pool.last = [] ++ (k, pool.last - k) :: [] := if_pos (by omega)
  have hfree := h.free
  rw [hrun] at hfree
  have hfind := slabFindRun_eq (k := n) hfree.ring.links hfree.size hfree.length_le
  have hfirst := hfree.ring.links.next_eq
  have hsize : (pool.slab (.page k)).toNat = pool.last - k := hfree.size (k, pool.last - k) (by simp)
  have hfound : (List.find? (fun r : ℕ × ℕ => decide (n ≤ r.2)) ([] ++ [(k, pool.last - k)])) =
      some (k, pool.last - k) := List.find?_cons_of_pos (by simp only [decide_eq_true_eq]; omega)
  rw [hfound] at hfind
  obtain ⟨pool₁, htake, halloc⟩ : ∃ pool₁, slabTakeRun k n (pool.last - k) pool = some pool₁ ∧
      PagesAlloc n ([] ++ [(k, pool.last - k)]) pool k (tailRun (k + n) pool.last)
        (slabGrant k n pool₁) := by
    by_cases hall : n = pool.last - k
    · have hnone : tailRun (k + n) pool.last = [] ++ ([] ++ []) := if_neg (by omega)
      rw [← hall] at hfree ⊢
      rw [hnone]
      exact hfree.allocWhole hn
    · have hrest : tailRun (k + n) pool.last = [] ++ ([(k + n, pool.last - k - n)] ++ []) := by
        rw [tailRun, if_pos (by omega), Nat.sub_add_eq]
        rfl
      rw [hrest]
      exact hfree.allocFront hn (by omega)
  have hlast := halloc.frame.last
  refine ⟨slabGrant k n pool₁, ?_, ⟨hlast ▸ halloc.free, by omega, fun t => ?_⟩, hlast,
    halloc.taken.next k (Nat.le_refl k) (by omega)⟩
  · simp only [slabAllocPages, hfirst, hfind, hsize, htake, bind_some, map_some]
  · have hslot : (slabGrant k n pool₁).next (.slot t) = pool.next (.slot t) :=
      halloc.frame.next _ (by simp)
    rw [hslot]
    refine (h.slot t).imp_right fun ⟨i, hi, hone⟩ => ⟨i, by omega, ?_⟩
    have hout : ¬ (SlabPtr.page i = .free ∨ ∃ j, SlabPtr.page i = .page j ∧
        Covered ([] ++ [(k, pool.last - k)]) j) := by
      rintro (hc | ⟨j, hj, hcov⟩)
      · cases hc
      · cases hj
        rw [List.nil_append, covered_singleton] at hcov
        omega
    have hprev := halloc.frame.prev _ hout
    exact ⟨hslot.trans hone.head, (halloc.frame.next _ hout).trans hone.next,
      by rw [hprev]; exact hone.prev, by rw [hprev]; exact hone.type⟩

/-- **Too few pages.** -/
theorem SlabFresh.pages_short (h : SlabFresh k pool) (hn : 0 < n) (hlt : pool.last < k + n) :
    ∃ pool', slabAllocPages n pool = some (none, pool') := by
  rcases h.free.allocPages hn with ⟨-, hexec⟩ | ⟨i, runs', pool', -, halloc⟩
  · exact ⟨_, hexec⟩
  · have hcov : ∀ j, i ≤ j → j < i + n → k ≤ j ∧ j < pool.last := fun j h₁ h₂ =>
      covered_tailRun.mp ((halloc.covered j).mpr (Or.inr ⟨h₁, h₂⟩))
    have hfirst := hcov i (Nat.le_refl i) (by omega)
    have hend := hcov (i + n - 1) (by omega) (by omega)
    omega

/-! ### Chunks -/

/-- What a chunk taken from a page does to the lists: nothing, or the page leaves that of its slot. -/
structure ChunkLinks (t i : ℕ) (pool pool' : SlabPool) : Prop where
  slab : ∀ q, q ≠ .page i → pool'.slab q = pool.slab q
  last : pool'.last = pool.last
  links : (pool'.next = pool.next ∧ pool'.prev = pool.prev) ∨
    pool'.next = update (update pool.next (.slot t) (some (.slot t))) (.page i) none ∧
    ∃ type, type ≠ SlabType.page ∧ pool'.prev = update
      (update pool.prev (.slot t) (pool.prev (.page i))) (.page i) ⟨none, type⟩

/-- A page that was alone in its list leaves it empty. -/
theorem detach_links (pool₁ : SlabPool) (type : SlabType) (h : AloneIn t i pool)
    (htype : type ≠ .page) (hnext : pool₁.next = pool.next) (hprev : pool₁.prev = pool.prev)
    (hlast : pool₁.last = pool.last) (hslab : ∀ q, q ≠ .page i → pool₁.slab q = pool.slab q) :
    ∃ pool', pool₁.detach i type = some pool' ∧ ChunkLinks t i pool pool' := by
  rw [SlabPool.detach, SlabPool.unlink, hprev, hnext, h.prev, h.next]
  refine ⟨_, rfl, fun q hq => ?_, hlast, Or.inr ⟨rfl, type, htype, rfl⟩⟩
  simp only [SlabPool.setPage, update_of_ne hq]
  exact hslab q hq

/-- **A chunk of a page** that is alone in its list. -/
theorem takeChunk_links (h : AloneIn t i pool) (s : ℕ) :
    ∃ r pool', slabTakeChunk z s i pool = some (r, pool') ∧ ChunkLinks t i pool pool' := by
  have hsame : ChunkLinks t i pool pool := ⟨fun _ _ => rfl, rfl, Or.inl ⟨rfl, rfl⟩⟩
  have hword (w : Word) : ∀ q, q ≠ SlabPtr.page i →
      update pool.slab (.page i) w q = pool.slab q := fun q hq => update_of_ne hq ..
  rw [slabTakeChunk]
  split_ifs with hsmall hexact
  · rw [slabTakeSmall]
    cases slabScanMap (pool.mem i) (z.mapWords s) 0 with
    | none => exact ⟨none, pool, rfl, hsame⟩
    | some r =>
      obtain ⟨n, b, m⟩ := r
      dsimp only
      split_ifs
      · obtain ⟨pool', hdetach, hlinks⟩ := detach_links
          (pool.setWord i n (pool.mem i n ||| m)) .small h (by decide) rfl rfl rfl fun _ _ => rfl
        exact ⟨_, pool', by rw [hdetach]; rfl, hlinks⟩
      · exact ⟨_, _, rfl, fun _ _ => rfl, rfl, Or.inl ⟨rfl, rfl⟩⟩
  · rw [slabTakeExact]
    cases slabScan (pool.slab (.page i)) slabBusy 65 0 1#64 with
    | none => exact ⟨none, pool, rfl, hsame⟩
    | some r =>
      obtain ⟨c, m⟩ := r
      dsimp only
      split_ifs
      · obtain ⟨pool', hdetach, hlinks⟩ := detach_links { pool with
          slab := update pool.slab (.page i) (pool.slab (.page i) ||| m) } .exact h (by decide) rfl rfl rfl (hword _)
        exact ⟨_, pool', by rw [hdetach]; rfl, hlinks⟩
      · exact ⟨_, _, rfl, hword _, rfl, Or.inl ⟨rfl, rfl⟩⟩
  · rw [slabTakeBig]
    cases slabScan (pool.slab (.page i)) (slabBigMask z s) 65 0 (1#64 <<< slabMapShift) with
    | none => exact ⟨none, pool, rfl, hsame⟩
    | some r =>
      obtain ⟨c, m⟩ := r
      dsimp only
      split_ifs
      · obtain ⟨pool', hdetach, hlinks⟩ := detach_links { pool with
          slab := update pool.slab (.page i) (pool.slab (.page i) ||| m) } .big h (by decide) rfl rfl rfl (hword _)
        exact ⟨_, pool', by rw [hdetach]; rfl, hlinks⟩
      · exact ⟨_, _, rfl, hword _, rfl, Or.inl ⟨rfl, rfl⟩⟩

/-- A pool is fresh by its links and pages alone. -/
theorem SlabFresh.congr (h : SlabFresh k pool) (hslab : pool'.slab = pool.slab)
    (hnext : pool'.next = pool.next) (hprev : pool'.prev = pool.prev)
    (hlast : pool'.last = pool.last) : SlabFresh k pool' := by
  cases pool
  cases pool'
  subst hslab hnext hprev hlast
  obtain ⟨F, hle, hslot⟩ := h
  exact ⟨⟨F.bound, F.ring, F.pos, F.inside, F.apart, F.size, F.kind, F.tail, F.taken⟩, hle,
    fun t => (hslot t).imp_right fun ⟨i, hi, hone⟩ => ⟨i, hi, hone.1, hone.2, hone.3, hone.4⟩⟩

/-- A change of one page that was taken: it stays out of the free run. -/
theorem SlabFresh.page (h : SlabFresh k pool) (hi : i < k) (hlast : pool'.last = pool.last)
    (hfree : pool'.next .free = pool.next .free)
    (hslab : ∀ j, j ≠ i → pool'.slab (.page j) = pool.slab (.page j))
    (hnext : ∀ j, j ≠ i → pool'.next (.page j) = pool.next (.page j))
    (hprev : ∀ j, j ≠ i → pool'.prev (.page j) = pool.prev (.page j))
    (htype : (pool'.prev (.page i)).type ≠ .page) :
    FreeRuns ∅ (tailRun k pool'.last) pool' := by
  have hle := h.le
  have hout : ∀ j ∈ ({i} : Set ℕ), ¬ Covered (tailRun k pool.last) j := by
    rintro j rfl hcov
    have := (covered_tailRun.mp hcov).1
    omega
  rw [hlast]
  refine (h.free.congr (Set.empty_subset {i}) hout (by omega) hlast hfree hslab hnext hprev).settle ?_
  rintro j rfl - hpage
  exact absurd hpage htype

/-- A chunk of a page in its list. -/
theorem SlabFresh.chunk (h : SlabFresh k pool) (hi : i < k) (hone : AloneIn t i pool)
    (L : ChunkLinks t i pool pool') : SlabFresh k pool' := by
  have hpage (j : ℕ) (hj : j ≠ i) : pool'.next (.page j) = pool.next (.page j) ∧
      pool'.prev (.page j) = pool.prev (.page j) := by
    rcases L.links with ⟨hnext, hprev⟩ | ⟨hnext, type, -, hprev⟩
    · rw [hnext, hprev]
      exact ⟨rfl, rfl⟩
    · rw [hnext, hprev]
      simp [hj]
  refine ⟨h.page hi L.last ?_ (fun j hj => L.slab _ (by simpa using hj)) (fun j hj => (hpage j hj).1)
    (fun j hj => (hpage j hj).2) ?_, L.last ▸ h.le, fun t' => ?_⟩
  · rcases L.links with ⟨hnext, -⟩ | ⟨hnext, -⟩ <;> rw [hnext]
    simp
  · rcases L.links with ⟨-, hprev⟩ | ⟨-, type, htype, hprev⟩
    · rw [hprev]
      exact hone.type
    · rw [hprev, update_self]
      exact htype
  · by_cases ht : t' = t
    · subst ht
      rcases L.links with ⟨hnext, hprev⟩ | ⟨hnext, -⟩
      · exact Or.inr ⟨i, hi, by rw [hnext]; exact hone.head, by rw [hnext]; exact hone.next,
          by rw [hprev]; exact hone.prev, by rw [hprev]; exact hone.type⟩
      · left
        rw [hnext]
        simp
    · have hslot : pool'.next (.slot t') = pool.next (.slot t') := by
        rcases L.links with ⟨hnext, -⟩ | ⟨hnext, -⟩ <;> rw [hnext]
        simp [ht]
      rw [hslot]
      refine (h.slot t').imp_right fun ⟨j, hj, hother⟩ => ?_
      have hji : j ≠ i := by
        rintro rfl
        exact ht (by simpa using hother.next.symm.trans hone.next)
      obtain ⟨hnext, hprev⟩ := hpage j hji
      exact ⟨j, hj, hslot.trans hother.head, hnext.trans hother.next, by rw [hprev]; exact hother.prev,
        by rw [hprev]; exact hother.type⟩

/-- **A new page of a slot** is alone in its list. -/
theorem newPage_links (z : SlabSizes) (s i : ℕ) (pool : SlabPool) :
    (slabNewPage z s i pool).2.next =
      update (update pool.next (.page i) (some (.slot (s - z.minShift))))
        (.slot (s - z.minShift)) (some (.page i)) ∧
    (∃ type, type ≠ SlabType.page ∧ (slabNewPage z s i pool).2.prev =
      update pool.prev (.page i) ⟨some (.slot (s - z.minShift)), type⟩) ∧
    (∀ q, q ≠ .page i → (slabNewPage z s i pool).2.slab q = pool.slab q) ∧
    (slabNewPage z s i pool).2.last = pool.last := by
  have hmap : slabInitMap z s i pool = { pool with mem := (slabInitMap z s i pool).mem } := by
    simp only [slabInitMap, slabFill_eq, SlabPool.setWord]
  rw [slabNewPage]
  split_ifs
  · simp only [SlabPool.setPage, SlabPool.setStat]
    rw [hmap]
    exact ⟨rfl, ⟨.small, by decide, rfl⟩, fun q hq => update_of_ne hq .., rfl⟩
  · exact ⟨rfl, ⟨.exact, by decide, rfl⟩, fun q hq => update_of_ne hq .., rfl⟩
  · exact ⟨rfl, ⟨.big, by decide, rfl⟩, fun q hq => update_of_ne hq .., rfl⟩

/-- Cutting a page into chunks leaves the pages behind it fresh. -/
theorem SlabFresh.newPage (h : SlabFresh k pool) (hi : i < k) (hnone : pool.next (.page i) = none)
    (z : SlabSizes) (s : ℕ) : SlabFresh k (slabNewPage z s i pool).2 := by
  obtain ⟨hnext, ⟨type, htype, hprev⟩, hslab, hlast⟩ := newPage_links z s i pool
  refine ⟨h.page hi hlast (by rw [hnext]; simp) (fun j hj => hslab _ (by simpa using hj))
    (fun j hj => by rw [hnext]; simp [hj]) (fun j hj => by rw [hprev]; simp [hj]) ?_, hlast ▸ h.le,
    fun t' => ?_⟩
  · rw [hprev, update_self]
    exact htype
  · by_cases ht : t' = s - z.minShift
    · subst ht
      exact Or.inr ⟨i, hi, by rw [hnext]; simp, by rw [hnext]; simp, by rw [hprev]; simp,
        by rw [hprev]; simpa using htype⟩
    · have hslot : (slabNewPage z s i pool).2.next (.slot t') = pool.next (.slot t') := by
        rw [hnext]
        simp [ht]
      rw [hslot]
      refine (h.slot t').imp_right fun ⟨j, hj, hother⟩ => ?_
      have hji : j ≠ i := by
        rintro rfl
        exact nomatch hother.next.symm.trans hnone
      exact ⟨j, hj, hslot.trans hother.head, by rw [hnext]; simpa [hji] using hother.next,
        by rw [hprev]; simpa [hji] using hother.prev, by rw [hprev]; simpa [hji] using hother.type⟩

/-- **A fresh pool** has a page for a slot that has none. -/
theorem SlabFresh.allocNew (h : SlabFresh k pool) (hle : k + 1 ≤ pool.last) (z : SlabSizes) (s : ℕ) :
    ∃ p pool', slabAllocNew z s pool = some (some p, pool') ∧ SlabFresh (k + 1) pool' ∧
      pool'.last = pool.last := by
  obtain ⟨pool₁, hexec, hfresh, hlast, hnone⟩ := h.pages Nat.one_pos hle
  have hnew := hfresh.newPage (Nat.lt_succ_self k) hnone z s
  refine ⟨_, (slabNewPage z s k pool₁).2.setStat (s - z.minShift)
    fun st => { st with used := st.used + 1#64 }, by rw [slabAllocNew, hexec]; rfl,
    hnew.congr rfl rfl rfl rfl, ?_⟩
  exact (newPage_links z s k pool₁).2.2.2.trans hlast

/-! ### Allocations -/

/-- Some bytes need some page. -/
theorem SlabSizes.pages_pos (z : SlabSizes) {size : ℕ} (hsize : 0 < size) : 0 < z.pages size := by
  rw [pages, pagesize]
  by_cases hmod : size % 2 ^ z.pagesizeShift = 0
  · have hdvd := Nat.div_pos (Nat.le_of_dvd hsize (Nat.dvd_of_mod_eq_zero hmod))
      (Nat.two_pow_pos z.pagesizeShift)
    rw [Nat.shiftRight_eq_div_pow]
    exact Nat.add_pos_left hdvd _
  · rw [if_pos hmod]
    exact Nat.succ_pos _

/-- **An allocation of pages**, if enough are left. -/
theorem SlabFresh.alloc_pages (h : SlabFresh k pool) (z : SlabSizes) {size : ℕ}
    (hbig : z.maxSize < size) (hle : k + z.pages size ≤ pool.last) :
    ∃ p pool', slabAllocLocked z size pool = some (some p, pool') ∧
      SlabFresh (k + z.pages size) pool' ∧ pool'.last = pool.last := by
  obtain ⟨pool', hexec, hfresh, hlast, -⟩ := h.pages (z.pages_pos (by omega)) hle
  exact ⟨_, pool', by rw [slabAllocLocked, if_pos hbig, hexec]; rfl, hfresh, hlast⟩

/-- **An allocation of pages** for which too few are left. -/
theorem SlabFresh.alloc_short (h : SlabFresh k pool) (z : SlabSizes) {size : ℕ}
    (hbig : z.maxSize < size) (hlt : pool.last < k + z.pages size) :
    ∃ pool', slabAllocLocked z size pool = some (none, pool') := by
  obtain ⟨pool', hexec⟩ := h.pages_short (z.pages_pos (by omega)) hlt
  exact ⟨pool', by rw [slabAllocLocked, if_pos hbig, hexec]; rfl⟩

/-- **An allocation** for which enough pages are left. -/
theorem SlabFresh.alloc (h : SlabFresh k pool) (z : SlabSizes) (size : ℕ)
    (hneed : k + z.need size ≤ pool.last) :
    ∃ p pool' k', slabAllocLocked z size pool = some (some p, pool') ∧ SlabFresh k' pool' ∧
      k' ≤ k + z.need size ∧ pool'.last = pool.last := by
  rw [SlabSizes.need] at hneed ⊢
  by_cases hbig : z.maxSize < size
  · rw [if_pos hbig] at hneed ⊢
    obtain ⟨p, pool', hexec, hfresh, hlast⟩ := h.alloc_pages z hbig hneed
    exact ⟨p, pool', _, hexec, hfresh, Nat.le_refl _, hlast⟩
  · rw [if_neg hbig] at hneed ⊢
    rw [slabAllocLocked, if_neg hbig]
    dsimp only
    generalize hslot : z.shift size - z.minShift = t
    generalize hpool : pool.setStat t (fun s => { s with reqs := s.reqs + 1#64 }) = pool₁
    have hfresh : SlabFresh k pool₁ := h.congr (by rw [← hpool]; rfl) (by rw [← hpool]; rfl)
      (by rw [← hpool]; rfl) (by rw [← hpool]; rfl)
    have hlast : pool₁.last = pool.last := by rw [← hpool]; rfl
    rcases hfresh.slot t with hself | ⟨i, hi, hone⟩
    · obtain ⟨p, pool', hexec, hfresh', hlast'⟩ := hfresh.allocNew (by omega) z (z.shift size)
      refine ⟨p, pool', k + 1, ?_, hfresh', Nat.le_refl _, hlast'.trans hlast⟩
      rw [hself, bind_some, if_neg (not_not.mpr hself)]
      exact hexec
    · have hnext : pool₁.next (.page i) ≠ some (.page i) := by
        rw [hone.next]
        exact nofun
      rw [hone.head, bind_some, if_pos hnext]
      dsimp only
      obtain ⟨r, pool₂, htake, hlinks⟩ := takeChunk_links hone (z.shift size)
      rw [htake, bind_some]
      have hfresh₂ := hfresh.chunk hi hone hlinks
      cases r with
      | some c =>
        exact ⟨_, _, k, rfl, hfresh₂.congr rfl rfl rfl rfl, by omega, hlinks.last.trans hlast⟩
      | none =>
        have hlast₂ : pool₂.last = pool.last := hlinks.last.trans hlast
        have herror : SlabFresh k (pool₂.error .pageIsBusy) := hfresh₂.congr rfl rfl rfl rfl
        obtain ⟨p, pool', hexec, hfresh', hlast'⟩ :=
          herror.allocNew (show k + 1 ≤ pool₂.last by omega) z (z.shift size)
        exact ⟨p, pool', k + 1, hexec, hfresh', Nat.le_refl _, hlast'.trans hlast₂⟩

/-! ### A new pool -/

/-- The pages of a new pool: the last one may not fit behind the alignment. -/
theorem slabInit_last_ge (z : SlabSizes) (mem : ℕ → ℕ → Word) {N : ℕ}
    (h : (N + 1) * (z.pagesize + 24) + (z.pagesizeShift - z.minShift) * (24 + 32) ≤
      z.stop - z.slots) : N ≤ (slabInit z mem).last := by
  have hP : 0 < z.pagesize := Nat.two_pow_pos _
  simp only [slabInit]
  generalize z.pagesizeShift - z.minShift = n at *
  generalize hsize : z.stop - z.slots - n * (24 + 32) = size
  have hdiv : size / (z.pagesize + 24) * (z.pagesize + 24) ≤ size := Nat.div_mul_le_self _ _
  have hge : N + 1 ≤ size / (z.pagesize + 24) := (Nat.le_div_iff_mul_le (by omega)).mpr (by omega)
  generalize size / (z.pagesize + 24) = pages at *
  rw [Nat.mul_add] at hdiv
  generalize hp : z.slots + n * 24 + n * 32 + pages * 24 = p at *
  have hle : (p + (z.pagesize - 1)) / z.pagesize * z.pagesize ≤ p + (z.pagesize - 1) :=
    Nat.div_mul_le_self _ _
  generalize (p + (z.pagesize - 1)) / z.pagesize * z.pagesize = start at *
  have hmul : z.pagesize ≤ pages * z.pagesize := Nat.le_mul_of_pos_left _ (by omega)
  have hstart : start ≤ z.stop := by omega
  have hroom : pages - 1 ≤ (z.stop - start) / z.pagesize := by
    rw [Nat.le_div_iff_mul_le hP, Nat.sub_mul]
    omega
  rw [if_pos hstart]
  generalize (z.stop - start) / z.pagesize = room at *
  split_ifs <;> omega

/-- The pages of a fresh pool lie before its end. -/
theorem slabInit_last_le (z : SlabSizes) (mem : ℕ → ℕ → Word) :
    (slabInit z mem).last ≤ z.stop - z.slots := by
  simp only [slabInit]
  generalize hsize : z.stop - z.slots - (z.pagesizeShift - z.minShift) * (24 + 32) = size
  have hpages : size / (z.pagesize + 24) ≤ size := Nat.div_le_self _ _
  generalize size / (z.pagesize + 24) = pages at *
  split_ifs <;> omega

/-- **A new pool**, with one page at least. -/
theorem slabInit_fresh (z : SlabSizes) (mem : ℕ → ℕ → Word) (hpos : 0 < (slabInit z mem).last)
    (hlast : (slabInit z mem).last < 2 ^ 63) : SlabFresh 0 (slabInit z mem) := by
  refine ⟨?_, Nat.zero_le _, fun t => Or.inl rfl⟩
  rw [tailRun, if_pos hpos]
  exact slabInit_runs z mem hlast

end

end Hengine
