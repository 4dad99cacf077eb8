import Mathlib.Data.List.Pairwise
import Mathlib.Data.List.Perm.Subperm
import Hengine.Core.Slab
import Hengine.Lib.Ring

/-!
# Free Runs of Pages

The free list of a slab pool, as a list of runs `(first page, length)`. The invariant
`FreeRuns` says how the descriptors record the runs, and what `ngx_slab_free_pages` may
rely on when it looks at the neighbours of the pages it frees: the last descriptor of a
run points to its first, and a page that is in no run and of type `NGX_SLAB_PAGE` is not
linked and has a non-zero `slab`. Runs are strictly apart: between two runs there is a
page that is in none.
-/

namespace Hengine

open List Function Option

/-- Page `j` is in a run. -/
def Covered (runs : List (ℕ × ℕ)) (j : ℕ) : Prop :=
  ∃ r ∈ runs, r.1 ≤ j ∧ j < r.1 + r.2

/-- Two runs with a page between them. -/
def RunsApart (a b : ℕ × ℕ) : Prop :=
  a.1 + a.2 < b.1 ∨ b.1 + b.2 < a.1

/-- The descriptors on the free list. -/
def runHeads (runs : List (ℕ × ℕ)) : List SlabPtr :=
  runs.map fun r => .page r.1

/-- The pages of a list of runs. -/
def runPages (runs : List (ℕ × ℕ)) : ℕ :=
  (runs.map fun r => r.2).sum

/-- The backward link of a descriptor, `ngx_slab_page_prev`. -/
def SlabPool.back (pool : SlabPool) (q : SlabPtr) : Option SlabPtr :=
  (pool.prev q).ptr

/-- The free list holds `runs`, and the descriptors agree with it. The pages `T` are
between two owners: nothing is said of them. -/
structure FreeRuns (T : Set ℕ) (runs : List (ℕ × ℕ)) (pool : SlabPool) : Prop where
  bound : pool.last < 2 ^ 63
  ring : Ring pool.next pool.back .free (runHeads runs)
  pos : 0 < pool.last → ∀ r ∈ runs, 0 < r.2
  inside : ∀ r ∈ runs, r.1 + r.2 ≤ pool.last
  apart : runs.Pairwise RunsApart
  size : ∀ r ∈ runs, (pool.slab (.page r.1)).toNat = r.2
  kind : ∀ j, Covered runs j → (pool.prev (.page j)).type = .page
  tail : ∀ r ∈ runs, 2 ≤ r.2 → r.1 + r.2 < pool.last →
    pool.slab (.page (r.1 + r.2 - 1)) = 0#64 ∧
      pool.back (.page (r.1 + r.2 - 1)) = some (.page r.1)
  taken : ∀ j < pool.last, ¬ Covered runs j → j ∉ T → (pool.prev (.page j)).type = .page →
    pool.next (.page j) = none ∧ pool.slab (.page j) ≠ 0#64

/-- Everything outside the descriptors is the same, and so are the descriptors outside
`S`. -/
structure SlabFrame (S : SlabPtr → Prop) (pool pool' : SlabPool) : Prop where
  slab : ∀ q, ¬ S q → pool'.slab q = pool.slab q
  next : ∀ q, ¬ S q → pool'.next q = pool.next q
  prev : ∀ q, ¬ S q → pool'.prev q = pool.prev q
  last : pool'.last = pool.last
  start : pool'.start = pool.start
  mem : pool'.mem = pool.mem
  log : pool'.log = pool.log

/-- The descriptors of `k` pages at `i` as `ngx_slab_alloc_pages` leaves them. -/
structure PagesTaken (i k : ℕ) (pool : SlabPool) : Prop where
  head : pool.slab (.page i) = BitVec.ofNat 64 k ||| slabPageStart
  busy : ∀ j, i < j → j < i + k → pool.slab (.page j) = slabBusy
  next : ∀ j, i ≤ j → j < i + k → pool.next (.page j) = none
  prev : ∀ j, i ≤ j → j < i + k → pool.prev (.page j) = ⟨none, .page⟩

/-- What `ngx_slab_alloc_pages` did when it took `k` pages at `i`. -/
structure PagesAlloc (k : ℕ) (runs : List (ℕ × ℕ)) (pool : SlabPool) (i : ℕ)
    (runs' : List (ℕ × ℕ)) (pool' : SlabPool) : Prop where
  free : FreeRuns ∅ runs' pool'
  taken : PagesTaken i k pool'
  frame : SlabFrame (fun q => q = .free ∨ ∃ j, q = .page j ∧ Covered runs j) pool pool'
  pfree : pool'.pfree = pool.pfree - k
  covered : ∀ j, Covered runs j ↔ Covered runs' j ∨ (i ≤ j ∧ j < i + k)
  apart : ∀ j, i ≤ j → j < i + k → ¬ Covered runs' j
  pages : runPages runs = runPages runs' + k

section Runs

variable {runs l₁ l₂ : List (ℕ × ℕ)} {r x : ℕ × ℕ} {i j k len : ℕ} {q : SlabPtr}
  {pool pool' : SlabPool} {T : Set ℕ}

theorem mem_runHeads : q ∈ runHeads runs ↔ ∃ r ∈ runs, q = .page r.1 := by
  simp [runHeads, eq_comm]

theorem runHeads_append : runHeads (l₁ ++ l₂) = runHeads l₁ ++ runHeads l₂ :=
  map_append

theorem runHeads_cons : runHeads (x :: runs) = .page x.1 :: runHeads runs :=
  rfl

/-- A page is covered by one of two lists of runs. -/
theorem covered_append : Covered (l₁ ++ l₂) j ↔ Covered l₁ j ∨ Covered l₂ j := by
  simp only [Covered, mem_append]
  constructor
  · rintro ⟨r, h | h, hr⟩
    · exact Or.inl ⟨r, h, hr⟩
    · exact Or.inr ⟨r, h, hr⟩
  · rintro (⟨r, h, hr⟩ | ⟨r, h, hr⟩)
    · exact ⟨r, Or.inl h, hr⟩
    · exact ⟨r, Or.inr h, hr⟩

/-- A page is covered by the first run or by a later one. -/
theorem covered_cons : Covered (x :: runs) j ↔ (x.1 ≤ j ∧ j < x.1 + x.2) ∨ Covered runs j := by
  simp only [Covered, mem_cons]
  constructor
  · rintro ⟨r, rfl | h, hr⟩
    · exact Or.inl hr
    · exact Or.inr ⟨r, h, hr⟩
  · rintro (hr | ⟨r, h, hr⟩)
    · exact ⟨x, Or.inl rfl, hr⟩
    · exact ⟨r, Or.inr h, hr⟩

theorem not_covered_nil : ¬ Covered [] j := by
  simp [Covered]

theorem covered_singleton : Covered [x] j ↔ x.1 ≤ j ∧ j < x.1 + x.2 := by
  simp [Covered]

theorem not_onFree (hj : ¬ Covered runs j) :
    ¬ (SlabPtr.page j = .free ∨ ∃ j', SlabPtr.page j = .page j' ∧ Covered runs j') := by
  rintro (heq | ⟨j', heq, hj'⟩)
  · simp at heq
  · rw [SlabPtr.page.injEq] at heq
    exact hj (heq ▸ hj')

theorem RunsApart.symm {a b : ℕ × ℕ} (h : RunsApart a b) : RunsApart b a :=
  Or.symm h

theorem mem_split : r ∈ l₁ ++ x :: l₂ ↔ r = x ∨ r ∈ l₁ ++ l₂ := by
  rw [mem_append, mem_cons, mem_append, or_left_comm]

/-- The runs besides one of them are apart from it and from each other. -/
theorem apart_of_split (h : (l₁ ++ x :: l₂).Pairwise RunsApart) :
    (∀ r ∈ l₁ ++ l₂, RunsApart r x) ∧ (l₁ ++ l₂).Pairwise RunsApart := by
  rw [pairwise_append, pairwise_cons] at h
  obtain ⟨h₁, ⟨hx, h₂⟩, h₁₂⟩ := h
  constructor
  · intro r hr
    rcases mem_append.mp hr with hr | hr
    · exact h₁₂ r hr x mem_cons_self
    · exact (hx r hr).symm
  · exact pairwise_append.mpr
      ⟨h₁, h₂, fun a ha b hb => h₁₂ a ha b (mem_cons_of_mem _ hb)⟩

/-- A run that is apart from the others may be put among them. -/
theorem apart_insert {y : ℕ × ℕ} (h : (l₁ ++ l₂).Pairwise RunsApart)
    (hy : ∀ r ∈ l₁ ++ l₂, RunsApart r y) : (l₁ ++ y :: l₂).Pairwise RunsApart := by
  rw [pairwise_append] at h ⊢
  obtain ⟨h₁, h₂, h₁₂⟩ := h
  refine ⟨h₁, pairwise_cons.mpr ⟨fun b hb => ?_, h₂⟩, fun a ha b hb => ?_⟩
  · exact (hy b (mem_append_right _ hb)).symm
  · rcases mem_cons.mp hb with rfl | hb
    · exact hy a (mem_append_left _ ha)
    · exact h₁₂ a ha b hb

theorem runPages_append : runPages (l₁ ++ l₂) = runPages l₁ + runPages l₂ := by
  simp [runPages]

theorem runPages_cons : runPages (x :: runs) = x.2 + runPages runs := by
  simp [runPages]

@[simp] theorem within_page {a b : ℕ} : (SlabPtr.page j).Within a b ↔ a ≤ j ∧ j < b :=
  Iff.rfl

@[simp] theorem not_within_free {a b : ℕ} : ¬ SlabPtr.free.Within a b :=
  id

@[simp] theorem not_within_slot {a b t : ℕ} : ¬ (SlabPtr.slot t).Within a b :=
  id

/-- The marking loop, all at once. -/
theorem slabMarkBusy_eq (i n : ℕ) (pool : SlabPool) :
    slabMarkBusy i n pool =
      { pool with
        slab := fun q => if q.Within i (i + n) then slabBusy else pool.slab q
        next := fun q => if q.Within i (i + n) then none else pool.next q
        prev := fun q => if q.Within i (i + n) then ⟨none, .page⟩ else pool.prev q } := by
  induction n generalizing i pool with
  | zero =>
    have hnone : ∀ q : SlabPtr, ¬ q.Within i i := by
      intro q
      cases q with
      | page j => simp only [within_page]; omega
      | free => exact id
      | slot t => exact id
    simp [slabMarkBusy, hnone]
  | succ n ih =>
    have hstep : ∀ q : SlabPtr, q.Within i (i + (n + 1)) ↔
        q = .page i ∨ q.Within (i + 1) (i + 1 + n) := by
      intro q
      cases q with
      | page j => simp only [within_page, SlabPtr.page.injEq]; omega
      | free => simp
      | slot t => simp
    rw [slabMarkBusy, ih]
    simp only [SlabPool.setPage, hstep, SlabPool.mk.injEq, and_true]
    refine ⟨?_, ?_, ?_⟩
    all_goals
      funext q
      by_cases hq : q = .page i
      · simp [hq]
      · simp [hq]

theorem pageStart_ne_zero (k : ℕ) : BitVec.ofNat 64 k ||| slabPageStart ≠ 0#64 := by
  intro h
  have hbit := congrArg (fun x : Word => x.getLsbD 63) h
  simp [slabPageStart] at hbit

/-- The pages of a taken run are marked. -/
theorem PagesTaken.slab_ne_zero (h : PagesTaken i k pool) (h₁ : i ≤ j) (h₂ : j < i + k) :
    pool.slab (.page j) ≠ 0#64 := by
  rcases Nat.eq_or_lt_of_le h₁ with rfl | hlt
  · rw [h.head]
    exact pageStart_ne_zero k
  · rw [h.busy j hlt h₂]
    decide

/-- What making an allocation does to the descriptors. -/
theorem slabGrant_spec (hk : 0 < k) (pool : SlabPool) :
    PagesTaken i k (slabGrant i k pool) ∧
      SlabFrame (fun q => q.Within i (i + k)) pool (slabGrant i k pool) := by
  have hspan : i + 1 + (k - 1) = i + k := by omega
  rw [slabGrant, slabMarkBusy_eq, hspan]
  simp only [SlabPool.setPage]
  refine ⟨⟨?_, ?_, ?_, ?_⟩, ⟨?_, ?_, ?_, rfl, rfl, rfl, rfl⟩⟩
  · simp
  · intro j h₁ h₂
    have h : i + 1 ≤ j ∧ j < i + k := ⟨h₁, h₂⟩
    simp [h]
  · intro j h₁ h₂
    rcases Nat.eq_or_lt_of_le h₁ with rfl | hlt
    · simp
    · have h : i + 1 ≤ j ∧ j < i + k := ⟨hlt, h₂⟩
      simp [h]
  · intro j h₁ h₂
    rcases Nat.eq_or_lt_of_le h₁ with rfl | hlt
    · simp
    · have h : i + 1 ≤ j ∧ j < i + k := ⟨hlt, h₂⟩
      simp [h]
  all_goals
    intro q hq
    have hqi : q ≠ .page i := by
      rintro rfl
      exact hq ⟨by omega, by omega⟩
    have hqm : ¬ q.Within (i + 1) (i + k) := by
      cases q with
      | page j => exact fun h => hq ⟨by have := h.1; omega, h.2⟩
      | free => exact id
      | slot t => exact id
    simp [hqi, hqm]

/-- The search of `ngx_slab_alloc_pages` finds the first run with enough pages. -/
theorem slabFindRun_eq {a : SlabPtr} {fuel : ℕ}
    (hlinks : Links pool.next pool.back a (runHeads runs) .free)
    (hsize : ∀ r ∈ runs, (pool.slab (.page r.1)).toNat = r.2) (hfuel : runs.length < fuel) :
    slabFindRun pool k fuel ((runHeads runs).headD .free) =
      some ((runs.find? fun r => decide (k ≤ r.2)).map fun r => r.1) := by
  induction runs generalizing a fuel with
  | nil =>
    cases fuel with
    | zero => simp at hfuel
    | succ fuel => rfl
  | cons r runs ih =>
    cases fuel with
    | zero => simp at hfuel
    | succ fuel =>
      obtain ⟨-, -, hrest⟩ := hlinks
      have hr := hsize r mem_cons_self
      simp only [runHeads, map_cons, headD_cons, slabFindRun, hr]
      by_cases hk : k ≤ r.2
      · simp [hk]
      · rw [if_neg hk, hrest.next_eq, bind_some,
          find?_cons_of_neg (by simp [hk])]
        exact ih hrest (fun r hr => hsize r (mem_cons_of_mem _ hr))
          (Nat.lt_of_succ_lt_succ hfuel)

namespace FreeRuns

/-- There are no more runs than pages. -/
theorem length_le (F : FreeRuns T runs pool) : runs.length < pool.last + 2 := by
  have hnodup : (runs.map fun r => r.1).Nodup := by
    have h : (runHeads runs).Nodup := (nodup_cons.mp F.ring.nodup).2
    have hmap : runHeads runs = (runs.map fun r => r.1).map SlabPtr.page := by
      simp [runHeads]
    rw [hmap] at h
    exact h.of_map
  have hsub : (runs.map fun r => r.1) ⊆ List.range (pool.last + 1) := by
    intro i hi
    obtain ⟨r, hr, rfl⟩ := mem_map.mp hi
    have := F.inside r hr
    exact mem_range.mpr (by omega)
  have hlen := (subperm_of_subset hnodup hsub).length_le
  simp only [length_map, length_range] at hlen
  omega

/-- The neighbours of a run in the list: their descriptors are the free head or heads of
other runs. -/
theorem neighbours (F : FreeRuns T (l₁ ++ x :: l₂) pool) :
    ∃ p n, pool.back (.page x.1) = some p ∧ pool.next (.page x.1) = some n ∧
      (runHeads l₁).getLastD .free = p ∧ (runHeads l₂).headD .free = n ∧
      (p = .free ∨ ∃ r ∈ l₁ ++ l₂, p = .page r.1) ∧
      (n = .free ∨ ∃ r ∈ l₁ ++ l₂, n = .page r.1) := by
  have hring := F.ring
  rw [runHeads_append, runHeads_cons] at hring
  obtain ⟨hp, hn, hpmem, hnmem, -, -⟩ := hring.mem_links
  refine ⟨_, _, hp, hn, rfl, rfl, ?_, ?_⟩
  · rcases mem_cons.mp hpmem with h | h
    · exact Or.inl h
    · obtain ⟨r, hr, heq⟩ := mem_runHeads.mp h
      exact Or.inr ⟨r, mem_append_left _ hr, heq⟩
  · rcases mem_cons.mp hnmem with h | h
    · exact Or.inl h
    · obtain ⟨r, hr, heq⟩ := mem_runHeads.mp h
      exact Or.inr ⟨r, mem_append_right _ hr, heq⟩

theorem covered_head (F : FreeRuns T runs pool) (hpos : 0 < pool.last) (hr : r ∈ runs) :
    Covered runs r.1 := by
  have := F.pos hpos r hr
  exact ⟨r, hr, by omega, by omega⟩

/-- Two runs with one page are one run. -/
theorem eq_of_shared (F : FreeRuns T runs pool) {r' : ℕ × ℕ} (hr : r ∈ runs)
    (hr' : r' ∈ runs) (h₁ : r.1 ≤ j) (h₂ : j < r.1 + r.2) (h₁' : r'.1 ≤ j)
    (h₂' : j < r'.1 + r'.2) : r = r' := by
  by_contra hne
  have hapart : RunsApart r r' := by
    have : Std.Symm RunsApart := ⟨fun _ _ => RunsApart.symm⟩
    exact F.apart.forall hr hr' hne
  rw [RunsApart] at hapart
  omega

/-- The last page of a long run heads no other run. -/
theorem last_ne_head {r' : ℕ × ℕ} (F : FreeRuns T runs pool) (hpos : 0 < pool.last) (hr : r ∈ runs)
    (hr' : r' ∈ runs) (h2 : 2 ≤ r.2) : r.1 + r.2 - 1 ≠ r'.1 := by
  intro heq
  have := F.pos hpos r' hr'
  have hrr := F.eq_of_shared (j := r'.1) hr hr' (by omega) (by omega) (by omega) (by omega)
  rw [hrr] at heq h2
  omega

theorem page_ne {l : List (ℕ × ℕ)} {q : SlabPtr} {j : ℕ} (h : q = .free ∨ ∃ r ∈ l, q = .page r.1)
    (hj : ∀ r ∈ l, j ≠ r.1) : .page j ≠ q := by
  rintro rfl
  rcases h with h | ⟨r, hr, h⟩
  · cases h
  · exact hj r hr (SlabPtr.page.inj h)

theorem mem_nodes {q : SlabPtr} (h : q = .free ∨ ∃ r ∈ l₁ ++ l₂, q = .page r.1) :
    q ∈ .free :: (runHeads l₁ ++ runHeads l₂) := by
  rcases h with h | ⟨r, hr, h⟩
  · exact h ▸ mem_cons_self
  · exact mem_cons_of_mem _ (runHeads_append ▸ mem_runHeads.mpr ⟨r, hr, h⟩)

/-- **Remove a run.** Its pages, and the pages `T`, are now the pages `U`. -/
theorem remove {U : Set ℕ} {p n : SlabPtr} (F : FreeRuns T (l₁ ++ x :: l₂) pool)
    (hpos : 0 < pool.last) (hp : pool.back (.page x.1) = some p)
    (hn : pool.next (.page x.1) = some n) (hT : T ⊆ U)
    (hx : ∀ j, x.1 ≤ j → j < x.1 + x.2 → j ∈ U)
    (hU : ∀ j ∈ U, ¬ Covered (l₁ ++ l₂) j) (hlast : pool'.last = pool.last)
    (hfree : pool'.next .free = if .free = p then some n else pool.next .free)
    (hslab : ∀ j, j ∉ U → pool'.slab (.page j) = pool.slab (.page j))
    (hnext : ∀ j, j ∉ U → pool'.next (.page j) =
      if .page j = p then some n else pool.next (.page j))
    (hprev : ∀ j, j ∉ U → pool'.prev (.page j) =
      if .page j = n then pool.prev (.page x.1) else pool.prev (.page j)) :
    FreeRuns U (l₁ ++ l₂) pool' := by
  obtain ⟨p', n', hp', hn', hplast, hnhead, hpmem, hnmem⟩ := F.neighbours
  obtain rfl : p' = p := Option.some.inj (hp'.symm.trans hp)
  obtain rfl : n' = n := Option.some.inj (hn'.symm.trans hn)
  obtain ⟨-, hrest⟩ := apart_of_split F.apart
  have hmem : ∀ r ∈ l₁ ++ l₂, r ∈ l₁ ++ x :: l₂ := fun r hr => mem_split.mpr (Or.inr hr)
  have hcov : ∀ r ∈ l₁ ++ l₂, Covered (l₁ ++ l₂) r.1 := by
    intro r hr
    have := F.pos hpos r (hmem r hr)
    exact ⟨r, hr, by omega, by omega⟩
  have hout : ∀ j, Covered (l₁ ++ l₂) j → j ∉ U := fun j hj hU' => hU j hU' hj
  -- a page in no remaining run is not a neighbour of the removed one
  have hother : ∀ j, ¬ Covered (l₁ ++ l₂) j → .page j ≠ p' ∧ .page j ≠ n' := by
    intro j hj
    have hhead : ∀ r ∈ l₁ ++ l₂, j ≠ r.1 := fun r hr heq => hj (heq ▸ hcov r hr)
    exact ⟨page_ne hpmem hhead, page_ne hnmem hhead⟩
  have hunion : ∀ j, j ∉ U → ¬ Covered (l₁ ++ l₂) j → ¬ Covered (l₁ ++ x :: l₂) j := by
    intro j hjU hj hcovered
    rw [covered_append, covered_cons] at hcovered
    rw [covered_append] at hj
    rcases hcovered with h | ⟨hx₁, hx₂⟩ | h
    · exact hj (Or.inl h)
    · exact hjU (hx j hx₁ hx₂)
    · exact hj (Or.inr h)
  have hnode : ∀ q ∈ .free :: (runHeads l₁ ++ runHeads l₂),
      pool'.next q = if q = p' then some n' else pool.next q := by
    intro q hq
    rw [← runHeads_append] at hq
    rcases mem_cons.mp hq with rfl | hq
    · exact hfree
    · obtain ⟨r, hr, rfl⟩ := mem_runHeads.mp hq
      exact hnext r.1 (hout _ (hcov r hr))
  have hnodeback : ∀ q ∈ runHeads l₁ ++ runHeads l₂,
      pool'.back q = if q = n' then some p' else pool.back q := by
    intro q hq
    rw [← runHeads_append] at hq
    obtain ⟨r, hr, rfl⟩ := mem_runHeads.mp hq
    rw [SlabPool.back, hprev r.1 (hout _ (hcov r hr))]
    split
    · exact hp
    · rfl
  have hring := F.ring
  rw [runHeads_append, runHeads_cons] at hring
  refine ⟨hlast ▸ F.bound, ?_, ?_, ?_, hrest, ?_, ?_, ?_, ?_⟩
  · rw [runHeads_append]
    refine hring.unlink ?_ ?_ ?_ ?_
    · rw [hplast, hnhead, hnode p' (mem_nodes hpmem), if_pos rfl]
    · intro q hq hne
      rw [hnode q hq, if_neg fun heq => hne (heq.trans hplast.symm)]
    · intro q hq heq
      rw [hnodeback q (mem_append_right _ hq), if_pos (heq.trans hnhead)]
      exact congrArg some hplast.symm
    · intro q hq hne
      rw [hnodeback q hq, if_neg fun heq => hne (heq.trans hnhead.symm)]
  · rw [hlast]
    exact fun hpos r hr => F.pos hpos r (hmem r hr)
  · rw [hlast]
    exact fun r hr => F.inside r (hmem r hr)
  · intro r hr
    rw [hslab r.1 (hout _ (hcov r hr))]
    exact F.size r (hmem r hr)
  · intro j hj
    rw [hprev j (hout j hj)]
    split
    · exact F.kind x.1 (F.covered_head hpos (by simp))
    · obtain ⟨r, hr, hj⟩ := hj
      exact F.kind j ⟨r, hmem r hr, hj⟩
  · intro r hr h2 hlt
    rw [hlast] at hlt
    have hj : Covered (l₁ ++ l₂) (r.1 + r.2 - 1) := ⟨r, hr, by omega, by omega⟩
    have hne : SlabPtr.page (r.1 + r.2 - 1) ≠ n' :=
      page_ne hnmem fun r' hr' => F.last_ne_head hpos (hmem r hr) (hmem r' hr') h2
    obtain ⟨hs, hb⟩ := F.tail r (hmem r hr) h2 hlt
    refine ⟨(hslab _ (hout _ hj)).trans hs, ?_⟩
    rw [SlabPool.back, hprev _ (hout _ hj), if_neg hne]
    exact hb
  · intro j hj hncov hjU htype
    rw [hlast] at hj
    obtain ⟨hjp, hjn⟩ := hother j hncov
    rw [hprev j hjU, if_neg hjn] at htype
    rw [hnext j hjU, if_neg hjp, hslab j hjU]
    exact F.taken j hj (hunion j hjU hncov) (fun hjT => hjU (hT hjT)) htype

/-- **Shrink a run.** Its first `k` pages are now the pages `U`, and the rest of it takes
its place in the list. -/
theorem shrink {U : Set ℕ} {p n : SlabPtr} (F : FreeRuns ∅ (l₁ ++ (i, len) :: l₂) pool)
    (hk : 0 < k) (hlen : k < len) (hp : pool.back (.page i) = some p)
    (hn : pool.next (.page i) = some n) (hU : ∀ j, j ∈ U ↔ i ≤ j ∧ j < i + k)
    (hlast : pool'.last = pool.last)
    (hfree : pool'.next .free = if .free = p then some (.page (i + k)) else pool.next .free)
    (hslab : ∀ j, j ∉ U → pool'.slab (.page j) =
      if j = i + k then BitVec.ofNat 64 (len - k) else pool.slab (.page j))
    (hnext : ∀ j, j ∉ U → pool'.next (.page j) =
      if .page j = p then some (.page (i + k))
      else if j = i + k then some n else pool.next (.page j))
    (hprev : ∀ j, j ∉ U → pool'.prev (.page j) =
      if .page j = n then ⟨some (.page (i + k)), .page⟩
      else if j = i + k then pool.prev (.page i)
      else if j = i + len - 1 then ⟨some (.page (i + k)), .page⟩ else pool.prev (.page j)) :
    FreeRuns U (l₁ ++ (i + k, len - k) :: l₂) pool' := by
  obtain ⟨p', n', hp', hn', hplast, hnhead, hpmem, hnmem⟩ := F.neighbours
  obtain rfl : p' = p := Option.some.inj (hp'.symm.trans hp)
  obtain rfl : n' = n := Option.some.inj (hn'.symm.trans hn)
  have hx : (i, len) ∈ l₁ ++ (i, len) :: l₂ := by simp
  have hin := F.inside _ hx
  have hpos : 0 < pool.last := by simp only at hin; omega
  obtain ⟨hapart, hrest⟩ := apart_of_split F.apart
  have hmem : ∀ r ∈ l₁ ++ l₂, r ∈ l₁ ++ (i, len) :: l₂ := fun r hr => mem_split.mpr (Or.inr hr)
  have hsplit : ∀ r, r ∈ l₁ ++ (i + k, len - k) :: l₂ ↔
      r = (i + k, len - k) ∨ r ∈ l₁ ++ l₂ := fun r => mem_split
  -- the other runs are away from this one, its new head and its last page
  have hfar : ∀ r ∈ l₁ ++ l₂, 0 < r.2 ∧ (r.1 + r.2 < i ∨ i + len < r.1) := by
    intro r hr
    exact ⟨F.pos hpos r (hmem r hr), hapart r hr⟩
  have hout : ∀ r ∈ l₁ ++ l₂, ∀ j, r.1 ≤ j → j < r.1 + r.2 →
      j ∉ U ∧ j ≠ i + k ∧ j ≠ i + len - 1 := by
    intro r hr j h₁ h₂
    have := hfar r hr
    rw [hU]
    omega
  have hhead : ∀ r ∈ l₁ ++ l₂, r.1 ∉ U ∧ r.1 ≠ i + k ∧ r.1 ≠ i + len - 1 := by
    intro r hr
    have := (hfar r hr).1
    exact hout r hr r.1 (by omega) (by omega)
  have hneighbour : ∀ j, (∀ r ∈ l₁ ++ l₂, j ≠ r.1) → .page j ≠ p' ∧ .page j ≠ n' := by
    intro j hj
    exact ⟨page_ne hpmem hj, page_ne hnmem hj⟩
  have hik : i + k ∉ U := by rw [hU]; omega
  obtain ⟨hikp, hikn⟩ := hneighbour (i + k) fun r hr heq => (hhead r hr).2.1 heq.symm
  obtain ⟨-, hiln⟩ := hneighbour (i + len - 1) fun r hr heq => (hhead r hr).2.2 heq.symm
  have hnode : ∀ q ∈ .free :: (runHeads l₁ ++ runHeads l₂),
      pool'.next q = if q = p' then some (.page (i + k)) else pool.next q := by
    intro q hq
    rw [← runHeads_append] at hq
    rcases mem_cons.mp hq with rfl | hq
    · exact hfree
    · obtain ⟨r, hr, rfl⟩ := mem_runHeads.mp hq
      rw [hnext r.1 (hhead r hr).1, if_neg (hhead r hr).2.1]
  have hnodeback : ∀ q ∈ runHeads l₁ ++ runHeads l₂,
      pool'.back q = if q = n' then some (.page (i + k)) else pool.back q := by
    intro q hq
    rw [← runHeads_append] at hq
    obtain ⟨r, hr, rfl⟩ := mem_runHeads.mp hq
    rw [SlabPool.back, hprev r.1 (hhead r hr).1, if_neg (hhead r hr).2.1,
      if_neg (hhead r hr).2.2]
    split <;> rfl
  have hring := F.ring
  rw [runHeads_append, runHeads_cons] at hring
  refine ⟨hlast ▸ F.bound, ?_, ?_, ?_, ?_, ?_, ?_, ?_, ?_⟩
  · rw [runHeads_append, runHeads_cons]
    refine hring.replace ?_ ?_ ?_ ?_ ?_ ?_ ?_
    · rw [← runHeads_append, mem_cons, mem_runHeads]
      rintro (heq | ⟨r, hr, heq⟩)
      · simp at heq
      · rw [SlabPtr.page.injEq] at heq
        exact (hhead r hr).2.1 heq.symm
    · rw [hplast, hnode p' (mem_nodes hpmem), if_pos rfl]
    · rw [hnhead, hnext _ hik, if_neg hikp, if_pos rfl]
    · intro q hq hne
      rw [hnode q hq, if_neg fun heq => hne (heq.trans hplast.symm)]
    · rw [SlabPool.back, hprev _ hik, if_neg hikn, if_pos rfl, hplast]
      exact hp
    · intro q hq heq
      rw [hnodeback q (mem_append_right _ hq), if_pos (heq.trans hnhead)]
    · intro q hq hne
      rw [hnodeback q hq, if_neg fun heq => hne (heq.trans hnhead.symm)]
  · intro _ r hr
    rcases (hsplit r).mp hr with rfl | hr
    · simp only; omega
    · exact (hfar r hr).1
  · intro r hr
    rw [hlast]
    rcases (hsplit r).mp hr with rfl | hr
    · simp only at hin ⊢; omega
    · exact F.inside r (hmem r hr)
  · refine apart_insert hrest fun r hr => ?_
    have := (hfar r hr).2
    simp only [RunsApart]
    omega
  · intro r hr
    rcases (hsplit r).mp hr with rfl | hr
    · have hb := F.bound
      simp only at hin
      rw [hslab _ hik, if_pos rfl, BitVec.toNat_ofNat]
      exact Nat.mod_eq_of_lt (by omega)
    · rw [hslab r.1 (hhead r hr).1, if_neg (hhead r hr).2.1]
      exact F.size r (hmem r hr)
  · rintro j ⟨r, hr, h₁, h₂⟩
    have hjU : j ∉ U := by
      rcases (hsplit r).mp hr with rfl | hr
      · rw [hU]; simp only at h₁; omega
      · exact (hout r hr j h₁ h₂).1
    have hcov : Covered (l₁ ++ (i, len) :: l₂) j := by
      rcases (hsplit r).mp hr with rfl | hr
      · simp only at h₁ h₂
        exact ⟨_, hx, by simp only; omega, by simp only; omega⟩
      · exact ⟨r, hmem r hr, h₁, h₂⟩
    rw [hprev j hjU]
    split_ifs
    · rfl
    · exact F.kind i (F.covered_head hpos hx)
    · rfl
    · exact F.kind j hcov
  · intro r hr h2 hlt
    rw [hlast] at hlt
    rcases (hsplit r).mp hr with rfl | hr
    · simp only at h2 hlt hin ⊢
      have heq : i + k + (len - k) - 1 = i + len - 1 := by omega
      have hjU : i + len - 1 ∉ U := by rw [hU]; omega
      obtain ⟨hs, -⟩ := F.tail _ hx (by simp only; omega) (by simp only; omega)
      rw [heq, hslab _ hjU, if_neg (by omega), SlabPool.back, hprev _ hjU, if_neg hiln,
        if_neg (by omega), if_pos rfl]
      exact ⟨hs, rfl⟩
    · obtain ⟨hjU, hjk, hjl⟩ := hout r hr (r.1 + r.2 - 1) (by omega) (by omega)
      have hne : SlabPtr.page (r.1 + r.2 - 1) ≠ n' :=
        page_ne hnmem fun r' hr' => F.last_ne_head hpos (hmem r hr) (hmem r' hr') h2
      obtain ⟨hs, hb⟩ := F.tail r (hmem r hr) h2 hlt
      rw [hslab _ hjU, if_neg hjk, SlabPool.back, hprev _ hjU, if_neg hne, if_neg hjk,
        if_neg hjl]
      exact ⟨hs, hb⟩
  · intro j hj hncov hjU htype
    rw [hlast] at hj
    -- a page outside the new runs and outside `U` was in no run before
    have hrest' : ¬ (i + k ≤ j ∧ j < i + len) := by
      rintro ⟨h₁, h₂⟩
      exact hncov ⟨_, (hsplit _).mpr (Or.inl rfl), by simp only; omega, by simp only; omega⟩
    have hold : ¬ Covered (l₁ ++ (i, len) :: l₂) j := by
      rintro ⟨r, hr, h₁, h₂⟩
      rw [hU] at hjU
      simp only [mem_append, mem_cons] at hr
      rcases hr with hr | rfl | hr
      · exact hncov ⟨r, by simp [hr], h₁, h₂⟩
      · simp only at h₁ h₂
        omega
      · exact hncov ⟨r, by simp [hr], h₁, h₂⟩
    have hjk : j ≠ i + k := by omega
    have hjl : j ≠ i + len - 1 := by omega
    obtain ⟨hjp, hjn⟩ := hneighbour j fun r hr heq => by
      have := (hfar r hr).1
      exact hold ⟨r, hmem r hr, by omega, by omega⟩
    rw [hprev j hjU, if_neg hjn, if_neg hjk, if_neg hjl] at htype
    rw [hnext j hjU, if_neg hjp, if_neg hjk, hslab j hjU, if_neg hjk]
    exact F.taken j hj hold (by simp) htype

/-- Pages with the links of a released page may join those outside. -/
theorem settle {U : Set ℕ} (F : FreeRuns U runs pool)
    (hU : ∀ j ∈ U, j ∉ T → (pool.prev (.page j)).type = .page →
      pool.next (.page j) = none ∧ pool.slab (.page j) ≠ 0#64) :
    FreeRuns T runs pool :=
  { F with
    taken := by
      intro j hj hncov hjT htype
      by_cases hjU : j ∈ U
      · exact hU j hjU hjT htype
      · exact F.taken j hj hncov hjU htype }

/-- The free list does not depend on the pages outside its runs. -/
theorem congr {U : Set ℕ} (F : FreeRuns T runs pool) (hT : T ⊆ U)
    (hU : ∀ j ∈ U, ¬ Covered runs j) (hpos : 0 < pool.last) (hlast : pool'.last = pool.last)
    (hfree : pool'.next .free = pool.next .free)
    (hslab : ∀ j, j ∉ U → pool'.slab (.page j) = pool.slab (.page j))
    (hnext : ∀ j, j ∉ U → pool'.next (.page j) = pool.next (.page j))
    (hprev : ∀ j, j ∉ U → pool'.prev (.page j) = pool.prev (.page j)) :
    FreeRuns U runs pool' := by
  have hout : ∀ j, Covered runs j → j ∉ U := fun j hj hjU => hU j hjU hj
  have hhead : ∀ r ∈ runs, r.1 ∉ U := fun r hr => hout _ (F.covered_head hpos hr)
  refine ⟨hlast ▸ F.bound, F.ring.congr ?_ ?_, hlast ▸ F.pos, hlast ▸ F.inside, F.apart, ?_, ?_,
    ?_, ?_⟩
  · intro q hq
    rcases mem_cons.mp hq with rfl | hq
    · exact hfree
    · obtain ⟨r, hr, rfl⟩ := mem_runHeads.mp hq
      exact hnext _ (hhead r hr)
  · intro q hq
    obtain ⟨r, hr, rfl⟩ := mem_runHeads.mp hq
    rw [SlabPool.back, hprev _ (hhead r hr), SlabPool.back]
  · intro r hr
    rw [hslab _ (hhead r hr), F.size r hr]
  · intro j hj
    rw [hprev j (hout j hj), F.kind j hj]
  · intro r hr h2 hlt
    rw [hlast] at hlt
    have hj : r.1 + r.2 - 1 ∉ U := hout _ ⟨r, hr, by omega, by omega⟩
    rw [hslab _ hj, SlabPool.back, hprev _ hj]
    exact F.tail r hr h2 hlt
  · intro j hj hncov hjU htype
    rw [hlast] at hj
    rw [hprev j hjU] at htype
    rw [hnext j hjU, hslab j hjU]
    exact F.taken j hj hncov (fun hjT => hjU (hT hjT)) htype

theorem lt_last (F : FreeRuns T runs pool) (hj : Covered runs j) : j < pool.last := by
  obtain ⟨r, hr, h₁, h₂⟩ := hj
  have := F.inside r hr
  omega

/-- The neighbours in the free list are the list itself or a covered page. -/
theorem onFree_of_mem (F : FreeRuns T runs pool) (hpos : 0 < pool.last) {p : SlabPtr}
    (h : p = .free ∨ ∃ r ∈ runs, p = .page r.1) :
    p = .free ∨ ∃ j, p = .page j ∧ Covered runs j := by
  rcases h with h | ⟨r, hr, h⟩
  · exact Or.inl h
  · exact Or.inr ⟨r.1, h, F.covered_head hpos hr⟩

/-- The pages a run list loses when `k` pages of the run `(i, len)` are taken. -/
theorem allocFrom {pool₁ : SlabPool} {rest : List (ℕ × ℕ)}
    (F : FreeRuns ∅ (l₁ ++ (i, len) :: l₂) pool) (hk : 0 < k)
    (hrest : ∀ j, Covered rest j ↔ i + k ≤ j ∧ j < i + len) (hlen : runPages rest + k = len)
    (hlater : ∀ pool', SlabFrame (fun q => q.Within i (i + k)) pool₁ pool' →
      FreeRuns {j | i ≤ j ∧ j < i + k} (l₁ ++ (rest ++ l₂)) pool')
    (hframe : SlabFrame (fun q => q = .free ∨ ∃ j, q = .page j ∧
      Covered (l₁ ++ (i, len) :: l₂) j) pool pool₁) (hpfree : pool₁.pfree = pool.pfree) :
    PagesAlloc k (l₁ ++ (i, len) :: l₂) pool i (l₁ ++ (rest ++ l₂)) (slabGrant i k pool₁) := by
  obtain ⟨htaken, hgrant⟩ := slabGrant_spec (i := i) hk pool₁
  have hx : (i, len) ∈ l₁ ++ (i, len) :: l₂ := by simp
  have hklen : k ≤ len := by omega
  have hfar : ∀ j, i ≤ j → j < i + len → ¬ Covered l₁ j ∧ ¬ Covered l₂ j := by
    intro j h₁ h₂
    have hapart := (apart_of_split F.apart).1
    constructor
    · rintro ⟨r, hr, h₃, h₄⟩
      have := hapart r (mem_append_left _ hr)
      simp only [RunsApart] at this
      omega
    · rintro ⟨r, hr, h₃, h₄⟩
      have := hapart r (mem_append_right _ hr)
      simp only [RunsApart] at this
      omega
  have hwithin : ∀ q : SlabPtr, q.Within i (i + k) →
      ∃ j, q = .page j ∧ Covered (l₁ ++ (i, len) :: l₂) j := by
    intro q hq
    cases q with
    | page j =>
      obtain ⟨h₁, h₂⟩ := hq
      exact ⟨j, rfl, _, hx, h₁, by simp only; omega⟩
    | free => exact hq.elim
    | slot t => exact hq.elim
  refine ⟨(hlater _ hgrant).settle ?_, htaken, ⟨?_, ?_, ?_, ?_, ?_, ?_, ?_⟩, ?_, ?_, ?_, ?_⟩
  · rintro j ⟨h₁, h₂⟩ - -
    exact ⟨htaken.next j h₁ h₂, htaken.slab_ne_zero h₁ h₂⟩
  · intro q hq
    rw [hgrant.slab q fun h => hq (Or.inr (hwithin q h)), hframe.slab q hq]
  · intro q hq
    rw [hgrant.next q fun h => hq (Or.inr (hwithin q h)), hframe.next q hq]
  · intro q hq
    rw [hgrant.prev q fun h => hq (Or.inr (hwithin q h)), hframe.prev q hq]
  · rw [hgrant.last, hframe.last]
  · rw [hgrant.start, hframe.start]
  · rw [hgrant.mem, hframe.mem]
  · rw [hgrant.log, hframe.log]
  · rw [slabGrant, slabMarkBusy_eq, ← hpfree]
    rfl
  · intro j
    simp only [covered_append, covered_cons, hrest]
    constructor
    · rintro (h | ⟨h₁, h₂⟩ | h)
      · exact Or.inl (Or.inl h)
      · by_cases hj : j < i + k
        · exact Or.inr ⟨h₁, hj⟩
        · exact Or.inl (Or.inr (Or.inl ⟨by omega, h₂⟩))
      · exact Or.inl (Or.inr (Or.inr h))
    · rintro ((h | ⟨h₁, h₂⟩ | h) | ⟨h₁, h₂⟩)
      · exact Or.inl h
      · exact Or.inr (Or.inl ⟨by omega, h₂⟩)
      · exact Or.inr (Or.inr h)
      · exact Or.inr (Or.inl ⟨h₁, by omega⟩)
  · intro j h₁ h₂
    obtain ⟨hl₁, hl₂⟩ := hfar j h₁ (by omega)
    simp only [covered_append, hrest]
    rintro (h | ⟨h₃, -⟩ | h)
    · exact hl₁ h
    · omega
    · exact hl₂ h
  · simp only [runPages_append, runPages_cons]
    omega

/-- Taking the front of a longer run. -/
theorem allocFront (F : FreeRuns ∅ (l₁ ++ (i, len) :: l₂) pool) (hk : 0 < k)
    (hlen : k < len) :
    ∃ pool₁, slabTakeRun i k len pool = some pool₁ ∧
      PagesAlloc k (l₁ ++ (i, len) :: l₂) pool i (l₁ ++ ([(i + k, len - k)] ++ l₂))
        (slabGrant i k pool₁) := by
  obtain ⟨p, n, hp, hn, -, -, hpmem, hnmem⟩ := F.neighbours
  have hil : i ≠ i + len - 1 := by omega
  have hik : i ≠ i + k := by omega
  have hback : (pool.prev (.page i)).ptr = some p := hp
  have hx : (i, len) ∈ l₁ ++ (i, len) :: l₂ := by simp
  have hin := F.inside _ hx
  simp only at hin
  have hsub : ∀ r ∈ l₁ ++ l₂, r ∈ l₁ ++ (i, len) :: l₂ := fun r hr => mem_split.mpr (Or.inr hr)
  have hpfree := F.onFree_of_mem (by omega) (hpmem.imp_right fun ⟨r, hr, h⟩ => ⟨r, hsub r hr, h⟩)
  have hnfree := F.onFree_of_mem (by omega) (hnmem.imp_right fun ⟨r, hr, h⟩ => ⟨r, hsub r hr, h⟩)
  have hown : ∀ j, i ≤ j → j < i + len → Covered (l₁ ++ (i, len) :: l₂) j :=
    fun j h₁ h₂ => ⟨_, hx, h₁, h₂⟩
  simp only [slabTakeRun, if_pos hlen, SlabPool.setPage, ne_eq, SlabPtr.page.injEq, hil, hik,
    not_false_eq_true, update_of_ne, hn, hback, bind_some]
  refine ⟨_, rfl, F.allocFrom hk ?_ ?_ ?_ ⟨?_, ?_, ?_, rfl, rfl, rfl, rfl⟩ rfl⟩
  · intro j
    rw [covered_singleton]
    omega
  · simp only [runPages, map_cons, map_nil, sum_singleton]
    omega
  · intro pool' hframe
    rw [singleton_append]
    refine F.shrink hk hlen hp hn (fun j => Iff.rfl) hframe.last ?_ ?_ ?_ ?_
    · rw [hframe.next _ not_within_free]
      simp [update_apply]
    · intro j hj
      rw [hframe.slab (.page j) hj]
      simp [update_apply]
    · intro j hj
      rw [hframe.next (.page j) hj]
      simp [update_apply]
    · intro j hj
      rw [hframe.prev (.page j) hj]
      simp [update_apply]
  · intro q hq
    have hqr : q ≠ .page (i + k) := by
      rintro rfl
      exact hq (Or.inr ⟨_, rfl, hown _ (by omega) (by omega)⟩)
    simp [hqr]
  · intro q hq
    have hqr : q ≠ .page (i + k) := by
      rintro rfl
      exact hq (Or.inr ⟨_, rfl, hown _ (by omega) (by omega)⟩)
    have hqp : q ≠ p := fun h => hq (h ▸ hpfree)
    simp [hqr, hqp]
  · intro q hq
    have hqr : q ≠ .page (i + k) := by
      rintro rfl
      exact hq (Or.inr ⟨_, rfl, hown _ (by omega) (by omega)⟩)
    have hql : q ≠ .page (i + len - 1) := by
      rintro rfl
      exact hq (Or.inr ⟨_, rfl, hown _ (by omega) (by omega)⟩)
    have hqn : q ≠ n := fun h => hq (h ▸ hnfree)
    simp [hqr, hql, hqn]

/-- Taking a whole run. -/
theorem allocWhole (F : FreeRuns ∅ (l₁ ++ (i, k) :: l₂) pool) (hk : 0 < k) :
    ∃ pool₁, slabTakeRun i k k pool = some pool₁ ∧
      PagesAlloc k (l₁ ++ (i, k) :: l₂) pool i (l₁ ++ ([] ++ l₂)) (slabGrant i k pool₁) := by
  obtain ⟨p, n, hp, hn, -, -, hpmem, hnmem⟩ := F.neighbours
  have hback : (pool.prev (.page i)).ptr = some p := hp
  have hx : (i, k) ∈ l₁ ++ (i, k) :: l₂ := by simp
  have hin := F.inside _ hx
  simp only at hin
  have hsub : ∀ r ∈ l₁ ++ l₂, r ∈ l₁ ++ (i, k) :: l₂ := fun r hr => mem_split.mpr (Or.inr hr)
  have hpfree := F.onFree_of_mem (by omega) (hpmem.imp_right fun ⟨r, hr, h⟩ => ⟨r, hsub r hr, h⟩)
  have hnfree := F.onFree_of_mem (by omega) (hnmem.imp_right fun ⟨r, hr, h⟩ => ⟨r, hsub r hr, h⟩)
  simp only [slabTakeRun, Nat.lt_irrefl, if_false, SlabPool.unlink, hn, hback, bind_some]
  refine ⟨_, rfl, F.allocFrom hk ?_ ?_ ?_ ⟨?_, ?_, ?_, rfl, rfl, rfl, rfl⟩ rfl⟩
  · intro j
    simp only [not_covered_nil, false_iff]
    omega
  · simp [runPages]
  · intro pool' hframe
    rw [nil_append]
    refine F.remove (by omega) hp hn (Set.empty_subset _) (fun j h₁ h₂ => ⟨h₁, h₂⟩) ?_
      hframe.last ?_ ?_ ?_ ?_
    · rintro j ⟨h₁, h₂⟩ ⟨r, hr, h₃, h₄⟩
      have := (apart_of_split F.apart).1 r hr
      simp only [RunsApart] at this
      omega
    · rw [hframe.next _ not_within_free]
      simp [update_apply]
    · intro j hj
      rw [hframe.slab (.page j) hj]
    · intro j hj
      rw [hframe.next (.page j) hj]
      simp [update_apply]
    · intro j hj
      rw [hframe.prev (.page j) hj]
      simp [update_apply]
  · intro q hq
    rfl
  · intro q hq
    have hqp : q ≠ p := fun h => hq (h ▸ hpfree)
    simp [hqp]
  · intro q hq
    have hqn : q ≠ n := fun h => hq (h ▸ hnfree)
    simp [hqn]

/-- **Allocation of pages.** It fails only when no run has `k` pages, and leaves the list
alone then; otherwise it takes them. -/
theorem allocPages (F : FreeRuns ∅ runs pool) (hk : 0 < k) :
    ((∀ r ∈ runs, r.2 < k) ∧ slabAllocPages k pool =
      some (none, if pool.logNomem then pool.error .noMemory else pool)) ∨
    ∃ i runs' pool', slabAllocPages k pool = some (some i, pool') ∧
      PagesAlloc k runs pool i runs' pool' := by
  have hfind := slabFindRun_eq (k := k) F.ring.links F.size F.length_le
  have hfirst := F.ring.links.next_eq
  cases hrun : runs.find? fun r => decide (k ≤ r.2) with
  | none =>
    refine Or.inl ⟨?_, ?_⟩
    · intro r hr
      have := find?_eq_none.mp hrun r hr
      simp only [decide_eq_true_eq] at this
      omega
    · rw [hrun] at hfind
      simp only [slabAllocPages, hfirst, hfind, bind_some, map_none]
  | some r =>
    obtain ⟨hr, l₁, l₂, rfl, -⟩ := find?_eq_some_iff_append.mp hrun
    obtain ⟨i, len⟩ := r
    have hsize := F.size (i, len) (by simp)
    simp only [decide_eq_true_eq] at hr hsize
    rw [hrun] at hfind
    obtain ⟨pool₁, runs', htake, halloc⟩ : ∃ pool₁ runs',
        slabTakeRun i k len pool = some pool₁ ∧
          PagesAlloc k (l₁ ++ (i, len) :: l₂) pool i runs' (slabGrant i k pool₁) := by
      rcases Nat.eq_or_lt_of_le hr with rfl | hlt
      · obtain ⟨pool₁, h⟩ := F.allocWhole hk
        exact ⟨pool₁, _, h⟩
      · obtain ⟨pool₁, h⟩ := F.allocFront hk hlt
        exact ⟨pool₁, _, h⟩
    refine Or.inr ⟨i, runs', _, ?_, halloc⟩
    simp only [slabAllocPages, hfirst, hfind, hsize, htake, bind_some, map_some]

end FreeRuns

/-! ### The initial pool -/

theorem slabInit_prev_type (z : SlabSizes) (mem : ℕ → ℕ → Word) (j : ℕ) :
    ((slabInit z mem).prev (.page j)).type = .page := by
  by_cases hj : j = 0
  · simp [slabInit, hj]
  · simp [slabInit, hj]

/-- A new pool is one free run. -/
theorem slabInit_runs (z : SlabSizes) (mem : ℕ → ℕ → Word) (hlast : (slabInit z mem).last < 2 ^ 63) :
    FreeRuns ∅ [(0, (slabInit z mem).last)] (slabInit z mem) := by
  have hcov : ∀ j < (slabInit z mem).last, Covered [(0, (slabInit z mem).last)] j := by
    intro j hj
    exact covered_singleton.mpr ⟨by simp, by simp only; omega⟩
  refine ⟨hlast, ⟨⟨rfl, rfl, rfl⟩, by simp [runHeads]⟩, ?_, ?_, by simp, ?_, ?_, ?_, ?_⟩
  · intro hpos r hr
    rw [mem_singleton.mp hr]
    exact hpos
  · intro r hr
    rw [mem_singleton.mp hr]
    simp
  · intro r hr
    rw [mem_singleton.mp hr]
    simp only
    have hslab : (slabInit z mem).slab (.page 0) = BitVec.ofNat 64 (slabInit z mem).last := by
      simp [slabInit]
    rw [hslab, BitVec.toNat_ofNat, Nat.mod_eq_of_lt (by omega)]
  · intro j _
    exact slabInit_prev_type z mem j
  · intro r hr _ hlt
    rw [mem_singleton.mp hr] at hlt
    simp at hlt
  · intro j hj hncov
    exact absurd (hcov j hj) hncov

end Runs

end Hengine
