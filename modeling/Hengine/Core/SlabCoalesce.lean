import Hengine.Core.SlabPages

/-!
# Freeing Pages

`ngx_slab_free_pages` joins the pages it frees with a run that starts behind them and a
run that ends before them, and then puts the whole at the head of the free list. While it
works the pages are in no list: `Loose` is the invariant of that time. Each join takes a
run off the list and makes the loose pages longer, so that neither the pages nor their
number change, and at the end no run touches the loose pages on either side.
-/

namespace Hengine

/-- The `k` pages at `i` are in no list; the first descriptor holds their number. -/
structure Loose (runs : List (ℕ × ℕ)) (i k : ℕ) (pool : SlabPool) : Prop where
  free : FreeRuns {j | i ≤ j ∧ j < i + k} runs pool
  pos : 0 < k
  inside : i + k ≤ pool.last
  off : ∀ j, i ≤ j → j < i + k → ¬ Covered runs j
  size : (pool.slab (.page i)).toNat = k
  kind : ∀ j, i < j → j < i + k → (pool.prev (.page j)).type = .page
  tail : 2 ≤ k → i + k < pool.last → pool.slab (.page (i + k - 1)) = 0#64

/-- The same pages in other runs, and no other descriptor was touched. -/
structure Joined (runs : List (ℕ × ℕ)) (pool : SlabPool) (runs' : List (ℕ × ℕ))
    (pool' : SlabPool) : Prop where
  covered : ∀ j, Covered runs' j ↔ Covered runs j
  pages : runPages runs' = runPages runs
  frame : SlabFrame (fun q => q = .free ∨ ∃ j, q = .page j ∧ Covered runs j) pool pool'
  pfree : pool'.pfree = pool.pfree

/-- What joining the run at `h`, between `p` and `n` in the list, does to the descriptors:
page `w` is the first of the two and gets the new length `v`, page `z` the other. -/
structure JoinEffect (w z h : ℕ) (v : Word) (p n : SlabPtr) (pool pool' : SlabPool) :
    Prop where
  slab : ∀ q, pool'.slab q =
    if q = .page z then 0#64 else if q = .page w then v else pool.slab q
  next : ∀ q, pool'.next q =
    if q = .page z then none else if q = p then some n else pool.next q
  prev : ∀ q, pool'.prev q =
    if q = .page z then ⟨none, .page⟩ else if q = n then pool.prev (.page h) else pool.prev q
  last : pool'.last = pool.last
  start : pool'.start = pool.start
  mem : pool'.mem = pool.mem
  log : pool'.log = pool.log
  pfree : pool'.pfree = pool.pfree

section Join

variable {runs runs' runs'' l₁ l₂ : List (ℕ × ℕ)} {i j k len h : ℕ}
  {pool pool' pool'' : SlabPool}

theorem Joined.refl (runs : List (ℕ × ℕ)) (pool : SlabPool) : Joined runs pool runs pool :=
  ⟨fun _ => Iff.rfl, rfl,
    ⟨fun _ _ => rfl, fun _ _ => rfl, fun _ _ => rfl, rfl, rfl, rfl, rfl⟩, rfl⟩

/-- One join after another. -/
theorem Joined.trans (h₁ : Joined runs pool runs' pool')
    (h₂ : Joined runs' pool' runs'' pool'') : Joined runs pool runs'' pool'' := by
  have hS : ∀ q : SlabPtr, ¬ (q = .free ∨ ∃ j, q = .page j ∧ Covered runs j) →
      ¬ (q = .free ∨ ∃ j, q = .page j ∧ Covered runs' j) := by
    rintro q hq (h | ⟨j, h, hj⟩)
    · exact hq (Or.inl h)
    · exact hq (Or.inr ⟨j, h, (h₁.covered j).mp hj⟩)
  refine ⟨fun j => (h₂.covered j).trans (h₁.covered j), h₂.pages.trans h₁.pages,
    ⟨?_, ?_, ?_, ?_, ?_, ?_, ?_⟩, h₂.pfree.trans h₁.pfree⟩
  · exact fun q hq => (h₂.frame.slab q (hS q hq)).trans (h₁.frame.slab q hq)
  · exact fun q hq => (h₂.frame.next q (hS q hq)).trans (h₁.frame.next q hq)
  · exact fun q hq => (h₂.frame.prev q (hS q hq)).trans (h₁.frame.prev q hq)
  · exact h₂.frame.last.trans h₁.frame.last
  · exact h₂.frame.start.trans h₁.frame.start
  · exact h₂.frame.mem.trans h₁.frame.mem
  · exact h₂.frame.log.trans h₁.frame.log

namespace Loose

/-- Another run is before the freed pages or behind them. -/
theorem side (L : Loose runs i k pool) {r : ℕ × ℕ} (hr : r ∈ runs) :
    0 < r.2 ∧ (r.1 + r.2 ≤ i ∨ i + k ≤ r.1) := by
  have hpos := L.pos
  have hin := L.inside
  have hrpos := L.free.pos (by omega) r hr
  refine ⟨hrpos, ?_⟩
  by_contra hside
  -- otherwise the later of the two starts is a page of both
  by_cases hle : i ≤ r.1
  · exact L.off r.1 hle (by omega) ⟨r, hr, by omega, by omega⟩
  · exact L.off i (by omega) (by omega) ⟨r, hr, by omega, by omega⟩

/-- **Absorb a run.** The loose pages and the run `(h, len)`, one right behind the other,
become loose pages at `w`, the first of the two heads. -/
theorem absorb {w z : ℕ} {v : Word} {p n : SlabPtr}
    (L : Loose (l₁ ++ (h, len) :: l₂) i k pool)
    (hwz : w = i ∧ z = h ∧ h = i + k ∨ w = h ∧ z = i ∧ i = h + len)
    (hv : v.toNat = k + len) (hp : pool.back (.page h) = some p)
    (hn : pool.next (.page h) = some n) (E : JoinEffect w z h v p n pool pool') :
    Loose (l₁ ++ l₂) w (k + len) pool' ∧
      Joined ((i, k) :: (l₁ ++ (h, len) :: l₂)) pool ((w, k + len) :: (l₁ ++ l₂)) pool' := by
  have hx : (h, len) ∈ l₁ ++ (h, len) :: l₂ := by simp
  have hpos := L.pos
  have hin := L.inside
  have hxin := L.free.inside _ hx
  have hxpos := (L.side hx).1
  have hcov := L.free.covered_head (by omega) hx
  simp only at hxin hxpos hcov
  obtain ⟨p', n', hp', hn', -, -, hpmem, hnmem⟩ := L.free.neighbours
  obtain rfl : p' = p := Option.some.inj (hp'.symm.trans hp)
  obtain rfl : n' = n := Option.some.inj (hn'.symm.trans hn)
  have hsub : ∀ r ∈ l₁ ++ l₂, r ∈ l₁ ++ (h, len) :: l₂ := fun r hr => mem_split.mpr (Or.inr hr)
  have hspan : ∀ j, (w ≤ j ∧ j < w + (k + len)) ↔
      (i ≤ j ∧ j < i + k) ∨ (h ≤ j ∧ j < h + len) := by
    intro j
    omega
  have hoff : ∀ j, w ≤ j → j < w + (k + len) → ¬ Covered (l₁ ++ l₂) j := by
    rintro j h₁ h₂ ⟨r, hr, h₃, h₄⟩
    rcases (hspan j).mp ⟨h₁, h₂⟩ with hj | hj
    · exact L.off j hj.1 hj.2 ⟨r, hsub r hr, h₃, h₄⟩
    · have := (apart_of_split L.free.apart).1 r hr
      simp only [RunsApart] at this
      omega
  have hout : ∀ j, j ∉ {j | w ≤ j ∧ j < w + (k + len)} →
      SlabPtr.page j ≠ .page z ∧ SlabPtr.page j ≠ .page w := by
    intro j hj
    have hj' : ¬ (w ≤ j ∧ j < w + (k + len)) := hj
    simp only [ne_eq, SlabPtr.page.injEq]
    omega
  -- the type bits of the loose pages do not change
  have htype : ∀ j, w < j → j < w + (k + len) → (pool'.prev (.page j)).type = .page := by
    intro j h₁ h₂
    have hold : j ≠ z → (pool.prev (.page j)).type = .page := by
      intro hjz
      rcases (hspan j).mp ⟨by omega, h₂⟩ with hj | hj
      · exact L.kind j (by omega) hj.2
      · exact L.free.kind j ⟨_, hx, hj.1, hj.2⟩
    rw [E.prev]
    split_ifs with hz hn
    · rfl
    · exact L.free.kind h hcov
    · exact hold fun heq => hz (by rw [heq])
  refine ⟨⟨?_, by omega, ?_, hoff, ?_, htype, ?_⟩, ⟨?_, ?_, ⟨?_, ?_, ?_, E.last, E.start, E.mem,
    E.log⟩, E.pfree⟩⟩
  · refine L.free.remove (by omega) hp hn ?_ ?_ ?_ E.last ?_ ?_ ?_ ?_
    · exact fun j hj => (hspan j).mpr (Or.inl hj)
    · exact fun j h₁ h₂ => (hspan j).mpr (Or.inr ⟨h₁, h₂⟩)
    · exact fun j hj => hoff j hj.1 hj.2
    · rw [E.next, if_neg (by simp)]
    · intro j hj
      rw [E.slab, if_neg (hout j hj).1, if_neg (hout j hj).2]
    · intro j hj
      rw [E.next, if_neg (hout j hj).1]
    · intro j hj
      rw [E.prev, if_neg (hout j hj).1]
  · rw [E.last]
    omega
  · rw [E.slab, if_neg (by simp only [SlabPtr.page.injEq]; omega), if_pos rfl, hv]
  · intro h2 hlt
    rw [E.last] at hlt
    rw [E.slab]
    split_ifs with hz hw
    · rfl
    · simp only [SlabPtr.page.injEq] at hw
      omega
    · simp only [SlabPtr.page.injEq] at hz
      rcases hwz with ⟨rfl, rfl, rfl⟩ | ⟨rfl, rfl, rfl⟩
      · have htail := (L.free.tail _ hx (by simp only; omega) (by simp only; omega)).1
        simp only at htail
        rwa [show w + (k + len) - 1 = w + k + len - 1 by omega]
      · have htail := L.tail (by omega) (by omega)
        rwa [show w + (k + len) - 1 = w + len + k - 1 by omega]
  · intro j
    rw [covered_cons, covered_cons, hspan j, covered_append, covered_append, covered_cons,
      or_assoc]
    exact or_congr_right or_left_comm
  · simp only [runPages_cons, runPages_append]
    omega
  all_goals
    intro q hq
    have hqi : q ≠ .page i := by
      rintro rfl
      exact hq (Or.inr ⟨i, rfl, covered_cons.mpr (Or.inl ⟨by simp, by simp only; omega⟩)⟩)
    have hqh : q ≠ .page h := by
      rintro rfl
      exact hq (Or.inr ⟨h, rfl, covered_cons.mpr (Or.inr hcov)⟩)
    have hqz : q ≠ .page z := by
      rcases hwz with ⟨-, rfl, -⟩ | ⟨-, rfl, -⟩
      · exact hqh
      · exact hqi
    have hqw : q ≠ .page w := by
      rcases hwz with ⟨rfl, -, -⟩ | ⟨rfl, -, -⟩
      · exact hqi
      · exact hqh
  · rw [E.slab, if_neg hqz, if_neg hqw]
  · have hqp : q ≠ p' := by
      rintro rfl
      rcases hpmem with heq | ⟨r, hr, heq⟩
      · exact hq (Or.inl heq)
      · exact hq (Or.inr ⟨r.1, heq, covered_cons.mpr
          (Or.inr (L.free.covered_head (by omega) (hsub r hr)))⟩)
    rw [E.next, if_neg hqz, if_neg hqp]
  · have hqn : q ≠ n' := by
      rintro rfl
      rcases hnmem with heq | ⟨r, hr, heq⟩
      · exact hq (Or.inl heq)
      · exact hq (Or.inr ⟨r.1, heq, covered_cons.mpr
          (Or.inr (L.free.covered_head (by omega) (hsub r hr)))⟩)
    rw [E.prev, if_neg hqz, if_neg hqn]

section

variable (L : Loose runs i k pool)
include L

/-- The sum of two run lengths does not wrap. -/
theorem toNat_add_size {r : ℕ × ℕ} (hr : r ∈ runs) {x y : Word} (hx : x.toNat = k)
    (hy : y.toNat = r.2) : (x + y).toNat = k + r.2 := by
  have hin := L.inside
  have hrin := L.free.inside r hr
  have hbound := L.free.bound
  rw [BitVec.toNat_add, hx, hy]
  exact Nat.mod_eq_of_lt (by omega)

/-- **Join the next run**, if there is one. -/
theorem joinNext :
    ∃ runs' k' pool', slabJoinNext i (k - 1) pool = some (k' - 1, pool') ∧
      Loose runs' i k' pool' ∧ Joined ((i, k) :: runs) pool ((i, k') :: runs') pool' ∧
      ∀ r ∈ runs', r.1 ≠ i + k' := by
  have hpos := L.pos
  have hin := L.inside
  by_cases hrun : ∃ r ∈ runs, r.1 = i + k
  · obtain ⟨⟨h, len⟩, hr, rfl⟩ := hrun
    obtain ⟨l₁, l₂, rfl⟩ := List.append_of_mem hr
    obtain ⟨p, n, hp, hn, -⟩ := L.free.neighbours
    have hlen := (L.side hr).1
    have hsize := L.free.size _ hr
    have hcov := L.free.covered_head (by omega) hr
    have hxin := L.free.inside _ hr
    simp only at hlen hsize hcov hxin hp hn
    have hback : (pool.prev (.page (i + k))).ptr = some p := hp
    have htest : i + k < pool.last ∧ (pool.prev (.page (i + k))).type = .page ∧
        some n ≠ none :=
      ⟨by omega, L.free.kind _ hcov, by simp⟩
    obtain ⟨pool', hexec, E⟩ : ∃ pool',
        slabJoinNext i (k - 1) pool = some (k + len - 1, pool') ∧
          JoinEffect i (i + k) (i + k) (pool.slab (.page i) + pool.slab (.page (i + k))) p n
            pool pool' := by
      simp only [slabJoinNext, L.size, hsize, SlabPool.unlink, hback, hn, if_pos htest,
        Option.bind_some, Option.map_some]
      rw [show k - 1 + len = k + len - 1 by omega]
      refine ⟨_, rfl, ?_, ?_, ?_, rfl, rfl, rfl, rfl, rfl⟩
      all_goals
        intro q
        simp only [SlabPool.setPage, Function.update_apply]
    obtain ⟨L', J⟩ := L.absorb (Or.inl ⟨rfl, rfl, rfl⟩) (L.toNat_add_size hr L.size hsize) hp hn E
    refine ⟨l₁ ++ l₂, k + len, pool', hexec, L', J, ?_⟩
    intro r hr
    have hapart := (apart_of_split L.free.apart).1 r hr
    simp only [RunsApart] at hapart
    omega
  · refine ⟨runs, k, pool, ?_, L, Joined.refl _ _, fun r hr heq => hrun ⟨r, hr, heq⟩⟩
    have htest : ¬ (i + (pool.slab (.page i)).toNat < pool.last ∧
        (pool.prev (.page (i + (pool.slab (.page i)).toNat))).type = .page ∧
        pool.next (.page (i + (pool.slab (.page i)).toNat)) ≠ none) := by
      rw [L.size]
      rintro ⟨hlt, htype, hnext⟩
      refine hnext (L.free.taken _ hlt ?_ ?_ htype).1
      · rintro ⟨r, hr, h₁, h₂⟩
        have := (L.side hr).2
        exact hrun ⟨r, hr, by omega⟩
      · rintro ⟨-, h₂⟩
        omega
    simp only [slabJoinNext, if_neg htest]

/-- The last page of a run leads to its first. -/
theorem runHead_eq {r : ℕ × ℕ} (hr : r ∈ runs) (hend : r.1 + r.2 = i) :
    slabRunHead (i - 1) pool = some r.1 := by
  have hrpos := (L.side hr).1
  have hpos := L.pos
  have hin := L.inside
  by_cases hone : r.2 = 1
  · have hsize := L.free.size r hr
    have hi : i - 1 = r.1 := by omega
    have hne : pool.slab (.page r.1) ≠ 0#64 := by
      intro hzero
      rw [hzero, hone] at hsize
      simp at hsize
    rw [slabRunHead, hi, if_neg hne]
  · obtain ⟨hs, hb⟩ := L.free.tail r hr (by omega) (by omega)
    rw [show r.1 + r.2 - 1 = i - 1 by omega] at hs hb
    have hptr : (pool.prev (.page (i - 1))).ptr = some (.page r.1) := hb
    rw [slabRunHead, if_pos hs, hptr]

/-- **Join the previous run**, if there is one. -/
theorem joinPrev (hnot : ∀ r ∈ runs, r.1 ≠ i + k) :
    ∃ runs' i' k' pool', slabJoinPrev i (k - 1) pool = some (i', k' - 1, pool') ∧
      Loose runs' i' k' pool' ∧ Joined ((i, k) :: runs) pool ((i', k') :: runs') pool' ∧
      (∀ r ∈ runs', r.1 ≠ i' + k') ∧ ∀ r ∈ runs', r.1 + r.2 ≠ i' := by
  have hpos := L.pos
  have hin := L.inside
  by_cases hrun : ∃ r ∈ runs, r.1 + r.2 = i
  · obtain ⟨⟨h, len⟩, hr, rfl⟩ := hrun
    have hhead := L.runHead_eq hr rfl
    obtain ⟨l₁, l₂, rfl⟩ := List.append_of_mem hr
    obtain ⟨p, n, hp, hn, -⟩ := L.free.neighbours
    have hlen := (L.side hr).1
    have hsize := L.free.size _ hr
    simp only at hlen hsize hp hn hhead hnot
    have hback : (pool.prev (.page h)).ptr = some p := hp
    have htest : 0 < h + len ∧ (pool.prev (.page (h + len - 1))).type = .page := by
      refine ⟨by omega, L.free.kind _ ⟨_, hr, ?_, ?_⟩⟩
      · simp only; omega
      · simp only; omega
    have hne : some n ≠ none := by simp
    obtain ⟨pool', hexec, E⟩ : ∃ pool',
        slabJoinPrev (h + len) (k - 1) pool = some (h, k + len - 1, pool') ∧
          JoinEffect h (h + len) h (pool.slab (.page h) + pool.slab (.page (h + len))) p n
            pool pool' := by
      simp only [slabJoinPrev, if_pos htest, hhead, hsize, SlabPool.unlink, hback, hn, if_pos hne,
        Option.bind_some, Option.map_some]
      rw [show k - 1 + len = k + len - 1 by omega]
      refine ⟨_, rfl, ?_, ?_, ?_, rfl, rfl, rfl, rfl, rfl⟩
      all_goals
        intro q
        simp only [SlabPool.setPage, Function.update_apply]
    have hv : (pool.slab (.page h) + pool.slab (.page (h + len))).toNat = k + len := by
      rw [BitVec.add_comm]
      exact L.toNat_add_size hr L.size hsize
    obtain ⟨L', J⟩ := L.absorb (Or.inr ⟨rfl, rfl, rfl⟩) hv hp hn E
    refine ⟨l₁ ++ l₂, h, k + len, pool', hexec, L', J, ?_, ?_⟩
    · exact fun r hr heq => hnot r (mem_split.mpr (Or.inr hr)) (by omega)
    · intro r hr
      have hapart := (apart_of_split L.free.apart).1 r hr
      simp only [RunsApart] at hapart
      omega
  · refine ⟨runs, i, k, pool, ?_, L, Joined.refl _ _, hnot, fun r hr heq => hrun ⟨r, hr, heq⟩⟩
    by_cases htest : 0 < i ∧ (pool.prev (.page (i - 1))).type = .page
    · obtain ⟨hi, htype⟩ := htest
      obtain ⟨hnext, hslab⟩ := L.free.taken (i - 1) (by omega) (by
        rintro ⟨r, hr, h₁, h₂⟩
        have := (L.side hr).2
        exact hrun ⟨r, hr, by omega⟩) (by rintro ⟨h₁, -⟩; omega) htype
      have hhead : slabRunHead (i - 1) pool = some (i - 1) := by
        rw [slabRunHead, if_neg hslab]
      simp [slabJoinPrev, hi, htype, hhead, hnext]
    · simp only [slabJoinPrev, if_neg htest]

/-- **Push the run.** The loose pages, which touch no run, go to the head of the list. -/
theorem pushRun (hafter : ∀ r ∈ runs, r.1 ≠ i + k) (hbefore : ∀ r ∈ runs, r.1 + r.2 ≠ i) :
    ∃ pool', slabPushRun i (k - 1) pool = some pool' ∧ FreeRuns ∅ ((i, k) :: runs) pool' ∧
      Joined ((i, k) :: runs) pool ((i, k) :: runs) pool' := by
  have hpos := L.pos
  have hin := L.inside
  have hfirst := L.free.ring.links.next_eq
  obtain ⟨f, hf⟩ : ∃ f, f = (runHeads runs).headD .free := ⟨_, rfl⟩
  rw [← hf] at hfirst
  have hfmem : f = .free ∨ ∃ r ∈ runs, f = .page r.1 := by
    cases runs with
    | nil => exact Or.inl hf
    | cons r runs => exact Or.inr ⟨r, List.mem_cons_self, hf⟩
  have hfar : ∀ r ∈ runs, 0 < r.2 ∧ (r.1 + r.2 < i ∨ i + k < r.1) := by
    intro r hr
    have := L.side hr
    have := hafter r hr
    have := hbefore r hr
    omega
  -- the first descriptor of the list is not one of the loose pages
  have hfne : ∀ j, i ≤ j → j < i + k → SlabPtr.page j ≠ f := by
    intro j h₁ h₂ heq
    rcases hfmem with h | ⟨r, hr, h⟩
    · simp [h] at heq
    · rw [h, SlabPtr.page.injEq] at heq
      have := hfar r hr
      omega
  obtain ⟨pool', hexec, hslab', hnext', hprev', hrest⟩ : ∃ pool',
      slabPushRun i (k - 1) pool = some pool' ∧ pool'.slab = pool.slab ∧
      (∀ q, pool'.next q = if q = .free then some (.page i)
        else if q = .page i then some f else pool.next q) ∧
      (∀ q, pool'.prev q = if q = f then ⟨some (.page i), .page⟩
        else if q = .page i then ⟨some .free, .page⟩
        else if q = .page (i + k - 1) then ⟨some (.page i), .page⟩ else pool.prev q) ∧
      pool'.last = pool.last ∧ pool'.start = pool.start ∧ pool'.mem = pool.mem ∧
      pool'.log = pool.log ∧ pool'.pfree = pool.pfree := by
    simp only [slabPushRun, hfirst, Option.bind_some]
    refine ⟨_, rfl, rfl, ?_, ?_, rfl, rfl, rfl, rfl, rfl⟩
    · intro q
      simp only [Function.update_apply]
    · intro q
      simp only [Function.update_apply]
      by_cases hone : k - 1 = 0
      · rw [show i + k - 1 = i by omega]
        simp only [hone, ne_eq, not_true_eq_false, if_false]
        split_ifs <;> rfl
      · rw [show i + k - 1 = i + (k - 1) by omega]
        simp [hone, Function.update_apply]
  obtain ⟨hlast, hstart, hmem, hlog, hpfree⟩ := hrest
  refine ⟨pool', hexec, ⟨hlast ▸ L.free.bound, ?_, ?_, ?_, ?_, ?_, ?_, ?_, ?_⟩, ⟨fun _ => Iff.rfl,
    rfl, ⟨fun q _ => by rw [hslab'], ?_, ?_, hlast, hstart, hmem, hlog⟩, hpfree⟩⟩
  · have hnode : ∀ q ∈ runHeads runs, q ≠ .free ∧ q ≠ .page i ∧ q ≠ .page (i + k - 1) := by
      intro q hq
      obtain ⟨r, hr, rfl⟩ := mem_runHeads.mp hq
      have := hfar r hr
      simp only [ne_eq, reduceCtorEq, not_false_eq_true, SlabPtr.page.injEq, true_and]
      omega
    rw [runHeads_cons]
    refine L.free.ring.push ?_ ?_ ?_ ?_ ?_ ?_ ?_
    · rw [List.mem_cons, mem_runHeads]
      rintro (heq | ⟨r, hr, heq⟩)
      · simp at heq
      · rw [SlabPtr.page.injEq] at heq
        have := hfar r hr
        simp only at heq
        omega
    · rw [hnext', if_pos rfl]
    · rw [hnext', if_neg (by simp), if_pos rfl, hf]
    · intro q hq
      obtain ⟨h₁, h₂, -⟩ := hnode q hq
      rw [hnext', if_neg h₁, if_neg h₂]
    · rw [SlabPool.back, hprev', if_neg (hfne i (by omega) (by omega)), if_pos rfl]
    · intro q hq heq
      rw [SlabPool.back, hprev', if_pos (heq.trans hf.symm)]
    · intro q hq hne
      obtain ⟨-, h₂, h₃⟩ := hnode q hq
      rw [SlabPool.back, hprev', if_neg fun heq => hne (heq.trans hf), if_neg h₂, if_neg h₃,
        SlabPool.back]
  · intro _ r hr
    rcases List.mem_cons.mp hr with rfl | hr
    · exact hpos
    · exact (hfar r hr).1
  · intro r hr
    rw [hlast]
    rcases List.mem_cons.mp hr with rfl | hr
    · exact hin
    · exact L.free.inside r hr
  · refine List.pairwise_cons.mpr ⟨fun r hr => ?_, L.free.apart⟩
    have := (hfar r hr).2
    simp only [RunsApart]
    omega
  · intro r hr
    rw [hslab']
    rcases List.mem_cons.mp hr with rfl | hr
    · exact L.size
    · exact L.free.size r hr
  · intro j hj
    rw [hprev']
    split_ifs with h₁ h₂ h₃
    · rfl
    · rfl
    · rfl
    · rcases covered_cons.mp hj with hj | hj
      · simp only [SlabPtr.page.injEq] at h₂
        exact L.kind j (by simp only at hj; omega) hj.2
      · exact L.free.kind j hj
  · intro r hr h2 hlt
    rw [hlast] at hlt
    rw [hslab', SlabPool.back, hprev']
    rcases List.mem_cons.mp hr with rfl | hr
    · simp only at h2 hlt ⊢
      rw [if_neg (hfne _ (by omega) (by omega)),
        if_neg (by simp only [SlabPtr.page.injEq]; omega), if_pos trivial]
      exact ⟨L.tail h2 hlt, rfl⟩
    · have hr' := hfar r hr
      have hne : SlabPtr.page (r.1 + r.2 - 1) ≠ f := by
        intro heq
        rcases hfmem with h | ⟨r', hrm, h⟩
        · simp [h] at heq
        · rw [h, SlabPtr.page.injEq] at heq
          have := (hfar r' hrm).1
          have hrr := L.free.eq_of_shared (j := r'.1) hr hrm (by omega) (by omega) (by omega)
            (by omega)
          rw [hrr] at heq h2
          omega
      rw [if_neg hne, if_neg (by simp only [SlabPtr.page.injEq]; omega),
        if_neg (by simp only [SlabPtr.page.injEq]; omega)]
      exact L.free.tail r hr h2 hlt
  · intro j hj hncov _ htype
    rw [hlast] at hj
    rw [covered_cons, not_or] at hncov
    obtain ⟨hout, hncov⟩ := hncov
    simp only at hout
    have hjf : SlabPtr.page j ≠ f := by
      intro heq
      rcases hfmem with h | ⟨r, hr, h⟩
      · simp [h] at heq
      · rw [h, SlabPtr.page.injEq] at heq
        have := (hfar r hr).1
        exact hncov ⟨r, hr, by omega, by omega⟩
    have hji : SlabPtr.page j ≠ .page i := by
      simp only [ne_eq, SlabPtr.page.injEq]; omega
    have hjl : SlabPtr.page j ≠ .page (i + k - 1) := by
      simp only [ne_eq, SlabPtr.page.injEq]; omega
    rw [hprev', if_neg hjf, if_neg hji, if_neg hjl] at htype
    rw [hnext', if_neg (by simp), if_neg hji, hslab']
    exact L.free.taken j hj hncov hout htype
  · intro q hq
    rw [hnext', if_neg fun h => hq (Or.inl h), if_neg]
    rintro rfl
    exact hq (Or.inr ⟨i, rfl, covered_cons.mpr (Or.inl ⟨by simp, by simp only; omega⟩)⟩)
  · intro q hq
    have hqf : q ≠ f := by
      rintro rfl
      rcases hfmem with h | ⟨r, hr, h⟩
      · exact hq (Or.inl h)
      · exact hq (Or.inr ⟨r.1, h, covered_cons.mpr
          (Or.inr (L.free.covered_head (by omega) hr))⟩)
    have hown : ∀ j, i ≤ j → j < i + k → q ≠ .page j := by
      rintro j h₁ h₂ rfl
      exact hq (Or.inr ⟨j, rfl, covered_cons.mpr (Or.inl ⟨h₁, h₂⟩)⟩)
    rw [hprev', if_neg hqf, if_neg (hown i (by omega) (by omega)),
      if_neg (hown _ (by omega) (by omega))]

/-- **Coalescing.** The loose pages are joined with their neighbours and put into the
list: the same pages are free, in runs that are apart. -/
theorem coalesce :
    ∃ runs' pool', slabCoalesce i (k - 1) pool = some pool' ∧ FreeRuns ∅ runs' pool' ∧
      Joined ((i, k) :: runs) pool runs' pool' := by
  obtain ⟨runs₁, k₁, pool₁, hexec₁, L₁, J₁, hafter₁⟩ := L.joinNext
  obtain ⟨runs₂, i₂, k₂, pool₂, hexec₂, L₂, J₂, hafter₂, hbefore₂⟩ := L₁.joinPrev hafter₁
  obtain ⟨pool₃, hexec₃, F, J₃⟩ := L₂.pushRun hafter₂ hbefore₂
  refine ⟨_, pool₃, ?_, F, (J₁.trans J₂).trans J₃⟩
  simp [slabCoalesce, hexec₁, hexec₂, hexec₃]

end

end Loose

end Join

end Hengine
