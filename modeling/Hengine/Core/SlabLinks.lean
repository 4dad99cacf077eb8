import Hengine.Core.SlabInv

/-!
# The Links of a Slot

The pages of a slot that have a free chunk are on a doubly linked list. A page goes to the
head of it when its first chunk is freed, and leaves it when its last chunk is taken or
when the page itself is freed.
-/

namespace Hengine

open List Function Option

namespace Relisted

variable {z : SlabZone} {pool pool' pool'' : SlabPool} {t i s c : ℕ} {type : SlabType}
  {l l' l'' l₁ l₂ : List ℕ}

/-- One change after another. -/
theorem trans (R : Relisted t i l l' pool pool') (R' : Relisted t i l' l'' pool' pool'') :
    Relisted t i l l'' pool pool'' := by
  have hout : ∀ q : SlabPtr, q ≠ .page i → (∀ j ∈ l, q ≠ .page j) → ∀ j ∈ l', q ≠ .page j := by
    rintro q hqi hq j hj rfl
    have hji : j ≠ i := by simpa using hqi
    exact hq j ((R.others j hji).mp hj) rfl
  refine ⟨R'.last.trans R.last, R'.start.trans R.start, R'.log.trans R.log, ?_, ?_, ?_, ?_, ?_,
    R'.ring, ?_⟩
  · exact fun q hq => (R'.slab q hq).trans (R.slab q hq)
  · exact fun j hj => (R'.mem j hj).trans (R.mem j hj)
  · exact fun j hj => (R'.type j hj).trans (R.type j hj)
  · exact fun q hi ht hl => (R'.next q hi ht (hout q hi hl)).trans (R.next q hi ht hl)
  · exact fun q hi ht hl => (R'.prev q hi ht (hout q hi hl)).trans (R.prev q hi ht hl)
  · exact fun j hj => (R'.others j hj).trans (R.others j hj)

/-- Links that stay leave the list as it is. -/
theorem of_links (R : Ring pool.next pool.back (.slot t) (l.map .page))
    (hnext : pool'.next = pool.next) (hprev : pool'.prev = pool.prev)
    (hlast : pool'.last = pool.last) (hstart : pool'.start = pool.start)
    (hlog : pool'.log = pool.log) (hslab : ∀ q, q ≠ .page i → pool'.slab q = pool.slab q)
    (hmem : ∀ j, j ≠ i → pool'.mem j = pool.mem j) : Relisted t i l l pool pool' := by
  refine ⟨hlast, hstart, hlog, hslab, hmem, ?_, ?_, ?_, R.congr ?_ ?_, fun _ _ => Iff.rfl⟩
  · exact fun j _ => by rw [hprev]
  · exact fun q _ _ _ => by rw [hnext]
  · exact fun q _ _ _ => by rw [hprev]
  · exact fun q _ => by rw [hnext]
  · exact fun q _ => by rw [SlabPool.back, hprev, SlabPool.back]

theorem of_write {v : Bool} (R : Ring pool.next pool.back (.slot t) (l.map .page))
    (W : ChunkWrite z s i c v pool pool') : Relisted t i l l pool pool' :=
  of_links R W.next W.prev W.last W.start W.log W.slab W.mem

/-- **Unlink a page.** -/
theorem unlink (R : Ring pool.next pool.back (.slot t) ((l₁ ++ i :: l₂).map .page))
    (htype : ∀ j ∈ l₁ ++ i :: l₂, (pool.prev (.page j)).type = type) :
    ∃ pool', pool.unlink (.page i) = some pool' ∧
      Relisted t i (l₁ ++ i :: l₂) (l₁ ++ l₂) pool pool' ∧ pool'.slab = pool.slab ∧
      pool'.mem = pool.mem ∧ pool'.pfree = pool.pfree ∧
      (pool'.prev (.page i)).type = type := by
  rw [map_append, map_cons] at R
  obtain ⟨hp, hn, hpmem, hnmem, hpi, hni⟩ := R.mem_links
  generalize hpdef : (l₁.map SlabPtr.page).getLastD (.slot t) = p at hp hpmem hpi
  generalize hndef : (l₂.map SlabPtr.page).headD (.slot t) = n at hn hnmem hni
  have hptr : (pool.prev (.page i)).ptr = some p := hp
  have hp' : p = .slot t ∨ ∃ j ∈ l₁, p = .page j := SlabInv.mem_ring hpmem
  have hn' : n = .slot t ∨ ∃ j ∈ l₂, n = .page j := SlabInv.mem_ring hnmem
  rw [SlabPool.unlink, hptr, bind_some, hn, bind_some]
  refine ⟨_, rfl, ?_, rfl, rfl, rfl, ?_⟩
  · refine ⟨rfl, rfl, rfl, fun _ _ => rfl, fun _ _ => rfl, ?_, ?_, ?_, ?_, ?_⟩
    · intro j hj
      by_cases hjn : SlabPtr.page j = n
      · rcases hn' with hn' | ⟨j', hj', hn'⟩
        · simp [hn'] at hjn
        · rw [hn', SlabPtr.page.injEq] at hjn
          subst hjn
          simp only [← hn', update_self]
          rw [hn', htype i (by simp), htype j (by simp [hj'])]
      · simp only [update_of_ne hjn]
    · intro q hqi hqt hq
      have hqp : q ≠ p := by
        rintro rfl
        rcases hp' with h | ⟨j, hj, h⟩
        · exact hqt h
        · exact hq j (by simp [hj]) h
      simp only [update_of_ne hqp]
    · intro q hqi hqt hq
      have hqn : q ≠ n := by
        rintro rfl
        rcases hn' with h | ⟨j, hj, h⟩
        · exact hqt h
        · exact hq j (by simp [hj]) h
      simp only [update_of_ne hqn]
    · rw [map_append]
      refine R.unlink ?_ ?_ ?_ ?_
      · simp only [hpdef, hndef, update_self]
      · intro q _ hq
        rw [hpdef] at hq
        simp only [update_of_ne hq]
      · intro q _ hq
        rw [hndef] at hq
        simp only [hq, SlabPool.back, update_self, hptr, hpdef]
      · intro q _ hq
        rw [hndef] at hq
        simp only [SlabPool.back, update_of_ne hq]
    · intro j hj
      simp [hj]
  · have hin : SlabPtr.page i ≠ n := fun heq => hni heq.symm
    simp only [update_of_ne hin]
    exact htype i (by simp)

/-- **A full page leaves its list.** -/
theorem detach (R : Ring pool.next pool.back (.slot t) ((l₁ ++ i :: l₂).map .page))
    (htype : ∀ j ∈ l₁ ++ i :: l₂, (pool.prev (.page j)).type = type) :
    ∃ pool', pool.detach i type = some pool' ∧
      Relisted t i (l₁ ++ i :: l₂) (l₁ ++ l₂) pool pool' ∧ pool'.slab = pool.slab ∧
      pool'.mem = pool.mem ∧ pool'.pfree = pool.pfree ∧
      pool'.next (.page i) = none ∧ (pool'.prev (.page i)).type = type := by
  obtain ⟨pool₁, hexec, R₁, hslab, hmem, hpfree, -⟩ := unlink R htype
  have hi : .page i ∉ .slot t :: (l₁ ++ l₂).map SlabPtr.page := by
    rw [map_append, map_cons] at R
    rw [map_append]
    exact R.nodup_of_split.2
  have hpage : ∀ j, j ≠ i → SlabPtr.page j ≠ .page i := by
    intro j hj
    simpa using hj
  rw [SlabPool.detach, hexec, map_some]
  refine ⟨_, rfl, R₁.trans ⟨rfl, rfl, rfl, ?_, fun _ _ => rfl, ?_, ?_, ?_,
    R₁.ring.congr ?_ ?_, fun _ _ => Iff.rfl⟩, ?_, hmem, hpfree, ?_, ?_⟩
  · intro q hq
    simp only [SlabPool.setPage, update_of_ne hq]
  · intro j hj
    simp only [SlabPool.setPage, update_of_ne (hpage j hj)]
  · intro q hq _ _
    simp only [SlabPool.setPage, update_of_ne hq]
  · intro q hq _ _
    simp only [SlabPool.setPage, update_of_ne hq]
  · rintro q hq
    have hqi : q ≠ .page i := fun h => hi (h ▸ hq)
    simp only [SlabPool.setPage, update_of_ne hqi]
  · rintro q hq
    have hqi : q ≠ .page i := fun h => hi (h ▸ mem_cons_of_mem _ hq)
    simp only [SlabPool.back, SlabPool.setPage, update_of_ne hqi]
  · simp [SlabPool.setPage, hslab]
  · simp [SlabPool.setPage]
  · simp [SlabPool.setPage]

/-- **A page goes to the head of its list.** -/
theorem attach (R : Ring pool.next pool.back (.slot t) (l.map .page)) (hi : i ∉ l)
    (htype : ∀ j ∈ l, (pool.prev (.page j)).type = type) :
    ∃ pool', pool.attach i t type = some pool' ∧ Relisted t i l (i :: l) pool pool' ∧
      (pool'.prev (.page i)).type = type := by
  have hfirst := R.links.next_eq
  have hhead : (l.map SlabPtr.page).headD (.slot t) ∈ .slot t :: l.map SlabPtr.page := by
    cases l with
    | nil => exact mem_cons_self
    | cons j l => exact mem_cons_of_mem _ mem_cons_self
  generalize hndef : (l.map SlabPtr.page).headD (.slot t) = n at hfirst hhead
  have hn' : n = .slot t ∨ ∃ j ∈ l, n = .page j := SlabInv.mem_ring hhead
  have hin : SlabPtr.page i ≠ n := by
    rintro rfl
    rcases hn' with h | ⟨j, hj, h⟩
    · simp at h
    · rw [SlabPtr.page.injEq] at h
      exact hi (h ▸ hj)
  have hil : SlabPtr.page i ∉ .slot t :: l.map SlabPtr.page := by
    simp [hi]
  rw [SlabPool.attach, hfirst, bind_some]
  refine ⟨_, rfl, ?_, ?_⟩
  · refine ⟨rfl, rfl, rfl, fun _ _ => rfl, fun _ _ => rfl, ?_, ?_, ?_, ?_, ?_⟩
    · intro j hj
      have hji : SlabPtr.page j ≠ .page i := by simpa using hj
      by_cases hjn : SlabPtr.page j = n
      · rcases hn' with hn' | ⟨j', hj', hn'⟩
        · simp [hn'] at hjn
        · rw [hn', SlabPtr.page.injEq] at hjn
          subst hjn
          simp only [← hn', update_self]
          rw [hn', htype j hj']
      · simp only [update_of_ne hjn, update_of_ne hji]
    · intro q hqi hqt _
      simp only [update_of_ne hqt, update_of_ne hqi]
    · intro q hqi hqt hq
      have hqn : q ≠ n := by
        rintro rfl
        rcases hn' with h | ⟨j, hj, h⟩
        · exact hqt h
        · exact hq j hj h
      simp only [update_of_ne hqn, update_of_ne hqi]
    · rw [map_cons]
      refine R.push hil ?_ ?_ ?_ ?_ ?_ ?_
      · simp
      · rw [hndef]
        simp
      · intro q hq
        have hqi : q ≠ .page i := fun h => hil (h ▸ mem_cons_of_mem _ hq)
        have hqt : q ≠ .slot t := by
          rintro rfl
          simp at hq
        simp only [update_of_ne hqt, update_of_ne hqi]
      · simp [SlabPool.back, update_of_ne hin]
      · intro q _ hq
        rw [hndef] at hq
        simp [SlabPool.back, hq]
      · intro q hq hqn
        rw [hndef] at hqn
        have hqi : q ≠ .page i := fun h => hil (h ▸ mem_cons_of_mem _ hq)
        simp only [SlabPool.back, update_of_ne hqn, update_of_ne hqi]
    · intro j hj
      simp [hj]
  · simp [update_of_ne hin]

end Relisted

end Hengine
