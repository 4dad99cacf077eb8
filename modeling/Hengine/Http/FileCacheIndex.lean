import Hengine.Http.FileCache

/-!
# The Index of the File Cache

Three facts about the index hold together: the nodes in the tree are those in the queue,
the counter of the zone is their number, and the counter of each node is the number of
actors that hold it. A node is freed when its counter is zero, so what an actor holds is
never freed under it. `RefsOk` says so of the zone, for any account of who holds what, and
every operation keeps it, with the account moved by what the operation does.

That no two nodes have the same key is another matter. `ngx_http_file_cache_exists` looks
the key up before it inserts a node, but when there was no memory for the node it releases
the lock, lets a node expire, takes the lock again and inserts without looking. Two requests
for one key that both find no memory so insert two nodes.
-/

namespace Hengine

open List Function Option

/-! ### The counters -/

theorem one_lt_countLimit : 1 < countLimit := by
  rw [countLimit]
  decide

theorem incCount_eq {n : ℕ} (h : n + 1 < countLimit) : incCount n = n + 1 := by
  rw [incCount, if_neg (Nat.ne_of_lt h)]

theorem decCount_eq {n : ℕ} (h0 : n ≠ 0) : decCount n = n - 1 := by
  rw [decCount, if_neg h0]

/-- The zone is right, `h` being how many hold each node. -/
structure RefsOk (sh : FileCacheSh) (h : ℕ → ℕ) : Prop where
  nodup : sh.tree.Nodup
  queue : sh.queue.Perm sh.tree
  count : sh.count = sh.tree.length
  refs : ∀ i ∈ sh.tree, (sh.nodes i).count = h i
  fits : ∀ i, h i < countLimit
  held : ∀ i, h i ≠ 0 → i ∈ sh.tree

namespace RefsOk

variable {sh : FileCacheSh} {h : ℕ → ℕ} {i : ℕ} {f : FileCacheNode → FileCacheNode}

theorem empty : RefsOk emptySh fun _ => 0 := by
  refine ⟨by simp [emptySh], by simp [emptySh], by simp [emptySh], by simp [emptySh], ?_, by simp⟩
  intro i
  exact Nat.lt_trans Nat.one_pos one_lt_countLimit

section

variable (ok : RefsOk sh h)
include ok

theorem eq_zero (hi : i ∉ sh.tree) : h i = 0 := by
  by_contra h0
  exact hi (ok.held i h0)

/-- A node is written to, and its counter with it. -/
theorem modify (hi : i ∈ sh.tree) {n : ℕ} (hf : (f (sh.nodes i)).count = n) (hn : n < countLimit) :
    RefsOk (sh.modify i f) (update h i n) := by
  refine ⟨ok.nodup, ok.queue, ok.count, ?_, ?_, ?_⟩
  · intro j hj
    by_cases hji : j = i
    · subst hji
      simpa [FileCacheSh.modify] using hf
    · simp only [FileCacheSh.modify, update_of_ne hji]
      exact ok.refs j hj
  · intro j
    by_cases hji : j = i
    · subst hji
      rwa [update_self]
    · rw [update_of_ne hji]
      exact ok.fits j
  · intro j hj
    by_cases hji : j = i
    · subst hji
      exact hi
    · rw [update_of_ne hji] at hj
      exact ok.held j hj

/-- A change of other fields keeps the references right. -/
theorem modify_same (hi : i ∈ sh.tree) (hf : (f (sh.nodes i)).count = (sh.nodes i).count) :
    RefsOk (sh.modify i f) h := by
  have hn : (sh.nodes i).count = h i := ok.refs i hi
  have := ok.modify hi (hf.trans hn) (ok.fits i)
  rwa [update_eq_self] at this

/-- Taking a node adds one reference. -/
theorem take (hi : i ∈ sh.tree) (hf : (f (sh.nodes i)).count = incCount (sh.nodes i).count)
    (hfit : h i + 1 < countLimit) : RefsOk (sh.modify i f) (moveHold h none (some i)) := by
  rw [moveHold_take]
  refine ok.modify hi ?_ hfit
  rw [hf, ok.refs i hi, incCount_eq hfit]

/-- Releasing a node takes away one reference. -/
theorem release (h0 : h i ≠ 0) (hf : (f (sh.nodes i)).count = decCount (sh.nodes i).count) :
    RefsOk (sh.modify i f) (moveHold h (some i) none) := by
  have hi := ok.held i h0
  have hfits := ok.fits i
  rw [moveHold_release]
  refine ok.modify hi ?_ (by omega)
  rw [hf, ok.refs i hi, decCount_eq h0]

theorem requeue (hi : i ∈ sh.tree) (expire : ℕ) : RefsOk (sh.requeue i expire) h := by
  have hmod : RefsOk (sh.modify i fun n => { n with expire := expire }) h := ok.modify_same hi rfl
  refine ⟨hmod.nodup, ?_, hmod.count, hmod.refs, hmod.fits, hmod.held⟩
  exact (perm_cons_erase (ok.queue.mem_iff.mpr hi)).symm.trans ok.queue

/-- A new node, held by as many as its counter says. -/
theorem insert (hi : i ∉ sh.tree) {n : FileCacheNode} (hn : n.count < countLimit) :
    RefsOk (sh.insert i n) (update h i n.count) := by
  refine ⟨nodup_cons.mpr ⟨hi, ok.nodup⟩, ok.queue.cons i, ?_, ?_, ?_, ?_⟩
  · simp [FileCacheSh.insert, ok.count]
  · intro j hj
    by_cases hji : j = i
    · subst hji
      simp [FileCacheSh.insert]
    · simp only [FileCacheSh.insert, update_of_ne hji]
      exact ok.refs j ((mem_cons.mp hj).resolve_left hji)
  · intro j
    by_cases hji : j = i
    · subst hji
      rwa [update_self]
    · rw [update_of_ne hji]
      exact ok.fits j
  · intro j hj
    by_cases hji : j = i
    · subst hji
      exact mem_cons_self
    · rw [update_of_ne hji] at hj
      exact mem_cons_of_mem i (ok.held j hj)

theorem remove (hi : i ∈ sh.tree) (h0 : h i = 0) : RefsOk (sh.remove i) h := by
  refine ⟨ok.nodup.erase i, ok.queue.erase i, ?_, ?_, ok.fits, ?_⟩
  · simp only [FileCacheSh.remove]
    rw [length_erase_of_mem hi, ok.count]
  · intro j hj
    exact ok.refs j (mem_of_mem_erase hj)
  · intro j hj
    refine (mem_erase_of_ne ?_).mpr (ok.held j hj)
    rintro rfl
    exact hj h0

theorem deleteUnheld (hi : i ∈ sh.tree) : RefsOk (deleteUnheld sh i) h := by
  rw [Hengine.deleteUnheld]
  split
  · rename_i h0
    exact ok.remove hi ((ok.refs i hi).symm.trans h0)
  · exact ok

theorem withSize (size : ℤ) : RefsOk { sh with size := size } h :=
  ⟨ok.nodup, ok.queue, ok.count, ok.refs, ok.fits, ok.held⟩

theorem setWatermark : RefsOk sh.setWatermark h :=
  ⟨ok.nodup, ok.queue, ok.count, ok.refs, ok.fits, ok.held⟩

end

theorem mem_lookup {key : ℕ} (hl : sh.lookup key = some i) :
    i ∈ sh.tree ∧ (sh.nodes i).key = key := by
  refine ⟨mem_of_find?_eq_some hl, ?_⟩
  simpa using find?_some hl

end RefsOk

/-! ### The operations keep the counters -/

/-- An actor in a gap has no node of its own yet. -/
def PhaseOk (x : CacheActor) : Prop :=
  x.phase ≠ .idle → x.ctx.node = none ∧ x.ctx.updated = false

section Refs

variable {inactive : ℕ} {clock : CacheClock} {sh sh' : FileCacheSh} {x x' : CacheActor}
  {op : CacheOp} {h : ℕ → ℕ} {i : ℕ} {c c' : CacheCtx}

theorem CacheActor.held_idle (hx : x.phase = .idle) (hupd : x.ctx.updated = false) :
    x.held = x.ctx.node := by
  simp [held, hx, hupd]

theorem CacheActor.held_none (hx : x.phase = .idle ∨ x.phase = .expiring ∨ x.phase = .retrying)
    (hnode : x.ctx.node = none) : x.held = none := by
  rcases hx with hx | hx | hx <;> simp [held, hx, hnode]

/-- A deletion takes a reference for itself. -/
theorem RefsOk.deleteStart (ok : RefsOk sh h) (hi : i ∈ sh.queue) (h0 : (sh.nodes i).count = 0) :
    RefsOk (deleteStart sh i) (moveHold h none (some i)) := by
  have htree := ok.queue.mem_iff.mp hi
  have hzero : h i = 0 := (ok.refs i htree).symm.trans h0
  have hlimit := one_lt_countLimit
  exact (ok.take htree rfl (by omega)).withSize _

theorem RefsOk.deleteFinish (ok : RefsOk sh h) (h0 : h i ≠ 0) :
    RefsOk (deleteFinish sh i) (moveHold h (some i) none) :=
  (ok.release h0 rfl).deleteUnheld (ok.held i h0)

/-- What an expiry keeps goes over to the count of holds. -/
theorem Expired.refs {r : FileCacheSh × CachePhase} (hr : Expired (RefsOk · h) r)
    (hnode : x.ctx.node = none) :
    RefsOk r.1 (moveHold h none { x with phase := r.2 }.held) := by
  rcases hr with ⟨ok, hphase⟩ | ⟨sh, i, after, ok, hi, h0, _, rfl⟩
  · have hnone : { x with phase := r.2 }.held = none :=
      CacheActor.held_none (by tauto) hnode
    rw [hnone, moveHold_none]
    exact ok
  · exact ok.deleteStart hi h0

/-- A node that a request found, or had already. -/
theorem existsFound_refs (ok : RefsOk sh h) (hi : i ∈ sh.tree)
    (hfit : c.node = none → (sh.nodes i).count + 1 < countLimit)
    (hnode : c.node = none ∨ c.node = some i ∧ h i ≠ 0) (now : ℕ) :
    RefsOk (existsFound now inactive i sh c).2.1 (moveHold h c.node (some i)) := by
  have henter : RefsOk (sh.modify i (existsEnter c)) (moveHold h c.node (some i)) := by
    rcases hnode with hnone | ⟨hsome, h0⟩
    · rw [hnone]
      have hfit := hfit hnone
      rw [ok.refs i hi] at hfit
      exact ok.take hi (by rw [existsEnter, if_pos hnone]; rfl) hfit
    · rw [hsome, moveHold_same (by rintro j ⟨⟩; exact h0)]
      exact ok.modify_same hi (by rw [existsEnter, if_neg (by simp [hsome])])
  have hrequeue : ∀ sh', RefsOk sh' (moveHold h c.node (some i)) →
      RefsOk (sh'.requeue i (now + inactive)) (moveHold h c.node (some i)) := by
    intro sh' ok'
    exact ok'.requeue (ok'.held i (by simp [moveHold])) _
  exact existsFound_rule (P := (RefsOk · (moveHold h c.node (some i)))) henter
    (fun _ _ => henter.modify_same hi rfl) hrequeue

theorem existsNew_refs (ok : RefsOk sh h) (hi : i ∉ sh.tree) (now : ℕ) :
    RefsOk (existsNew now inactive i sh c).1 (moveHold h none (some i)) := by
  rw [moveHold_take, ok.eq_zero hi]
  exact ok.insert hi one_lt_countLimit

theorem FileCacheNode.release_count (c : CacheCtx) (n : FileCacheNode) :
    (n.release c).count = decCount n.count := by
  rw [FileCacheNode.release]
  simp only
  split
  · split <;> rfl
  · rfl

/-- `ngx_http_file_cache_free` lets the node go, and removes it when it is of no use. -/
theorem fileCacheFree_refs (ok : RefsOk sh h) (h0 : h i ≠ 0) :
    RefsOk (fileCacheFree i sh c).1 (moveHold h (some i) none) := by
  have hrel : RefsOk (sh.modify i (.release c)) (moveHold h (some i) none) :=
    ok.release h0 (FileCacheNode.release_count c _)
  rw [fileCacheFree]
  simp only
  split
  · rename_i hcond
    simp only [Bool.and_eq_true, beq_iff_eq] at hcond
    have htree := ok.held i h0
    refine hrel.remove htree ?_
    rw [← hrel.refs i htree]
    simpa [FileCacheSh.modify] using hcond.1.2
  · exact hrel

theorem fileCacheFree_updated : (fileCacheFree i sh c).2.updated = true := by
  rw [fileCacheFree]
  simp only
  split <;> rfl

/-- Reading a stale node touches no reference. -/
theorem readStale_frame (c : CacheCtx) (n : FileCacheNode) :
    (readStale c n).2.2.count = n.count ∧ (readStale c n).2.1.node = c.node ∧
      (readStale c n).2.1.updated = c.updated := by
  rw [readStale]
  split <;> exact ⟨rfl, rfl, rfl⟩

/-- Nor does locking it. -/
theorem fileCacheLock_frame (now : ℕ) (c : CacheCtx) (n : FileCacheNode) :
    (fileCacheLock now c n).2.count = n.count ∧ (fileCacheLock now c n).1.node = c.node ∧
      (fileCacheLock now c n).1.updated = c.updated := by
  rw [fileCacheLock]
  split <;> exact ⟨rfl, rfl, rfl⟩

theorem eq_of_some_eq {α β : Type*} {p : α × β} {a : α} {b : β} (hp : some p = some (a, b)) :
    a = p.1 ∧ b = p.2 := by
  rw [Option.some.inj hp]
  exact ⟨rfl, rfl⟩

/-- **The operations of a request that holds a node.** It still holds it or has let it go. -/
theorem heldStep_refs (ok : RefsOk sh h) (h0 : h i ≠ 0) (hc : c.node = some i)
    (hupd : c.updated = false) (hstep : heldStep clock sh c i op = some (sh', c')) :
    RefsOk sh' (moveHold h (some i) (if c'.updated then none else c'.node)) := by
  have htree := ok.held i h0
  have hsame : moveHold h (some i) (some i) = h := moveHold_same (by rintro j ⟨⟩; exact h0)
  cases op with
  | coldRead uniq fsSize bodyStart =>
    obtain ⟨rfl, rfl⟩ := eq_of_some_eq hstep
    rw [fileCacheColdRead]
    simp only
    split
    · simpa [hc, hupd, hsame] using ok
    · have hread : ∀ c, RefsOk (sh.modify i (.coldRead c)) h := fun c => ok.modify_same htree rfl
      simpa [hc, hupd, hsame] using (hread _).withSize _
  | readStale =>
    obtain ⟨rfl, rfl⟩ := eq_of_some_eq hstep
    obtain ⟨hcount, hnode, hupd'⟩ := readStale_frame c (sh.nodes i)
    simp only [fileCacheReadStale, hnode, hupd', hc, hupd]
    simpa [hsame] using ok.modify_same htree hcount
  | lock =>
    obtain ⟨rfl, rfl⟩ := eq_of_some_eq hstep
    obtain ⟨hcount, hnode, hupd'⟩ := fileCacheLock_frame clock.msec c (sh.nodes i)
    simp only [fileCacheLockNode, hnode, hupd', hc, hupd]
    simpa [hsame] using ok.modify_same htree hcount
  | respond error validSec validMsec bodyStart =>
    obtain ⟨rfl, rfl⟩ := eq_of_some_eq hstep
    simpa [CacheCtx.respond, hc, hupd, hsame] using ok
  | reopen variant =>
    have hleave : RefsOk (sh.modify i .leave) (moveHold h (some i) none) := ok.release h0 rfl
    rw [heldStep, fileCacheReopen] at hstep
    split at hstep
    · cases hstep
    · obtain ⟨rfl, rfl⟩ := eq_of_some_eq hstep
      simpa [hupd] using hleave
  | updateVariant variant =>
    have hleave : RefsOk (sh.modify i .leaveVariant) (moveHold h (some i) none) :=
      ok.release h0 rfl
    rw [heldStep, fileCacheUpdateVariant] at hstep
    split at hstep
    · cases hstep
    · obtain ⟨rfl, rfl⟩ := eq_of_some_eq hstep
      simpa [hupd] using hleave
  | update file =>
    obtain ⟨rfl, rfl⟩ := eq_of_some_eq hstep
    have hupdate : RefsOk (sh.modify i (.update c file)) (moveHold h (some i) none) :=
      ok.release h0 rfl
    exact hupdate.withSize _
  | free =>
    obtain ⟨rfl, rfl⟩ := eq_of_some_eq hstep
    rw [fileCacheFree_updated, if_pos rfl]
    exact fileCacheFree_refs ok h0
  | lookup _ | retry _ | forcedExpire | expire _ | finishDelete => cases hstep

theorem PhaseOk.of_node (hnode : x.ctx.node = none) (hupd : x.ctx.updated = false)
    (phase : CachePhase) : PhaseOk { x with phase := phase } := fun _ => ⟨hnode, hupd⟩

/-- **One operation of an actor keeps the counters right.** -/
theorem ActorMove.refs (hm : ActorMove inactive clock sh x op sh' x') (ok : RefsOk sh h)
    (hphase : PhaseOk x) (hheld : ∀ i, x.held = some i → h i ≠ 0) (hfit : CountFits sh x op) :
    RefsOk sh' (moveHold h x.held x'.held) ∧ PhaseOk x' := by
  have hrequeue : ∀ (h : ℕ → ℕ) (sh : FileCacheSh) (i : ℕ), RefsOk sh h → i ∈ sh.queue →
      RefsOk (sh.requeue i (clock.time + inactive)) h := fun h sh i ok hi =>
    ok.requeue (ok.queue.mem_iff.mp hi) _
  have hremove : ∀ (h : ℕ → ℕ) (sh : FileCacheSh) (i : ℕ), RefsOk sh h → i ∈ sh.queue →
      (sh.nodes i).count = 0 → (sh.nodes i).fileExists = false → RefsOk (sh.remove i) h := by
    intro h sh i ok hi h0 _
    have htree := ok.queue.mem_iff.mp hi
    exact ok.remove htree ((ok.refs i htree).symm.trans h0)
  cases hm with
  | @found i alloc hop hidle hupd hi =>
    rw [CacheActor.held_idle hidle hupd] at hheld ⊢
    have hnode : x.ctx.node = none ∧ sh.lookup x.ctx.key = some i ∨ x.ctx.node = some i := by
      rcases or_eq_some_iff.mp hi with hs | ⟨hn, hs⟩
      · exact Or.inr hs
      · exact Or.inl ⟨hn, hs⟩
    have htree : i ∈ sh.tree := by
      rcases hnode with ⟨_, hl⟩ | hs
      · exact (RefsOk.mem_lookup hl).1
      · exact ok.held i (hheld i hs)
    have hfit' : x.ctx.node = none → (sh.nodes i).count + 1 < countLimit := by
      intro hn
      rcases hnode with ⟨_, hl⟩ | hs
      · rw [hop] at hfit
        exact hfit i hl hn
      · rw [hn] at hs
        cases hs
    have hcase : x.ctx.node = none ∨ x.ctx.node = some i ∧ h i ≠ 0 := by
      rcases hnode with ⟨hn, _⟩ | hs
      · exact Or.inl hn
      · exact Or.inr ⟨hs, hheld i hs⟩
    obtain ⟨hnode', hupd'⟩ := existsFound_ctx clock.time inactive i sh x.ctx
    refine ⟨?_, fun hne => absurd hidle hne⟩
    rw [CacheActor.held_idle (by exact hidle) (by exact hupd'.trans hupd)]
    simp only [hnode']
    exact existsFound_refs ok htree hfit' hcase clock.time
  | @inserted i hwhen hi =>
    have hnone : x.held = none ∧ x.ctx.updated = false := by
      rcases hwhen with ⟨_, hidle, hupd, hn, _⟩ | ⟨_, hretry⟩
      · exact ⟨CacheActor.held_none (Or.inl hidle) hn, hupd⟩
      · obtain ⟨hn, hupd⟩ := hphase (by simp [hretry])
        exact ⟨CacheActor.held_none (Or.inr (Or.inr hretry)) hn, hupd⟩
    refine ⟨?_, fun hne => absurd rfl hne⟩
    have hnew : CacheActor.held
        { ctx := (existsNew clock.time inactive i sh x.ctx).2, phase := .idle, rc := .declined }
        = some i := CacheActor.held_idle rfl hnone.2
    rw [hnone.1, hnew]
    exact existsNew_refs ok hi clock.time
  | noMemory hop hidle hupd hn =>
    rw [CacheActor.held_none (Or.inl hidle) hn]
    rw [CacheActor.held_none (x := { x with phase := .expiring }) (Or.inr (Or.inl rfl)) hn,
      moveHold_none]
    exact ⟨ok.setWatermark, PhaseOk.of_node hn hupd _⟩
  | stillNoMemory hop hretry =>
    obtain ⟨hn, hupd⟩ := hphase (by simp [hretry])
    rw [CacheActor.held_none (Or.inr (Or.inr hretry)) hn,
      CacheActor.held_none (x := { x with rc := .error, phase := .idle }) (Or.inl rfl) hn,
      moveHold_none]
    exact ⟨ok, fun hne => absurd rfl hne⟩
  | @forced after hop hwhen =>
    have hnone : x.held = none ∧ x.ctx.node = none ∧ x.ctx.updated = false := by
      rcases hwhen with hexp | ⟨hidle, hupd, hn⟩
      · obtain ⟨hn, hupd⟩ := hphase (by simp [hexp])
        exact ⟨CacheActor.held_none (Or.inr (Or.inl hexp)) hn, hn, hupd⟩
      · exact ⟨CacheActor.held_none (Or.inl hidle) hn, hn, hupd⟩
    rw [hnone.1]
    exact ⟨Expired.refs (fileCacheForcedExpire_expired (hrequeue h) (hremove h) after ok)
      hnone.2.1, PhaseOk.of_node hnone.2.1 hnone.2.2 _⟩
  | @expired files hop hidle hupd hn =>
    rw [CacheActor.held_none (Or.inl hidle) hn]
    exact ⟨Expired.refs (fileCacheExpire_expired (hrequeue h) (hremove h) _ files ok) hn,
      PhaseOk.of_node hn hupd _⟩
  | @finished i after hop hrem =>
    obtain ⟨hn, hupd⟩ := hphase (by simp [hrem])
    have hx : x.held = some i := by simp [CacheActor.held, hrem]
    have hfinish := ok.deleteFinish (hheld i hx)
    rw [hx, ← moveHold_trans]
    exact ⟨Expired.refs (afterDelete_expired (hrequeue _) (hremove _) after hfinish) hn,
      PhaseOk.of_node hn hupd _⟩
  | @held i sh' c hidle hupd hn hstep =>
    rw [CacheActor.held_idle hidle hupd] at hheld ⊢
    have hx : { x with ctx := c }.held = if c.updated then none else c.node := by
      simp [CacheActor.held, hidle]
    refine ⟨?_, fun hne => absurd hidle hne⟩
    rw [hx, hn]
    exact heldStep_refs ok (hheld i hn) hn hupd hstep

end Refs

/-! ### Keys -/

/-- Different nodes have different keys. -/
def KeysOk (sh : FileCacheSh) : Prop :=
  (sh.tree.map fun i => (sh.nodes i).key).Nodup

/-- No node comes and no key changes. -/
structure Shrinks (sh sh' : FileCacheSh) : Prop where
  tree : sh'.tree.Sublist sh.tree
  key : ∀ i, (sh'.nodes i).key = (sh.nodes i).key

namespace Shrinks

variable {sh sh' sh'' : FileCacheSh} {i : ℕ} {f : FileCacheNode → FileCacheNode}

theorem refl (sh : FileCacheSh) : Shrinks sh sh := ⟨List.Sublist.refl _, fun _ => rfl⟩

section

variable (h : Shrinks sh sh')
include h

theorem trans (h' : Shrinks sh' sh'') : Shrinks sh sh'' :=
  ⟨h'.tree.trans h.tree, fun i => (h'.key i).trans (h.key i)⟩

theorem modify (hf : (f (sh'.nodes i)).key = (sh'.nodes i).key) : Shrinks sh (sh'.modify i f) := by
  refine h.trans ⟨List.Sublist.refl _, ?_⟩
  intro j
  by_cases hji : j = i
  · subst hji
    simpa [FileCacheSh.modify] using hf
  · simp only [FileCacheSh.modify, update_of_ne hji]

theorem requeue (i expire : ℕ) : Shrinks sh (sh'.requeue i expire) := by
  have hmod : Shrinks sh (sh'.modify i fun n => { n with expire := expire }) := h.modify rfl
  exact ⟨hmod.tree, hmod.key⟩

theorem withSize (size : ℤ) : Shrinks sh { sh' with size := size } :=
  ⟨h.tree, h.key⟩

theorem remove (i : ℕ) : Shrinks sh (sh'.remove i) :=
  ⟨erase_sublist.trans h.tree, h.key⟩

theorem deleteStart (i : ℕ) : Shrinks sh (deleteStart sh' i) := by
  have hmod : Shrinks sh
      (sh'.modify i fun n => { n with count := incCount n.count, deleting := true }) := h.modify rfl
  exact hmod.withSize _

/-- The end of a deletion only takes nodes away. -/
theorem deleteFinish (i : ℕ) : Shrinks sh (deleteFinish sh' i) := by
  have hmod : Shrinks sh
      (sh'.modify i fun n => { n with count := decCount n.count, deleting := false }) :=
    h.modify rfl
  rw [Hengine.deleteFinish, Hengine.deleteUnheld]
  split
  · exact hmod.remove i
  · exact hmod

end

theorem expired {r : FileCacheSh × CachePhase} (h : Expired (Shrinks sh) r) : Shrinks sh r.1 := by
  rcases h with ⟨h, _⟩ | ⟨sh', i, after, h, _, _, _, rfl⟩
  · exact h
  · exact h.deleteStart i

theorem keys (h : Shrinks sh sh') (hkeys : KeysOk sh) : KeysOk sh' := by
  rw [KeysOk] at hkeys ⊢
  have hmap : (sh'.tree.map fun i => (sh'.nodes i).key) = sh'.tree.map fun i => (sh.nodes i).key :=
    map_congr_left fun i _ => h.key i
  rw [hmap]
  exact hkeys.sublist (h.tree.map _)

end Shrinks

/-- A node whose key was not found. -/
theorem KeysOk.insert {sh : FileCacheSh} {i : ℕ} {n : FileCacheNode} (hkeys : KeysOk sh)
    (hi : i ∉ sh.tree) (hn : sh.lookup n.key = none) : KeysOk (sh.insert i n) := by
  have hother : ∀ j ∈ sh.tree, ((sh.insert i n).nodes j).key = (sh.nodes j).key := by
    intro j hj
    simp only [FileCacheSh.insert]
    rw [update_of_ne]
    rintro rfl
    exact hi hj
  have hself : ((sh.insert i n).nodes i).key = n.key := by simp [FileCacheSh.insert]
  rw [KeysOk, FileCacheSh.insert] at *
  simp only [map_cons, nodup_cons]
  rw [map_congr_left hother, hself]
  refine ⟨?_, hkeys⟩
  intro hmem
  obtain ⟨j, hj, hkey⟩ := mem_map.mp hmem
  exact find?_eq_none.mp hn j hj (by simpa using hkey)

/-- No node with the key has come to the tree when a request tries again to insert one. -/
def RetryFresh (sh : FileCacheSh) (x : CacheActor) : CacheOp → Prop
  | .retry (some _) => sh.lookup x.ctx.key = none
  | _ => True

instance RetryFresh.decidable (sh : FileCacheSh) (x : CacheActor) :
    (op : CacheOp) → Decidable (RetryFresh sh x op)
  | .retry (some _) => inferInstanceAs (Decidable (sh.lookup x.ctx.key = none))
  | .retry none | .lookup _ | .forcedExpire | .expire _ | .finishDelete | .coldRead ..
  | .readStale | .lock | .respond .. | .reopen _ | .updateVariant _ | .update _ | .free =>
    .isTrue trivial

section Keys

variable {inactive : ℕ} {clock : CacheClock} {sh sh' : FileCacheSh} {x x' : CacheActor}
  {op : CacheOp} {i : ℕ} {c c' : CacheCtx}

theorem FileCacheNode.release_key (c : CacheCtx) (n : FileCacheNode) :
    (n.release c).key = n.key := by
  rw [FileCacheNode.release]
  split
  · split <;> rfl
  · rfl

theorem readStale_key (c : CacheCtx) (n : FileCacheNode) : (readStale c n).2.2.key = n.key := by
  rw [readStale]
  split <;> rfl

theorem fileCacheLock_key (now : ℕ) (c : CacheCtx) (n : FileCacheNode) :
    (fileCacheLock now c n).2.key = n.key := by
  rw [fileCacheLock]
  split <;> rfl

/-- The operations of a request that holds a node. -/
theorem heldStep_shrinks (hstep : heldStep clock sh c i op = some (sh', c')) : Shrinks sh sh' := by
  cases op with
  | coldRead uniq fsSize bodyStart =>
    obtain ⟨rfl, rfl⟩ := eq_of_some_eq hstep
    rw [fileCacheColdRead]
    split
    · exact Shrinks.refl sh
    · have hread : ∀ c, Shrinks sh (sh.modify i (.coldRead c)) := fun c =>
        (Shrinks.refl sh).modify rfl
      exact (hread _).withSize _
  | readStale =>
    obtain ⟨rfl, rfl⟩ := eq_of_some_eq hstep
    have hread : Shrinks sh (sh.modify i fun _ => (readStale c (sh.nodes i)).2.2) :=
      (Shrinks.refl sh).modify (readStale_key c _)
    exact hread
  | lock =>
    obtain ⟨rfl, rfl⟩ := eq_of_some_eq hstep
    have hlock : Shrinks sh (sh.modify i fun _ => (fileCacheLock clock.msec c (sh.nodes i)).2) :=
      (Shrinks.refl sh).modify (fileCacheLock_key _ c _)
    exact hlock
  | respond error validSec validMsec bodyStart =>
    rw [(eq_of_some_eq hstep).1]
    exact Shrinks.refl sh
  | reopen variant =>
    have hleave : Shrinks sh (sh.modify i .leave) := (Shrinks.refl sh).modify rfl
    rw [heldStep, fileCacheReopen] at hstep
    split at hstep
    · cases hstep
    · obtain ⟨rfl, rfl⟩ := eq_of_some_eq hstep
      exact hleave
  | updateVariant variant =>
    have hleave : Shrinks sh (sh.modify i .leaveVariant) := (Shrinks.refl sh).modify rfl
    rw [heldStep, fileCacheUpdateVariant] at hstep
    split at hstep
    · cases hstep
    · obtain ⟨rfl, rfl⟩ := eq_of_some_eq hstep
      exact hleave
  | update file =>
    obtain ⟨rfl, rfl⟩ := eq_of_some_eq hstep
    have hupdate : Shrinks sh (sh.modify i (.update c file)) := (Shrinks.refl sh).modify rfl
    exact hupdate.withSize _
  | free =>
    obtain ⟨rfl, rfl⟩ := eq_of_some_eq hstep
    have hrel : Shrinks sh (sh.modify i (.release c)) :=
      (Shrinks.refl sh).modify (FileCacheNode.release_key c _)
    rw [fileCacheFree]
    split
    · exact hrel.remove i
    · exact hrel
  | lookup _ | retry _ | forcedExpire | expire _ | finishDelete => cases hstep

/-- **One operation of an actor keeps the keys different**, unless it inserts a key that has
come to the tree in the meantime. -/
theorem ActorMove.keys (hm : ActorMove inactive clock sh x op sh' x') (hkeys : KeysOk sh)
    (hretry : RetryFresh sh x op) : KeysOk sh' := by
  have hrequeue : ∀ sh₀ (sh : FileCacheSh) (i : ℕ), Shrinks sh₀ sh → i ∈ sh.queue →
      Shrinks sh₀ (sh.requeue i (clock.time + inactive)) := fun _ _ i h _ => h.requeue i _
  have hremove : ∀ sh₀ (sh : FileCacheSh) (i : ℕ), Shrinks sh₀ sh → i ∈ sh.queue →
      (sh.nodes i).count = 0 → (sh.nodes i).fileExists = false → Shrinks sh₀ (sh.remove i) :=
    fun _ _ i h _ _ _ => h.remove i
  cases hm with
  | @found i alloc hop hidle hupd hi =>
    have henter : Shrinks sh (sh.modify i (existsEnter x.ctx)) := by
      refine (Shrinks.refl sh).modify ?_
      rw [existsEnter]
      split <;> rfl
    have hrenew : Shrinks sh ((sh.modify i (existsEnter x.ctx)).modify i .renew) :=
      henter.modify rfl
    refine Shrinks.keys ?_ hkeys
    exact existsFound_rule (P := Shrinks sh) henter (fun _ _ => hrenew)
      fun _ h => h.requeue i _
  | @inserted i hwhen hi =>
    refine hkeys.insert hi ?_
    rcases hwhen with ⟨_, _, _, _, hl⟩ | ⟨hop, _⟩
    · exact hl
    · rw [hop] at hretry
      exact hretry
  | noMemory => exact hkeys
  | stillNoMemory => exact hkeys
  | @forced after =>
    exact (Shrinks.expired (fileCacheForcedExpire_expired (hrequeue sh) (hremove sh) after
      (Shrinks.refl sh))).keys hkeys
  | @expired files =>
    exact (Shrinks.expired (fileCacheExpire_expired (hrequeue sh) (hremove sh) _ files
      (Shrinks.refl sh))).keys hkeys
  | @finished i after =>
    exact (Shrinks.expired (afterDelete_expired (hrequeue sh) (hremove sh) after
      ((Shrinks.refl sh).deleteFinish i))).keys hkeys
  | @held i sh' c hidle hupd hn hstep => exact (heldStep_shrinks hstep).keys hkeys

end Keys

/-! ### The loader -/

/-- A file that the loader adds. -/
theorem fileCacheAdd_refs {sh : FileCacheSh} {h : ℕ → ℕ} (ok : RefsOk sh h) {alloc : Option ℕ}
    (halloc : allocFree sh alloc = true) (now inactive key fsSize : ℕ) :
    RefsOk (fileCacheAdd now inactive key fsSize alloc sh) h := by
  rw [fileCacheAdd.eq_def]
  split
  · rename_i i hl
    exact ok.requeue (RefsOk.mem_lookup hl).1 _
  · exact ok.setWatermark
  · rename_i i hl
    have hi : i ∉ sh.tree := by simpa [allocFree] using halloc
    have hsame : update h i 0 = h := by
      conv_rhs => rw [← update_eq_self i h, ok.eq_zero hi]
    have hnew : RefsOk (sh.insert i
        { key := key, uses := 1, fileExists := true, fsSize := fsSize, expire := now + inactive })
        (update h i 0) :=
      ok.insert hi (Nat.lt_trans Nat.one_pos one_lt_countLimit)
    rw [hsame] at hnew
    exact hnew.withSize _

/-- Its key is new. -/
theorem fileCacheAdd_keys {sh : FileCacheSh} (hkeys : KeysOk sh) {alloc : Option ℕ}
    (halloc : allocFree sh alloc = true) (now inactive key fsSize : ℕ) :
    KeysOk (fileCacheAdd now inactive key fsSize alloc sh) := by
  rw [fileCacheAdd.eq_def]
  split
  · rename_i i hl
    exact ((Shrinks.refl sh).requeue i _).keys hkeys
  · exact hkeys
  · rename_i i hl
    have hi : i ∉ sh.tree := by simpa [allocFree] using halloc
    exact hkeys.insert hi
      (n := { key := key, uses := 1, fileExists := true, fsSize := fsSize, expire := now + inactive })
      hl

/-! ### Runs -/

/-- Who holds what is counted right. -/
structure CacheRefs (s : CacheState) : Prop where
  refs : RefsOk s.sh (holders CacheActor.held s.actors)
  phases : ∀ x ∈ s.actors, PhaseOk x

/-- **One step keeps the counters right.** -/
theorem CacheRefs.step {inactive : ℕ} {s s' : CacheState} {e : CacheEvent} (hs : CacheRefs s)
    (hfit : OnActor CountFits s e) (hstep : cacheStep inactive s e = some s') : CacheRefs s' := by
  cases e with
  | clock clock =>
    cases hstep
    exact ⟨hs.refs, hs.phases⟩
  | start key minUses lockAge bufferSize =>
    cases hstep
    refine ⟨?_, ?_⟩
    · simp only
      rw [holders_concat]
      · exact hs.refs
      · rfl
    · intro x hx
      rcases mem_append.mp hx with hx | hx
      · exact hs.phases x hx
      · rw [mem_singleton.mp hx]
        exact fun hne => absurd rfl hne
  | add key fsSize alloc =>
    rw [cacheStep] at hstep
    split at hstep
    · rename_i halloc
      cases hstep
      exact ⟨fileCacheAdd_refs hs.refs halloc _ _ _ _, hs.phases⟩
    · cases hstep
  | act k op =>
    rw [cacheStep] at hstep
    split at hstep
    · cases hstep
    · rename_i x hx
      obtain ⟨⟨sh', x'⟩, hact, rfl⟩ := map_eq_some_iff.mp hstep
      have hmem : x ∈ s.actors := mem_of_getElem? hx
      obtain ⟨ok, hphase⟩ := (actorStep_cases hact).refs hs.refs (hs.phases x hmem)
        (fun i hi => holders_pos hmem hi) (hfit x hx)
      refine ⟨?_, ?_⟩
      · simp only
        rw [holders_set hx]
        exact ok
      · intro y hy
        rcases mem_or_eq_of_mem_set hy with hy | rfl
        · exact hs.phases y hy
        · exact hphase

/-- **One step keeps the keys different**, under the condition on a second try. -/
theorem cacheStep_keys {inactive : ℕ} {s s' : CacheState} {e : CacheEvent} (hkeys : KeysOk s.sh)
    (hretry : OnActor RetryFresh s e) (hstep : cacheStep inactive s e = some s') :
    KeysOk s'.sh := by
  cases e with
  | clock clock =>
    cases hstep
    exact hkeys
  | start key minUses lockAge bufferSize =>
    cases hstep
    exact hkeys
  | add key fsSize alloc =>
    rw [cacheStep] at hstep
    split at hstep
    · rename_i halloc
      cases hstep
      exact fileCacheAdd_keys hkeys halloc _ _ _ _
    · cases hstep
  | act k op =>
    rw [cacheStep] at hstep
    split at hstep
    · cases hstep
    · rename_i x hx
      obtain ⟨⟨sh', x'⟩, hact, rfl⟩ := map_eq_some_iff.mp hstep
      exact (actorStep_cases hact).keys hkeys (hretry x hx)

/-- The index is right: the nodes in the tree have different keys and are those in the queue,
the counter of the zone is their number, the counter of a node is the number of those who hold
it, and what is held has not been freed. -/
structure IndexOk (s : CacheState) : Prop where
  keys : (s.sh.tree.map fun i => (s.sh.nodes i).key).Nodup
  queue : ∀ i, i ∈ s.sh.queue ↔ i ∈ s.sh.tree
  queueNodup : s.sh.queue.Nodup
  count : s.sh.count = s.sh.tree.length
  refs : ∀ i ∈ s.sh.tree, (s.sh.nodes i).count = holders CacheActor.held s.actors i
  held : ∀ x ∈ s.actors, ∀ i, x.held = some i → i ∈ s.sh.tree

/-- **The index** of a cache with right references is right. -/
theorem CacheRefs.indexOk {s : CacheState} (hs : CacheRefs s) (hkeys : KeysOk s.sh) : IndexOk s where
  keys := hkeys
  queue _ := hs.refs.queue.mem_iff
  queueNodup := hs.refs.queue.nodup_iff.mpr hs.refs.nodup
  count := hs.refs.count
  refs := hs.refs.refs
  held _ hx i hi := hs.refs.held i (holders_pos hx hi)

theorem CacheRefs.init {s : CacheState} (h : s.sh = emptySh ∧ s.actors = []) : CacheRefs s := by
  obtain ⟨hsh, hactors⟩ := h
  refine ⟨?_, by simp [hactors]⟩
  rw [hsh, hactors]
  exact RefsOk.empty

/-- **The index of the cache is right.** Along every run in which no node of the same key has
come to the tree when a request tries again to insert one, and no node is held by as many as its
counter can count, the index is right in every state. -/
theorem cacheIndex_ok {inactive : ℕ} {tr : List (CacheState × CacheEvent)} {s : CacheState}
    (hrun : (cacheMachine inactive).Run tr s)
    (hretry : ∀ p ∈ tr, OnActor RetryFresh p.1 p.2)
    (hfit : ∀ p ∈ tr, OnActor CountFits p.1 p.2) : Machine.Everywhere IndexOk tr s := by
  have hboth := hrun.invariant_of_steps (P := fun s => CacheRefs s ∧ KeysOk s.sh)
    (C := fun s e => OnActor RetryFresh s e ∧ OnActor CountFits s e)
    (fun s h => ⟨CacheRefs.init h, by rw [h.1]; simp [KeysOk, emptySh]⟩)
    (fun s e s' h hC hstep => ⟨h.1.step hC.2 hstep, cacheStep_keys h.2 hC.1 hstep⟩)
    (fun p hp => ⟨hretry p hp, hfit p hp⟩)
  exact ⟨fun p hp => (hboth.1 p hp).1.indexOk (hboth.1 p hp).2, hboth.2.1.indexOk hboth.2.2⟩

/-- The cache at first. -/
def emptyCache : CacheState := ⟨emptySh, ⟨1000, 0⟩, []⟩

/-- A request that has no memory for its node until a node has expired. -/
def retryEvents : List CacheEvent :=
  [.add 1 5 (some 0), .start 7 1 5 0, .act 0 (.lookup none), .act 0 .forcedExpire,
    .act 0 .finishDelete, .act 0 (.retry (some 0))]

/-- The index is right when it is done. -/
theorem cacheIndex_ok_retry : ∃ tr s, (cacheMachine 600).Run tr s ∧ s.sh.tree = [0] ∧
    Machine.Everywhere IndexOk tr s := by
  have hreplay : (Machine.replay (cacheStep 600) [] emptyCache retryEvents).map (fun r =>
      (decide (∀ p ∈ r.1, OnActor RetryFresh p.1 p.2), decide (∀ p ∈ r.1, OnActor CountFits p.1 p.2),
        r.2.sh.tree)) = some (true, true, [0]) := by
    decide
  obtain ⟨⟨tr, s⟩, hreplay, hall⟩ := map_eq_some_iff.mp hreplay
  simp only [Prod.mk.injEq, decide_eq_true_eq] at hall
  have hrun : (cacheMachine 600).Run tr s := Machine.run_of_replay _ ⟨rfl, rfl⟩ hreplay
  exact ⟨tr, s, hrun, hall.2.2, cacheIndex_ok hrun hall.1 hall.2.1⟩

/-- Two requests for one key that both have no memory for its node: each lets a node expire and
tries again. -/
def duplicateEvents : List CacheEvent :=
  [.add 1 5 (some 0), .add 2 5 (some 1), .start 7 1 5 0, .start 7 1 5 0,
    .act 0 (.lookup none), .act 1 (.lookup none),
    .act 0 .forcedExpire, .act 0 .finishDelete, .act 1 .forcedExpire, .act 1 .finishDelete,
    .act 0 (.retry (some 0)), .act 1 (.retry (some 1))]

/-- **One key twice.** -/
theorem cacheIndex_duplicate : ∃ tr s, (cacheMachine 600).Run tr s ∧
    s.sh.tree.map (fun i => (s.sh.nodes i).key) = [7, 7] ∧ ¬ IndexOk s := by
  have hreplay : (Machine.replay (cacheStep 600) [] emptyCache duplicateEvents).map (fun r =>
      r.2.sh.tree.map fun i => (r.2.sh.nodes i).key) = some [7, 7] := by
    decide
  obtain ⟨⟨tr, s⟩, hreplay, hkeys⟩ := map_eq_some_iff.mp hreplay
  have hrun : (cacheMachine 600).Run tr s := Machine.run_of_replay _ ⟨rfl, rfl⟩ hreplay
  refine ⟨tr, s, hrun, hkeys, fun hok => ?_⟩
  have hnodup := hok.keys
  rw [hkeys] at hnodup
  simp at hnodup

end Hengine
