import Hengine.Http.FileCacheIndex

/-!
# The Size of the File Cache

`sh->size` is the total by which the manager enforces `max_size`. It should be the sum of
`fs_size` over the nodes that have a file. Two operations break it. A deletion takes the size
of the node off the total before it removes the file, and a request that comes to the node
while the file is being removed keeps the node in the tree, with its size; the size is then
taken off again when the request has updated the entry or when the node is deleted once more.
And an entry with an error that has expired starts again from nothing: if it had a file from
before the error, its size stays in the total for ever.

Where neither happens, the total is right: while a file is being removed the node counts for
nothing, and every operation changes the total by what it changes of the sum.
-/

namespace Hengine

open List Function Option

/-! ### The sum -/

/-- What a node counts for. -/
def diskSize (n : FileCacheNode) : ℤ := if n.fileExists && !n.deleting then n.fsSize else 0

/-- The sum over the nodes in the tree. -/
def sizeSum (sh : FileCacheSh) : ℤ := (sh.tree.map fun i => diskSize (sh.nodes i)).sum

section Sum

variable {sh : FileCacheSh} {i : ℕ} {f : FileCacheNode → FileCacheNode}

theorem diskSize_nonneg (n : FileCacheNode) : 0 ≤ diskSize n := by
  rw [diskSize]
  split
  · exact Int.natCast_nonneg _
  · exact Int.le_refl 0

theorem sizeSum_nonneg (sh : FileCacheSh) : 0 ≤ sizeSum sh := by
  refine sum_nonneg ?_
  intro m hm
  obtain ⟨i, _, rfl⟩ := mem_map.mp hm
  exact diskSize_nonneg _

/-- The size of all nodes is that of one and of the others. -/
theorem sizeSum_erase (sh : FileCacheSh) (hi : i ∈ sh.tree) :
    sizeSum sh = diskSize (sh.nodes i)
      + ((sh.tree.erase i).map fun j => diskSize (sh.nodes j)).sum := by
  rw [sizeSum, ((perm_cons_erase hi).map _).sum_eq, map_cons, sum_cons]

/-- The sizes of the other nodes stay. -/
theorem sizeSum_others (hnodup : sh.tree.Nodup) :
    ((sh.tree.erase i).map fun j => diskSize ((sh.modify i f).nodes j)).sum
      = ((sh.tree.erase i).map fun j => diskSize (sh.nodes j)).sum := by
  congr 1
  refine map_congr_left fun j hj => ?_
  have hji : j ≠ i := (hnodup.mem_erase_iff.mp hj).1
  simp only [FileCacheSh.modify, update_of_ne hji]

/-- The sum after one node has changed. -/
theorem sizeSum_modify (hnodup : sh.tree.Nodup) (hi : i ∈ sh.tree) :
    sizeSum (sh.modify i f) = sizeSum sh - diskSize (sh.nodes i) + diskSize (f (sh.nodes i)) := by
  have hself : (sh.modify i f).nodes i = f (sh.nodes i) := by simp [FileCacheSh.modify]
  rw [sizeSum_erase (sh.modify i f) hi, sizeSum_erase sh hi, hself]
  have hothers := sizeSum_others (i := i) (f := f) hnodup
  simp only [FileCacheSh.modify] at hothers ⊢
  rw [hothers]
  omega

theorem sizeSum_remove (hi : i ∈ sh.tree) :
    sizeSum (sh.remove i) = sizeSum sh - diskSize (sh.nodes i) := by
  rw [sizeSum_erase sh hi]
  simp only [sizeSum, FileCacheSh.remove]
  omega

/-- The sum with one node more. -/
theorem sizeSum_insert (hi : i ∉ sh.tree) (n : FileCacheNode) :
    sizeSum (sh.insert i n) = diskSize n + sizeSum sh := by
  have hothers : (sh.tree.map fun j => diskSize ((sh.insert i n).nodes j))
      = sh.tree.map fun j => diskSize (sh.nodes j) := by
    refine map_congr_left fun j hj => ?_
    simp only [FileCacheSh.insert]
    rw [update_of_ne]
    rintro rfl
    exact hi hj
  simp only [sizeSum, FileCacheSh.insert, map_cons, sum_cons, update_self] at *
  rw [hothers]

end Sum

/-! ### The total and the sum -/

/-- The total is right, `g` being how many are deleting each node. -/
structure SizeOk (sh : FileCacheSh) (g : ℕ → ℕ) : Prop where
  size : sh.size = sizeSum sh
  noFile : ∀ i ∈ sh.tree, (sh.nodes i).fileExists = false →
    (sh.nodes i).fsSize = 0 ∧ (sh.nodes i).deleting = false
  deleting : ∀ i ∈ sh.tree, (sh.nodes i).deleting = true ↔ g i ≠ 0

/-- What the size of a node depends on. -/
def SameSize (n n' : FileCacheNode) : Prop :=
  n'.fileExists = n.fileExists ∧ n'.deleting = n.deleting ∧ n'.fsSize = n.fsSize

theorem SameSize.diskSize_eq {n n' : FileCacheNode} (h : SameSize n n') :
    diskSize n' = diskSize n := by
  obtain ⟨hexists, hdeleting, hsize⟩ := h
  rw [diskSize, diskSize, hexists, hdeleting, hsize]

namespace SizeOk

variable {sh : FileCacheSh} {g : ℕ → ℕ} {i : ℕ} {f : FileCacheNode → FileCacheNode}

theorem empty : SizeOk emptySh fun _ => 0 := by
  refine ⟨rfl, ?_, ?_⟩ <;> simp [emptySh]

/-- A node is written to, and the total with it. -/
theorem modify (ok : SizeOk sh g) (hnodup : sh.tree.Nodup) (hi : i ∈ sh.tree) (size : ℤ)
    (hsize : size = sh.size - diskSize (sh.nodes i) + diskSize (f (sh.nodes i)))
    (hfile : (f (sh.nodes i)).fileExists = false →
      (f (sh.nodes i)).fsSize = 0 ∧ (f (sh.nodes i)).deleting = false) {m : ℕ}
    (hdel : (f (sh.nodes i)).deleting = true ↔ m ≠ 0) :
    SizeOk { sh.modify i f with size := size } (update g i m) := by
  have hself : (sh.modify i f).nodes i = f (sh.nodes i) := by simp [FileCacheSh.modify]
  have hother : ∀ j, j ≠ i → (sh.modify i f).nodes j = sh.nodes j := by
    intro j hji
    simp only [FileCacheSh.modify, update_of_ne hji]
  refine ⟨?_, ?_, ?_⟩
  · have hsum : sizeSum { sh.modify i f with size := size } = sizeSum (sh.modify i f) := rfl
    rw [hsum, sizeSum_modify hnodup hi, ← ok.size]
    exact hsize
  · intro j hj
    by_cases hji : j = i
    · subst hji
      simp only [hself]
      exact hfile
    · simp only [hother j hji]
      exact ok.noFile j hj
  · intro j hj
    by_cases hji : j = i
    · subst hji
      simp only [hself, update_self]
      exact hdel
    · simp only [hother j hji, update_of_ne hji]
      exact ok.deleting j hj

/-- A change that leaves the size alone. -/
theorem modify_same (ok : SizeOk sh g) (hnodup : sh.tree.Nodup) (hi : i ∈ sh.tree)
    (hf : SameSize (sh.nodes i) (f (sh.nodes i))) : SizeOk (sh.modify i f) g := by
  have hmod := ok.modify (f := f) (m := g i) hnodup hi sh.size
    (by rw [hf.diskSize_eq]; omega)
    (by
      rw [hf.1, hf.2.1, hf.2.2]
      exact ok.noFile i hi)
    (by
      rw [hf.2.1]
      exact ok.deleting i hi)
  rw [update_eq_self] at hmod
  exact hmod

/-- Moving a node in the queue changes no size. -/
theorem requeue (ok : SizeOk sh g) (hnodup : sh.tree.Nodup) (hi : i ∈ sh.tree) (expire : ℕ) :
    SizeOk (sh.requeue i expire) g := by
  have hmod : SizeOk (sh.modify i fun n => { n with expire := expire }) g :=
    ok.modify_same hnodup hi ⟨rfl, rfl, rfl⟩
  exact ⟨hmod.size, hmod.noFile, hmod.deleting⟩

/-- A node of size 0 may be removed. -/
theorem remove (ok : SizeOk sh g) (hi : i ∈ sh.tree) (h0 : diskSize (sh.nodes i) = 0) :
    SizeOk (sh.remove i) g := by
  refine ⟨?_, fun j hj => ok.noFile j (mem_of_mem_erase hj),
    fun j hj => ok.deleting j (mem_of_mem_erase hj)⟩
  rw [sizeSum_remove hi, h0, Int.sub_zero]
  exact ok.size

/-- A new node. -/
theorem insert (ok : SizeOk sh g) (hi : i ∉ sh.tree) (h0 : g i = 0) {n : FileCacheNode}
    (hfile : n.fileExists = false → n.fsSize = 0) (hdel : n.deleting = false) :
    SizeOk { sh.insert i n with size := sh.size + diskSize n } g := by
  have hself : (sh.insert i n).nodes i = n := by simp [FileCacheSh.insert]
  have hother : ∀ j, j ≠ i → (sh.insert i n).nodes j = sh.nodes j := by
    intro j hji
    simp only [FileCacheSh.insert, update_of_ne hji]
  refine ⟨?_, ?_, ?_⟩
  · have hsum : sizeSum { sh.insert i n with size := sh.size + diskSize n }
        = sizeSum (sh.insert i n) := rfl
    rw [hsum, sizeSum_insert hi, ← ok.size]
    exact Int.add_comm _ _
  · intro j hj
    by_cases hji : j = i
    · subst hji
      simp only [hself]
      exact fun hf => ⟨hfile hf, hdel⟩
    · simp only [hother j hji]
      exact ok.noFile j ((mem_cons.mp hj).resolve_left hji)
  · intro j hj
    by_cases hji : j = i
    · subst hji
      simp only [hself, hdel, h0]
      simp
    · simp only [hother j hji]
      exact ok.deleting j ((mem_cons.mp hj).resolve_left hji)

theorem diskSize_noFile {n : FileCacheNode} (h : n.fileExists = false) : diskSize n = 0 := by
  simp [diskSize, h]

/-- The size of a node that nobody deletes is the one stored. -/
theorem diskSize_eq (ok : SizeOk sh g) (hi : i ∈ sh.tree) (hdel : (sh.nodes i).deleting = false) :
    diskSize (sh.nodes i) = (sh.nodes i).fsSize := by
  cases hex : (sh.nodes i).fileExists with
  | true => simp [diskSize, hex, hdel]
  | false => simp [diskSize, hex, (ok.noFile i hi hex).1]

end SizeOk

/-! ### Conditions -/

/-- The node that an actor is deleting. -/
def CacheActor.deletes (x : CacheActor) : Option ℕ :=
  match x.phase with
  | .removing i _ => some i
  | _ => none

/-- The node that a request gets from a lookup. -/
def foundNode (sh : FileCacheSh) (x : CacheActor) : Option ℕ :=
  x.ctx.node.or (sh.lookup x.ctx.key)

/-- The conditions under which the total stays right: an error entry that is renewed has no
file, an entry that is updated is not being deleted, and nobody else holds a node whose deletion
ends. `now` is `ngx_time()`. -/
def SizeSafe (now : ℕ) (sh : FileCacheSh) (x : CacheActor) : CacheOp → Prop
  | .lookup _ => ∀ i ∈ foundNode sh x, (sh.nodes i).error ≠ 0 → (sh.nodes i).validSec < now →
      (sh.nodes i).fileExists = false
  | .update _ => ∀ i ∈ x.ctx.node, (sh.nodes i).deleting = false
  | .finishDelete => ∀ i ∈ x.deletes, (sh.nodes i).count = 1
  | _ => True

instance SizeSafe.decidable (now : ℕ) (sh : FileCacheSh) (x : CacheActor) :
    (op : CacheOp) → Decidable (SizeSafe now sh x op)
  | .lookup _ => inferInstanceAs (Decidable (∀ i ∈ foundNode sh x, (sh.nodes i).error ≠ 0 →
      (sh.nodes i).validSec < now → (sh.nodes i).fileExists = false))
  | .update _ => inferInstanceAs (Decidable (∀ i ∈ x.ctx.node, (sh.nodes i).deleting = false))
  | .finishDelete => inferInstanceAs (Decidable (∀ i ∈ x.deletes, (sh.nodes i).count = 1))
  | .retry _ | .forcedExpire | .expire _ | .coldRead .. | .readStale | .lock
  | .respond .. | .reopen _ | .updateVariant _ | .free => .isTrue trivial

/-! ### The operations keep the total -/

section Size

variable {inactive : ℕ} {clock : CacheClock} {sh sh' : FileCacheSh} {x x' : CacheActor}
  {op : CacheOp} {h g : ℕ → ℕ} {i : ℕ} {c c' : CacheCtx}

/-- A deletion that begins takes the size of the node off the total. -/
theorem SizeOk.deleteStart (ok : SizeOk sh g) (hnodup : sh.tree.Nodup) (hi : i ∈ sh.tree)
    (h0 : g i = 0) (hex : (sh.nodes i).fileExists = true) :
    SizeOk (deleteStart sh i) (moveHold g none (some i)) := by
  have hdel : (sh.nodes i).deleting = false := by
    rw [Bool.eq_false_iff]
    exact fun hd => (ok.deleting i hi).mp hd h0
  rw [moveHold_take]
  refine ok.modify (f := fun n => { n with count := incCount n.count, deleting := true }) hnodup hi _
    ?_ ?_ (by simp)
  · rw [ok.diskSize_eq hi hdel]
    simp [diskSize]
  · intro hf
    simp only [hex] at hf
    cases hf

/-- A deletion that ends, when nobody else holds the node, removes it; it counted for nothing. -/
theorem SizeOk.deleteFinish (ok : SizeOk sh g) (hnodup : sh.tree.Nodup) (hi : i ∈ sh.tree)
    (hg : g i ≠ 0) (hcount : (sh.nodes i).count = 1) :
    SizeOk (deleteFinish sh i) (moveHold g (some i) none) := by
  have hdel : (sh.nodes i).deleting = true := (ok.deleting i hi).mpr hg
  have hzero : ((sh.modify i fun n =>
      { n with count := decCount n.count, deleting := false }).nodes i).count = 0 := by
    simp [FileCacheSh.modify, hcount, decCount]
  have hother : ∀ j, j ∈ sh.tree.erase i → j ≠ i ∧ j ∈ sh.tree := fun j hj =>
    hnodup.mem_erase_iff.mp hj
  rw [Hengine.deleteFinish, deleteUnheld, if_pos hzero]
  refine ⟨?_, ?_, ?_⟩
  · have hsize : sh.size = sizeSum sh := ok.size
    rw [sizeSum_remove (by exact hi), sizeSum_modify hnodup hi]
    simp only [FileCacheSh.remove, FileCacheSh.modify, update_self]
    simp only [diskSize, hdel] at *
    simp only [Bool.not_true, Bool.and_false, Bool.false_eq_true, if_false] at *
    omega
  · intro j hj
    obtain ⟨hji, hj⟩ := hother j hj
    simp only [FileCacheSh.remove, FileCacheSh.modify, update_of_ne hji]
    exact ok.noFile j hj
  · intro j hj
    obtain ⟨hji, hj⟩ := hother j hj
    rw [moveHold_release, update_of_ne hji]
    simp only [FileCacheSh.remove, FileCacheSh.modify, update_of_ne hji]
    exact ok.deleting j hj

/-- A process that has let nodes expire. -/
theorem Expired.size {r : FileCacheSh × CachePhase}
    (hr : Expired (fun sh => RefsOk sh h ∧ SizeOk sh g) r) (hgh : ∀ i, g i ≤ h i) :
    SizeOk r.1 (moveHold g none { x with phase := r.2 }.deletes) := by
  rcases hr with ⟨⟨_, ok⟩, hphase⟩ | ⟨sh, i, after, ⟨hrefs, ok⟩, hi, h0, hex, rfl⟩
  · have hnone : { x with phase := r.2 }.deletes = none := by
      rcases hphase with hp | hp <;> simp [CacheActor.deletes, hp]
    rw [hnone, moveHold_none]
    exact ok
  · have htree := hrefs.queue.mem_iff.mp hi
    have hg0 : g i = 0 := by
      have := hgh i
      have := hrefs.refs i htree
      omega
    exact ok.deleteStart hrefs.nodup htree hg0 hex

theorem FileCacheNode.release_sameSize (c : CacheCtx) (n : FileCacheNode) :
    SameSize n (n.release c) := by
  rw [FileCacheNode.release]
  split
  · split <;> exact ⟨rfl, rfl, rfl⟩
  · exact ⟨rfl, rfl, rfl⟩

/-- `ngx_http_file_cache_update` changes the total by what it changes of the size. -/
theorem fileCacheUpdate_size (ok : SizeOk sh g) (hnodup : sh.tree.Nodup) (hi : i ∈ sh.tree)
    (hdel : (sh.nodes i).deleting = false) (file : Option (ℕ × ℕ)) :
    SizeOk (fileCacheUpdate i file sh c).1 g := by
  have hmod := ok.modify (f := .update c file) (m := g i) hnodup hi
    (sh.size + (((file.map Prod.snd).getD 0 : ℕ) - ((sh.nodes i).fsSize : ℤ)))
    ?_ ?_ (by exact ok.deleting i hi)
  · rwa [update_eq_self] at hmod
  · rw [ok.diskSize_eq hi hdel]
    cases file with
    | none =>
      simp [diskSize, FileCacheNode.update]
      omega
    | some p =>
      simp only [diskSize, FileCacheNode.update, hdel]
      simp
      omega
  · intro hf
    cases file with
    | none => exact ⟨rfl, hdel⟩
    | some p => simp [FileCacheNode.update] at hf

/-- A file that was found by a reader is added to the total once. -/
theorem fileCacheColdRead_size (ok : SizeOk sh g) (hnodup : sh.tree.Nodup) (hi : i ∈ sh.tree)
    (uniq fsSize bodyStart : ℕ) :
    SizeOk (fileCacheColdRead i uniq fsSize bodyStart sh c).1 g := by
  rw [fileCacheColdRead]
  split
  · exact ok
  · rename_i hex
    rw [Bool.not_eq_true] at hex
    obtain ⟨hzero, hdel⟩ := ok.noFile i hi hex
    have hmod := ok.modify
      (f := .coldRead { c with uniq := uniq, fsSize := fsSize, bodyStart := bodyStart })
      (m := g i) hnodup hi (sh.size + fsSize) ?_ ?_ (by exact ok.deleting i hi)
    · rwa [update_eq_self] at hmod
    · rw [SizeOk.diskSize_noFile hex]
      simp [diskSize, FileCacheNode.coldRead, hdel]
    · intro hf
      cases hf

/-- **The operations of a request that holds a node.** -/
theorem heldStep_size (ok : SizeOk sh g) (hnodup : sh.tree.Nodup) (hi : i ∈ sh.tree)
    (hsafe : ∀ file, op = .update file → (sh.nodes i).deleting = false)
    (hstep : heldStep clock sh c i op = some (sh', c')) : SizeOk sh' g := by
  cases op with
  | coldRead uniq fsSize bodyStart =>
    rw [(eq_of_some_eq hstep).1]
    exact fileCacheColdRead_size ok hnodup hi uniq fsSize bodyStart
  | readStale =>
    have hread : SameSize (sh.nodes i) (readStale c (sh.nodes i)).2.2 := by
      rw [readStale]
      split <;> exact ⟨rfl, rfl, rfl⟩
    have hmod : SizeOk (sh.modify i fun _ => (readStale c (sh.nodes i)).2.2) g :=
      ok.modify_same hnodup hi hread
    rw [(eq_of_some_eq hstep).1]
    exact hmod
  | lock =>
    have hlock : SameSize (sh.nodes i) (fileCacheLock clock.msec c (sh.nodes i)).2 := by
      rw [fileCacheLock]
      split <;> exact ⟨rfl, rfl, rfl⟩
    have hmod : SizeOk (sh.modify i fun _ => (fileCacheLock clock.msec c (sh.nodes i)).2) g :=
      ok.modify_same hnodup hi hlock
    rw [(eq_of_some_eq hstep).1]
    exact hmod
  | respond error validSec validMsec bodyStart =>
    rw [(eq_of_some_eq hstep).1]
    exact ok
  | reopen variant =>
    rw [heldStep, fileCacheReopen] at hstep
    split at hstep
    · cases hstep
    · rw [(eq_of_some_eq hstep).1]
      exact ok.modify_same hnodup hi ⟨rfl, rfl, rfl⟩
  | updateVariant variant =>
    rw [heldStep, fileCacheUpdateVariant] at hstep
    split at hstep
    · cases hstep
    · rw [(eq_of_some_eq hstep).1]
      exact ok.modify_same hnodup hi ⟨rfl, rfl, rfl⟩
  | update file =>
    rw [(eq_of_some_eq hstep).1]
    exact fileCacheUpdate_size ok hnodup hi (hsafe file rfl) file
  | free =>
    have hrel : SizeOk (sh.modify i (.release c)) g :=
      ok.modify_same hnodup hi (FileCacheNode.release_sameSize c _)
    rw [(eq_of_some_eq hstep).1, fileCacheFree]
    split
    · rename_i hcond
      simp only [Bool.and_eq_true, Bool.not_eq_true'] at hcond
      refine hrel.remove hi (SizeOk.diskSize_noFile ?_)
      simpa [FileCacheSh.modify] using hcond.1.1.2
    · exact hrel
  | lookup _ | retry _ | forcedExpire | expire _ | finishDelete => cases hstep

/-- **One operation of an actor keeps the total right**, under the conditions. -/
theorem ActorMove.size (hm : ActorMove inactive clock sh x op sh' x') (hrefs : RefsOk sh h)
    (ok : SizeOk sh g) (hgh : ∀ i, g i ≤ h i) (hheld : ∀ i, x.held = some i → h i ≠ 0)
    (hdel : ∀ i, x.deletes = some i → g i ≠ 0) (hsafe : SizeSafe clock.time sh x op) :
    SizeOk sh' (moveHold g x.deletes x'.deletes) := by
  have hnone : ∀ y : CacheActor, (∀ i after, y.phase ≠ .removing i after) → y.deletes = none := by
    intro y hy
    rw [CacheActor.deletes]
    split
    · rename_i i after hp
      exact absurd hp (hy i after)
    · rfl
  have hrequeue : ∀ h g : ℕ → ℕ, ∀ (sh : FileCacheSh) (i : ℕ), RefsOk sh h ∧ SizeOk sh g →
      i ∈ sh.queue → RefsOk (sh.requeue i (clock.time + inactive)) h ∧
        SizeOk (sh.requeue i (clock.time + inactive)) g := by
    rintro h g sh i ⟨hr, hs⟩ hi
    have htree := hr.queue.mem_iff.mp hi
    exact ⟨hr.requeue htree _, hs.requeue hr.nodup htree _⟩
  have hremove : ∀ h g : ℕ → ℕ, ∀ (sh : FileCacheSh) (i : ℕ), RefsOk sh h ∧ SizeOk sh g →
      i ∈ sh.queue → (sh.nodes i).count = 0 → (sh.nodes i).fileExists = false →
      RefsOk (sh.remove i) h ∧ SizeOk (sh.remove i) g := by
    rintro h g sh i ⟨hr, hs⟩ hi h0 hex
    have htree := hr.queue.mem_iff.mp hi
    exact ⟨hr.remove htree ((hr.refs i htree).symm.trans h0),
      hs.remove htree (SizeOk.diskSize_noFile hex)⟩
  cases hm with
  | @found i alloc hop hidle hupd hi =>
    rw [hnone x (by simp [hidle]), hnone _ (by simp [hidle]), moveHold_none]
    have htree : i ∈ sh.tree := by
      rcases or_eq_some_iff.mp hi with hs | ⟨_, hl⟩
      · exact hrefs.held i (hheld i (by rw [CacheActor.held_idle hidle hupd, hs]))
      · exact (RefsOk.mem_lookup hl).1
    have henter : SizeOk (sh.modify i (existsEnter x.ctx)) g := by
      refine ok.modify_same hrefs.nodup htree ?_
      rw [existsEnter]
      split <;> exact ⟨rfl, rfl, rfl⟩
    rw [hop] at hsafe
    refine (existsFound_rule (P := fun sh' => SizeOk sh' g ∧ sh'.tree = sh.tree)
      ⟨henter, rfl⟩ ?_ ?_).1
    · intro herr hlt
      have hex := hsafe i hi herr hlt
      have hnode : ((sh.modify i (existsEnter x.ctx)).nodes i).fileExists = false ∧
          ((sh.modify i (existsEnter x.ctx)).nodes i).fsSize = 0 := by
        obtain ⟨hzero, _⟩ := ok.noFile i htree hex
        simp only [FileCacheSh.modify, update_self, existsEnter]
        split <;> exact ⟨hex, hzero⟩
      refine ⟨henter.modify_same hrefs.nodup htree ?_, rfl⟩
      exact ⟨hnode.1.symm, rfl, hnode.2.symm⟩
    · rintro sh' ⟨hs, htree'⟩
      refine ⟨hs.requeue (htree' ▸ hrefs.nodup) (htree' ▸ htree) _, htree'⟩
  | @inserted i hwhen hi =>
    have hg0 : g i = 0 := by
      have := hgh i
      have := hrefs.eq_zero hi
      omega
    have hx : x.deletes = none := by
      refine hnone x fun j after hp => ?_
      rcases hwhen with ⟨_, hidle, _⟩ | ⟨_, hretry⟩
      · rw [hidle] at hp
        cases hp
      · rw [hretry] at hp
        cases hp
    rw [hx, hnone _ (by simp), moveHold_none]
    have hnew := ok.insert hi hg0
      (n := { FileCacheNode.fresh x.ctx.key with expire := clock.time + inactive })
      (fun _ => rfl) rfl
    rw [SizeOk.diskSize_noFile rfl, Int.add_zero] at hnew
    exact hnew
  | noMemory hop hidle =>
    rw [hnone x (by simp [hidle]), hnone _ (by simp), moveHold_none]
    exact ⟨ok.size, ok.noFile, ok.deleting⟩
  | stillNoMemory hop hretry =>
    rw [hnone x (by simp [hretry]), hnone _ (by simp), moveHold_none]
    exact ok
  | @forced after hop hwhen =>
    have hx : x.deletes = none := by
      refine hnone x fun j after hp => ?_
      rcases hwhen with hexp | ⟨hidle, _⟩
      · rw [hexp] at hp
        cases hp
      · rw [hidle] at hp
        cases hp
    rw [hx]
    exact Expired.size (fileCacheForcedExpire_expired (hrequeue h g) (hremove h g) after
      ⟨hrefs, ok⟩) hgh
  | @expired files hop hidle =>
    rw [hnone x (by simp [hidle])]
    exact Expired.size (fileCacheExpire_expired (hrequeue h g) (hremove h g) _ files
      ⟨hrefs, ok⟩) hgh
  | @finished i after hop hrem =>
    have hxd : x.deletes = some i := by simp [CacheActor.deletes, hrem]
    have hxh : x.held = some i := by simp [CacheActor.held, hrem]
    rw [hop] at hsafe
    have htree := hrefs.held i (hheld i hxh)
    have hfinish := hrefs.deleteFinish (hheld i hxh)
    have hsize := ok.deleteFinish hrefs.nodup htree (hdel i hxd) (hsafe i hxd)
    rw [hxd, ← moveHold_trans]
    refine Expired.size (afterDelete_expired (hrequeue _ _) (hremove _ _) after
      ⟨hfinish, hsize⟩) ?_
    intro j
    have := hgh j
    simp only [moveHold]
    omega
  | @held i sh' c hidle hupd hn hstep =>
    have htree : i ∈ sh.tree :=
      hrefs.held i (hheld i (by rw [CacheActor.held_idle hidle hupd, hn]))
    rw [hnone x (by simp [hidle]), hnone _ (by simp [hidle]), moveHold_none]
    refine heldStep_size ok hrefs.nodup htree ?_ hstep
    rintro file rfl
    exact hsafe i hn

end Size

/-! ### Runs -/

/-- A file that the loader adds is added to the total. -/
theorem fileCacheAdd_size {sh : FileCacheSh} {h g : ℕ → ℕ} (hrefs : RefsOk sh h) (ok : SizeOk sh g)
    (hgh : ∀ i, g i ≤ h i) {alloc : Option ℕ} (halloc : allocFree sh alloc = true)
    (now inactive key fsSize : ℕ) :
    SizeOk (fileCacheAdd now inactive key fsSize alloc sh) g := by
  rw [fileCacheAdd.eq_def]
  split
  · rename_i i hl
    exact ok.requeue hrefs.nodup (RefsOk.mem_lookup hl).1 _
  · exact ⟨ok.size, ok.noFile, ok.deleting⟩
  · rename_i i hl
    have hi : i ∉ sh.tree := by simpa [allocFree] using halloc
    have hg0 : g i = 0 := by
      have := hgh i
      have := hrefs.eq_zero hi
      omega
    exact ok.insert hi hg0
      (n := { key := key, uses := 1, fileExists := true, fsSize := fsSize, expire := now + inactive })
      (fun hf => by cases hf) rfl

/-- The counters and the total are right. -/
structure CacheSizes (s : CacheState) : Prop where
  refs : CacheRefs s
  size : SizeOk s.sh (holders CacheActor.deletes s.actors)

theorem CacheActor.held_of_deletes {x : CacheActor} {i : ℕ} (h : x.deletes = some i) :
    x.held = some i := by
  cases hp : x.phase with
  | removing j after =>
    rw [deletes, hp] at h
    rw [held, hp]
    exact h
  | _ =>
    rw [deletes, hp] at h
    cases h

/-- A node that is deleted is held. -/
theorem deletes_le_held (actors : List CacheActor) (i : ℕ) :
    holders CacheActor.deletes actors i ≤ holders CacheActor.held actors i := by
  refine countP_mono_left fun x _ hx => ?_
  have hdel : x.deletes = some i := of_decide_eq_true hx
  exact decide_eq_true (CacheActor.held_of_deletes hdel)

/-- The condition on a step, at the time that it shows. -/
def StepSizeSafe (s : CacheState) : CacheEvent → Prop := OnActor (SizeSafe s.clock.time) s

instance StepSizeSafe.decidable (s : CacheState) (e : CacheEvent) : Decidable (StepSizeSafe s e) :=
  inferInstanceAs (Decidable (OnActor (SizeSafe s.clock.time) s e))

/-- **One step keeps the total right.** -/
theorem CacheSizes.step {inactive : ℕ} {s s' : CacheState} {e : CacheEvent} (hs : CacheSizes s)
    (hfit : OnActor CountFits s e) (hsafe : StepSizeSafe s e)
    (hstep : cacheStep inactive s e = some s') : CacheSizes s' := by
  refine ⟨hs.refs.step hfit hstep, ?_⟩
  cases e with
  | clock clock =>
    cases hstep
    exact hs.size
  | start key minUses lockAge bufferSize =>
    cases hstep
    simp only
    rw [holders_concat]
    · exact hs.size
    · rfl
  | add key fsSize alloc =>
    rw [cacheStep] at hstep
    split at hstep
    · rename_i halloc
      cases hstep
      exact fileCacheAdd_size hs.refs.refs hs.size (deletes_le_held s.actors) halloc _ _ _ _
    · cases hstep
  | act k op =>
    rw [cacheStep] at hstep
    split at hstep
    · cases hstep
    · rename_i x hx
      obtain ⟨⟨sh', x'⟩, hact, rfl⟩ := map_eq_some_iff.mp hstep
      have hmem : x ∈ s.actors := mem_of_getElem? hx
      simp only
      rw [holders_set hx]
      exact (actorStep_cases hact).size hs.refs.refs hs.size (deletes_le_held s.actors)
        (fun i hi => holders_pos hmem hi) (fun i hi => holders_pos hmem hi) (hsafe x hx)

/-- The sum of `fs_size` over the nodes of the tree that have a file. -/
def filesTotal (sh : FileCacheSh) : ℤ :=
  (sh.tree.map fun i => if (sh.nodes i).fileExists then ((sh.nodes i).fsSize : ℤ) else 0).sum

/-- The total is that sum when nothing is being deleted, and is never negative. -/
def TotalOk (s : CacheState) : Prop :=
  ((∀ x ∈ s.actors, x.deletes = none) → s.sh.size = filesTotal s.sh) ∧ 0 ≤ s.sh.size

/-- What the steps keep is that the total is right. -/
theorem CacheSizes.totalOk {s : CacheState} (hs : CacheSizes s) : TotalOk s := by
  refine ⟨?_, ?_⟩
  · intro hquiet
    have hnone : ∀ i, holders CacheActor.deletes s.actors i = 0 := by
      intro i
      refine countP_eq_zero.mpr fun x hx => ?_
      simp [hquiet x hx]
    rw [hs.size.size, sizeSum, filesTotal]
    congr 1
    refine map_congr_left fun i hi => ?_
    have hdel : (s.sh.nodes i).deleting = false := by
      rw [Bool.eq_false_iff]
      exact fun hd => (hs.size.deleting i hi).mp hd (hnone i)
    simp [diskSize, hdel]
  · rw [hs.size.size]
    exact sizeSum_nonneg s.sh

/-- **The total of the cache is right.** Along every run whose steps meet the conditions, the
total is the sum of the sizes in every state in which nothing is being deleted, and is never
negative. -/
theorem cacheSize_ok {inactive : ℕ} {tr : List (CacheState × CacheEvent)} {s : CacheState}
    (hrun : (cacheMachine inactive).Run tr s)
    (hsafe : ∀ p ∈ tr, StepSizeSafe p.1 p.2)
    (hfit : ∀ p ∈ tr, OnActor CountFits p.1 p.2) : Machine.Everywhere TotalOk tr s := by
  have hall := hrun.invariant_of_steps (P := CacheSizes)
    (C := fun s e => StepSizeSafe s e ∧ OnActor CountFits s e)
    (fun s h => ⟨CacheRefs.init h, by rw [h.1, h.2]; exact SizeOk.empty⟩)
    (fun s e s' h hC hstep => h.step hC.2 hC.1 hstep)
    (fun p hp => ⟨hsafe p hp, hfit p hp⟩)
  exact ⟨fun p hp => (hall.1 p hp).totalOk, hall.2.totalOk⟩

/-- A file that the loader found is replaced by a larger one, and deleted. -/
def replaceEvents : List CacheEvent :=
  [.add 1 5 (some 0), .start 1 1 5 0, .act 0 (.lookup none), .act 0 (.update (some (3, 8))),
    .start 0 1 5 0, .act 1 .forcedExpire]

/-- The total is right all along. -/
theorem cacheSize_ok_replace : ∃ tr s, (cacheMachine 600).Run tr s ∧
    s.sh.size = 0 ∧ Machine.Everywhere TotalOk tr s := by
  have hreplay : (Machine.replay (cacheStep 600) [] emptyCache replaceEvents).map (fun r =>
      (decide (∀ p ∈ r.1, StepSizeSafe p.1 p.2), decide (∀ p ∈ r.1, OnActor CountFits p.1 p.2),
        r.2.sh.size)) = some (true, true, 0) := by
    decide
  obtain ⟨⟨tr, s⟩, hreplay, hall⟩ := map_eq_some_iff.mp hreplay
  simp only [Prod.mk.injEq, decide_eq_true_eq] at hall
  have hrun : (cacheMachine 600).Run tr s := Machine.run_of_replay _ ⟨rfl, rfl⟩ hreplay
  exact ⟨tr, s, hrun, hall.2.2, cacheSize_ok hrun hall.1 hall.2.1⟩

/-- An entry with a file gets an error, which expires. -/
def renewEvents : List CacheEvent :=
  [.add 1 5 (some 0), .start 1 1 5 0, .act 0 (.lookup none), .act 0 (.respond 404 1010 0 0),
    .act 0 .free, .clock ⟨1020, 0⟩, .start 1 1 5 0, .act 1 (.lookup none)]

/-- A request comes to a node while its file is being removed, and its update fails. -/
def deletedEvents : List CacheEvent :=
  [.add 1 5 (some 0), .start 0 1 5 0, .act 0 .forcedExpire, .start 1 1 5 0,
    .act 1 (.lookup none), .act 0 .finishDelete, .act 1 (.update none)]

/-- **The total goes wrong**: the size of a renewed entry stays in it, and that of an entry which
was deleted under a request is taken off twice. -/
theorem cacheSize_wrong :
    (∃ tr s, (cacheMachine 600).Run tr s ∧ (∀ x ∈ s.actors, x.deletes = none) ∧
      s.sh.size = 5 ∧ filesTotal s.sh = 0) ∧
    ∃ tr s, (cacheMachine 600).Run tr s ∧ (∀ x ∈ s.actors, x.deletes = none) ∧
      s.sh.size = -5 ∧ filesTotal s.sh = 0 := by
  have hrun : ∀ (events : List CacheEvent) (m : ℤ),
      (Machine.replay (cacheStep 600) [] emptyCache events).map (fun r =>
        (decide (∀ x ∈ r.2.actors, x.deletes = none), r.2.sh.size, filesTotal r.2.sh))
        = some (true, m, 0) →
      ∃ tr s, (cacheMachine 600).Run tr s ∧ (∀ x ∈ s.actors, x.deletes = none) ∧
        s.sh.size = m ∧ filesTotal s.sh = 0 := by
    intro events m h
    obtain ⟨⟨tr, s⟩, hreplay, hall⟩ := map_eq_some_iff.mp h
    simp only [Prod.mk.injEq, decide_eq_true_eq] at hall
    exact ⟨tr, s, Machine.run_of_replay _ ⟨rfl, rfl⟩ hreplay, hall⟩
  exact ⟨hrun renewEvents 5 (by decide), hrun deletedEvents (-5) (by decide)⟩

end Hengine
