import Hengine.Tfs.BlockCache
import Mathlib.Data.List.Induction
import Mathlib.Data.Nat.Bitwise

/-!
# The local block cache refines a map

In every run the tree and the queue have the same nodes. A lookup gives the value of the last insert of its
key where no key was inserted twice, no list was longer than the byte `len` can tell, and no remove ended
before it came to its node.
-/

namespace Hengine.Tfs

open RbTree RbShape

/-! ### The order of the keys -/

/-- A key as a number. -/
def BlockKey.number (key : BlockKey) : ℕ := key.nsAddr.toNat * 2 ^ 32 + key.blockId.toNat

theorem BlockKey.number_lt (key : BlockKey) : key.number < 2 ^ 96 := by
  have h₁ := key.nsAddr.toNat_lt
  have h₂ := key.blockId.toNat_lt
  rw [number]
  omega

/-- The number of a key is its own. -/
theorem BlockKey.number_inj {a b : BlockKey} : a.number = b.number ↔ a = b := by
  constructor
  · intro h
    have h₁ := a.blockId.toNat_lt
    have h₂ := b.blockId.toNat_lt
    simp only [number] at h
    have hid : a.blockId = b.blockId := UInt32.toNat_inj.mp (by omega)
    have hns : a.nsAddr = b.nsAddr := UInt64.toNat_inj.mp (by omega)
    cases a
    cases b
    simp_all
  · rintro rfl
    rfl

/-- **The comparison of keys** is that of their numbers. -/
theorem blockCacheCmp_spec (a b : BlockKey) :
    (blockCacheCmp a b = 0 ↔ a = b) ∧ (blockCacheCmp a b < 0 ↔ a.number < b.number) := by
  have h₁ := a.blockId.toNat_lt
  have h₂ := b.blockId.toNat_lt
  rw [← BlockKey.number_inj]
  simp only [blockCacheCmp, BlockKey.number, ← UInt64.toNat_inj, ← UInt32.toNat_inj,
    UInt64.lt_iff_toNat_lt, UInt32.lt_iff_toNat_lt]
  split_ifs <;> simp <;> omega

namespace BlockCache

variable {hash : BlockKey → UInt32} {c c' : BlockCache} {key : BlockKey} {L : List ℕ} {x : ℕ}

/-- The place of a node in the tree: by its hash, then by its key. -/
def rank (c : BlockCache) (x : ℕ) : ℕ := c.tree.key x * 2 ^ 96 + (c.key x).number

/-- Nodes go into the tree in the order of the ranks. -/
theorem ranks (c : BlockCache) : Ranks c.nodeSide c.rank := by
  intro x y
  have hx := (c.key x).number_lt
  have hy := (c.key y).number_lt
  have hrank : c.rank x < c.rank y ↔ c.tree.key x < c.tree.key y ∨
      c.tree.key x = c.tree.key y ∧ (c.key x).number < (c.key y).number := by
    simp only [rank]
    omega
  simp only [nodeSide, hrank, (blockCacheCmp_spec _ _).2]
  split_ifs with h₁ h₂ h₃
  · simp [h₁]
  · simp [Nat.not_lt.mpr (Nat.le_of_lt h₂), Nat.ne_of_gt h₂]
  · simp [show c.tree.key x = c.tree.key y by omega, h₃]
  · simp [show c.tree.key x = c.tree.key y by omega, h₃]

/-- A lookup goes down the tree by the place of its key. -/
theorem seeks (hash : BlockKey → UInt32) (c : BlockCache) (key : BlockKey) :
    Seeks (c.keySide hash key) c.rank ((hash key).toNat * 2 ^ 96 + key.number) := by
  intro x
  have hx := (c.key x).number_lt
  have hkey := key.number_lt
  simp only [keySide, rank, (blockCacheCmp_spec _ _).2, (blockCacheCmp_spec _ _).1,
    ← BlockKey.number_inj]
  split_ifs <;> simp <;> omega

theorem keySide_eq_none : c.keySide hash key x = none ↔
    c.tree.key x = (hash key).toNat ∧ c.key x = key := by
  simp only [keySide, (blockCacheCmp_spec _ _).1, eq_comm (a := key)]
  split_ifs <;> simp_all <;> omega

/-! ### The invariant -/

/-- The nodes of the tree, in its order, are those of the queue, and their hashes are those of the keys. -/
structure Inv (hash : BlockKey → UInt32) (c : BlockCache) (L : List ℕ) : Prop where
  holds : (c.tree.setKeys c.rank).Holds L
  perm : L.Perm c.queue
  hashed : ∀ x ∈ c.queue, c.tree.key x = (hash (c.key x)).toNat

theorem Inv.nodup (h : c.Inv hash L) : c.queue.Nodup := h.perm.nodup_iff.mp h.holds.nodup

theorem Inv.length (h : c.Inv hash L) : L.length + 1 < c.fuel := by
  rw [fuel, h.perm.length_eq]
  omega

/-- **The enumeration of the tree** gives the nodes of the queue. -/
theorem Inv.walk (h : c.Inv hash L) : c.tree.walk c.fuel = some L := by
  obtain ⟨T, hat, rfl, -, -⟩ := h.holds.shape
  exact walk_spec hat h.length

/-- How the invariant is shown after the tree has changed. -/
theorem Inv.intro {t : RbTree} (hholds : (t.setKeys c.rank).Holds L) (ht : c'.tree = t)
    (hkey : ∀ x ∈ L, t.key x = c.tree.key x) (hkeys : ∀ x ∈ L, c'.key x = c.key x)
    (hperm : L.Perm c'.queue) (hhash : ∀ x ∈ L, c.tree.key x = (hash (c.key x)).toNat) :
    c'.Inv hash L := by
  subst ht
  refine ⟨hholds.setKeys_congr fun x hx => ?_, hperm, fun x hx => ?_⟩
  · rw [rank, rank, hkey x hx, hkeys x hx]
  · have hx := hperm.mem_iff.mpr hx
    rw [hkey x hx, hkeys x hx, hhash x hx]

/-! ### Searching -/

/-- **A search for a key** ends at a node of the key, if there is one. -/
theorem Inv.search (h : c.Inv hash L) (key : BlockKey) :
    ∃ res, RbTree.search (c.keySide hash key) c.tree c.fuel c.tree.root = some res ∧
      (∀ x, res = some x → x ∈ c.queue ∧ c.key x = key) ∧
      (res = none → ∀ x ∈ c.queue, c.key x ≠ key) := by
  obtain ⟨T, hat, rfl, hroot, hsorted⟩ := h.holds.shape
  have hlen := h.length
  obtain ⟨res, hrun, hsome, hnone⟩ :=
    search_spec (c.seeks hash key) hat hsorted (show _ < c.fuel by omega)
  refine ⟨res, hroot ▸ hrun, fun x hx => ?_, fun hres x hx hkey => ?_⟩
  · obtain ⟨hmem, hrank⟩ := hsome x hx
    exact ⟨h.perm.mem_iff.mp hmem, (keySide_eq_none.mp ((c.seeks hash key x).1.mpr hrank)).2⟩
  · refine hnone hres x (h.perm.mem_iff.mpr hx) ?_
    exact (c.seeks hash key x).1.mp (keySide_eq_none.mpr ⟨by rw [h.hashed x hx, hkey], hkey⟩)

/-! ### Inserting -/

/-- The fields of the nodes that `c` and `c'` have in common: `c'` has some nodes of `c`. -/
structure Thins (c c' : BlockCache) : Prop where
  subset : c'.queue ⊆ c.queue
  key : c'.key = c.key
  count : c'.count = c.count
  data : c'.data = c.data
  sentinel : c'.tree.sentinel = c.tree.sentinel

theorem Thins.refl (c : BlockCache) : c.Thins c := ⟨List.Subset.refl _, rfl, rfl, rfl, rfl⟩

theorem Thins.words (h : c.Thins c') (x : ℕ) : c'.words x = c.words x := by
  rw [BlockCache.words, BlockCache.words, h.count, h.data]

variable {value : List UInt64} {chunk : ℕ → UInt64} {first second : Option ℕ}

/-- Filling a node that is not in the tree keeps it. -/
theorem Inv.store (h : c.Inv hash L) (hx : x ∉ c.queue) (key : BlockKey) (value : List UInt64)
    (chunk : ℕ → UInt64) :
    (c.store hash x key value chunk).Inv hash L := by
  have hne : ∀ y ∈ c.queue, y ≠ x := fun y hy heq => hx (heq ▸ hy)
  refine ⟨?_, h.perm, fun y hy => ?_⟩
  · rw [BlockCache.store, setKeys_of_key]
    refine h.holds.setKeys_congr fun y hy => ?_
    have hyx := hne y (h.perm.mem_iff.mp hy)
    simp only [rank, Function.update_of_ne hyx]
  · have hyx := hne y hy
    simpa only [BlockCache.store, Function.update_of_ne hyx] using h.hashed y hy

/-- **A new node** goes into the tree and to the head of the queue. -/
theorem Inv.insertNode (h : c.Inv hash L) (hx : x ∉ c.queue) (hxs : x ≠ c.tree.sentinel)
    (key : BlockKey) (value : List UInt64) (chunk : ℕ → UInt64) :
    ∃ c' L', (c.store hash x key value chunk).insertNode x = some c' ∧ c'.Inv hash L' ∧
      c'.queue = x :: c.queue ∧ c'.key = Function.update c.key x key ∧
      c'.words = (c.store hash x key value chunk).words ∧ c'.tree.sentinel = c.tree.sentinel := by
  have hstore := h.store hx key value chunk
  have hxL : x ∉ L := fun hmem => hx (h.perm.mem_iff.mp hmem)
  obtain ⟨t, L₁, L₂, hrun, rfl, hholds, hkey, hs⟩ :=
    insertBy_spec (c.store hash x key value chunk).ranks hstore.holds hxL hxs hstore.length
  have hperm : (L₁ ++ x :: L₂).Perm (x :: c.queue) :=
    List.perm_middle.trans (h.perm.cons x)
  refine ⟨{ c.store hash x key value chunk with tree := t, queue := x :: c.queue },
    L₁ ++ x :: L₂, by rw [BlockCache.insertNode, hrun]; rfl, ?_, rfl, rfl, rfl, hs⟩
  refine Inv.intro (c := c.store hash x key value chunk) hholds rfl (fun y _ => congrFun hkey y)
    (fun y _ => rfl) hperm fun y hy => ?_
  rcases List.mem_cons.mp (hperm.mem_iff.mp hy) with rfl | hy
  · simp [BlockCache.store]
  · exact hstore.hashed y hy

/-- What has been stored is read. -/
theorem store_words (hlen : value.length < 32) :
    (c.store hash x key value chunk).words x = value := by
  have hcount : value.length % 65536 = value.length := Nat.mod_eq_of_lt (by omega)
  have hcopied : value.length % 256 * 8 % 256 / 8 = value.length := by omega
  simp only [words, store, Function.update_self, hcount, hcopied]
  refine List.ext_getElem (by simp) fun j hj hj' => ?_
  simp [hj']

theorem store_words_of_ne {y : ℕ} (hy : y ≠ x) :
    (c.store hash x key value chunk).words y = c.words y := by
  simp only [words, store, Function.update_of_ne hy]

/-! ### Discarding -/

/-- **The loop that discards** takes out the nodes that it has passed. -/
theorem discardLoop_spec {r : ℕ → ℕ} {fuel : ℕ} : ∀ {n : ℕ} {t : RbTree} {q L : List ℕ},
    (t.setKeys r).Holds L → L.Perm q → q.length + 1 < fuel →
    ∃ t' q' L', discardLoop fuel n t q = some (t', q') ∧ (t'.setKeys r).Holds L' ∧ L'.Perm q' ∧
      q' ⊆ q ∧ (∀ y ∈ q', t'.key y = t.key y) ∧ t'.sentinel = t.sentinel := by
  intro n
  induction n with
  | zero =>
    intro t q L h hperm _
    exact ⟨t, q, L, rfl, h, hperm, List.Subset.refl q, fun _ _ => rfl, rfl⟩
  | succ n ih =>
    intro t q L h hperm hfuel
    cases q with
    | nil => exact ⟨t, [], L, rfl, h, hperm, List.Subset.refl _, fun _ _ => rfl, rfl⟩
    | cons x q =>
      obtain ⟨t₁, hdelete, hholds, hkey, hs⟩ := delete_by_spec h
        (hperm.mem_iff.mpr List.mem_cons_self) (hperm.length_eq.symm ▸ hfuel)
      have hperm₁ : (L.erase x).Perm q := by
        have := hperm.erase x
        rwa [List.erase_cons_head] at this
      rw [List.length_cons] at hfuel
      obtain ⟨t', q', L', hloop, hholds', hperm', hsub, hkey', hs'⟩ :=
        ih hholds hperm₁ (by omega)
      have hx : x ∉ q := (List.nodup_cons.mp (hperm.nodup_iff.mp h.nodup)).1
      refine ⟨t', q', L', by rw [discardLoop, hdelete]; exact hloop, hholds', hperm',
        List.subset_cons_of_subset x hsub, fun y hy => ?_, hs'.trans hs⟩
      have hyx : y ≠ x := fun heq => hx (heq ▸ hsub hy)
      rw [hkey' y hy, hkey, Function.update_of_ne hyx]

/-- **A discard** leaves some of the nodes. -/
theorem Inv.discard (h : c.Inv hash L) :
    ∃ c' L', c.discard = some c' ∧ c'.Inv hash L' ∧ c.Thins c' := by
  have hperm : L.Perm c.queue.reverse := h.perm.trans (List.reverse_perm _).symm
  obtain ⟨t, q, L', hloop, hholds, hperm', hsub, hkey, hs⟩ :=
    discardLoop_spec (n := discardItemCount) h.holds hperm
      (show c.queue.reverse.length + 1 < c.fuel by rw [← hperm.length_eq]; exact h.length)
  have hmem : ∀ y ∈ L', y ∈ c.queue := fun y hy =>
    List.mem_reverse.mp (hsub (hperm'.mem_iff.mp hy))
  refine ⟨{ c with tree := t, queue := q.reverse }, L', by rw [BlockCache.discard, hloop]; rfl, ?_,
    fun y hy => ?_, rfl, rfl, rfl, hs⟩
  · exact Inv.intro hholds rfl (fun y hy => hkey y (hperm'.mem_iff.mp hy)) (fun _ _ => rfl)
      (hperm'.trans (List.reverse_perm q).symm) fun y hy => h.hashed y (hmem y hy)
  · exact List.mem_reverse.mp (hsub (List.mem_reverse.mp hy))

/-- Making room takes entries away and keeps the invariant. -/
theorem Inv.makeRoom (h : c.Inv hash L) (first : Option ℕ) :
    ∃ c' L', c.makeRoom first = some c' ∧ c'.Inv hash L' ∧ c.Thins c' := by
  by_cases hfirst : first.isSome
  · exact ⟨c, L, if_pos hfirst, h, Thins.refl c⟩
  · rw [BlockCache.makeRoom, if_neg hfirst]
    exact h.discard

/-! ### Looking up -/

/-- **A lookup** gives the words of a node of the key. -/
theorem Inv.lookup (h : c.Inv hash L) (key : BlockKey) (memory : Bool) :
    ∃ c' r, c.lookup hash key memory = some (c', r) ∧ c'.Inv hash L ∧ c.Thins c' ∧
      ∀ v, r = .ok v → ∃ x ∈ c.queue, c.key x = key ∧ c.words x = v := by
  obtain ⟨res, hsearch, hsome, -⟩ := h.search key
  rw [BlockCache.lookup, hsearch, Option.bind_eq_bind, Option.bind_some]
  cases res with
  | none => exact ⟨c, .declined, rfl, h, Thins.refl c, nofun⟩
  | some x =>
    obtain ⟨hx, hkey⟩ := hsome x rfl
    cases memory with
    | false => exact ⟨c, .error, rfl, h, Thins.refl c, nofun⟩
    | true =>
      have hperm : c.queue.Perm (x :: c.queue.erase x) := List.perm_cons_erase hx
      refine ⟨{ c with queue := x :: c.queue.erase x }, .ok (c.words x), rfl,
        ⟨h.holds, h.perm.trans hperm, fun y hy => h.hashed y (hperm.mem_iff.mpr hy)⟩,
        ⟨fun y hy => hperm.mem_iff.mpr hy, rfl, rfl, rfl, rfl⟩, fun v hv => ?_⟩
      cases hv
      exact ⟨x, hx, hkey, rfl⟩

/-! ### Removing -/

/-- **The inner loop of a removal** finds what a lookup finds, or nothing where a node with another hash is
on the way. -/
theorem removeRun_spec : ∀ {fuel x : ℕ} {res : Option ℕ}, x ≠ c.tree.sentinel →
    c.tree.key x = (hash key).toNat →
    RbTree.search (c.keySide hash key) c.tree fuel x = some res →
    ∃ res', c.removeRun hash key fuel x = some res' ∧ (∀ y, res' = some y → res = some y) ∧
      ((∀ y ∈ c.trail hash key fuel x, c.tree.key y = (hash key).toNat) → res' = res) := by
  intro fuel
  induction fuel with
  | zero => exact fun _ _ h => nomatch h
  | succ fuel ih =>
    intro x res hx hkey h
    rw [RbTree.search, if_neg hx] at h
    by_cases hcmp : blockCacheCmp key (c.key x) = 0
    · have hside : c.keySide hash key x = none :=
        keySide_eq_none.mpr ⟨hkey, ((blockCacheCmp_spec _ _).1.mp hcmp).symm⟩
      rw [hside] at h
      cases h
      exact ⟨some x, by rw [removeRun, if_pos hcmp], fun _ hy => hy, fun _ => rfl⟩
    · have hside : c.keySide hash key x = some (!decide (blockCacheCmp key (c.key x) < 0)) := by
        rw [keySide, hkey, if_neg (Nat.lt_irrefl _), if_neg (Nat.lt_irrefl _), if_neg hcmp]
        split_ifs with hlt <;> simp [hlt]
      rw [hside] at h
      dsimp only at h
      rw [removeRun, if_neg hcmp, trail, if_neg hx, hside]
      dsimp only
      generalize c.tree.child (!decide (blockCacheCmp key (c.key x) < 0)) x = y at h ⊢
      by_cases hgo : y ≠ c.tree.sentinel ∧ (hash key).toNat = c.tree.key y
      · obtain ⟨res', hrun, hfound, hall⟩ := ih hgo.1 hgo.2.symm h
        rw [if_pos hgo]
        exact ⟨res', hrun, hfound, fun htrail => hall fun z hz =>
          htrail z (List.mem_cons_of_mem _ hz)⟩
      · rw [if_neg hgo]
        refine ⟨none, rfl, nofun, fun htrail => ?_⟩
        obtain ⟨fuel, rfl⟩ : ∃ n, fuel = n + 1 := by
          cases fuel with
          | zero => exact nomatch h
          | succ n => exact ⟨n, rfl⟩
        by_cases hy : y = c.tree.sentinel
        · rw [RbTree.search, if_pos hy] at h
          exact Option.some.inj h
        · refine absurd ⟨hy, (htrail y (List.mem_cons_of_mem _ ?_)).symm⟩ hgo
          rw [trail, if_neg hy]
          cases c.keySide hash key y <;> exact List.mem_cons_self

/-- **The outer loop of a removal.** -/
theorem removeWalk_spec : ∀ {fuel x : ℕ} {res : Option ℕ},
    RbTree.search (c.keySide hash key) c.tree fuel x = some res →
    ∃ res', c.removeWalk hash key fuel x = some res' ∧ (∀ y, res' = some y → res = some y) ∧
      ((∀ y ∈ (c.trail hash key fuel x).dropWhile fun y => c.tree.key y ≠ (hash key).toNat,
        c.tree.key y = (hash key).toNat) → res' = res) := by
  intro fuel
  induction fuel with
  | zero => exact fun h => nomatch h
  | succ fuel ih =>
    intro x res h
    by_cases hx : x = c.tree.sentinel
    · rw [RbTree.search, if_pos hx] at h
      cases h
      exact ⟨none, by rw [removeWalk, if_pos hx], nofun, fun _ => rfl⟩
    by_cases hkey : c.tree.key x = (hash key).toNat
    · obtain ⟨res', hrun, hfound, hall⟩ := removeRun_spec hx hkey h
      rw [removeWalk, if_neg hx, hkey, if_neg (Nat.lt_irrefl _), if_neg (Nat.lt_irrefl _)]
      refine ⟨res', hrun, hfound, fun htrail => hall ?_⟩
      -- the way begins with the first node of the hash
      have hhead : ∃ l, c.trail hash key (fuel + 1) x = x :: l := by
        rw [trail, if_neg hx]
        cases c.keySide hash key x with
        | none => exact ⟨_, rfl⟩
        | some d => exact ⟨_, rfl⟩
      obtain ⟨l, hl⟩ := hhead
      rw [hl] at htrail ⊢
      rwa [List.dropWhile_cons_of_neg (by simpa using hkey)] at htrail
    · have hside : ∃ d, c.keySide hash key x = some d ∧
          c.removeWalk hash key (fuel + 1) x =
            c.removeWalk hash key fuel (c.tree.child d x) := by
        rcases Nat.lt_or_gt_of_ne hkey with hlt | hlt
        · refine ⟨true, by rw [keySide, if_neg (by omega), if_pos hlt], ?_⟩
          rw [removeWalk, if_neg hx, if_neg (by omega), if_pos hlt]
        · refine ⟨false, by rw [keySide, if_pos hlt], ?_⟩
          rw [removeWalk, if_neg hx, if_pos hlt]
      obtain ⟨d, hside, hwalk⟩ := hside
      rw [RbTree.search, if_neg hx, hside] at h
      obtain ⟨res', hrun, hfound, hall⟩ := ih h
      rw [hwalk, trail, if_neg hx, hside]
      refine ⟨res', hrun, hfound, fun htrail => hall ?_⟩
      rwa [List.dropWhile_cons_of_pos (by simpa using hkey)] at htrail

/-- **A removal** takes out a node of the key, and does so if the nodes with its hash are joined. -/
theorem Inv.remove (h : c.Inv hash L) (key : BlockKey) :
    ∃ c' L', c.remove hash key = some c' ∧ c'.Inv hash L' ∧ c.Thins c' ∧
      (((∃ x ∈ c.queue, c.key x = key) → c.Joined hash key) →
        (∀ x ∈ c.queue, ∀ y ∈ c.queue, c.key x = c.key y → x = y) → ∀ y ∈ c'.queue, c.key y ≠ key) := by
  obtain ⟨res, hsearch, hsome, hnone⟩ := h.search key
  obtain ⟨res', hwalk, hfound, hall⟩ := removeWalk_spec hsearch
  rw [BlockCache.remove, hwalk, Option.bind_eq_bind, Option.bind_some]
  cases res' with
  | none =>
    refine ⟨c, L, rfl, h, Thins.refl c, fun hjoined _ y hy hkey => ?_⟩
    exact hnone (hall (hjoined ⟨y, hy, hkey⟩)).symm y hy hkey
  | some x =>
    obtain ⟨hx, hkey⟩ := hsome x (hfound x rfl)
    obtain ⟨t, hdelete, hholds, hkeys, hs⟩ :=
      delete_by_spec h.holds (h.perm.mem_iff.mpr hx) h.length
    have hnot : x ∉ L.erase x := h.holds.nodup.not_mem_erase
    have hsub : ∀ y ∈ c.queue.erase x, y ∈ c.queue := fun y hy => List.mem_of_mem_erase hy
    refine ⟨{ c with tree := t, queue := c.queue.erase x }, L.erase x, ?_, ?_,
      ⟨hsub, rfl, rfl, rfl, hs⟩, fun _ hinj y hy hy' => ?_⟩
    · dsimp only
      rw [hdelete]
      rfl
    · refine Inv.intro hholds rfl (fun y hy => ?_) (fun _ _ => rfl) (h.perm.erase x) fun y hy =>
        h.hashed y (h.perm.mem_iff.mp (List.mem_of_mem_erase hy))
      have hyx : y ≠ x := fun heq => hnot (heq ▸ hy)
      rw [hkeys, Function.update_of_ne hyx]
    · have hyx : y = x := hinj y (hsub y hy) x hx (hy'.trans hkey.symm)
      exact h.nodup.not_mem_erase (hyx ▸ hy)

/-! ### The map -/

/-- No two nodes have the same key, and the words of a node are the value that the map has for its key. -/
structure Faithful (c : BlockCache) (m : BlockKey → Option (List UInt64)) : Prop where
  inj : ∀ x ∈ c.queue, ∀ y ∈ c.queue, c.key x = c.key y → x = y
  value : ∀ x ∈ c.queue, m (c.key x) = some (c.words x)

variable {m : BlockKey → Option (List UInt64)}

/-- Taking entries away keeps the rest faithful. -/
theorem Faithful.thins (h : c.Faithful m) (hthins : c.Thins c') : c'.Faithful m := by
  refine ⟨fun x hx y hy hxy => ?_, fun x hx => ?_⟩
  · rw [hthins.key] at hxy
    exact h.inj x (hthins.subset hx) y (hthins.subset hy) hxy
  · rw [hthins.key, hthins.words]
    exact h.value x (hthins.subset hx)

/-- A key that is in no entry may get any value. -/
theorem Faithful.update (h : c.Faithful m) (hkey : ∀ x ∈ c.queue, c.key x ≠ key)
    (v : Option (List UInt64)) : c.Faithful (Function.update m key v) := by
  refine ⟨h.inj, fun x hx => ?_⟩
  rw [Function.update_of_ne (hkey x hx)]
  exact h.value x hx

/-- A new node for a key that no other node has. -/
theorem Faithful.insertNode (h : c.Faithful m) (hkey : ∀ y ∈ c.queue, c.key y ≠ key)
    (hx : x ∉ c.queue) (hlen : value.length < 32) (hqueue : c'.queue = x :: c.queue)
    (hkeys : c'.key = Function.update c.key x key)
    (hwords : c'.words = (c.store hash x key value chunk).words) :
    c'.Faithful (Function.update m key (some value)) := by
  have hne : ∀ y ∈ c.queue, y ≠ x := fun y hy heq => hx (heq ▸ hy)
  have hold : ∀ y ∈ c.queue, c'.key y = c.key y := fun y hy => by
    rw [hkeys, Function.update_of_ne (hne y hy)]
  have hnew : c'.key x = key := by rw [hkeys, Function.update_self]
  refine ⟨fun y hy z hz hyz => ?_, fun y hy => ?_⟩
  · rw [hqueue] at hy hz
    rcases List.mem_cons.mp hy with hyx | hy' <;> rcases List.mem_cons.mp hz with hzx | hz'
    · exact hyx.trans hzx.symm
    · subst hyx
      exact absurd ((hold z hz').symm.trans (hyz.symm.trans hnew)) (hkey z hz')
    · subst hzx
      exact absurd ((hold y hy').symm.trans (hyz.trans hnew)) (hkey y hy')
    · rw [hold y hy', hold z hz'] at hyz
      exact h.inj y hy' z hz' hyz
  · rw [hqueue] at hy
    rcases List.mem_cons.mp hy with rfl | hy
    · rw [hnew, Function.update_self, hwords, store_words hlen]
    · rw [hold y hy, Function.update_of_ne (hkey y hy), hwords, store_words_of_ne (hne y hy)]
      exact h.value y hy

/-- **An insertion** keeps the invariant, and adds the value where the key was not in the cache. -/
theorem Inv.insert (h : c.Inv hash L)
    (hpossible : (CacheEvent.insert key value first second chunk).Possible c) :
    ∃ c' L', c.insert hash key value first second chunk = some c' ∧ c'.Inv hash L' ∧
      ((CacheEvent.insert key value first second chunk).Safe hash c → c.Faithful m →
        c'.Faithful ((CacheEvent.insert key value first second chunk).record m)) := by
  obtain ⟨c₁, L₁, hroom, hinv, hthins⟩ := h.makeRoom first
  simp only [BlockCache.insert, CacheEvent.Safe, CacheEvent.record, hroom, Option.bind_eq_bind,
    Option.bind_some, Option.mem_some_iff, forall_eq']
  cases hnode : first.or second with
  | none => exact ⟨c₁, L₁, rfl, hinv, fun _ hfaithful => hfaithful.thins hthins⟩
  | some x =>
    obtain ⟨hx, hxs⟩ := hpossible.2 c₁ hroom x hnode
    obtain ⟨c', L', hrun, hinv', hqueue, hkeys, hwords, -⟩ :=
      hinv.insertNode hx (hthins.sentinel ▸ hxs) key value chunk
    refine ⟨c', L', hrun, hinv', fun hsafe hfaithful => ?_⟩
    obtain ⟨hlen, hkey⟩ := hsafe rfl
    exact (hfaithful.thins hthins).insertNode hkey hx hlen hqueue hkeys hwords

/-- **Every possible operation ends** and keeps the invariant; a safe one does to the cache what it does to
the map. -/
theorem Inv.step {e : CacheEvent} (h : c.Inv hash L) (hpossible : e.Possible c) :
    ∃ c' L', c.step hash e = some c' ∧ c'.Inv hash L' ∧
      (e.Safe hash c → c.Faithful m → c'.Faithful (e.record m)) := by
  cases e with
  | insert key value first second chunk => exact h.insert hpossible
  | lookup key memory =>
    obtain ⟨c', r, hrun, hinv, hthins, -⟩ := h.lookup key memory
    exact ⟨c', L, by rw [BlockCache.step, hrun]; rfl, hinv, fun _ hfaithful =>
      hfaithful.thins hthins⟩
  | remove key =>
    obtain ⟨c', L', hrun, hinv, hthins, hgone⟩ := h.remove key
    refine ⟨c', L', hrun, hinv, fun hsafe hfaithful => (hfaithful.thins hthins).update ?_ none⟩
    rw [hthins.key]
    exact hgone hsafe hfaithful.inj
  | discard =>
    obtain ⟨c', L', hrun, hinv, hthins⟩ := h.discard
    exact ⟨c', L', hrun, hinv, fun _ hfaithful => hfaithful.thins hthins⟩

end BlockCache

/-! ### Every state of every run -/

section

variable {hash : BlockKey → UInt32} {c : BlockCache} {key : BlockKey}
  {tr : List (BlockCache × CacheEvent)}

open BlockCache

/-- An empty cache meets the invariant. -/
theorem inv_of_init (h : (blockCacheMachine hash).init c) : c.Inv hash [] := by
  obtain ⟨hqueue, sentinel, t, htree⟩ := h
  have hholds : (c.tree.setKeys c.rank).Holds [] := by
    rw [htree]
    exact ⟨⟨.nil, ⟨rfl, trivial, fun hc => absurd rfl hc, List.nodup_nil, by simp [toList, ctxList],
      Function.update_self ..⟩, ⟨⟨0, rfl⟩, trivial, rfl⟩, rfl⟩, List.Pairwise.nil⟩
  exact ⟨hholds, by rw [hqueue], by simp [hqueue]⟩

theorem lastInsert_snoc (es : List CacheEvent) (e : CacheEvent) :
    lastInsert (es ++ [e]) = e.record (lastInsert es) := by
  rw [lastInsert, List.foldl_append]
  rfl

/-- The invariant in every state of a run, and the map in those of a safe one. -/
theorem blockCacheMachine_inv (h : (blockCacheMachine hash).Run tr c) :
    (∃ L, c.Inv hash L) ∧
      ((∀ p ∈ tr, p.2.Safe hash p.1) → c.Faithful (lastInsert (tr.map Prod.snd))) := by
  induction h with
  | start hinit =>
    refine ⟨⟨[], inv_of_init hinit⟩, fun _ => ?_⟩
    have hqueue := hinit.1
    exact ⟨by simp [hqueue], by simp [hqueue]⟩
  | @snoc tr c c' e _ hstep ih =>
    obtain ⟨⟨L, hinv⟩, hfaithful⟩ := ih
    obtain ⟨c₁, L', hrun, hinv', hmap⟩ := hinv.step (m := lastInsert (tr.map Prod.snd)) hstep.1
    obtain rfl : c' = c₁ := Option.some.inj (hstep.2.symm.trans hrun)
    refine ⟨⟨L', hinv'⟩, fun hsafe => ?_⟩
    rw [List.map_append, List.map_singleton, lastInsert_snoc]
    exact hmap (hsafe (c, e) (by simp)) (hfaithful fun p hp => hsafe p (by simp [hp]))

/-- An operation that puts a value of the key into the map. -/
def CacheEvent.Inserts (key : BlockKey) : CacheEvent → Prop
  | insert key' _ first second _ => key' = key ∧ (first.or second).isSome
  | _ => False

/-- After a remove of a key the map has no value of it until the next insert. -/
theorem lastInsert_remove {es₁ es₂ : List CacheEvent} (h : ∀ e ∈ es₂, ¬ e.Inserts key) :
    lastInsert (es₁ ++ .remove key :: es₂) key = none := by
  induction es₂ using List.reverseRecOn with
  | nil =>
    rw [lastInsert_snoc]
    exact Function.update_self ..
  | append_singleton es e ih =>
    rw [← List.cons_append, ← List.append_assoc, lastInsert_snoc]
    have hnone := ih fun e he => h e (by simp [he])
    have hlast := h e (by simp)
    cases e with
    | insert key' value first second chunk =>
      rw [CacheEvent.record]
      split_ifs with hsome
      · have hne : key ≠ key' := fun heq => hlast ⟨heq.symm, hsome⟩
        rwa [Function.update_of_ne hne]
      · exact hnone
    | remove key' =>
      by_cases hkey : key = key'
      · subst hkey
        exact Function.update_self ..
      · exact (Function.update_of_ne hkey ..).trans hnone
    | lookup key' memory => exact hnone
    | discard => exact hnone

/-- **The cache refines a map.** In every run the tree has the nodes of the queue, and every possible
operation ends. In a run of safe operations a successful lookup gives the value of the last insert of the key
that no remove of it followed, so a lookup after a remove misses until the next insert. -/
theorem blockCache_refines (h : (blockCacheMachine hash).Run tr c) :
    (∃ L, c.tree.walk c.fuel = some L ∧ L.Perm c.queue ∧ c.queue.Nodup) ∧
    (∀ e : CacheEvent, e.Possible c → ∃ c', (blockCacheMachine hash).step c e c') ∧
    ((∀ p ∈ tr, p.2.Safe hash p.1) → ∀ (key : BlockKey) (memory : Bool), ∃ c' r,
      c.lookup hash key memory = some (c', r) ∧
      (∀ v, r = .ok v → lastInsert (tr.map Prod.snd) key = some v) ∧
      ∀ es₁ es₂, tr.map Prod.snd = es₁ ++ .remove key :: es₂ → (∀ e ∈ es₂, ¬ e.Inserts key) →
        ∀ v, r ≠ .ok v) := by
  obtain ⟨⟨L, hinv⟩, hfaithful⟩ := blockCacheMachine_inv h
  refine ⟨⟨L, hinv.walk, hinv.perm, hinv.nodup⟩, fun e he => ?_, fun hsafe key memory => ?_⟩
  · obtain ⟨c', -, hrun, -⟩ := hinv.step (m := fun _ => none) he
    exact ⟨c', he, hrun⟩
  · obtain ⟨c', r, hrun, -, -, hwords⟩ := hinv.lookup key memory
    have hvalue : ∀ v, r = .ok v → lastInsert (tr.map Prod.snd) key = some v := fun v hv => by
      obtain ⟨x, hx, rfl, rfl⟩ := hwords v hv
      exact (hfaithful hsafe).value x hx
    refine ⟨c', r, hrun, hvalue, fun es₁ es₂ htr hes v hv => ?_⟩
    have hlast := hvalue v hv
    rw [htr, lastInsert_remove hes] at hlast
    exact absurd hlast nofun

end

/-! ### A key that is inserted twice -/

/-- An empty cache; node 9 is the sentinel. -/
def noBlocks : BlockCache :=
  ⟨RbTree.init 9 ⟨0, 0, fun _ _ => 0, fun _ => 0, fun _ => false, fun _ => 0⟩, fun _ => ⟨0, 0⟩,
    fun _ => 0, fun _ _ => 0, []⟩

/-- The insertion of a key with one data server. -/
def oneServer (key : BlockKey) (node : ℕ) (server : UInt64) : CacheEvent :=
  .insert key [server] (some node) none fun _ => 0

/-- The cache after some operations, all keys having the hash 0. -/
def blocksAfter (es : List CacheEvent) : BlockCache :=
  es.foldl (fun c e => (c.step (fun _ => 0) e).getD c) noBlocks

/-- The trace of these operations. -/
def blocksTrace (es : List CacheEvent) : List (BlockCache × CacheEvent) :=
  es.zipIdx.map fun p => (blocksAfter (es.take p.2), p.1)

theorem noBlocks_init : (blockCacheMachine fun _ => 0).init noBlocks := ⟨rfl, 9, _, rfl⟩

/-- Two keys with one hash; the first one is removed and inserted again. -/
def reinserted : List CacheEvent :=
  [oneServer ⟨1, 1⟩ 1 7, oneServer ⟨1, 2⟩ 2 8, .remove ⟨1, 1⟩, oneServer ⟨1, 1⟩ 3 9]

/-- These operations are a run. -/
theorem reinserted_run :
    (blockCacheMachine fun _ => 0).Run (blocksTrace reinserted) (blocksAfter reinserted) :=
  ((((Machine.Run.start noBlocks_init).snoc ⟨by decide, rfl⟩).snoc ⟨by decide, rfl⟩).snoc
    ⟨by decide, rfl⟩).snoc ⟨by decide, rfl⟩

/-- After these operations a lookup of each key gives the value it was inserted with last. -/
theorem blockCache_refines_one :
    (∃ c, (blocksAfter reinserted).lookup (fun _ => 0) ⟨1, 1⟩ true = some (c, .ok [9]) ∧
      lastInsert reinserted ⟨1, 1⟩ = some [9]) ∧
    ∃ c, (blocksAfter reinserted).lookup (fun _ => 0) ⟨1, 2⟩ true = some (c, .ok [8]) ∧
      lastInsert reinserted ⟨1, 2⟩ = some [8] := by
  have hread := (blockCache_refines reinserted_run).2.2 (by decide)
  have hfirst : ((blocksAfter reinserted).lookup (fun _ => 0) ⟨1, 1⟩ true).map Prod.snd =
      some (.ok [9]) := by decide
  have hsecond : ((blocksAfter reinserted).lookup (fun _ => 0) ⟨1, 2⟩ true).map Prod.snd =
      some (.ok [8]) := by decide
  obtain ⟨c, r, hlookup, hvalue, -⟩ := hread ⟨1, 1⟩ true
  obtain ⟨c', r', hlookup', hvalue', -⟩ := hread ⟨1, 2⟩ true
  obtain rfl : r = .ok [9] := by simpa [hlookup] using hfirst
  obtain rfl : r' = .ok [8] := by simpa [hlookup'] using hsecond
  exact ⟨⟨c, hlookup, hvalue _ rfl⟩, c', hlookup', hvalue' _ rfl⟩

/-- **The second of two insertions of a key is not seen**: a lookup gives the value of the first one. -/
theorem double_insert_lookup : ∃ tr c, (blockCacheMachine fun _ => 0).Run tr c ∧
    (c.lookup (fun _ => 0) ⟨1, 1⟩ true).map Prod.snd = some (.ok [7]) ∧
    lastInsert (tr.map Prod.snd) ⟨1, 1⟩ = some [8] := by
  let es : List CacheEvent := [oneServer ⟨1, 1⟩ 1 7, oneServer ⟨1, 1⟩ 2 8]
  refine ⟨blocksTrace es, blocksAfter es, ?_, by decide, by decide⟩
  exact ((Machine.Run.start noBlocks_init).snoc ⟨by decide, rfl⟩).snoc ⟨by decide, rfl⟩

end Hengine.Tfs
