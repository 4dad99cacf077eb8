import Hengine.Upstream.CheckShm

/-!
# The Addresses of the Records Fit, if Enough Is Asked for

The block of a new address is asked for with the length of the address of the first record, not with that
of the address. In a run in which that is enough at every step, every address fits in its block, and a record
has the address of its peer as long as it is in use. In other runs an address is copied beyond its block.
-/

namespace Hengine

open List Option

/-! ### The blocks of a pool -/

section Slab

variable {z : SlabZone} {pool pool' : SlabPool} {live : List SlabBlock} {size p : ℕ}

theorem le_chunkRoom (z : SlabZone) (size : ℕ) : size ≤ z.chunkRoom size := by
  rw [SlabSizes.chunkRoom]
  split_ifs with h
  · exact (SlabZone.pages_spec (by omega)).2
  · exact (SlabZone.shift_spec (Nat.le_of_not_lt h)).2.2

/-- A full chunk has the size that it was asked for with. -/
theorem shift_two_pow (h : z.minShift ≤ z.shift size) : z.shift (2 ^ z.shift size) = z.shift size := by
  generalize hs : z.shift size = s at h ⊢
  rw [SlabSizes.shift, Nat.shiftLeft_eq, Nat.one_mul]
  rcases Nat.eq_or_lt_of_le h with rfl | hlt
  · rw [if_neg (Nat.lt_irrefl _)]
  · rw [if_pos (Nat.pow_lt_pow_right (by decide) hlt)]
    obtain ⟨k, rfl⟩ : ∃ k, s = k + 1 := ⟨s - 1, by omega⟩
    have hpos : 0 < 2 ^ k := Nat.two_pow_pos k
    have hlog : Nat.log2 (2 ^ (k + 1) - 1) = k := by
      refine (Nat.log2_eq_iff (by omega)).mpr ⟨?_, ?_⟩ <;> omega
    rw [hlog, Nat.add_comm]

/-- **A request gets what a request of the whole chunk gets.** -/
theorem alloc_chunkRoom (z : SlabZone) (size : ℕ) (pool : SlabPool) :
    slabAllocLocked z (z.chunkRoom size) pool = slabAllocLocked z size pool := by
  have hP : 0 < z.pagesize := Nat.two_pow_pos _
  rw [slabAllocLocked, slabAllocLocked, SlabSizes.chunkRoom]
  by_cases h : z.maxSize < size
  · have hlarge : z.maxSize < z.pages size * z.pagesize :=
      Nat.lt_of_lt_of_le h (SlabZone.pages_spec (by omega)).2
    have hpages : z.pages (z.pages size * z.pagesize) = z.pages size := by
      generalize z.pages size = n
      rw [SlabSizes.pages, Nat.shiftRight_eq_div_pow, ← SlabSizes.pagesize, Nat.mul_mod_left,
        Nat.mul_div_cancel _ hP]
      simp
    simp only [if_pos h, if_pos hlarge, hpages]
  · obtain ⟨hmin, hmax, -⟩ := SlabZone.shift_spec (Nat.le_of_not_lt h)
    have hsmall : ¬ z.maxSize < 2 ^ z.shift size := by
      have hle : 2 ^ z.shift size ≤ 2 ^ (z.pagesizeShift - 1) :=
        Nat.pow_le_pow_right (by decide) (by omega)
      have hhalf : z.maxSize = 2 ^ (z.pagesizeShift - 1) := by
        rw [SlabSizes.maxSize, SlabSizes.pagesize]
        have hge := z.pagesize_ge
        obtain ⟨k, hk⟩ : ∃ k, z.pagesizeShift = k + 1 := ⟨z.pagesizeShift - 1, by omega⟩
        rw [hk, Nat.pow_succ]
        simp
      omega
    simp only [if_neg h, if_neg hsmall, shift_two_pow hmin]

section

variable (h : (slabMachine z).Reachable ⟨pool, live⟩)
include h

theorem reachable_alloc_none (hrun : slabAllocLocked z size pool = some (none, pool')) :
    (slabMachine z).Reachable ⟨pool', live⟩ := by
  obtain ⟨tr, htr⟩ := h
  refine ⟨_, htr.snoc (e := .alloc size) ?_⟩
  show (slabAllocLocked z size pool).map _ = _
  rw [hrun]
  rfl

/-- An allocation goes from a reachable pool to a reachable one. -/
theorem reachable_alloc (hrun : slabAllocLocked z size pool = some (some p, pool')) :
    (slabMachine z).Reachable ⟨pool', ⟨p, z.chunkRoom size⟩ :: live⟩ := by
  obtain ⟨tr, htr⟩ := h
  refine ⟨_, htr.snoc (e := .alloc (z.chunkRoom size)) ?_⟩
  show (slabAllocLocked z (z.chunkRoom size) pool).map _ = _
  rw [alloc_chunkRoom, hrun]
  rfl

/-- So does a release of a live block. -/
theorem reachable_free (hp : p ∈ live.map SlabBlock.addr)
    (hrun : slabFreeLocked z p pool = some pool') :
    (slabMachine z).Reachable ⟨pool', live.filter fun b => b.addr ≠ p⟩ := by
  obtain ⟨tr, htr⟩ := h
  refine ⟨_, htr.snoc (e := .free p) ?_⟩
  show (if p ∈ live.map SlabBlock.addr then _ else _) = _
  rw [if_pos hp, hrun]
  rfl

/-- Live blocks begin at different places. -/
theorem live_nodup : (live.map SlabBlock.addr).Nodup := by
  obtain ⟨runs, blocks, slots, owners, hinv⟩ := slab_invariant h
  have hlive : live = owners.map fun e => ⟨e.1.addr z pool.start, e.2⟩ := hinv.live
  rw [hlive, List.map_map, List.Nodup, List.pairwise_map]
  refine (List.pairwise_map.mp hinv.nodup).imp_of_mem fun {e e'} he he' hne haddr => hne ?_
  exact hinv.ok.addr_inj ((hinv.owns e.1).mp (List.mem_map_of_mem he))
    ((hinv.owns e'.1).mp (mem_map_of_mem he')) haddr

/-- **Live blocks are apart.** -/
theorem live_apart {b b' : SlabBlock} (hb : b ∈ live) (hb' : b' ∈ live) (hne : b.addr ≠ b'.addr) :
    Apart b.addr (slabRoom z pool b.addr) b'.addr (slabRoom z pool b'.addr) := by
  have hsymm : Std.Symm fun b b' : SlabBlock =>
      Apart b.addr (slabRoom z pool b.addr) b'.addr (slabRoom z pool b'.addr) := ⟨fun _ _ => Or.symm⟩
  exact (slab_separated h).apart.forall hb hb' fun heq => hne (congrArg SlabBlock.addr heq)

end

end Slab

namespace CheckShm

variable {z : SlabZone} {s s' : PeersShm} {live live' : List SlabBlock} {i j p q size : ℕ} {r : PeerShm}
  {sockaddr a : List UInt8} {pool' : SlabPool}

/-! ### The invariant -/

/-- The block of an address is that of an entry in use. -/
theorem block_eq_some : s.block i = some p ↔
    ∃ r, s.peers[i]? = some r ∧ r.deleted = false ∧ r.sockaddr = some p := by
  rw [PeersShm.block, bind_eq_some_iff]
  refine exists_congr fun r => and_congr_right fun _ => ?_
  cases r.deleted <;> simp

/-- The address of a peer is what its bytes in the zone say. -/
theorem address_eq_some : s.address i = some a ↔
    ∃ r p, s.peers[i]? = some r ∧ r.deleted = false ∧ r.sockaddr = some p ∧ s.bytes p r = a := by
  rw [PeersShm.address, bind_eq_some_iff]
  refine exists_congr fun r => ?_
  rw [exists_and_left]
  refine and_congr_right fun _ => ?_
  cases r.deleted <;> simp

/-- The records in use have live blocks with room for their addresses, each its own. -/
structure Sound (z : SlabZone) (s : PeersShm) (live : List SlabBlock) : Prop where
  reach : (slabMachine z).Reachable ⟨s.pool, live⟩
  owned : ∀ (i : ℕ) (r : PeerShm) (p : ℕ), s.peers[i]? = some r → r.deleted = false → r.sockaddr = some p →
    ∃ n, ⟨p, n⟩ ∈ live ∧ r.socklen ≤ n
  inj : ∀ i j p : ℕ, s.block i = some p → s.block j = some p → i = j

/-- The block of an address is live. -/
theorem Sound.mem_live (h : Sound z s live) (hp : s.block i = some p) : p ∈ live.map SlabBlock.addr := by
  obtain ⟨r, hr, hdel, haddr⟩ := block_eq_some.mp hp
  obtain ⟨n, hmem, -⟩ := h.owned i r p hr hdel haddr
  exact mem_map_of_mem hmem

/-- **The invariant says that the addresses fit.** -/
theorem Sound.fits (h : Sound z s live) : s.Fits z := by
  refine ⟨fun i p a hp ha => ?_, fun i j p q hij hp hq => ?_⟩
  · obtain ⟨r, hr, hdel, haddr⟩ := block_eq_some.mp hp
    obtain ⟨r', p', hr', -, haddr', rfl⟩ := address_eq_some.mp ha
    obtain rfl := Option.some.inj (hr.symm.trans hr')
    obtain rfl := Option.some.inj (haddr.symm.trans haddr')
    obtain ⟨n, hmem, hle⟩ := h.owned i r p hr hdel haddr
    have hroom := (slab_separated h.reach).room _ hmem
    rw [PeersShm.bytes, Memory.slice_length]
    dsimp only at hroom
    omega
  · have hne : p ≠ q := fun heq => hij (h.inj i j p hp (heq ▸ hq))
    obtain ⟨b, hb, rfl⟩ := mem_map.mp (h.mem_live hp)
    obtain ⟨b', hb', rfl⟩ := mem_map.mp (h.mem_live hq)
    exact live_apart h.reach hb hb' hne

/-! ### A new address -/

/-- The records with another one. -/
theorem getElem?_put (hi : i ≤ s.peers.length) :
    (s.put i r)[j]? = if j = i then some r else s.peers[j]? := by
  rw [PeersShm.put]
  split_ifs with hlt hj hj
  · rw [hj, getElem?_set_self hlt]
  · rw [getElem?_set_ne (Ne.symm hj)]
  · obtain rfl : i = s.peers.length := by omega
    rw [hj, getElem?_concat_length]
  · rw [getElem?_append]
    split_ifs with hj'
    · rfl
    · rw [getElem?_eq_none (by rw [length_singleton]; omega),
        getElem?_eq_none (by omega)]

/-- A record that is not in use is zeroed; the pool may have changed. -/
theorem Sound.zeroed (h : Sound z s live) (hi : i ≤ s.peers.length)
    (hreach : (slabMachine z).Reachable ⟨pool', live⟩) (hr : r.sockaddr = none)
    (hs' : s' = { s with pool := pool', peers := s.put i r }) :
    Sound z s' live ∧ (∀ j, j ≠ i → s'.address j = s.address j) := by
  subst hs'
  have hblock : ∀ j q, PeersShm.block { s with pool := pool', peers := s.put i r } j = some q →
      j ≠ i ∧ s.block j = some q := by
    intro j q hq
    obtain ⟨r', hr', hdel, haddr⟩ := block_eq_some.mp hq
    rw [getElem?_put hi] at hr'
    split_ifs at hr' with hj
    · cases hr'
      rw [hr] at haddr
      cases haddr
    · exact ⟨hj, block_eq_some.mpr ⟨r', hr', hdel, haddr⟩⟩
  refine ⟨⟨hreach, fun j r' q hr' hdel haddr => ?_, fun j j' q hq hq' => ?_⟩, fun j hj => ?_⟩
  · obtain ⟨r₁, hr₁, hdel₁, haddr₁⟩ :=
      block_eq_some.mp (hblock j q (block_eq_some.mpr ⟨r', hr', hdel, haddr⟩)).2
    have hj := (hblock j q (block_eq_some.mpr ⟨r', hr', hdel, haddr⟩)).1
    rw [getElem?_put hi, if_neg hj] at hr'
    exact h.owned j r' q hr' hdel haddr
  · exact h.inj j j' q (hblock j q hq).2 (hblock j' q hq').2
  · simp only [PeersShm.address, getElem?_put hi, if_neg hj]
    rfl

/-- **An address goes into a fresh block** that has room for it: the other addresses stay. -/
theorem Sound.store (h : Sound z s live) (hi : i ≤ s.peers.length)
    (hrun : slabAllocLocked z size s.pool = some (some p, pool'))
    (hroom : sockaddr.length ≤ z.chunkRoom size) (hr : r.sockaddr = some p)
    (hlen : r.socklen = sockaddr.length) (hdel : r.deleted = false)
    (hs' : s' = { s with pool := pool', mem := s.mem.write () p sockaddr, peers := s.put i r }) :
    Sound z s' (⟨p, z.chunkRoom size⟩ :: live) ∧ (∀ j, j ≠ i → s'.address j = s.address j) ∧
      s'.address i = some sockaddr := by
  have hreach := reachable_alloc h.reach hrun
  have hnodup := live_nodup hreach
  rw [map_cons, nodup_cons] at hnodup
  have hpeers : ∀ j, s'.peers[j]? = if j = i then some r else s.peers[j]? := by
    intro j
    rw [hs']
    exact getElem?_put hi
  have hpool : s'.pool = pool' := by rw [hs']
  have hmem : s'.mem = s.mem.write () p sockaddr := by rw [hs']
  -- the block of another record is not the new one
  have hother : ∀ j q, j ≠ i → s'.block j = some q → s.block j = some q ∧ q ≠ p := by
    intro j q hj hq
    have hq' : s.block j = some q := by
      rw [PeersShm.block, hpeers, if_neg hj] at hq
      exact hq
    exact ⟨hq', fun heq => hnodup.1 (heq ▸ h.mem_live hq')⟩
  have hself : ∀ q, s'.block i = some q → q = p := by
    intro q hq
    rw [PeersShm.block, hpeers, if_pos rfl, bind_some, hdel, hr] at hq
    exact (Option.some.inj hq).symm
  refine ⟨⟨hpool ▸ hreach, fun j r' q hr' hdel' haddr => ?_, fun j j' q hq hq' => ?_⟩,
    fun j hj => ?_, ?_⟩
  · rw [hpeers] at hr'
    split_ifs at hr' with hj
    · cases hr'
      obtain rfl := Option.some.inj (hr.symm.trans haddr)
      exact ⟨_, mem_cons_self, hlen ▸ hroom⟩
    · obtain ⟨n, hn, hle⟩ := h.owned j r' q hr' hdel' haddr
      exact ⟨n, mem_cons_of_mem _ hn, hle⟩
  · by_cases hj : j = i
    · by_cases hj' : j' = i
      · rw [hj, hj']
      · exact absurd (hself q (hj ▸ hq)) (hother j' q hj' hq').2
    · by_cases hj' : j' = i
      · exact absurd (hself q (hj' ▸ hq')) (hother j q hj hq).2
      · exact h.inj j j' q (hother j q hj hq).1 (hother j' q hj' hq').1
  · rw [PeersShm.address, PeersShm.address, hpeers, if_neg hj]
    cases hr' : s.peers[j]? with
    | none => rfl
    | some r' =>
      rw [bind_some, bind_some]
      cases hdel' : r'.deleted with
      | true => rfl
      | false =>
        cases haddr : r'.sockaddr with
        | none => rfl
        | some q =>
          -- the slice of the other address is apart from the block that is written
          have hq : s.block j = some q := block_eq_some.mpr ⟨r', hr', hdel', haddr⟩
          obtain ⟨n, hn, hle⟩ := h.owned j r' q hr' hdel' haddr
          have hne : p ≠ q := fun heq => hnodup.1 (heq ▸ h.mem_live hq)
          have hsep := slab_separated hreach
          have hroomp := hsep.room _ mem_cons_self
          have hroomq := hsep.room _ (mem_cons_of_mem _ hn)
          have hapart := live_apart hreach mem_cons_self (mem_cons_of_mem _ hn) hne
          dsimp only [Apart] at hroomp hroomq hapart
          have hslice : (s.mem.write () p sockaddr).slice () q (q + r'.socklen) =
              s.mem.slice () q (q + r'.socklen) := by
            rcases hapart with hapart | hapart
            · exact Memory.slice_write_above (by omega)
            · exact Memory.slice_write_below (by omega)
          simp only [PeersShm.bytes, hmem, hslice, map_some]
  · refine address_eq_some.mpr ⟨r, p, by rw [hpeers, if_pos rfl], hdel, hr, ?_⟩
    rw [PeersShm.bytes, hmem, hlen]
    exact Memory.slice_write_self sockaddr

/-- The record that is filled is not in use. -/
theorem freeRecord_spec (h : s.freeRecord = some i) : i ≤ s.peers.length ∧ s.block i = none := by
  rw [PeersShm.freeRecord] at h
  cases hfind : s.peers.findIdx? PeerShm.deleted with
  | some k =>
    rw [hfind] at h
    cases h
    obtain ⟨hlt, hdel, -⟩ := findIdx?_eq_some_iff_getElem.mp hfind
    refine ⟨hlt.le, ?_⟩
    rw [PeersShm.block, getElem?_eq_getElem hlt, bind_some, if_pos hdel]
  | none =>
    rw [hfind] at h
    dsimp only at h
    split_ifs at h
    cases h
    exact ⟨Nat.le_refl _, by rw [PeersShm.block, getElem?_eq_none (Nat.le_refl _)]; rfl⟩

/-- A record in use of the same address. -/
theorem sameRecord_spec {sendHash : ℕ} : ∀ {rs : List PeerShm} {k i : ℕ},
    sameRecord s sockaddr sendHash rs k = some (some i) →
      k ≤ i ∧ ∃ r p, rs[i - k]? = some r ∧ r.deleted = false ∧ r.sockaddr = some p ∧
        s.bytes p r = sockaddr := by
  intro rs
  induction rs with
  | nil => exact fun h => nomatch h
  | cons r rs ih =>
    intro k i h
    have hnext : sameRecord s sockaddr sendHash rs (k + 1) = some (some i) →
        k ≤ i ∧ ∃ r' p, (r :: rs)[i - k]? = some r' ∧ r'.deleted = false ∧ r'.sockaddr = some p ∧
          s.bytes p r' = sockaddr := by
      intro h
      obtain ⟨hle, r', p, hr', hrest⟩ := ih h
      refine ⟨by omega, r', p, ?_, hrest⟩
      rw [show i - k = i - (k + 1) + 1 by omega]
      exact hr'
    rw [sameRecord] at h
    split_ifs at h with hdel hlen
    · exact hnext h
    · cases haddr : r.sockaddr with
      | none => rw [haddr] at h; cases h
      | some p =>
        rw [haddr] at h
        dsimp only at h
        split_ifs at h with hsame
        · cases h
          refine ⟨Nat.le_refl k, r, p, ?_, by simpa using hdel, haddr, hsame.1.symm⟩
          rw [Nat.sub_self]
          rfl
        · exact hnext h
    · exact hnext h

theorem address_eq_none (h : s.block i = none) : s.address i = none := by
  cases ha : s.address i with
  | none => rfl
  | some a =>
    obtain ⟨r, p, hr, hdel, haddr, -⟩ := address_eq_some.mp ha
    exact nomatch h.symm.trans (block_eq_some.mpr ⟨r, hr, hdel, haddr⟩)

section

variable (h : Sound z s live)
include h

/-- **A record is filled**: where enough is asked for, the other addresses stay. -/
theorem Sound.fill {sendHash : ℕ} {made : Bool} {index : Option ℕ} (hi : i ≤ s.peers.length)
    (henough : i = 0 ∨ ∀ first, s.peers[0]? = some first → sockaddr.length ≤ z.chunkRoom first.socklen)
    (hrun : s.fill z i sockaddr sendHash made = some (s', index)) :
    (∃ live', Sound z s' live') ∧ (∀ j, j ≠ i → s'.address j = s.address j) ∧
      ∀ k, index = some k → s'.address k = some sockaddr := by
  rw [PeersShm.fill, bind_eq_some_iff] at hrun
  obtain ⟨first, hfirst, hrun⟩ := hrun
  have hroom : sockaddr.length ≤ z.chunkRoom first.socklen := by
    rw [getElem?_put hi] at hfirst
    split_ifs at hfirst with hzero
    · cases hfirst
      exact le_chunkRoom z _
    · exact henough.resolve_left (Ne.symm hzero) first hfirst
  obtain ⟨⟨res, pool'⟩, halloc, hres⟩ := map_eq_some_iff.mp hrun
  cases res with
  | none =>
    cases hres
    obtain ⟨hsound, hframe⟩ := h.zeroed hi (reachable_alloc_none h.reach halloc)
      (r := { PeerShm.zero with socklen := sockaddr.length }) rfl rfl
    exact ⟨⟨live, hsound⟩, hframe, nofun⟩
  | some p =>
    cases hres
    obtain ⟨hsound, hframe, haddr⟩ := h.store hi halloc hroom
      (r := ⟨some p, sockaddr.length, if made then sendHash else 0, 0, false⟩) rfl rfl rfl rfl
    refine ⟨⟨_, hsound⟩, hframe, fun k hk => ?_⟩
    split_ifs at hk
    cases hk
    exact haddr

/-- **A new peer.** -/
theorem Sound.add {sendHash : ℕ} {made : Bool} {index : Option ℕ}
    (henough : s.Enough z (.add sockaddr sendHash made))
    (hrun : s.addDynamicPeerShm z sockaddr sendHash made = some (s', index)) :
    (∃ live', Sound z s' live') ∧ (∀ j a, s.address j = some a → s'.address j = some a) ∧
      ∀ k, index = some k → s'.address k = some sockaddr := by
  rw [PeersShm.addDynamicPeerShm, bind_eq_some_iff] at hrun
  obtain ⟨same, hsame, hrun⟩ := hrun
  cases same with
  | some i =>
    cases hrun
    refine ⟨⟨live, h⟩, fun j a ha => ha, fun k hk => ?_⟩
    cases hk
    obtain ⟨-, r, p, hr, hrest⟩ := sameRecord_spec hsame
    exact address_eq_some.mpr ⟨r, p, hr, hrest⟩
  | none =>
    dsimp only at hrun
    cases hfree : s.freeRecord with
    | none =>
      rw [hfree] at hrun
      cases hrun
      exact ⟨⟨live, h⟩, fun j a ha => ha, nofun⟩
    | some i =>
      rw [hfree] at hrun
      obtain ⟨hi, hblock⟩ := freeRecord_spec hfree
      obtain ⟨hsound, hframe, hindex⟩ := h.fill hi (henough hsame i hfree) hrun
      refine ⟨hsound, fun j a ha => ?_, hindex⟩
      have hj : j ≠ i := fun heq => by
        rw [heq, address_eq_none hblock] at ha
        cases ha
      rw [hframe j hj, ha]

/-! ### Counting and deleting -/

/-- A change of the count of a record. -/
theorem Sound.count {f : PeerShm → PeerShm}
    (hf : ∀ r, (f r).sockaddr = r.sockaddr ∧ (f r).socklen = r.socklen ∧ (f r).deleted = r.deleted)
    (hs' : s' = { s with peers := s.peers.modify i f }) :
    Sound z s' live ∧ s'.address = s.address := by
  subst hs'
  have hpeers : ∀ j, (s.peers.modify i f)[j]? = (s.peers[j]?).map fun r => if i = j then f r else r := by
    intro j
    rw [getElem?_modify]
    rfl
  have hsame : ∀ j (r : PeerShm), (if i = j then f r else r).sockaddr = r.sockaddr ∧
      (if i = j then f r else r).socklen = r.socklen ∧
      (if i = j then f r else r).deleted = r.deleted := by
    intro j r
    split_ifs
    · exact hf r
    · exact ⟨rfl, rfl, rfl⟩
  have hblock : ∀ j, PeersShm.block { s with peers := s.peers.modify i f } j = s.block j := by
    intro j
    simp only [PeersShm.block, hpeers, bind_map, Function.comp_def, hsame]
  refine ⟨⟨h.reach, fun j r p hr hdel haddr => ?_, fun j j' p hp hp' => ?_⟩, funext fun j => ?_⟩
  · rw [hpeers, map_eq_some_iff] at hr
    obtain ⟨r, hr, rfl⟩ := hr
    rw [(hsame j r).2.2] at hdel
    rw [(hsame j r).1] at haddr
    rw [(hsame j r).2.1]
    exact h.owned j r p hr hdel haddr
  · exact h.inj j j' p (hblock j ▸ hp) (hblock j' ▸ hp')
  · simp only [PeersShm.address, PeersShm.bytes, hpeers, bind_map, Function.comp_def, hsame]

/-- **A record is deleted**, and its block is free. -/
theorem Sound.delete (hr : s.peers[i]? = some r) (hdel : r.deleted = false)
    (haddr : r.sockaddr = some p) (hrun : slabFreeLocked z p s.pool = some pool') {r' : PeerShm}
    (hr' : r'.deleted = true) (hs' : s' = { s with pool := pool', peers := s.peers.set i r' }) :
    (∃ live', Sound z s' live') ∧ ∀ j, j ≠ i → s'.address j = s.address j := by
  subst hs'
  have hblock : s.block i = some p := block_eq_some.mpr ⟨r, hr, hdel, haddr⟩
  have hlt : i < s.peers.length := (List.getElem?_eq_some_iff.mp hr).1
  have hother : ∀ {j : ℕ} {r₁ : PeerShm}, (s.peers.set i r')[j]? = some r₁ → r₁.deleted = false →
      j ≠ i ∧ s.peers[j]? = some r₁ := by
    intro j r₁ hr₁ hdel₁
    rw [getElem?_set] at hr₁
    split_ifs at hr₁ with hij
    · cases hr₁
      exact nomatch hdel₁.symm.trans hr'
    · exact ⟨Ne.symm hij, hr₁⟩
  have hblocks : ∀ {j q : ℕ},
      PeersShm.block { s with pool := pool', peers := s.peers.set i r' } j = some q →
      j ≠ i ∧ s.block j = some q := by
    intro j q hq
    obtain ⟨r₁, hr₁, hdel₁, haddr₁⟩ := block_eq_some.mp hq
    obtain ⟨hj, hr₁⟩ := hother hr₁ hdel₁
    exact ⟨hj, block_eq_some.mpr ⟨r₁, hr₁, hdel₁, haddr₁⟩⟩
  refine ⟨⟨live.filter fun b => b.addr ≠ p, reachable_free h.reach (h.mem_live hblock) hrun,
    fun j r₁ q hr₁ hdel₁ haddr₁ => ?_, fun j j' q hq hq' => ?_⟩, fun j hj => ?_⟩
  · obtain ⟨hj, hr₁⟩ := hother hr₁ hdel₁
    obtain ⟨n, hn, hle⟩ := h.owned j r₁ q hr₁ hdel₁ haddr₁
    have hq : q ≠ p := fun heq =>
      hj (h.inj j i p (block_eq_some.mpr ⟨r₁, hr₁, hdel₁, heq ▸ haddr₁⟩) hblock)
    exact ⟨n, mem_filter.mpr ⟨hn, by simpa using hq⟩, hle⟩
  · exact h.inj j j' q (hblocks hq).2 (hblocks hq').2
  · simp only [PeersShm.address, getElem?_set, if_neg (Ne.symm hj)]
    rfl

/-- **An entry leaves its record.** -/
theorem Sound.release (hrun : s.release z i = some s') :
    (∃ live', Sound z s' live') ∧ ∀ j, j ≠ i → s'.address j = s.address j := by
  rw [PeersShm.release, bind_eq_some_iff] at hrun
  obtain ⟨r, hr, hrun⟩ := hrun
  dsimp only at hrun
  split_ifs at hrun with hlast
  · obtain ⟨p, haddr, hrun⟩ := bind_eq_some_iff.mp hrun
    obtain ⟨pool', hfree, rfl⟩ := map_eq_some_iff.mp hrun
    exact h.delete hr (by simpa using hlast.2) haddr hfree rfl rfl
  · cases hrun
    have hlt : i < s.peers.length := (List.getElem?_eq_some_iff.mp hr).1
    have hset : s.peers.set i { r with ref := r.ref - 1 } =
        s.peers.modify i fun r => { r with ref := r.ref - 1 } := by
      refine ext_getElem? fun j => ?_
      by_cases hj : i = j
      · subst hj
        rw [getElem?_set_self hlt, getElem?_modify_eq, hr]
        rfl
      · simp [hj]
    rw [hset]
    obtain ⟨hsound, haddr⟩ := h.count (i := i) (f := fun r => { r with ref := r.ref - 1 })
      (fun r => ⟨rfl, rfl, rfl⟩) rfl
    exact ⟨⟨live, hsound⟩, fun j _ => congrFun haddr j⟩

/-! ### The records of the configuration -/

/-- **A peer of the configuration.** -/
theorem Sound.initPeer (hrun : CheckShm.initPeer z s sockaddr = some s') :
    ∃ live', Sound z s' live' := by
  rw [CheckShm.initPeer, bind_eq_some_iff] at hrun
  obtain ⟨⟨res, pool'⟩, halloc, hres⟩ := hrun
  cases res with
  | none => cases hres
  | some p =>
    cases hres
    have hput : s.peers ++ [{ PeerShm.zero with sockaddr := some p, socklen := sockaddr.length }] =
        s.put s.peers.length { PeerShm.zero with sockaddr := some p, socklen := sockaddr.length } := by
      rw [PeersShm.put, if_neg (Nat.lt_irrefl _)]
    rw [hput]
    exact ⟨_, (h.store (Nat.le_refl _) halloc (le_chunkRoom z _)
      (r := ⟨some p, sockaddr.length, 0, 0, false⟩) rfl rfl rfl rfl).1⟩

end

/-- All peers of a configuration are copied soundly. -/
theorem Sound.initPeers : ∀ {sockaddrs : List (List UInt8)} {s : PeersShm} {live : List SlabBlock},
    Sound z s live → sockaddrs.foldlM (CheckShm.initPeer z) s = some s' → ∃ live', Sound z s' live'
  | [], s, live, h, hrun => by
    cases hrun
    exact ⟨live, h⟩
  | sockaddr :: sockaddrs, s, live, h, hrun => by
    rw [foldlM_cons, bind_eq_bind, bind_eq_some_iff] at hrun
    obtain ⟨s₁, hone, hrun⟩ := hrun
    obtain ⟨live₁, h₁⟩ := h.initPeer hone
    exact Sound.initPeers h₁ hrun

/-- **The zone of the configuration.** -/
theorem sound_initShmZone {record : ℕ} {words : ℕ → ℕ → Word} {bytes : Memory Unit UInt8}
    {sockaddrs : List (List UInt8)} (h : initShmZone z record words bytes sockaddrs = some s) :
    ∃ live, Sound z s live := by
  rw [initShmZone, bind_eq_some_iff] at h
  obtain ⟨⟨res, pool⟩, halloc, h⟩ := h
  cases res with
  | none => cases h
  | some p =>
    have hstart : (slabMachine z).Reachable ⟨slabInit z words, []⟩ := ⟨[], .start ⟨words, rfl⟩⟩
    refine Sound.initPeers ⟨reachable_alloc hstart halloc, ?_, ?_⟩ h
    · exact fun i r p hr => nomatch hr
    · exact fun i j p hp => nomatch hp

/-! ### Runs -/

/-- **A step** for which enough is asked for: an address in use stays until its record is deleted. -/
theorem Sound.step {e : Event} (h : Sound z s live) (henough : s.Enough z e)
    (hrun : s.step z e = some s') :
    (∃ live', Sound z s' live') ∧
      ∀ i a, s.address i = some a → s'.address i = some a ∨ e = .release i := by
  cases e with
  | add sockaddr sendHash made =>
    obtain ⟨⟨s₁, index⟩, hadd, rfl⟩ := map_eq_some_iff.mp hrun
    obtain ⟨hsound, hframe, -⟩ := h.add henough hadd
    exact ⟨hsound, fun i a ha => .inl (hframe i a ha)⟩
  | attach i =>
    cases hrun
    obtain ⟨hsound, haddr⟩ := h.count (i := i) (f := fun r => { r with ref := r.ref + 1 })
      (fun r => ⟨rfl, rfl, rfl⟩) rfl
    exact ⟨⟨live, hsound⟩, fun j a ha => .inl ((congrFun haddr j).trans ha)⟩
  | release i =>
    obtain ⟨hsound, hframe⟩ := h.release hrun
    refine ⟨hsound, fun j a ha => ?_⟩
    by_cases hj : j = i
    · exact .inr (hj ▸ rfl)
    · exact .inl ((hframe j hj).trans ha)

section

variable {record : ℕ} {tr : List (PeersShm × Event)}

/-- **In every run** the addresses lie in live blocks. -/
theorem machine_sound (h : (machine z record).Run tr s) (henough : ∀ p ∈ tr, p.1.Enough z p.2) :
    ∃ live, Sound z s live := by
  refine (h.invariant_of_steps (P := fun s => ∃ live, Sound z s live) ?_ ?_ henough).2
  · rintro s ⟨words, bytes, sockaddrs, hinit⟩
    exact sound_initShmZone hinit
  · rintro s e s' ⟨live, hs⟩ he hstep
    exact (hs.step he hstep).1

/-- **The addresses fit where enough is asked for.** In a run in which that is so at every step, every
address fits in the block of its record, and the blocks do not meet. One more peer for which it is so gets a
record with its address, and the record has it until it is deleted. -/
theorem addresses_fit (h : (machine z record).Run tr s) (henough : ∀ p ∈ tr, p.1.Enough z p.2) :
    s.Fits z ∧
    (∀ sockaddr sendHash made s' i, s.Enough z (.add sockaddr sendHash made) →
      s.addDynamicPeerShm z sockaddr sendHash made = some (s', some i) →
      s'.Fits z ∧ s'.address i = some sockaddr) ∧
    ∀ e s', s.Enough z e → (machine z record).step s e s' →
      ∀ i a, s.address i = some a → s'.address i = some a ∨ e = .release i := by
  obtain ⟨live, hs⟩ := machine_sound h henough
  refine ⟨hs.fits, fun sockaddr sendHash made s' i he hadd => ?_, fun e s' he hstep => ?_⟩
  · obtain ⟨⟨live', hs'⟩, -, hindex⟩ := hs.add he hadd
    exact ⟨hs'.fits, hindex i rfl⟩
  · exact (hs.step he hstep).2

end

/-! ### Two addresses -/

/-- A zone of 1 MiB. -/
def checkZone : SlabZone :=
  ⟨⟨12, 3, 4296, 1052672⟩, by decide, by decide, by decide, by decide, by decide, by decide⟩

/-- The bytes of a `sockaddr_in`. -/
def inetAddr : List UInt8 := [2, 0, 0, 80, 10, 0, 0, 1, 0, 0, 0, 0, 0, 0, 0, 0]

/-- The bytes of a `sockaddr_in6`. -/
def inet6Addr : List UInt8 :=
  [10, 0, 0, 80, 0, 0, 0, 0, 253, 0, 0, 0, 0, 0, 0, 0, 0, 0, 0, 0, 0, 0, 0, 1, 0, 0, 0, 0]

/-- The zone of a configuration with one peer. -/
def zoneOf (sockaddr : List UInt8) : Option PeersShm :=
  initShmZone checkZone 240 (fun _ _ => 0#64) (fun _ _ => 0) [sockaddr]

set_option maxRecDepth 10000 in
/-- Behind an IPv6 address an IPv4 address fits. -/
theorem addresses_fit_inet : ∃ tr s, (machine checkZone 240).Run tr s ∧ s.peers.length = 2 ∧
    s.Fits checkZone := by
  have hrun : (zoneOf inet6Addr).map (fun s => (s.peers.map PeerShm.socklen,
      (s.step checkZone (.add inetAddr 0 true)).map fun s => s.peers.length)) =
        some ([28], some 2) := by decide
  obtain ⟨s, hzone, hs⟩ := map_eq_some_iff.mp hrun
  rw [Prod.mk.injEq, map_eq_some_iff] at hs
  obtain ⟨hpeers, s', hstep, hlen⟩ := hs
  have htr : (machine checkZone 240).Run [(s, .add inetAddr 0 true)] s' :=
    (Machine.Run.start (M := machine checkZone 240) ⟨_, _, _, hzone⟩).snoc hstep
  refine ⟨_, s', htr, hlen, (addresses_fit htr fun p hp => ?_).1⟩
  obtain rfl := mem_singleton.mp hp
  refine fun _ i _ => .inr fun first hfirst => ?_
  have hsocklen : (s.peers.map PeerShm.socklen)[0]? = some first.socklen := by
    rw [getElem?_map, hfirst]
    rfl
  rw [hpeers] at hsocklen
  rw [← Option.some.inj hsocklen]
  decide

set_option maxRecDepth 10000 in
/-- **Behind an IPv4 address an IPv6 address does not fit.** -/
theorem inet6_overruns : ¬ ∀ tr s, (machine checkZone 240).Run tr s → s.Fits checkZone := by
  intro hall
  have hrun : ((zoneOf inetAddr).bind fun s =>
      Machine.replay (PeersShm.step checkZone) [] s [.add inet6Addr 0 true]).map (fun r =>
        (r.2.block 1, r.2.address 1, (r.2.block 1).map (slabRoom checkZone r.2.pool))) =
      some (some 999472, some inet6Addr, some 16) := by decide
  obtain ⟨⟨tr, s⟩, hreplay, hs⟩ := map_eq_some_iff.mp hrun
  obtain ⟨s₀, hzone, hreplay⟩ := bind_eq_some_iff.mp hreplay
  rw [Prod.mk.injEq, Prod.mk.injEq] at hs
  obtain ⟨hblock, haddr, hroom⟩ := hs
  have htr : (machine checkZone 240).Run tr s :=
    Machine.run_of_replay _ ⟨_, _, _, hzone⟩ hreplay
  have hle := (hall tr s htr).fits 1 _ _ hblock haddr
  rw [hblock] at hroom
  rw [Option.some.inj hroom] at hle
  exact absurd hle (by decide)

end CheckShm

end Hengine
