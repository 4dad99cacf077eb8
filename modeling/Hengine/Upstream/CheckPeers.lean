import Hengine.Lib.Holders
import Hengine.Lib.Machine
import Hengine.Upstream.Check

/-!
# The Records and the Entries of the Workers

The workers add and delete peers, one call after another; the module above takes care of that by its
lock. What a call does to the records and to the entries is said once, in `ShmAdd` and `Added`; `Fits`
compares the count of every record with the number of entries that point to it.

When the array of a worker moves, its timers are set again, and every record is counted once more
(`Raised`). So a count is never too low, and it is right as long as no array moves.
-/

namespace Hengine.Check

open List Function Option

/-- The record that an entry points to. -/
def Peer.held (p : Peer) : Option ℕ := if p.deleted then none else p.shm

/-- The records and the workers. -/
structure Sys where
  sh : PeersShm
  workers : List Worker

/-- The number of entries that point to a record, in all workers. -/
def Sys.attached (s : Sys) (i : ℕ) : ℕ := holdersIn Peer.held (s.workers.map Worker.peers) i

/-- One call or one check in a worker. -/
inductive Event
  /-- `ngx_http_upstream_check_add_dynamic_peer` -/
  | add (k : ℕ) (conf : Conf) (name : List UInt8) (addr : Addr) (luck : Luck)
  /-- `ngx_http_upstream_check_delete_dynamic_peer` -/
  | delete (k : ℕ) (name : List UInt8) (addr : Addr)
  /-- `ngx_http_upstream_check_get_peer` -/
  | get (k index : ℕ)
  /-- `ngx_http_upstream_check_free_peer` -/
  | free (k index : ℕ)
  /-- the result of a check, for an entry of the array -/
  | report (k place now : ℕ) (result : Bool)

/-- What an event does. -/
def Sys.step (s : Sys) : Event → Option Sys
  | .add k conf name addr luck =>
    s.workers[k]?.bind fun w =>
      (addDynamicPeer conf name addr luck w s.sh).map fun r =>
        ⟨r.2.1, s.workers.set k r.1⟩
  | .delete k name addr =>
    s.workers[k]?.bind fun w =>
      (deleteDynamicPeer k name addr w s.sh).map fun r => ⟨r.2, s.workers.set k r.1⟩
  | .get k index =>
    s.workers[k]?.bind fun w => (getPeer w s.sh index).map fun sh => { s with sh := sh }
  | .free k index =>
    s.workers[k]?.bind fun w => (freePeer w s.sh index).map fun sh => { s with sh := sh }
  | .report k place now result =>
    s.workers[k]?.bind fun w =>
      w.peers[place]?.bind fun p =>
        p.held.map fun i =>
          { s with sh := { s.sh with
            peers := s.sh.peers.modify i (PeerShm.statusUpdate p.conf now result) } }

/-- The peers of the configuration. -/
def configure (adds : List (Conf × List UInt8 × Addr)) : List Peer :=
  adds.foldl (fun ps a => (addPeer a.1 a.2.1 a.2.2 ps).1) []

/-- `n` workers start. -/
@[grind =]
def startWorkers (peers : List Peer) (nalloc : ℕ) : ℕ → PeersShm → Option (List Worker × PeersShm)
  | 0, sh => some ([], sh)
  | n + 1, sh =>
    (startWorkers peers nalloc n sh).bind fun r =>
      (initProcess (fun _ => true) peers nalloc r.2).map fun w => (r.1 ++ [w.1], w.2)

/-- Workers that have started with a configuration; its array has `nalloc` places. -/
def Sys.Initial (s : Sys) : Prop :=
  ∃ adds opeers nalloc n, (configure adds).length ≤ nalloc ∧
    startWorkers (configure adds) nalloc n (initShmZone opeers (configure adds)) =
      some (s.workers, s.sh)

/-- The workers. -/
def check : Machine Sys Event := Machine.ofStep Sys.Initial Sys.step

/-! ### What a call does to the records -/

/-- The records after a new peer has found its own: one in use, a deleted one, or a new one. If its
memory cannot be had, a record stays behind that nobody uses. -/
inductive ShmAdd (sh : PeersShm) (addr : Addr) : PeersShm → Option ℕ → Prop
  | same {i : ℕ} {r : PeerShm} : sh.peers[i]? = some r → r.deleted = false →
      r.sockaddr = some addr.sockaddr → ShmAdd sh addr sh (some i)
  | full : ShmAdd sh addr sh none
  | reused {i : ℕ} {old r : PeerShm} {index : Option ℕ} : sh.peers[i]? = some old →
      old.deleted = true → r.ref = 0 → r.deleted = false →
      (∀ j, index = some j → j = i ∧ r.sockaddr = some addr.sockaddr) →
      ShmAdd sh addr { sh with peers := sh.peers.set i r } index
  | new {r : PeerShm} {index : Option ℕ} : sh.number < sh.maxNumber → r.ref = 0 →
      r.deleted = false →
      (∀ j, index = some j → j = sh.number ∧ r.sockaddr = some addr.sockaddr) →
      ShmAdd sh addr { sh with peers := sh.peers ++ [r] } index

variable {sh sh' : PeersShm} {conf : Conf} {addr : Addr} {luck : Luck} {index : Option ℕ}

/-- A record in use of the same address. -/
theorem sameRecord_spec (ps : List PeerShm) : ∀ {k i : ℕ},
    sameRecord conf addr ps k = some (some i) →
      k ≤ i ∧ ∃ r, ps[i - k]? = some r ∧ r.deleted = false ∧ r.sockaddr = some addr.sockaddr := by
  induction ps with
  | nil => intro k i h; cases h
  | cons p ps ih =>
    intro k i h
    -- a record that is passed over
    have hnext : sameRecord conf addr ps (k + 1) = some (some i) →
        k ≤ i ∧ ∃ r, (p :: ps)[i - k]? = some r ∧ r.deleted = false ∧
          r.sockaddr = some addr.sockaddr := by
      intro h
      obtain ⟨hle, r, hr, hrest⟩ := ih h
      refine ⟨by omega, r, ?_, hrest⟩
      rw [show i - k = i - (k + 1) + 1 by omega]
      exact hr
    unfold sameRecord at h
    split_ifs at h with hdel hlen
    · exact hnext h
    · cases haddr : p.sockaddr with
      | none => rw [haddr] at h; cases h
      | some sockaddr =>
        rw [haddr] at h
        dsimp only at h
        split_ifs at h with hsame
        · cases h
          refine ⟨Nat.le_refl k, p, ?_, by simpa using hdel, ?_⟩
          · rw [Nat.sub_self]
            rfl
          · rw [haddr, hsame.1]
        · exact hnext h
    · exact hnext h

/-- What a new record has. -/
theorem initRecord_spec (sh : PeersShm) (i : ℕ) (conf : Conf) (addr : Addr) (luck : Luck) :
    ∃ r : PeerShm, (sh.initRecord i conf addr luck).1 = { sh with peers := sh.peers.set i r } ∧
      r.ref = 0 ∧ r.deleted = false ∧
      ∀ j, (sh.initRecord i conf addr luck).2 = some j → j = i ∧ r.sockaddr = some addr.sockaddr := by
  unfold PeersShm.initRecord
  dsimp only
  split_ifs with hluck
  · exact ⟨_, rfl, rfl, rfl, fun j hj => ⟨(Option.some.inj hj).symm, rfl⟩⟩
  · exact ⟨_, rfl, rfl, rfl, nofun⟩

/-- **What happens to the records when a peer is added.** -/
theorem shmAdd_spec (h : sh.addDynamicPeer conf addr luck = some (sh', index)) :
    ShmAdd sh addr sh' index := by
  simp only [PeersShm.addDynamicPeer, map_eq_some_iff] at h
  obtain ⟨same, hsame, h⟩ := h
  cases same with
  | some i =>
    cases h
    obtain ⟨-, r, hr, hdel, haddr⟩ := sameRecord_spec sh.peers hsame
    rw [Nat.sub_zero] at hr
    exact .same hr hdel haddr
  | none =>
    dsimp only at h
    cases hfind : sh.peers.findIdx? PeerShm.deleted with
    | some i =>
      rw [hfind] at h
      dsimp only at h
      obtain ⟨hi, hdel, -⟩ := findIdx?_eq_some_iff_getElem.1 hfind
      obtain ⟨r, hr, href, hused, hindex⟩ := initRecord_spec sh i conf addr luck
      rw [h] at hr hindex
      dsimp only at hr hindex
      rw [hr]
      exact .reused (getElem?_eq_getElem hi) hdel href hused hindex
    | none =>
      rw [hfind] at h
      dsimp only at h
      split_ifs at h with hfull
      · cases h
        exact .full
      · obtain ⟨r, hr, href, hused, hindex⟩ :=
          initRecord_spec { sh with peers := sh.peers ++ [PeerShm.zero] } sh.number conf addr luck
        rw [h] at hr hindex
        dsimp only at hr hindex
        have hset : (sh.peers ++ [PeerShm.zero]).set sh.number r = sh.peers ++ [r] := by
          simp [PeersShm.number]
        rw [hr, hset]
        exact .new (Nat.not_le.1 hfull) href hused hindex

/-! ### The counts -/

/-- The counts of the records against the numbers of entries: a count is not too low, it is not too
high either if `exact` holds, and nobody points to a deleted record or behind the last one. -/
structure Fits (exact : Prop) (sh : PeersShm) (count : ℕ → ℕ) : Prop where
  le {i : ℕ} {r : PeerShm} : sh.peers[i]? = some r → (count i : ℤ) ≤ r.ref
  ge {i : ℕ} {r : PeerShm} : exact → sh.peers[i]? = some r → r.ref ≤ count i
  unused {i : ℕ} {r : PeerShm} : sh.peers[i]? = some r → r.deleted = true → count i = 0
  bound {i : ℕ} : sh.peers[i]? = none → count i = 0

section Counts

variable {exact : Prop} {count : ℕ → ℕ}

/-- A record that nobody points to is replaced. -/
theorem Fits.set (h : Fits exact sh count) {i : ℕ} {r : PeerShm} (hi : count i = 0)
    (hr : r.ref = 0) : Fits exact { sh with peers := sh.peers.set i r } count := by
  have hcases : ∀ {j r'}, (sh.peers.set i r)[j]? = some r' →
      (j = i ∧ r' = r) ∨ sh.peers[j]? = some r' := by
    intro j r' hj
    rw [getElem?_set] at hj
    split_ifs at hj with hij hlt
    · exact .inl ⟨hij.symm, (Option.some.inj hj).symm⟩
    · exact .inr hj
  refine ⟨?_, ?_, ?_, ?_⟩
  · intro j r' hj
    rcases hcases hj with ⟨rfl, rfl⟩ | hj
    · rw [hi, hr]
      rfl
    · exact h.le hj
  · intro j r' hexact hj
    rcases hcases hj with ⟨rfl, rfl⟩ | hj
    · rw [hi, hr]
      rfl
    · exact h.ge hexact hj
  · intro j r' hj hdel
    rcases hcases hj with ⟨rfl, rfl⟩ | hj
    · exact hi
    · exact h.unused hj hdel
  · intro j hj
    rw [getElem?_eq_none_iff, length_set] at hj
    exact h.bound (getElem?_eq_none_iff.2 hj)

/-- A new record. -/
theorem Fits.concat (h : Fits exact sh count) {r : PeerShm} (hr : r.ref = 0) :
    Fits exact { sh with peers := sh.peers ++ [r] } count := by
  have hnew : count sh.peers.length = 0 := h.bound (getElem?_eq_none_iff.2 (Nat.le_refl _))
  have hcases : ∀ {j r'}, (sh.peers ++ [r])[j]? = some r' →
      (j = sh.peers.length ∧ r' = r) ∨ sh.peers[j]? = some r' := by
    intro j r' hj
    rw [getElem?_append] at hj
    split_ifs at hj with hlt
    · exact .inr hj
    · rw [getElem?_singleton] at hj
      split_ifs at hj with heq
      exact .inl ⟨by omega, (Option.some.inj hj).symm⟩
  refine ⟨?_, ?_, ?_, ?_⟩
  · intro j r' hj
    rcases hcases hj with ⟨rfl, rfl⟩ | hj
    · rw [hnew, hr]
      rfl
    · exact h.le hj
  · intro j r' hexact hj
    rcases hcases hj with ⟨rfl, rfl⟩ | hj
    · rw [hnew, hr]
      rfl
    · exact h.ge hexact hj
  · intro j r' hj hdel
    rcases hcases hj with ⟨rfl, rfl⟩ | hj
    · exact hnew
    · exact h.unused hj hdel
  · intro j hj
    rw [getElem?_eq_none_iff, length_append] at hj
    exact h.bound (getElem?_eq_none_iff.2 (by omega))

/-- **The records change when a peer is added**, and nobody points to one that is used again. -/
theorem ShmAdd.fits (hadd : ShmAdd sh addr sh' index) (h : Fits exact sh count) :
    Fits exact sh' count := by
  cases hadd with
  | same | full => exact h
  | reused hold hdel href => exact h.set (h.unused hold hdel) href
  | new _ href => exact h.concat href

/-- The record that an addition gives is live and has the address. -/
theorem ShmAdd.found {i : ℕ} (hadd : ShmAdd sh addr sh' (some i)) :
    ∃ r, sh'.peers[i]? = some r ∧ r.deleted = false ∧ r.sockaddr = some addr.sockaddr := by
  cases hadd with
  | same hr hdel haddr => exact ⟨_, hr, hdel, haddr⟩
  | reused hold _ _ hused hindex =>
    obtain ⟨rfl, haddr⟩ := hindex _ rfl
    obtain ⟨hlt, -⟩ := List.getElem?_eq_some_iff.1 hold
    exact ⟨_, by simp [hlt], hused, haddr⟩
  | new _ _ hused hindex =>
    obtain ⟨rfl, haddr⟩ := hindex _ rfl
    exact ⟨_, by simp [PeersShm.number], hused, haddr⟩

variable {change : PeerShm → PeerShm}

/-- The peer at an index after one has been changed. -/
theorem modify_cases {i j : ℕ} {r' : PeerShm} (h : (sh.peers.modify i change)[j]? = some r') :
    ∃ r, sh.peers[j]? = some r ∧ r' = if i = j then change r else r := by
  rw [List.getElem?_modify] at h
  simp only [Option.map_eq_map, Option.map_eq_some_iff] at h
  obtain ⟨r, hr, rfl⟩ := h
  refine ⟨r, hr, ?_⟩
  split_ifs <;> rfl

/-- **One record and the number of its entries change together.** -/
theorem Fits.modify (h : Fits exact sh count) {i : ℕ} {n : ℕ}
    (hbound : sh.peers[i]? = none → n = 0)
    (hchange : ∀ r, sh.peers[i]? = some r → (n : ℤ) ≤ (change r).ref ∧ (exact → (change r).ref ≤
      n) ∧ ((change r).deleted = true → n = 0)) :
    Fits exact { sh with peers := sh.peers.modify i change } (update count i n) := by
  refine ⟨?_, ?_, ?_, ?_⟩
  · intro j r' hj
    obtain ⟨r, hr, rfl⟩ := modify_cases hj
    split_ifs with hij
    · subst hij
      rw [update_self]
      exact (hchange r hr).1
    · rw [update_of_ne (Ne.symm hij)]
      exact h.le hr
  · intro j r' hexact hj
    obtain ⟨r, hr, rfl⟩ := modify_cases hj
    split_ifs with hij
    · subst hij
      rw [update_self]
      exact (hchange r hr).2.1 hexact
    · rw [update_of_ne (Ne.symm hij)]
      exact h.ge hexact hr
  · intro j r' hj hdel
    obtain ⟨r, hr, rfl⟩ := modify_cases hj
    split_ifs at hdel with hij
    · subst hij
      rw [update_self]
      exact (hchange r hr).2.2 hdel
    · rw [update_of_ne (Ne.symm hij)]
      exact h.unused hr hdel
  · intro j hj
    rw [getElem?_eq_none_iff, length_modify] at hj
    have hnone := getElem?_eq_none_iff.2 hj
    by_cases hij : j = i
    · subst hij
      rw [update_self]
      exact hbound hnone
    · rw [update_of_ne hij]
      exact h.bound hnone

/-- An entry begins to point to a record in use. -/
theorem Fits.attach (h : Fits exact sh count) {i : ℕ} {r : PeerShm} (hr : sh.peers[i]? = some r)
    (hused : r.deleted = false) :
    Fits exact { sh with peers := sh.peers.modify i fun r => { r with ref := r.ref + 1 } }
      (update count i (count i + 1)) := by
  refine h.modify (by simp [hr]) fun r' hr' => ?_
  obtain rfl : r = r' := Option.some.inj (hr.symm.trans hr')
  have hle := h.le hr
  refine ⟨by push_cast; omega, fun hexact => ?_, fun hdel => ?_⟩
  · have hge := h.ge hexact hr
    push_cast
    omega
  · rw [hused] at hdel
    cases hdel

/-- An entry leaves its record. -/
theorem Fits.release (h : Fits exact sh count) {i pid : ℕ} (hpos : 0 < count i) :
    Fits exact { sh with peers := sh.peers.modify i (PeerShm.release pid) }
      (update count i (count i - 1)) := by
  refine h.modify (fun hnone => by rw [h.bound hnone] at hpos; omega) fun r hr => ?_
  have hle := h.le hr
  have hused : r.deleted = false := by
    by_contra hdel
    have := h.unused hr (by simpa using hdel)
    omega
  have href : (r.release pid).ref = r.ref - 1 := rfl
  refine ⟨by rw [href]; omega, fun hexact => ?_, fun hdel => ?_⟩
  · have hge := h.ge hexact hr
    rw [href]
    omega
  · have hlast : r.ref - 1 ≤ 0 := by simpa [PeerShm.release, hused] using hdel
    omega

/-- A change that leaves the reference count alone. -/
theorem Fits.keep (h : Fits exact sh count) (i : ℕ)
    (hchange : ∀ r, (change r).ref = r.ref ∧ (change r).deleted = r.deleted) :
    Fits exact { sh with peers := sh.peers.modify i change } count := by
  have := h.modify (i := i) (n := count i) (fun hnone => h.bound hnone) fun r hr => by
    rw [(hchange r).1, (hchange r).2]
    exact ⟨h.le hr, fun hexact => h.ge hexact hr, h.unused hr⟩
  rwa [update_eq_self] at this

end Counts

/-! ### What a call does in a worker -/

/-- The records have been counted again. -/
def Raised (sh sh' : PeersShm) : Prop :=
  sh'.maxNumber = sh.maxNumber ∧ ∀ i : ℕ, ∃ m : ℤ, 0 ≤ m ∧
    sh'.peers[i]? = sh.peers[i]?.map fun r => { r with ref := r.ref + m }

theorem Raised.refl (sh : PeersShm) : Raised sh sh :=
  ⟨rfl, fun i => ⟨0, le_rfl, by simp⟩⟩

/-- Raising the counts twice. -/
theorem Raised.trans {sh'' : PeersShm} (h : Raised sh sh') (h' : Raised sh' sh'') :
    Raised sh sh'' := by
  refine ⟨h'.1.trans h.1, fun i => ?_⟩
  obtain ⟨m, hm, hi⟩ := h.2 i
  obtain ⟨m', hm', hi'⟩ := h'.2 i
  refine ⟨m + m', by omega, ?_⟩
  rw [hi', hi, Option.map_map]
  congr 1
  funext r
  simp [add_assoc]

/-- The timer of one entry is set. -/
theorem addTimer_raised {pool : Bool} {p : Peer} (h : addTimer pool p sh = some sh') :
    Raised sh sh' := by
  unfold addTimer at h
  split_ifs at h with hpool
  · cases h
    exact Raised.refl sh
  · obtain ⟨i, -, rfl⟩ := map_eq_some_iff.1 h
    refine ⟨rfl, fun j => ?_⟩
    dsimp only
    rw [getElem?_modify]
    by_cases hij : i = j
    · exact ⟨1, by omega, by simp [hij]⟩
    · exact ⟨0, le_rfl, by simp [hij]⟩

/-- The array has moved: the timers of all its entries are set again. -/
theorem addTimers_raised {pool : ℕ → Bool} (ps : List Peer) : ∀ {k : ℕ} {sh sh' : PeersShm},
    addTimers pool ps k sh = some sh' → Raised sh sh' := by
  induction ps with
  | nil =>
    intro k sh sh' h
    cases h
    exact Raised.refl sh
  | cons p ps ih =>
    intro k sh sh' h
    unfold addTimers at h
    split_ifs at h with hdel
    · exact ih h
    · obtain ⟨mid, hmid, hrest⟩ := bind_eq_some_iff.1 h
      exact (addTimer_raised hmid).trans (ih hrest)

/-- A raised peer differs in its count only. -/
theorem Raised.getElem? (h : Raised sh sh') {i : ℕ} {r : PeerShm} (hr : sh.peers[i]? = some r) :
    ∃ m : ℤ, 0 ≤ m ∧ sh'.peers[i]? = some { r with ref := r.ref + m } := by
  obtain ⟨m, hm, hi⟩ := h.2 i
  exact ⟨m, hm, by rw [hi, hr]; rfl⟩

/-- Raising a count adds no record. -/
theorem Raised.number_eq (h : Raised sh sh') : sh'.number = sh.number := by
  refine Nat.le_antisymm ?_ ?_
  · by_contra hlt
    obtain ⟨m, -, hi⟩ := h.2 sh.number
    have hnone : sh.peers[sh.number]? = none := getElem?_eq_none_iff.2 le_rfl
    rw [hnone, map_none, getElem?_eq_none_iff] at hi
    exact hlt hi
  · by_contra hlt
    obtain ⟨m, -, hi⟩ := h.2 sh'.number
    have hnone : sh'.peers[sh'.number]? = none := getElem?_eq_none_iff.2 le_rfl
    rw [hnone, eq_comm, map_eq_none_iff, getElem?_eq_none_iff] at hi
    exact hlt hi

/-- Counts that are not too low stay so. -/
theorem Raised.fits {exact : Prop} {count : ℕ → ℕ} (h : Raised sh sh') (hexact : ¬ exact)
    (hfits : Fits exact sh count) : Fits exact sh' count := by
  have hback : ∀ {i : ℕ} {r' : PeerShm}, sh'.peers[i]? = some r' →
      ∃ r : PeerShm, sh.peers[i]? = some r ∧ r.ref ≤ r'.ref ∧ r'.deleted = r.deleted := by
    intro i r' hr'
    obtain ⟨m, hm, hi⟩ := h.2 i
    rw [hi, map_eq_some_iff] at hr'
    obtain ⟨r, hr, rfl⟩ := hr'
    exact ⟨r, hr, by simpa using hm, rfl⟩
  refine ⟨fun hr' => ?_, fun hyes => (hexact hyes).elim, fun hr' hdel => ?_, fun hnone => ?_⟩
  · obtain ⟨r, hr, hle, -⟩ := hback hr'
    exact (hfits.le hr).trans hle
  · obtain ⟨r, hr, -, heq⟩ := hback hr'
    exact hfits.unused hr (heq ▸ hdel)
  · refine hfits.bound ?_
    have hnumber := h.number_eq
    rw [getElem?_eq_none_iff] at hnone ⊢
    simp only [PeersShm.number] at hnumber
    omega

/-- The first free place of an array. -/
def Worker.free (w : Worker) : ℕ := (w.peers.findIdx? Peer.deleted).getD w.peers.length

/-- The array of a worker moves: it has no place for one more entry. -/
def Worker.Moves (w : Worker) (luck : Luck) : Prop :=
  w.peers.findIdx? Peer.deleted = none ∧ luck.push = true ∧ w.peers.length = w.nalloc ∧
    luck.moves = true

/-- **The place of a new entry.** Its old entry points to no record; the other entries stay as they
are, and the records too, if the array does not move. -/
theorem place_spec {w w' : Worker} {fresh : Peer} {place : Option ℕ} (hfresh : fresh.held = none)
    (h : w.place fresh luck sh = some (w', sh', place)) :
    Raised sh sh' ∧ (¬ w.Moves luck → sh' = sh) ∧
      holders Peer.held w'.peers = holders Peer.held w.peers ∧
      (place = none → w' = w) ∧
      ∀ k, place = some k →
        k = w.free ∧ w.peers[k]?.bind Peer.held = none ∧
        (∃ old, w'.peers[k]? = some old ∧ old.held = none) ∧
        ∀ j ≠ k, w'.peers[j]? = w.peers[j]? := by
  unfold Worker.place at h
  unfold Worker.free
  cases hfind : w.peers.findIdx? Peer.deleted with
  | some k =>
    rw [hfind] at h
    cases h
    obtain ⟨hk, hdel, -⟩ := findIdx?_eq_some_iff_getElem.1 hfind
    have hnone : w.peers[k].held = none := by simp [Peer.held, hdel]
    refine ⟨Raised.refl sh, fun _ => rfl, rfl, nofun, fun k' hk' => ?_⟩
    cases hk'
    refine ⟨rfl, ?_, ⟨w.peers[k], getElem?_eq_getElem hk, hnone⟩, fun _ _ => rfl⟩
    rw [getElem?_eq_getElem hk]
    exact hnone
  | none =>
    rw [hfind] at h
    dsimp only at h
    have hgrown : ∀ k, some w.peers.length = some k →
        k = Option.getD none w.peers.length ∧ w.peers[k]?.bind Peer.held = none ∧
        (∃ old, (w.peers ++ [fresh])[k]? = some old ∧ old.held = none) ∧
        ∀ j ≠ k, (w.peers ++ [fresh])[j]? = w.peers[j]? := by
      intro k hk
      cases hk
      refine ⟨rfl, by simp, ⟨fresh, by simp, hfresh⟩, fun j hj => ?_⟩
      rw [getElem?_append]
      split_ifs with hlt
      · rfl
      · rw [getElem?_eq_none_iff.2 (Nat.not_lt.1 hlt), getElem?_eq_none_iff,
          length_singleton]
        omega
    cases hpush : luck.push with
    | false =>
      rw [hpush] at h
      cases h
      exact ⟨Raised.refl sh, fun _ => rfl, rfl, fun _ => rfl, nofun⟩
    | true =>
      rw [hpush, if_neg (by decide)] at h
      by_cases hmoves : w.peers.length = w.nalloc ∧ luck.moves = true
      · rw [if_pos hmoves, map_eq_some_iff] at h
        obtain ⟨mid, hmid, heq⟩ := h
        cases heq
        refine ⟨addTimers_raised w.peers hmid, fun hnot => ?_,
          holders_concat w.peers hfresh, nofun, hgrown⟩
        exact (hnot ⟨hfind, hpush, hmoves.1, hmoves.2⟩).elim
      · rw [if_neg hmoves] at h
        cases h
        exact ⟨Raised.refl sh, fun _ => rfl, holders_concat w.peers hfresh, nofun, hgrown⟩

/-- The entry of a peer that has been added. -/
def attachedPeer (conf : Conf) (name : List UInt8) (addr : Addr) (i : ℕ) : Peer :=
  ⟨i, name, addr, conf, some i, false⟩

/-- What an addition does. Either it fails, and no entry points to another record than before; or the
entry at the first free place points to the record that was found, and its timer is set. -/
inductive Added (conf : Conf) (name : List UInt8) (addr : Addr) (luck : Luck) (w : Worker)
    (sh : PeersShm) : Worker → PeersShm → Option ℕ → Prop
  | failed {mid sh' : PeersShm} {found : Option ℕ} {w' : Worker} : ShmAdd sh addr mid found →
      Raised mid sh' → (¬ w.Moves luck → sh' = mid) →
      holders Peer.held w'.peers = holders Peer.held w.peers →
      (∀ j : ℕ, (w'.peers[j]?.bind Peer.held) = w.peers[j]?.bind Peer.held) →
      (∀ (j : ℕ) (p : Peer), w'.peers[j]? = some p → p.held ≠ none → w.peers[j]? = some p) →
      Added conf name addr luck w sh w' sh' none
  | done {mid mid' sh' : PeersShm} {w' : Worker} {i : ℕ} :
      sh.addDynamicPeer conf addr luck = some (mid, some i) →
      Raised mid mid' → (¬ w.Moves luck → mid' = mid) →
      addTimer (luck.pool w.free) (attachedPeer conf name addr i) mid' = some sh' →
      holders Peer.held w'.peers = moveHold (holders Peer.held w.peers) none (some i) →
      (∀ j : ℕ, w'.peers[j]? = if j = w.free then some (attachedPeer conf name addr i) else w.peers[j]?) →
      w.peers[w.free]?.bind Peer.held = none →
      Added conf name addr luck w sh w' sh' (some i)

/-- The peer at an index after one has been replaced. -/
theorem getElem?_set_of {ps : List Peer} {k : ℕ} {old : Peer} (h : ps[k]? = some old) (p : Peer)
    (j : ℕ) : (ps.set k p)[j]? = if j = k then some p else ps[j]? := by
  obtain ⟨hk, -⟩ := List.getElem?_eq_some_iff.1 h
  rw [List.getElem?_set]
  by_cases hj : k = j
  · rw [if_pos hj, if_pos hj.symm, if_pos (hj ▸ hk)]
  · rw [if_neg hj, if_neg (Ne.symm hj)]

/-- **A peer is added.** -/
theorem addDynamicPeer_spec {name : List UInt8} {w w' : Worker}
    (h : addDynamicPeer conf name addr luck w sh = some (w', sh', index)) :
    Added conf name addr luck w sh w' sh' index := by
  unfold addDynamicPeer at h
  by_cases hinterval : conf.checkInterval = 0
  · rw [if_pos hinterval] at h
    cases h
    exact @Added.failed _ _ _ _ _ _ _ _ none _ .full (Raised.refl sh) (fun _ => rfl) rfl (fun _ => rfl)
      fun _ _ hp _ => hp
  · rw [if_neg hinterval] at h
    obtain ⟨⟨mid, found⟩, hshm, h⟩ := bind_eq_some_iff.1 h
    have hadd := shmAdd_spec hshm
    cases found with
    | none =>
      cases h
      exact .failed hadd (Raised.refl _) (fun _ => rfl) rfl (fun _ => rfl) fun _ _ hp _ => hp
    | some i =>
      obtain ⟨⟨w₁, mid', place⟩, hplace, h⟩ := bind_eq_some_iff.1 h
      obtain ⟨hraised, hcalm, hholders, hkept, hspec⟩ := place_spec rfl hplace
      cases place with
      | none =>
        cases h
        obtain rfl := hkept rfl
        exact .failed hadd hraised hcalm rfl (fun _ => rfl) fun _ _ hp _ => hp
      | some k =>
        obtain ⟨rfl, hfree, ⟨old, hold, hnone⟩, hothers⟩ := hspec k rfl
        have hentry : ∀ (p : Peer) (j : ℕ), (w₁.peers.set w.free p)[j]? =
            if j = w.free then some p else w.peers[j]? := by
          intro p j
          rw [getElem?_set_of hold]
          split_ifs with hj
          · rfl
          · exact hothers j hj
        dsimp only at h
        by_cases hport : conf.port ≠ 0 ∧ (!luck.port) = true
        · rw [if_pos hport] at h
          cases h
          refine .failed hadd hraised hcalm ?_ ?_ ?_
          · rw [holders_set hold, hnone, hholders]
            exact moveHold_none
          · intro j
            rw [hentry]
            split_ifs with hj
            · rw [hj, hfree]
              rfl
            · rfl
          · intro j p hp hheld
            rw [hentry] at hp
            split_ifs at hp with hj
            · cases hp
              exact (hheld rfl).elim
            · exact hp
        · rw [if_neg hport, map_eq_some_iff] at h
          obtain ⟨last, hlast, heq⟩ := h
          cases heq
          refine .done hshm hraised hcalm hlast ?_ (hentry _) hfree
          rw [holders_set hold, hnone, hholders]
          rfl

/-- The place of the entry that is deleted. -/
def Worker.chosen (w : Worker) (name : List UInt8) (addr : Addr) : Option ℕ :=
  w.peers.findIdx? fun p =>
    !p.deleted && p.upstreamName = name && p.peerAddr.sockaddr = addr.sockaddr

/-- **A peer is deleted.** Its entry leaves the record that it points to. -/
theorem deleteDynamicPeer_spec {pid : ℕ} {name : List UInt8} {w w' : Worker}
    (h : deleteDynamicPeer pid name addr w sh = some (w', sh')) :
    (w' = w ∧ sh' = sh) ∨
      ∃ (k : ℕ) (p : Peer) (i : ℕ), w.chosen name addr = some k ∧ w.peers[k]? = some p ∧
        p.held = some i ∧ p.upstreamName = name ∧ p.peerAddr.sockaddr = addr.sockaddr ∧
        w' = { w with peers := w.peers.set k p.clear } ∧
        sh' = { sh with peers := sh.peers.modify i (PeerShm.release pid) } := by
  unfold deleteDynamicPeer at h
  split at h
  case h_1 =>
      cases h
      exact .inl ⟨rfl, rfl⟩
  case h_2 k hfind =>
      obtain ⟨hk, hmatch, -⟩ := findIdx?_eq_some_iff_getElem.1 hfind
      obtain ⟨i, hi, heq⟩ := map_eq_some_iff.1 h
      cases heq
      rw [getElem?_eq_getElem hk] at hi
      simp only [Bool.and_eq_true, Bool.not_eq_true', decide_eq_true_eq] at hmatch
      refine .inr ⟨k, w.peers[k], i, hfind, getElem?_eq_getElem hk, ?_, hmatch.1.2, hmatch.2, ?_, rfl⟩
      · rw [Peer.held, hmatch.1.1]
        exact hi
      · rw [modify_eq_set_getElem?, getElem?_eq_getElem hk]
        rfl

@[simp]
theorem clear_held (p : Peer) : p.clear.held = none := rfl

/-- A cleared peer holds nothing. -/
theorem holders_clear {ps : List Peer} {k i : ℕ} {p : Peer} (hk : ps[k]? = some p)
    (hheld : p.held = some i) :
    holders Peer.held (ps.set k p.clear) = moveHold (holders Peer.held ps) (some i) none := by
  rw [holders_set hk, hheld, clear_held]

/-- **A call of a balancer** changes one record, or none. -/
theorem onPeer_spec {change : PeerShm → PeerShm} {w : Worker} {n : ℕ}
    (h : onPeer change w sh n = some sh') :
    sh' = sh ∨ ∃ i, sh' = { sh with peers := sh.peers.modify i change } := by
  unfold onPeer at h
  split_ifs at h
  · cases h
    exact .inl rfl
  · obtain ⟨i, -, rfl⟩ := map_eq_some_iff.1 h
    exact .inr ⟨i, rfl⟩

end Hengine.Check
