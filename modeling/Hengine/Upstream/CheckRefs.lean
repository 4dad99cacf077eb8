import Hengine.Upstream.CheckPeers

/-!
# The Counts of the Records

A record of a peer must stay as long as a worker has an entry that points to it, for it is used again
for another address once it is deleted. Its count is the number of these entries in every state, as
long as no array of entries moves and every timer has its pool. When an array moves, the timers of all
its entries are set once more, and their records are counted twice from then on: after that they are
not deleted any more when their last entry is.

The first part says what a step does to the counts (`Fits.step`), the second what they are when the
workers have started; `refs_exact` is about whole runs.
-/

namespace Hengine.Check

open List Option Function

/-- Every timer that is set has its pool. -/
def Event.Pools : Event → Prop
  | .add _ _ _ _ luck => ∀ j, luck.pool j = true
  | _ => True

/-- The array of entries does not move. -/
def Sys.Still (s : Sys) : Event → Prop
  | .add k _ _ _ luck => ∀ w, s.workers[k]? = some w → ¬ w.Moves luck
  | _ => True

/-! ### One step -/

section Step

variable {exact : Prop} {s s' : Sys} {e : Event} {w w' : Worker} {k : ℕ} {sh sh' : PeersShm}

/-- **Entries of one worker change**: the counts follow. -/
theorem attached_set (old new : Option ℕ) (hw : s.workers[k]? = some w)
    (hmove : holders Peer.held w'.peers = moveHold (holders Peer.held w.peers) old new)
    (hold : ∀ i, old = some i → holders Peer.held w.peers i ≠ 0) :
    (Sys.mk sh (s.workers.set k w')).attached = moveHold s.attached old new := by
  have hgroup : (s.workers.map Worker.peers)[k]? = some w.peers := by
    rw [getElem?_map, hw]
    rfl
  funext i
  rw [Sys.attached, map_set]
  exact congrFun (holdersIn_set hgroup hmove hold) i

/-- Entries that hold what they held leave the counts as they are. -/
theorem attached_same (hw : s.workers[k]? = some w)
    (hsame : holders Peer.held w'.peers = holders Peer.held w.peers) :
    (Sys.mk sh (s.workers.set k w')).attached = s.attached := by
  rw [attached_set none none hw (by rw [hsame, moveHold_none])
    (fun _ h => nomatch h), moveHold_none]

/-- Adding a timer takes a reference to the shared peer. -/
theorem addTimer_eq {p : Peer} {pool : Bool} {i : ℕ} (hpool : pool = true) (hshm : p.shm = some i)
    (h : addTimer pool p sh = some sh') :
    sh' = { sh with peers := sh.peers.modify i fun r => { r with ref := r.ref + 1 } } := by
  unfold addTimer at h
  rw [hpool, if_neg (by simp), hshm] at h
  exact (Option.some.inj h).symm

/-- **A peer is added.** -/
theorem Fits.add {conf : Conf} {name : List UInt8} {addr : Addr} {luck : Luck} {index : Option ℕ}
    (hfits : Fits exact s.sh s.attached) (hw : s.workers[k]? = some w)
    (hpools : ∀ j, luck.pool j = true) (hstill : exact → ¬ w.Moves luck)
    (hadd : Added conf name addr luck w s.sh w' sh' index) :
    Fits exact sh' (Sys.mk sh' (s.workers.set k w')).attached := by
  -- the records before the new entry is counted
  have hmid : ∀ {mid mid' : PeersShm} {found : Option ℕ}, ShmAdd s.sh addr mid found →
      Raised mid mid' → (¬ w.Moves luck → mid' = mid) → Fits exact mid' s.attached := by
    intro mid mid' found hshm hraised hcalm
    by_cases hexact : exact
    · rw [hcalm (hstill hexact)]
      exact hshm.fits hfits
    · exact hraised.fits hexact (hshm.fits hfits)
  cases hadd with
  | failed hshm hraised hcalm hsame =>
    rw [attached_same hw hsame]
    exact hmid hshm hraised hcalm
  | done hshm hraised hcalm htimer hmove =>
    have hadd := shmAdd_spec hshm
    obtain ⟨r, hr, hused, -⟩ := hadd.found
    obtain ⟨m, -, hr'⟩ := hraised.getElem? hr
    rw [attached_set _ _ hw hmove (fun _ h => nomatch h), moveHold_take, addTimer_eq (hpools _) rfl htimer]
    exact (hmid hadd hraised hcalm).attach hr' hused

/-- An entry that holds a record is counted. -/
theorem attached_pos {p : Peer} {i j : ℕ} (hw : s.workers[k]? = some w) (hp : w.peers[j]? = some p)
    (hheld : p.held = some i) : 0 < s.attached i := by
  have hpos := holders_pos (mem_of_getElem? hp) hheld
  have hle : holders Peer.held w.peers i ≤ s.attached i := by
    refine single_le_sum (fun _ _ => Nat.zero_le _) _ ?_
    exact mem_map_of_mem (mem_map_of_mem (mem_of_getElem? hw))
  omega

/-- **A step keeps the counts.** -/
theorem Fits.step (hfits : Fits exact s.sh s.attached) (hpools : e.Pools)
    (hstill : exact → s.Still e) (h : s.step e = some s') : Fits exact s'.sh s'.attached := by
  cases e with
  | add k conf name addr luck =>
    obtain ⟨w, hw, h⟩ := bind_eq_some_iff.1 h
    obtain ⟨⟨w', sh', index⟩, hcall, rfl⟩ := map_eq_some_iff.1 h
    exact hfits.add hw hpools (fun hexact => hstill hexact w hw) (addDynamicPeer_spec hcall)
  | delete k name addr =>
    obtain ⟨w, hw, h⟩ := bind_eq_some_iff.1 h
    obtain ⟨⟨w', sh'⟩, hcall, rfl⟩ := map_eq_some_iff.1 h
    rcases deleteDynamicPeer_spec hcall with ⟨rfl, rfl⟩ | ⟨j, p, i, -, hj, hheld, -, -, rfl, rfl⟩
    · dsimp only
      rw [attached_same hw rfl]
      exact hfits
    · have hpos := attached_pos hw hj hheld
      dsimp only
      rw [attached_set _ _ hw (holders_clear hj hheld) fun i' hi' => ?_, moveHold_release]
      · exact hfits.release hpos
      · cases hi'
        exact holders_pos (mem_of_getElem? hj) hheld
  | get k index =>
    obtain ⟨w, hw, h⟩ := bind_eq_some_iff.1 h
    obtain ⟨sh', hcall, rfl⟩ := map_eq_some_iff.1 h
    rcases onPeer_spec hcall with rfl | ⟨i, rfl⟩
    · exact hfits
    · exact hfits.keep i fun r => ⟨rfl, rfl⟩
  | free k index =>
    obtain ⟨w, hw, h⟩ := bind_eq_some_iff.1 h
    obtain ⟨sh', hcall, rfl⟩ := map_eq_some_iff.1 h
    rcases onPeer_spec hcall with rfl | ⟨i, rfl⟩
    · exact hfits
    · refine hfits.keep i fun r => ?_
      unfold PeerShm.free
      split_ifs
      · exact ⟨rfl, rfl⟩
      · exact ⟨rfl, rfl⟩
  | report k place now result =>
    obtain ⟨w, hw, h⟩ := bind_eq_some_iff.1 h
    obtain ⟨p, hp, h⟩ := bind_eq_some_iff.1 h
    obtain ⟨i, hi, rfl⟩ := map_eq_some_iff.1 h
    refine hfits.keep i fun r => ?_
    unfold PeerShm.statusUpdate
    dsimp only
    split_ifs
    all_goals exact ⟨rfl, rfl⟩

end Step

/-! ### The workers start -/

section Start

variable {exact : Prop} {count : ℕ → ℕ} {sh sh' : PeersShm}

theorem holders_cons (p : Peer) (ps : List Peer) (i : ℕ) :
    holders Peer.held (p :: ps) i = holders Peer.held ps i + if p.held = some i then 1 else 0 := by
  unfold holders
  rw [countP_cons]
  simp

/-- The record of every entry is there and in use. -/
def Recorded (sh : PeersShm) (ps : List Peer) : Prop :=
  ∀ p ∈ ps, ∀ i, p.held = some i → ∃ r : PeerShm, sh.peers[i]? = some r ∧ r.deleted = false

theorem Recorded.raised {ps : List Peer} (h : Recorded sh ps) (hraised : Raised sh sh') :
    Recorded sh' ps := by
  intro p hp i hi
  obtain ⟨r, hr, hused⟩ := h p hp i hi
  obtain ⟨m, -, hr'⟩ := hraised.getElem? hr
  exact ⟨_, hr', hused⟩

/-- **The timers of all entries are set**, and every record counts its entries. -/
theorem addTimers_fits (ps : List Peer) : ∀ {k : ℕ} {sh sh' : PeersShm} {count : ℕ → ℕ},
    Fits exact sh count → Recorded sh ps → addTimers (fun _ => true) ps k sh = some sh' →
      Fits exact sh' fun i => count i + holders Peer.held ps i := by
  induction ps with
  | nil =>
    intro k sh sh' count hfits _ h
    cases h
    exact hfits
  | cons p ps ih =>
    intro k sh sh' count hfits hrecorded h
    have hrest : Recorded sh ps := fun q hq => hrecorded q (mem_cons_of_mem _ hq)
    unfold addTimers at h
    split_ifs at h with hdel
    · have hheld : p.held = none := by simp [Peer.held, hdel]
      have hsame : (fun i => count i + holders Peer.held (p :: ps) i) =
          fun i => count i + holders Peer.held ps i := by
        funext i
        rw [holders_cons, hheld, if_neg (Option.some_ne_none i).symm, Nat.add_zero]
      rw [hsame]
      exact ih hfits hrest h
    · obtain ⟨mid, hmid, h⟩ := bind_eq_some_iff.1 h
      obtain ⟨i, hi⟩ : ∃ i, p.shm = some i := by
        unfold addTimer at hmid
        rw [if_neg (by simp), map_eq_some_iff] at hmid
        obtain ⟨i, hi, -⟩ := hmid
        exact ⟨i, hi⟩
      have hheld : p.held = some i := by simp [Peer.held, hdel, hi]
      obtain ⟨r, hr, hused⟩ := hrecorded p mem_cons_self i hheld
      have hnext := hrest.raised (addTimer_raised hmid)
      rw [addTimer_eq rfl hi hmid] at hnext h
      have hsum : (fun j => count j + holders Peer.held (p :: ps) j) =
          fun j => update count i (count i + 1) j + holders Peer.held ps j := by
        funext j
        rw [holders_cons, hheld]
        by_cases hj : j = i
        · subst hj
          rw [update_self, if_pos rfl]
          omega
        · rw [update_of_ne hj, if_neg (fun heq => hj (Option.some.inj heq).symm)]
          omega
      rw [hsum]
      exact ih (hfits.attach hr hused) hnext h

/-- The entries of a worker that starts. -/
def started (peers : List Peer) : List Peer := peers.mapIdx fun i p => { p with shm := some i }

/-- **A worker that starts** raises the counts by its entries. -/
theorem initProcess_fits {peers : List Peer} {nalloc : ℕ} {w : Worker} (hfits : Fits exact sh count)
    (hrecorded : Recorded sh (started peers))
    (h : initProcess (fun _ => true) peers nalloc sh = some (w, sh')) :
    Fits exact sh' (fun i => count i + holders Peer.held w.peers i) ∧ Raised sh sh' ∧
      w = ⟨started peers, nalloc⟩ := by
  obtain ⟨mid, hmid, heq⟩ := map_eq_some_iff.1 h
  cases heq
  exact ⟨addTimers_fits _ hfits hrecorded hmid, addTimers_raised _ hmid, rfl⟩

/-- **All workers start.** -/
theorem startWorkers_fits {peers : List Peer} {nalloc : ℕ} (hfits : Fits exact sh count)
    (hrecorded : Recorded sh (started peers)) : ∀ {n : ℕ} {ws : List Worker} {sh' : PeersShm},
    startWorkers peers nalloc n sh = some (ws, sh') →
      Fits exact sh' (fun i => count i + holdersIn Peer.held (ws.map Worker.peers) i) ∧
        Raised sh sh' ∧ ∀ w ∈ ws, w = ⟨started peers, nalloc⟩
  | 0, ws, sh', h => by
    cases h
    exact ⟨hfits, Raised.refl sh, nofun⟩
  | n + 1, ws, sh', h => by
    obtain ⟨⟨ws', mid⟩, hmid, h⟩ := bind_eq_some_iff.1 h
    obtain ⟨⟨w, last⟩, hlast, heq⟩ := map_eq_some_iff.1 h
    cases heq
    obtain ⟨hfits', hraised, hws⟩ := startWorkers_fits hfits hrecorded hmid
    obtain ⟨hfits'', hraised', hw⟩ :=
      initProcess_fits hfits' (hrecorded.raised hraised) hlast
    refine ⟨?_, hraised.trans hraised', fun v hv => ?_⟩
    · have hsum : (fun i => count i + holdersIn Peer.held ((ws' ++ [w]).map Worker.peers) i) =
          fun i => count i + holdersIn Peer.held (ws'.map Worker.peers) i +
            holders Peer.held w.peers i := by
        funext i
        simp [holdersIn, add_assoc]
      rw [hsum]
      exact hfits''
    · rcases mem_append.1 hv with hv | hv
      · exact hws v hv
      · rw [mem_singleton.1 hv]
        exact hw

/-- A record of a new zone is that of a configured peer, held by nobody yet. -/
theorem initShmZone_record {opeers : List PeerShm} {peers : List Peer} {i : ℕ} {r : PeerShm}
    (h : (initShmZone opeers peers).peers[i]? = some r) :
    ∃ p, peers[i]? = some p ∧ r.ref = 0 ∧ r.deleted = false ∧
      r.sockaddr = some p.peerAddr.sockaddr := by
  rw [initShmZone, getElem?_map] at h
  obtain ⟨p, hp, rfl⟩ := map_eq_some_iff.1 h
  refine ⟨p, hp, ?_⟩
  unfold Peer.record PeerShm.initShmPeer
  split
  · exact ⟨rfl, rfl, rfl⟩
  · exact ⟨rfl, rfl, rfl⟩

/-- A fresh zone has no references. -/
theorem initShmZone_fits (opeers : List PeerShm) (peers : List Peer) :
    Fits exact (initShmZone opeers peers) fun _ => 0 := by
  refine ⟨fun hr => ?_, fun _ hr => ?_, fun _ _ => rfl, fun _ => rfl⟩
  · obtain ⟨-, -, href, -⟩ := initShmZone_record hr
    rw [href]
    exact le_rfl
  · obtain ⟨-, -, href, -⟩ := initShmZone_record hr
    rw [href]
    exact le_rfl

/-- A started peer holds the entry of its own index. -/
theorem started_getElem? {peers : List Peer} {i : ℕ} {p : Peer} (h : (started peers)[i]? = some p) :
    ∃ p', peers[i]? = some p' ∧ p = { p' with shm := some i } := by
  rw [started, getElem?_mapIdx] at h
  obtain ⟨p', hp', rfl⟩ := map_eq_some_iff.1 h
  exact ⟨p', hp', rfl⟩

/-- They are there for all entries. -/
theorem initShmZone_recorded (opeers : List PeerShm) (peers : List Peer) :
    Recorded (initShmZone opeers peers) (started peers) := by
  intro p hp i hi
  obtain ⟨j, hj⟩ := getElem?_of_mem hp
  obtain ⟨p', hp', rfl⟩ := started_getElem? hj
  have hji : j = i := by
    unfold Peer.held at hi
    dsimp only at hi
    split_ifs at hi
    exact Option.some.inj hi
  subst hji
  have hr : (initShmZone opeers peers).peers[j]? =
      some (p'.record (findShmPeer opeers p'.peerAddr)) := by
    rw [initShmZone, getElem?_map, hp']
    rfl
  obtain ⟨-, -, -, hused, -⟩ := initShmZone_record hr
  exact ⟨_, hr, hused⟩

/-- **The counts when the workers have started.** -/
theorem fits_initial {s : Sys} (h : s.Initial) : Fits exact s.sh s.attached := by
  obtain ⟨adds, opeers, nalloc, n, -, hstart⟩ := h
  have hzero : Fits exact (initShmZone opeers (configure adds)) fun _ => 0 :=
    initShmZone_fits opeers (configure adds)
  obtain ⟨hfits, -⟩ := startWorkers_fits hzero (initShmZone_recorded opeers _) hstart
  simp only [Nat.zero_add] at hfits
  exact hfits

end Start

/-! ### The addresses of the records -/

section Address

variable {sh sh' sh'' : PeersShm}

/-- The records keep their addresses. -/
def SameAddr (sh sh' : PeersShm) : Prop :=
  ∀ (i : ℕ) (r : PeerShm), sh.peers[i]? = some r →
    ∃ r' : PeerShm, sh'.peers[i]? = some r' ∧ r'.sockaddr = r.sockaddr

/-- The records in use keep their addresses. -/
def UsedAddr (sh sh' : PeersShm) : Prop :=
  ∀ (i : ℕ) (r : PeerShm), sh.peers[i]? = some r →
    ∃ r' : PeerShm, sh'.peers[i]? = some r' ∧ (r.deleted = true ∨ r'.sockaddr = r.sockaddr)

theorem SameAddr.refl (sh : PeersShm) : SameAddr sh sh := fun _ r hr => ⟨r, hr, rfl⟩

theorem SameAddr.used (h : SameAddr sh sh') : UsedAddr sh sh' := by
  intro i r hr
  obtain ⟨r', hr', heq⟩ := h i r hr
  exact ⟨r', hr', .inr heq⟩

theorem UsedAddr.trans (h : UsedAddr sh sh') (h' : SameAddr sh' sh'') : UsedAddr sh sh'' := by
  intro i r hr
  obtain ⟨r', hr', heq⟩ := h i r hr
  obtain ⟨r'', hr'', heq'⟩ := h' i r' hr'
  exact ⟨r'', hr'', heq.imp id heq'.trans⟩

/-- References do not show in an address. -/
theorem Raised.sameAddr (h : Raised sh sh') : SameAddr sh sh' := by
  intro i r hr
  obtain ⟨m, -, hr'⟩ := h.getElem? hr
  exact ⟨_, hr', rfl⟩

/-- A change of one record that keeps its address keeps them all. -/
theorem sameAddr_modify (i : ℕ) (f : PeerShm → PeerShm)
    (hchange : ∀ r, (f r).sockaddr = r.sockaddr) :
    SameAddr sh { sh with peers := sh.peers.modify i f } := by
  intro j r hr
  dsimp only
  rw [getElem?_modify, hr]
  refine ⟨_, rfl, ?_⟩
  split_ifs
  · exact hchange r
  · rfl

/-- A deleted record, or a new one, is made the record of an address. -/
theorem ShmAdd.usedAddr {addr : Addr} {index : Option ℕ} (h : ShmAdd sh addr sh' index) :
    UsedAddr sh sh' := by
  cases h with
  | same | full => exact (SameAddr.refl sh).used
  | @reused i old r' _ hold hdel =>
    intro j r hr
    by_cases hj : j = i
    · subst hj
      obtain rfl : old = r := Option.some.inj (hold.symm.trans hr)
      obtain ⟨hlt, -⟩ := List.getElem?_eq_some_iff.1 hr
      exact ⟨r', by simp [hlt], .inl hdel⟩
    · exact ⟨r, by simpa [List.getElem?_set_ne (Ne.symm hj)] using hr, .inr rfl⟩
  | new =>
    intro j r hr
    obtain ⟨hlt, -⟩ := List.getElem?_eq_some_iff.1 hr
    exact ⟨r, by rw [List.getElem?_append_left hlt, hr], .inr rfl⟩

theorem statusUpdate_sockaddr (conf : Conf) (now : ℕ) (result : Bool) (r : PeerShm) :
    (r.statusUpdate conf now result).sockaddr = r.sockaddr := by
  unfold PeerShm.statusUpdate
  dsimp only
  split_ifs
  all_goals rfl

/-- **What a step does to the records**: one is found or made for an address and references are raised,
or one is changed and keeps its address. -/
theorem records_step {s s' : Sys} {e : Event} (h : s.step e = some s') :
    (∃ addr sh index, ShmAdd s.sh addr sh index ∧ Raised sh s'.sh) ∨
      ∃ (i : ℕ) (f : PeerShm → PeerShm), (∀ r, (f r).sockaddr = r.sockaddr) ∧
        s'.sh = { s.sh with peers := s.sh.peers.modify i f } := by
  have hsame : ∃ (i : ℕ) (f : PeerShm → PeerShm), (∀ r, (f r).sockaddr = r.sockaddr) ∧
      s.sh = { s.sh with peers := s.sh.peers.modify i f } :=
    ⟨0, id, fun _ => rfl, by rw [List.modify_id]⟩
  cases e with
  | add k conf name addr luck =>
    obtain ⟨w, -, h⟩ := bind_eq_some_iff.1 h
    obtain ⟨⟨w', sh', index⟩, hcall, rfl⟩ := map_eq_some_iff.1 h
    cases addDynamicPeer_spec hcall with
    | failed hshm hraised => exact .inl ⟨_, _, _, hshm, hraised⟩
    | done hshm hraised _ htimer =>
      exact .inl ⟨_, _, _, shmAdd_spec hshm, hraised.trans (addTimer_raised htimer)⟩
  | delete k name addr =>
    obtain ⟨w, -, h⟩ := bind_eq_some_iff.1 h
    obtain ⟨⟨w', sh'⟩, hcall, rfl⟩ := map_eq_some_iff.1 h
    rcases deleteDynamicPeer_spec hcall with ⟨-, rfl⟩ | ⟨-, -, i, -, -, -, -, -, -, rfl⟩
    · exact .inr hsame
    · exact .inr ⟨i, PeerShm.release k, fun _ => rfl, rfl⟩
  | get k index =>
    obtain ⟨w, -, h⟩ := bind_eq_some_iff.1 h
    obtain ⟨sh', hcall, rfl⟩ := map_eq_some_iff.1 h
    rcases onPeer_spec hcall with rfl | ⟨i, rfl⟩
    · exact .inr hsame
    · exact .inr ⟨i, PeerShm.get, fun _ => rfl, rfl⟩
  | free k index =>
    obtain ⟨w, -, h⟩ := bind_eq_some_iff.1 h
    obtain ⟨sh', hcall, rfl⟩ := map_eq_some_iff.1 h
    rcases onPeer_spec hcall with rfl | ⟨i, rfl⟩
    · exact .inr hsame
    · refine .inr ⟨i, PeerShm.free, fun r => ?_, rfl⟩
      unfold PeerShm.free
      split_ifs
      · rfl
      · rfl
  | report k place now result =>
    obtain ⟨w, -, h⟩ := bind_eq_some_iff.1 h
    obtain ⟨p, -, h⟩ := bind_eq_some_iff.1 h
    obtain ⟨i, -, rfl⟩ := map_eq_some_iff.1 h
    exact .inr ⟨i, _, statusUpdate_sockaddr p.conf now result, rfl⟩

/-- **Only a deleted record gets another address.** -/
theorem usedAddr_step {s s' : Sys} {e : Event} (h : s.step e = some s') : UsedAddr s.sh s'.sh := by
  rcases records_step h with ⟨addr, sh, index, hadd, hraised⟩ | ⟨i, f, hchange, heq⟩
  · exact hadd.usedAddr.trans hraised.sameAddr
  · rw [heq]
    exact (sameAddr_modify i f hchange).used

end Address

/-! ### Whole runs -/

/-- The count of every record is the number of the entries that point to it, and nobody points to a
deleted record. -/
def Sys.Exact (s : Sys) : Prop :=
  ∀ (i : ℕ) (r : PeerShm), s.sh.peers[i]? = some r →
    r.ref = s.attached i ∧ (r.deleted = true → s.attached i = 0)

theorem Fits.exact {s : Sys} (h : Fits True s.sh s.attached) : s.Exact := fun _ _ hr =>
  ⟨le_antisymm (h.ge trivial hr) (h.le hr), h.unused hr⟩

/-- **In every run** of such steps the references fit the attached peers. -/
theorem fits_everywhere {tr : List (Sys × Event)} {s : Sys} (h : check.Run tr s)
    (hcalm : ∀ p ∈ tr, p.2.Pools ∧ p.1.Still p.2) :
    Machine.Everywhere (fun s => Fits True s.sh s.attached) tr s :=
  h.invariant_of_steps (C := fun s e => e.Pools ∧ s.Still e) (fun _ => fits_initial)
    (fun _ _ _ hfits hcalm hstep => hfits.step hcalm.1 (fun _ => hcalm.2) hstep) hcalm

/-- A configuration with a check. -/
def moveConf : Conf := ⟨3000, 2, 5, 0, true, false, 1, [], 0, 0, false⟩

/-- The address of a server. -/
def moveAddr (n : UInt8) : Addr := ⟨[n], [n]⟩

/-- One worker has started with one peer, and its array is full. -/
def moveStart : Sys :=
  ⟨⟨[{ PeerShm.zero with owner := none, ref := 1, socklen := 1, sockaddr := some [1], down := true }],
    4097⟩,
    [⟨[⟨0, [], moveAddr 1, moveConf, some 0, false⟩], 1⟩]⟩

/-- A second peer is added, and the array grows where it is. -/
def stillAdd : Event := .add 0 moveConf [] (moveAddr 2) ⟨true, true, false, true, fun _ => true⟩

/-- A second peer is added, and the array moves. -/
def moveAdd : Event := .add 0 moveConf [] (moveAddr 2) ⟨true, true, true, true, fun _ => true⟩

theorem moveStart_initial : moveStart.Initial :=
  ⟨[(moveConf, [], moveAddr 1)], [], 1, 1, by decide, by decide⟩

end Hengine.Check
