import Hengine.Upstream.CheckRefs
import Mathlib.Data.List.Induction

/-!
# The Index of a Checked Peer

The balancers know a peer by its index, the number of its record. They ask `peerDown` with it, which
looks into the records; but `getPeer` and `freePeer` look into the array of the worker, where the entry
of that number need not be the entry of the peer. It points to the same record as long as the array
and the records are filled in step (`Sys.Placed`): every peer that is added gets the record with the
number of its own place, or the entry with that number points to that record already; and no entry is
deleted from the place with the number of its record while another one points to that record.

With `unique`, servers of several upstreams share an entry while the configuration is read, and the
deletion of one of them takes the entry from all. So the runs are those of a machine that has, beside
the records and the workers, the servers in use, each with the index it was given.
-/

namespace Hengine.Check

open List Option

/-- The number of the record that a new peer gets: one in use for its address and its text, else the
first deleted one, else the next. -/
def PeersShm.numberFor (sh : PeersShm) (conf : Conf) (addr : Addr) : ℕ :=
  ((sh.peers.findIdx? fun r =>
      !r.deleted && addr.sockaddr.length = r.socklen && some addr.sockaddr = r.sockaddr &&
        r.checksum = conf.sendHash).or
    (sh.peers.findIdx? PeerShm.deleted)).getD sh.number

/-- The array of the worker and the records are filled and holed in step. -/
def Sys.Placed (s : Sys) : Event → Prop
  | .add k conf _ addr _ => ∀ w, s.workers[k]? = some w →
      s.sh.numberFor conf addr = w.free ∨
        w.peers[s.sh.numberFor conf addr]?.bind Peer.held = some (s.sh.numberFor conf addr)
  | .delete k name addr => ∀ w, s.workers[k]? = some w → ∀ i, w.chosen name addr = some i →
      w.peers[i]?.bind Peer.held = some i →
        ∀ j ≠ i, w.peers[j]?.bind Peer.held ≠ some i
  | _ => True

/-- The index `i` designates a record in use of the address, in all that the balancers of a worker do
with it. -/
def Sys.Designates (s : Sys) (w : Worker) (addr : Addr) (i : ℕ) : Prop :=
  ∃ r : PeerShm, s.sh.peers[i]? = some r ∧ r.deleted = false ∧ r.sockaddr = some addr.sockaddr ∧
    peerDown s.sh i = r.down ∧
    getPeer w s.sh i = some { s.sh with peers := s.sh.peers.set i r.get } ∧
    freePeer w s.sh i = some { s.sh with peers := s.sh.peers.set i r.free }

/-! ### The servers in use -/

/-- A server of an upstream, with the index that it was given when it was added. -/
structure Given where
  name : List UInt8
  addr : Addr
  index : ℕ
deriving DecidableEq, Repr

/-- The servers of the configuration that were given an index, and the array they have made. -/
def configureGiven (adds : List (Conf × List UInt8 × Addr)) : List Peer × List Given :=
  adds.foldl (fun r a =>
    let added := addPeer a.1 a.2.1 a.2.2 r.1
    (added.1, r.2 ++ added.2.toList.map fun i => ⟨a.2.1, a.2.2, i⟩)) ([], [])

/-- The records, the workers, and the servers that each worker uses, by the numbers of the workers. -/
structure Users where
  sys : Sys
  given : ℕ → List Given

/-- Whether a deletion is one of this server: of the entry that it takes, if it takes one. -/
def Given.goes (w : Worker) (name : List UInt8) (addr : Addr) (g : Given) : Bool :=
  g.name = name && g.addr.sockaddr = addr.sockaddr &&
    ((w.chosen name addr).bind (w.peers[·]?)).all fun p => p.index = g.index

/-- The servers that a worker still uses after an event. -/
def Users.remain (u : Users) (k : ℕ) : Event → List Given
  | .add j conf name addr luck =>
    if j = k then
      u.given k ++ ((u.sys.workers[k]?.bind fun w => addDynamicPeer conf name addr luck w u.sys.sh).bind
        fun r => r.2.2).toList.map fun i => ⟨name, addr, i⟩
    else u.given k
  | .delete j name addr =>
    if j = k then
      u.sys.workers[k]?.elim (u.given k) fun w => (u.given k).eraseP (Given.goes w name addr)
    else u.given k
  | _ => u.given k

/-- What an event does. -/
def Users.step (u : Users) (e : Event) : Option Users :=
  (u.sys.step e).map fun s => ⟨s, fun k => u.remain k e⟩

/-- Workers that have started with a configuration, and its servers. -/
def Users.Initial (u : Users) : Prop :=
  ∃ adds opeers nalloc n, (configure adds).length ≤ nalloc ∧
    startWorkers (configure adds) nalloc n (initShmZone opeers (configure adds)) =
      some (u.sys.workers, u.sys.sh) ∧ ∀ k, u.given k = (configureGiven adds).2

/-- The workers and the servers in use. -/
def checkUsers : Machine Users Event := Machine.ofStep Users.Initial Users.step

/-- The only entry of a record is not deleted while another server with its index is in use. -/
def Users.Unshared (u : Users) : Event → Prop
  | .delete k name addr => ∀ w, u.sys.workers[k]? = some w → ∀ j i, w.chosen name addr = some j →
      w.peers[j]?.bind Peer.held = some i →
        ∀ g ∈ u.remain k (.delete k name addr), g.index = i →
          ∃ m ≠ j, w.peers[m]?.bind Peer.held = some i
  | _ => True

/-- The index of every server in use designates its record. -/
def Users.Consistent (u : Users) : Prop :=
  ∀ k w, u.sys.workers[k]? = some w → ∀ g ∈ u.given k, u.sys.Designates w g.addr g.index

/-! ### The number of a record -/

/-- The first loop finds the first record in use of the same address and text. -/
theorem sameRecord_eq {conf : Conf} {addr : Addr} (ps : List PeerShm) : ∀ {k : ℕ} {same : Option ℕ},
    sameRecord conf addr ps k = some same →
      same = (ps.findIdx? fun r =>
        !r.deleted && addr.sockaddr.length = r.socklen && some addr.sockaddr = r.sockaddr &&
          r.checksum = conf.sendHash).map (· + k) := by
  induction ps with
  | nil =>
    intro k same h
    cases h
    rfl
  | cons p ps ih =>
    intro k same h
    rw [findIdx?_cons]
    -- a record that is passed over
    have hnext : sameRecord conf addr ps (k + 1) = some same →
        same = ((ps.findIdx? fun r =>
          !r.deleted && addr.sockaddr.length = r.socklen && some addr.sockaddr = r.sockaddr &&
            r.checksum = conf.sendHash).map (· + 1)).map (· + k) := by
      intro h
      rw [ih h, Option.map_map]
      congr 1
      funext i
      simp only [Function.comp]
      omega
    unfold sameRecord at h
    split_ifs at h with hdel hlen
    · rw [if_neg (by simp [hdel])]
      exact hnext h
    · cases haddr : p.sockaddr with
      | none => rw [haddr] at h; cases h
      | some sockaddr =>
        rw [haddr] at h
        dsimp only at h
        split_ifs at h with hsame
        · cases h
          obtain ⟨rfl, htext⟩ := hsame
          rw [if_pos (by simp [hdel, hlen, htext])]
          simp
        · have hno : ¬ (addr.sockaddr = sockaddr ∧ p.checksum = conf.sendHash) := hsame
          rw [if_neg (by simpa [hdel, hlen, haddr] using hno)]
          exact hnext h
    · rw [if_neg (by simp [hlen])]
      exact hnext h

/-- **The number of the record that a new peer gets.** -/
theorem numberFor_eq {sh sh' : PeersShm} {conf : Conf} {addr : Addr} {luck : Luck} {i : ℕ}
    (h : sh.addDynamicPeer conf addr luck = some (sh', some i)) : i = sh.numberFor conf addr := by
  simp only [PeersShm.addDynamicPeer, map_eq_some_iff] at h
  obtain ⟨same, hsame, h⟩ := h
  have heq := sameRecord_eq sh.peers hsame
  simp only [Nat.add_zero, Option.map_id'] at heq
  unfold PeersShm.numberFor
  rw [← heq]
  cases same with
  | some j =>
    cases h
    rfl
  | none =>
    rw [none_or]
    dsimp only at h
    cases hfind : sh.peers.findIdx? PeerShm.deleted with
    | some j =>
      rw [hfind] at h
      dsimp only at h
      obtain ⟨_, -, -, -, hindex⟩ := initRecord_spec sh j conf addr luck
      exact (hindex i (congrArg Prod.snd h)).1
    | none =>
      rw [hfind] at h
      dsimp only at h
      split_ifs at h with hfull
      · cases h
      · obtain ⟨_, -, -, -, hindex⟩ :=
          initRecord_spec { sh with peers := sh.peers ++ [PeerShm.zero] } sh.number conf addr luck
        exact (hindex i (congrArg Prod.snd h)).1

/-! ### The array and the records -/

section Step

variable {s s' : Sys} {e : Event} {w w' : Worker} {k : ℕ} {sh sh' : PeersShm}

/-- The entry with the number of a record to which an entry points points to it as well. -/
def Worker.Aligned (w : Worker) : Prop :=
  ∀ j i : ℕ, w.peers[j]?.bind Peer.held = some i → w.peers[i]?.bind Peer.held = some i

/-- The index of an entry is the number of its record, which has its address. -/
def Peer.Owns (sh : PeersShm) (p : Peer) : Prop :=
  ∀ i, p.held = some i →
    p.index = i ∧ ∃ r : PeerShm, sh.peers[i]? = some r ∧ r.sockaddr = some p.peerAddr.sockaddr

/-- A peer is added. -/
theorem Worker.Aligned.add {conf : Conf} {name : List UInt8} {addr : Addr} {luck : Luck} {index : Option ℕ}
    (h : w.Aligned) (hadd : Added conf name addr luck w sh w' sh' index)
    (hplaced : sh.numberFor conf addr = w.free ∨
      w.peers[sh.numberFor conf addr]?.bind Peer.held = some (sh.numberFor conf addr)) :
    w'.Aligned := by
  cases hadd with
  | failed _ _ _ _ hsame =>
    intro j i hj
    rw [hsame] at hj ⊢
    exact h j i hj
  | @done _ _ _ _ n hshm _ _ _ _ hentry hfree =>
    rw [← numberFor_eq hshm] at hplaced
    -- the entry of every record but the new one is where it was
    have hkeep : ∀ i : ℕ, w.peers[i]?.bind Peer.held = some i →
        w'.peers[i]?.bind Peer.held = some i := by
      intro i hi
      rw [hentry, if_neg]
      · exact hi
      · rintro rfl
        rw [hfree] at hi
        cases hi
    intro j i hj
    rw [hentry] at hj
    split_ifs at hj with heq
    · obtain rfl : n = i := Option.some.inj hj
      rcases hplaced with hplaced | hplaced
      · rw [hentry, if_pos hplaced]
        rfl
      · exact hkeep n hplaced
    · exact hkeep i (h j i hj)

/-- A peer is deleted. -/
theorem Worker.Aligned.clear {j i : ℕ} {p : Peer} (h : w.Aligned) (hj : w.peers[j]? = some p)
    (hheld : p.held = some i)
    (hplaced : i = j → ∀ m ≠ j, w.peers[m]?.bind Peer.held ≠ some i) :
    Worker.Aligned { w with peers := w.peers.set j p.clear } := by
  have hentry := getElem?_set_of hj p.clear
  intro m n hm
  dsimp only at hm ⊢
  rw [hentry] at hm
  split_ifs at hm with hmj
  · cases hm
  · rw [hentry, if_neg]
    · exact h m n hm
    · rintro rfl
      have hn := h m n hm
      rw [hj] at hn
      obtain rfl : i = n := Option.some.inj (hheld.symm.trans hn)
      exact hplaced rfl m hmj hm

/-- A counted entry keeps its record, whatever happens to the others. -/
theorem Peer.Owns.step {j : ℕ} {p : Peer} (h : p.Owns s.sh) (hfits : Fits False s.sh s.attached)
    (hw : s.workers[k]? = some w) (hp : w.peers[j]? = some p) (hused : UsedAddr s.sh sh') :
    p.Owns sh' := by
  intro i hi
  obtain ⟨hindex, r, hr, haddr⟩ := h i hi
  obtain ⟨r', hr', hcases⟩ := hused i r hr
  refine ⟨hindex, r', hr', ?_⟩
  rcases hcases with hdel | hsame
  · have hpos := attached_pos hw hp hi
    rw [hfits.unused hr hdel] at hpos
    exact (Nat.lt_irrefl 0 hpos).elim
  · rw [hsame, haddr]

/-- Adding a peer keeps the number within the maximum. -/
theorem ShmAdd.sized {addr : Addr} {index : Option ℕ} (hadd : ShmAdd sh addr sh' index)
    (h : sh.number ≤ sh.maxNumber) : sh'.number ≤ sh'.maxNumber := by
  cases hadd with
  | same | full => exact h
  | reused => simpa [PeersShm.number] using h
  | new hlt => simpa [PeersShm.number] using Nat.succ_le_of_lt hlt

/-- References are no records. -/
theorem Raised.sized (h : Raised sh sh') (hsize : sh.number ≤ sh.maxNumber) :
    sh'.number ≤ sh'.maxNumber := by
  rw [h.number_eq, h.1]
  exact hsize

/-- There is place for the records in every step. -/
theorem sized_step (h : s.step e = some s') (hsize : s.sh.number ≤ s.sh.maxNumber) :
    s'.sh.number ≤ s'.sh.maxNumber := by
  rcases records_step h with ⟨addr, sh, index, hadd, hraised⟩ | ⟨i, f, -, heq⟩
  · exact hraised.sized (hadd.sized hsize)
  · rw [heq, PeersShm.number, length_modify]
    exact hsize

/-- What holds between the steps. -/
structure Sys.Inv (s : Sys) : Prop where
  fits : Fits False s.sh s.attached
  sized : s.sh.number ≤ s.sh.maxNumber
  owns : ∀ (k : ℕ) (w : Worker), s.workers[k]? = some w →
    ∀ (j : ℕ) (p : Peer), w.peers[j]? = some p → p.Owns s.sh
  aligned : ∀ (k : ℕ) (w : Worker), s.workers[k]? = some w → w.Aligned

/-- The entries of all workers keep their records when one worker's entries change. -/
theorem Sys.Inv.owns_set (h : s.Inv) (hused : UsedAddr s.sh sh') (hw : s.workers[k]? = some w)
    (hnew : ∀ (j : ℕ) (p : Peer), w'.peers[j]? = some p → w.peers[j]? = some p ∨ p.Owns sh') :
    ∀ (m : ℕ) (v : Worker), (s.workers.set k w')[m]? = some v →
      ∀ (j : ℕ) (p : Peer), v.peers[j]? = some p → p.Owns sh' := by
  intro m v hv j p hp
  rw [getElem?_set] at hv
  split_ifs at hv with hm hlt
  · cases hv
    rcases hnew j p hp with hold | howns
    · exact (h.owns k w hw j p hold).step h.fits hw hold hused
    · exact howns
  · exact (h.owns m v hv j p hp).step h.fits hv hp hused

/-- All workers stay aligned when the changed one is. -/
theorem Sys.Inv.aligned_set (h : s.Inv) (hnew : w'.Aligned) :
    ∀ (m : ℕ) (v : Worker), (s.workers.set k w')[m]? = some v → v.Aligned := by
  intro m v hv
  rw [getElem?_set] at hv
  split_ifs at hv with hm hlt
  · cases hv
    exact hnew
  · exact h.aligned m v hv

theorem owns_none {p : Peer} (h : p.held = none) : p.Owns sh := by
  intro i hi
  rw [h] at hi
  cases hi

/-- **A step keeps the array and the records in step.** -/
theorem Sys.Inv.step (h : s.Inv) (hpools : e.Pools) (hplaced : s.Placed e) (hstep : s.step e = some s') :
    s'.Inv := by
  have hused := usedAddr_step hstep
  have hfits := h.fits.step hpools (fun hfalse => hfalse.elim) hstep
  have hsized := sized_step hstep h.sized
  cases e with
  | add k conf name addr luck =>
    obtain ⟨w, hw, hstep⟩ := bind_eq_some_iff.1 hstep
    obtain ⟨⟨w', sh', index⟩, hcall, rfl⟩ := map_eq_some_iff.1 hstep
    have hadd := addDynamicPeer_spec hcall
    have haligned := (h.aligned k w hw).add hadd (hplaced w hw)
    refine ⟨hfits, hsized, h.owns_set hused hw ?_, h.aligned_set haligned⟩
    cases hadd with
    | failed _ _ _ _ _ hkept =>
      intro j p hp
      by_cases hheld : p.held = none
      · exact .inr (owns_none hheld)
      · exact .inl (hkept j p hp hheld)
    | @done _ _ _ _ n hshm hraised _ htimer _ hentry _ =>
      intro j p hp
      rw [hentry] at hp
      split_ifs at hp with hj
      · cases hp
        refine .inr fun i hi => ?_
        cases hi
        obtain ⟨r, hr, -, haddr⟩ := (shmAdd_spec hshm).found
        obtain ⟨r', hr', heq⟩ := hraised.sameAddr n r hr
        obtain ⟨r'', hr'', heq'⟩ := (addTimer_raised htimer).sameAddr n r' hr'
        exact ⟨rfl, r'', hr'', by rw [heq', heq, haddr]; rfl⟩
      · exact .inl hp
  | delete k name addr =>
    obtain ⟨w, hw, hstep⟩ := bind_eq_some_iff.1 hstep
    obtain ⟨⟨w', sh'⟩, hcall, rfl⟩ := map_eq_some_iff.1 hstep
    rcases deleteDynamicPeer_spec hcall with
      ⟨rfl, rfl⟩ | ⟨j, p, i, hchosen, hj, hheld, -, -, rfl, rfl⟩
    · exact ⟨hfits, hsized, h.owns_set hused hw fun _ _ hp => .inl hp,
        h.aligned_set (h.aligned k w' hw)⟩
    · have hclear := getElem?_set_of hj p.clear
      refine ⟨hfits, hsized, h.owns_set hused hw fun m q hq => ?_, h.aligned_set ?_⟩
      · dsimp only at hq
        rw [hclear] at hq
        split_ifs at hq with hm
        · cases hq
          exact .inr (owns_none (clear_held p))
        · exact .inl hq
      · refine (h.aligned k w hw).clear hj hheld ?_
        rintro rfl m hm
        exact hplaced w hw i hchosen (by rw [hj]; exact hheld) m hm
  | get k index | free k index =>
    obtain ⟨w, hw, hstep⟩ := bind_eq_some_iff.1 hstep
    obtain ⟨sh', hcall, rfl⟩ := map_eq_some_iff.1 hstep
    refine ⟨hfits, hsized, fun m v hv j p hp => ?_, h.aligned⟩
    exact (h.owns m v hv j p hp).step h.fits hv hp hused
  | report k place now result =>
    obtain ⟨w, hw, hstep⟩ := bind_eq_some_iff.1 hstep
    obtain ⟨p, -, hstep⟩ := bind_eq_some_iff.1 hstep
    obtain ⟨i, -, rfl⟩ := map_eq_some_iff.1 hstep
    refine ⟨hfits, hsized, fun m v hv j p hp => ?_, h.aligned⟩
    exact (h.owns m v hv j p hp).step h.fits hv hp hused

end Step

/-! ### What the balancers do -/

/-- A balancer that reaches the entry with the number of a record. -/
theorem onPeer_eq {change : PeerShm → PeerShm} {w : Worker} {sh : PeersShm} {i : ℕ} {r : PeerShm}
    (hsize : sh.number ≤ sh.maxNumber) (hr : sh.peers[i]? = some r)
    (hentry : w.peers[i]?.bind Peer.held = some i) :
    onPeer change w sh i = some { sh with peers := sh.peers.set i (change r) } := by
  obtain ⟨hlt, -⟩ := List.getElem?_eq_some_iff.1 hr
  have hnumber : i < sh.number := hlt
  obtain ⟨q, hq, hheld⟩ := Option.bind_eq_some_iff.1 hentry
  have hshm : q.shm = some i := by
    unfold Peer.held at hheld
    split_ifs at hheld
    exact hheld
  unfold onPeer
  rw [if_neg (by omega), hq, bind_some, hshm, map_some, modify_eq_set_getElem?, hr]
  rfl

/-- A worker has an entry for the server of an address that was given the index `i`. -/
def Worker.Lists (w : Worker) (addr : Addr) (i : ℕ) : Prop :=
  ∃ (j : ℕ) (p : Peer), w.peers[j]? = some p ∧ p.held = some i ∧ p.index = i ∧
    p.peerAddr.sockaddr = addr.sockaddr

/-- **The index of an entry designates its record.** -/
theorem Sys.Inv.designates {s : Sys} (h : s.Inv) {k : ℕ} {w : Worker} (hk : s.workers[k]? = some w)
    {addr : Addr} {i : ℕ} (hlists : w.Lists addr i) : s.Designates w addr i := by
  obtain ⟨j, p, hj, hi, rfl, hsame⟩ := hlists
  obtain ⟨-, r, hr, haddr⟩ := h.owns k w hk j p hj p.index hi
  rw [hsame] at haddr
  have hused : r.deleted = false := by
    by_contra hdel
    have hpos := attached_pos hk hj hi
    rw [h.fits.unused hr (by simpa using hdel)] at hpos
    exact Nat.lt_irrefl 0 hpos
  have hentry : w.peers[p.index]?.bind Peer.held = some p.index :=
    h.aligned k w hk j p.index (by rw [hj]; exact hi)
  obtain ⟨hlt, -⟩ := List.getElem?_eq_some_iff.1 hr
  refine ⟨r, hr, hused, haddr, ?_, onPeer_eq h.sized hr hentry, onPeer_eq h.sized hr hentry⟩
  have hnumber : p.index < s.sh.number := hlt
  have hsize := h.sized
  unfold peerDown
  rw [if_neg (by omega), hr]
  rfl

/-! ### The configuration -/

section Configuration

variable {adds : List (Conf × List UInt8 × Addr)}

theorem configure_concat (adds : List (Conf × List UInt8 × Addr)) (a : Conf × List UInt8 × Addr) :
    configure (adds ++ [a]) = (addPeer a.1 a.2.1 a.2.2 (configure adds)).1 := by
  rw [configure, foldl_append]
  rfl

/-- A peer is added while the configuration is read: its index is that of an entry of its address. -/
theorem addPeer_spec (conf : Conf) (name : List UInt8) (addr : Addr) (peers : List Peer) :
    ((addPeer conf name addr peers).1 = peers ∨
      (addPeer conf name addr peers).1 =
        peers ++ [⟨peers.length, name, addr, conf, none, false⟩]) ∧
    ∀ i, (addPeer conf name addr peers).2 = some i →
      ∃ p, (addPeer conf name addr peers).1[i]? = some p ∧
        p.peerAddr.sockaddr = addr.sockaddr := by
  have hnew : ∀ i, some peers.length = some i →
      ∃ p, (peers ++ [⟨peers.length, name, addr, conf, none, false⟩])[i]? = some p ∧
        p.peerAddr.sockaddr = addr.sockaddr := by
    intro i hi
    cases hi
    exact ⟨⟨peers.length, name, addr, conf, none, false⟩, by simp, rfl⟩
  unfold addPeer
  split_ifs with hinterval hunique
  · exact ⟨.inl rfl, nofun⟩
  · cases hfind : uniquePeer peers addr conf with
    | none => exact ⟨.inr rfl, hnew⟩
    | some n =>
      refine ⟨.inl rfl, fun i hi => ?_⟩
      cases hi
      obtain ⟨hn, hmatch, -⟩ := findIdx?_eq_some_iff_getElem.1 hfind
      simp only [Bool.and_eq_true, decide_eq_true_eq] at hmatch
      exact ⟨_, getElem?_eq_getElem hn, hmatch.1.1.1.2⟩
  · exact ⟨.inr rfl, hnew⟩

/-- The entries of the configuration. -/
theorem configure_entry : ∀ {i : ℕ} {p : Peer}, (configure adds)[i]? = some p →
    p.index = i ∧ p.deleted = false := by
  induction adds using List.reverseRecOn with
  | nil => intro i p h; cases h
  | append_singleton adds a ih =>
    intro i p h
    rw [configure_concat] at h
    rcases (addPeer_spec a.1 a.2.1 a.2.2 (configure adds)).1 with heq | heq
    · rw [heq] at h
      exact ih h
    · rw [heq, getElem?_append] at h
      split_ifs at h with hlt
      · exact ih h
      · rw [getElem?_singleton] at h
        split_ifs at h with hi
        cases h
        exact ⟨by dsimp only; omega, rfl⟩

/-- More servers do not change the entries of those before. -/
theorem configure_mono (more : List (Conf × List UInt8 × Addr)) {i : ℕ} {p : Peer}
    (h : (configure adds)[i]? = some p) : (configure (adds ++ more))[i]? = some p := by
  induction more using List.reverseRecOn with
  | nil => rwa [append_nil]
  | append_singleton more a ih =>
    rw [← append_assoc, configure_concat]
    rcases (addPeer_spec a.1 a.2.1 a.2.2 (configure (adds ++ more))).1 with heq | heq
    · rw [heq]
      exact ih
    · obtain ⟨hlt, -⟩ := List.getElem?_eq_some_iff.1 ih
      rw [heq, List.getElem?_append_left hlt]
      exact ih

/-- A configured entry has its own record. -/
theorem started_entry {i j : ℕ} {p : Peer} (h : (started (configure adds))[j]? = some p)
    (hi : p.held = some i) : j = i ∧ p.index = i := by
  obtain ⟨p', hp', rfl⟩ := started_getElem? h
  obtain ⟨hindex, hdel⟩ := configure_entry hp'
  unfold Peer.held at hi
  dsimp only at hi
  rw [hdel, if_neg Bool.false_ne_true] at hi
  obtain rfl : j = i := Option.some.inj hi
  exact ⟨rfl, hindex⟩

/-- **The workers start in step.** -/
theorem inv_initial {s : Sys} (h : s.Initial) : s.Inv := by
  have hfits : Fits False s.sh s.attached := fits_initial h
  obtain ⟨adds, opeers, nalloc, n, -, hstart⟩ := h
  have hzero : Fits False (initShmZone opeers (configure adds)) fun _ => 0 :=
    initShmZone_fits opeers (configure adds)
  obtain ⟨-, hraised, hws⟩ := startWorkers_fits hzero (initShmZone_recorded opeers _) hstart
  refine ⟨hfits, hraised.sized ?_, fun k w hw j p hp => ?_, fun k w hw => ?_⟩
  · rw [PeersShm.number, initShmZone, length_map]
    exact Nat.le_add_right _ _
  · rw [hws w (mem_of_getElem? hw)] at hp
    intro i hi
    obtain ⟨rfl, hindex⟩ := started_entry hp hi
    refine ⟨hindex, ?_⟩
    obtain ⟨p', hp', rfl⟩ := started_getElem? hp
    obtain ⟨r, hr, -⟩ := initShmZone_recorded opeers _ _ (mem_of_getElem? hp) j hi
    obtain ⟨p'', hp'', -, -, haddr⟩ := initShmZone_record hr
    obtain rfl : p' = p'' := Option.some.inj (hp'.symm.trans hp'')
    obtain ⟨r', hr', heq⟩ := hraised.sameAddr j r hr
    exact ⟨r', hr', heq.trans haddr⟩
  · rw [hws w (mem_of_getElem? hw)]
    intro j i hj
    obtain ⟨p, hp, hi⟩ := bind_eq_some_iff.1 hj
    obtain ⟨rfl, -⟩ := started_entry hp hi
    exact hj

end Configuration

/-! ### Whole runs -/

/-- The given peers are configured one by one. -/
theorem configureGiven_fst (adds : List (Conf × List UInt8 × Addr)) :
    (configureGiven adds).1 = configure adds := by
  induction adds using List.reverseRecOn with
  | nil => rfl
  | append_singleton adds a ih =>
    rw [configure_concat, ← ih, configureGiven, foldl_append]
    rfl

/-- The servers of the configuration have entries. -/
theorem configureGiven_entry {adds : List (Conf × List UInt8 × Addr)} : ∀ {g : Given},
    g ∈ (configureGiven adds).2 →
      ∃ p, (configure adds)[g.index]? = some p ∧ p.peerAddr.sockaddr = g.addr.sockaddr := by
  induction adds using List.reverseRecOn with
  | nil => nofun
  | append_singleton adds a ih =>
    intro g hg
    have hconcat : (configureGiven (adds ++ [a])).2 = (configureGiven adds).2 ++
        (addPeer a.1 a.2.1 a.2.2 (configure adds)).2.toList.map fun i => ⟨a.2.1, a.2.2, i⟩ := by
      rw [← configureGiven_fst, configureGiven, foldl_append]
      rfl
    rw [hconcat] at hg
    rcases mem_append.1 hg with hold | hnew
    · obtain ⟨p, hp, haddr⟩ := ih hold
      exact ⟨p, configure_mono [a] hp, haddr⟩
    · obtain ⟨i, hi, rfl⟩ := mem_map.1 hnew
      rw [configure_concat]
      exact (addPeer_spec a.1 a.2.1 a.2.2 (configure adds)).2 i (mem_toList.1 hi)

/-- What holds between the steps: the servers in use have entries. -/
structure Users.Inv (u : Users) : Prop where
  sys : u.sys.Inv
  lists : ∀ (k : ℕ) (w : Worker), u.sys.workers[k]? = some w →
    ∀ g ∈ u.given k, w.Lists g.addr g.index

/-- The invariant holds at the start. -/
theorem Users.Initial.inv {u : Users} (h : u.Initial) : u.Inv := by
  obtain ⟨adds, opeers, nalloc, n, hlen, hstart, hgiven⟩ := h
  refine ⟨inv_initial ⟨adds, opeers, nalloc, n, hlen, hstart⟩, fun k w hw g hg => ?_⟩
  have hzero : Fits False (initShmZone opeers (configure adds)) fun _ => 0 := initShmZone_fits _ _
  obtain ⟨-, -, hws⟩ := startWorkers_fits hzero (initShmZone_recorded opeers _) hstart
  rw [hgiven] at hg
  obtain ⟨p, hp, haddr⟩ := configureGiven_entry hg
  obtain ⟨hi, hdel⟩ := configure_entry hp
  refine ⟨g.index, { p with shm := some g.index }, ?_, ?_, hi, haddr⟩
  · rw [hws w (mem_of_getElem? hw), started, getElem?_mapIdx, hp]
    rfl
  · simp [Peer.held, hdel]

/-- An addition keeps all entries, and makes one for the index that it gives. -/
theorem Added.lists {conf : Conf} {name : List UInt8} {addr : Addr} {luck : Luck} {w w' : Worker}
    {sh sh' : PeersShm} {index : Option ℕ} (h : Added conf name addr luck w sh w' sh' index) :
    (∀ addr i, w.Lists addr i → w'.Lists addr i) ∧ ∀ i, index = some i → w'.Lists addr i := by
  cases h with
  | failed _ _ _ _ hheld hkept =>
    refine ⟨fun addr i ⟨j, p, hj, hi, hindex, haddr⟩ => ?_, nofun⟩
    have hsame := hheld j
    rw [hj, bind_some, hi] at hsame
    obtain ⟨p', hp', hi'⟩ := bind_eq_some_iff.1 hsame
    obtain rfl : p = p' := Option.some.inj (hj.symm.trans (hkept j p' hp' (by simp [hi'])))
    exact ⟨j, p, hp', hi, hindex, haddr⟩
  | done _ _ _ _ _ hentry hfree =>
    refine ⟨fun addr i ⟨j, p, hj, hi, hindex, haddr⟩ => ⟨j, p, ?_, hi, hindex, haddr⟩,
      fun i hi => ?_⟩
    · rw [hentry, if_neg]
      · exact hj
      · rintro rfl
        rw [hj, bind_some, hi] at hfree
        cases hfree
    · cases hi
      have hplace := hentry w.free
      rw [if_pos rfl] at hplace
      exact ⟨_, _, hplace, rfl, rfl, rfl⟩

/-- **A step keeps the entries of the servers in use.** -/
theorem Users.Inv.step {u u' : Users} {e : Event} (h : u.Inv) (hpools : e.Pools)
    (hplaced : u.sys.Placed e) (hunshared : u.Unshared e) (hstep : u.step e = some u') : u'.Inv := by
  obtain ⟨s, hs, rfl⟩ := map_eq_some_iff.1 hstep
  refine ⟨h.sys.step hpools hplaced hs, fun m v hv g hg => ?_⟩
  dsimp only at hv hg
  cases e with
  | add k conf name addr luck =>
    obtain ⟨w, hw, hs⟩ := bind_eq_some_iff.1 hs
    obtain ⟨⟨w', sh', index⟩, hcall, rfl⟩ := map_eq_some_iff.1 hs
    obtain ⟨hkeep, hnew⟩ := (addDynamicPeer_spec hcall).lists
    rw [getElem?_set] at hv
    split_ifs at hv with hkm hlt
    · subst hkm
      cases hv
      simp only [Users.remain, if_true, hw, bind_some, hcall] at hg
      rcases mem_append.1 hg with hold | hadded
      · exact hkeep _ _ (h.lists k w hw g hold)
      · obtain ⟨i, hi, rfl⟩ := mem_map.1 hadded
        exact hnew i (mem_toList.1 hi)
    · simp only [Users.remain, if_neg hkm] at hg
      exact h.lists m v hv g hg
  | delete k name addr =>
    obtain ⟨w, hw, hs⟩ := bind_eq_some_iff.1 hs
    obtain ⟨⟨w', sh'⟩, hcall, rfl⟩ := map_eq_some_iff.1 hs
    rw [getElem?_set] at hv
    split_ifs at hv with hkm hlt
    · subst hkm
      cases hv
      have hold : g ∈ u.given k := by
        simp only [Users.remain, if_true, hw, elim_some] at hg
        exact mem_of_mem_eraseP hg
      obtain ⟨m, q, hm, hheldq, hindex, haddr⟩ := h.lists k w hw g hold
      rcases deleteDynamicPeer_spec hcall with
        ⟨rfl, -⟩ | ⟨j, p, i, hchosen, hj, hheld, -, -, rfl, -⟩
      · exact ⟨m, q, hm, hheldq, hindex, haddr⟩
      · have hclear := getElem?_set_of hj p.clear
        rcases eq_or_ne m j with rfl | hmj
        · -- the entry is deleted: another one points to the record
          obtain rfl : q = p := Option.some.inj (hm.symm.trans hj)
          obtain rfl : g.index = i := Option.some.inj (hheldq.symm.trans hheld)
          obtain ⟨n, hn, hother⟩ := hunshared w hw m g.index hchosen (by rw [hj]; exact hheld) g hg rfl
          obtain ⟨q', hq', hheld'⟩ := bind_eq_some_iff.1 hother
          obtain ⟨-, r, hr, hrq⟩ := h.sys.owns k w hw m q hj g.index hheld
          obtain ⟨hindex', r', hr', hrq'⟩ := h.sys.owns k w hw n q' hq' g.index hheld'
          obtain rfl : r = r' := Option.some.inj (hr.symm.trans hr')
          refine ⟨n, q', ?_, hheld', hindex', ?_⟩
          · rw [hclear, if_neg hn]
            exact hq'
          · rw [← haddr]
            exact Option.some.inj (hrq'.symm.trans hrq)
        · refine ⟨m, q, ?_, hheldq, hindex, haddr⟩
          rw [hclear, if_neg hmj]
          exact hm
    · simp only [Users.remain, if_neg hkm] at hg
      exact h.lists m v hv g hg
  | get k index | free k index =>
    obtain ⟨w, hw, hs⟩ := bind_eq_some_iff.1 hs
    obtain ⟨sh', -, rfl⟩ := map_eq_some_iff.1 hs
    exact h.lists m v hv g hg
  | report k place now result =>
    obtain ⟨w, hw, hs⟩ := bind_eq_some_iff.1 hs
    obtain ⟨p, -, hs⟩ := bind_eq_some_iff.1 hs
    obtain ⟨i, -, rfl⟩ := map_eq_some_iff.1 hs
    exact h.lists m v hv g hg

/-- One worker has started with the server of one upstream. -/
def userStart : Users := ⟨moveStart, fun _ => [⟨[], moveAddr 1, 0⟩]⟩

theorem userStart_initial : userStart.Initial :=
  ⟨[(moveConf, [], moveAddr 1)], [], 1, 1, by decide, by decide, fun _ => rfl⟩

/-- Memory for everything, and the array grows where it is. -/
def enough : Luck := ⟨true, true, false, true, fun _ => true⟩

/-- The first address is added to a second upstream: it shares the record. -/
def sharedAdd : Event := .add 0 moveConf [2] (moveAddr 1) enough

/-- Then another address is added to a third one. -/
def thirdAdd : Event := .add 0 moveConf [3] (moveAddr 2) enough

/-- One worker has started with the servers of two upstreams, which share an entry. -/
def uniqueStart : Users :=
  ⟨⟨⟨[{ PeerShm.zero with owner := none, ref := 1, socklen := 1, sockaddr := some [1], down := true }],
      4097⟩, [⟨[⟨0, [1], moveAddr 1, { moveConf with unique := true }, some 0, false⟩], 1⟩]⟩,
    fun _ => [⟨[1], moveAddr 1, 0⟩, ⟨[2], moveAddr 1, 0⟩]⟩

theorem uniqueStart_initial : uniqueStart.Initial :=
  ⟨[({ moveConf with unique := true }, [1], moveAddr 1),
    ({ moveConf with unique := true }, [2], moveAddr 1)], [], 1, 1, by decide, by decide, fun _ => rfl⟩

end Hengine.Check
