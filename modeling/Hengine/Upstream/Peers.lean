import Hengine.Lib.Bitmap
import Mathlib.Algebra.BigOperators.Intervals
import Mathlib.Data.List.GetD

/-!
# Upstream Peers and the Shared Round-Robin Data

The data model of `ngx_http_upstream_round_robin.h` that every balancer of this
repository builds on: the peer record, a group of peers, an upstream with its primary
group and the optional backup group behind `peers->next`, and the per-request data with
its `tried` bitmap. `upstreamInitRoundRobin` builds an upstream from the configured
servers, `upstreamInitRoundRobinPeer` the data of one request, and
`upstreamFreeRoundRobinPeer` is the one free routine the balancers share.

A group's peers are the array `peer[0 .. number)`, linked in index order by `next`;
memory past the array is an arbitrary record that no function below reads. Weights are
`ngx_int_t` and are modelled by `ℤ`: a signed overflow has no defined result, so the sums
of configured weights are taken to fit. `conns` is an `ngx_uint_t` whose decrement wraps
at zero; it is incremented at most once for each live request object, so its increment
does not.
-/

namespace Hengine

open List Function

/-- The bytes of a socket address, of length `socklen`. -/
abbrev Sockaddr := List UInt8

/-- `ngx_http_upstream_rr_peer_t`. -/
structure RrPeer where
  sockaddr : Sockaddr := []
  name : String := ""
  server : String := ""
  id : String := ""
  currentWeight : ℤ := 0
  effectiveWeight : ℤ := 0
  weight : ℤ := 0
  conns : ℕ := 0
  maxConns : ℕ := 0
  fails : ℕ := 0
  accessed : ℤ := 0
  checked : ℤ := 0
  maxFails : ℕ := 0
  failTimeout : ℤ := 0
  down : Bool := false
  checkIndex : ℕ := 0
  deriving DecidableEq

/-- The two groups of an upstream: `us->peer.data` and its `next`. -/
inductive Group
  | primary
  | backup
  deriving DecidableEq

/-- `ngx_http_upstream_rr_peers_t`. `NGX_CONF_UNSET_UINT` in `init_number` is `none`. -/
structure RrPeers where
  number : ℕ := 0
  initNumber : Option ℕ := none
  totalWeight : ℕ := 0
  tries : ℕ := 0
  single : Bool := false
  weighted : Bool := false
  name : String := ""
  peer : ℕ → RrPeer := fun _ => {}

/-- An upstream: its groups, and whether `peers->next` of the primary group is set.
Without it the backup record is a placeholder that is never looked at. -/
structure Upstream where
  peers : Group → RrPeers
  next : Bool

/-- Replace one group. -/
def Upstream.set (up : Upstream) (g : Group) (ps : RrPeers) : Upstream :=
  { up with peers := update up.peers g ps }

/-- Write through a peer pointer. -/
def RrPeers.setPeer (ps : RrPeers) (i : ℕ) (p : RrPeer) : RrPeers :=
  { ps with peer := update ps.peer i p }

/-- Write through a peer pointer of an upstream. -/
def Upstream.setPeer (up : Upstream) (g : Group) (i : ℕ) (p : RrPeer) : Upstream :=
  up.set g ((up.peers g).setPeer i p)

/-- A peer after one has been changed. -/
theorem Upstream.peer_setPeer (up : Upstream) (g h : Group) (i j : ℕ) (p : RrPeer) :
    ((up.setPeer g i p).peers h).peer j
      = if h = g ∧ j = i then p else (up.peers h).peer j := by
  by_cases hg : h = g
  · subst hg
    by_cases hj : j = i
    · subst hj
      simp [Upstream.setPeer, Upstream.set, RrPeers.setPeer]
    · simp [Upstream.setPeer, Upstream.set, RrPeers.setPeer, hj]
  · simp [Upstream.setPeer, Upstream.set, hg]

/-! ### Configuration -/

/-- `ngx_http_upstream_server_t`. The `server` directive rejects a zero weight, one that does
not fit in an `ngx_int_t`, and a name that resolves to no address. -/
structure UpstreamServer where
  name : String
  addrs : List (Sockaddr × String)
  weight : ℕ := 1
  maxConns : ℕ := 0
  maxFails : ℕ := 1
  failTimeout : ℤ := 10
  id : String := ""
  down : Bool := false
  backup : Bool := false
  weight_pos : 0 < weight
  weight_lt : weight < 2 ^ 63 := by decide
  addrs_ne : addrs ≠ []

/-- What `ngx_http_upstream_init_round_robin` reads of `us`: the servers of an explicit
upstream block, or the port and the resolved addresses of an implicit one. -/
inductive UpstreamConf
  | servers (host : String) (servers : List UpstreamServer)
  | implicit (host : String) (port : ℕ) (addrs : Option (List (Sockaddr × String)))

/-- `(ngx_uint_t) NGX_ERROR`, the check index of a peer that is not health-checked. -/
def checkIndexError : ℕ := 2 ^ 64 - 1

/-- The record filled in for one address of one configured server. `checkAdd` is the
index `ngx_http_upstream_check_add_peer` hands out. -/
def serverPeer (checkAdd : UpstreamServer → Sockaddr × String → ℕ) (s : UpstreamServer)
    (a : Sockaddr × String) : RrPeer :=
  { sockaddr := a.1, name := a.2, server := s.name, id := s.id
    weight := s.weight, effectiveWeight := s.weight, currentWeight := 0
    maxConns := s.maxConns, maxFails := s.maxFails, failTimeout := s.failTimeout
    down := s.down
    checkIndex := if s.down then checkIndexError else checkAdd s a }

/-- The records of a list of servers, one for each address, in order. -/
def serverPeers (checkAdd : UpstreamServer → Sockaddr × String → ℕ)
    (servers : List UpstreamServer) : List RrPeer :=
  servers.flatMap fun s => s.addrs.map (serverPeer checkAdd s)

/-- The group built from the servers of one kind: `n` addresses, summed weight `w`, and
`t` addresses of servers that are not down. -/
def initPeers (checkAdd : UpstreamServer → Sockaddr × String → ℕ) (host : String)
    (servers : List UpstreamServer) (single : Bool) : RrPeers :=
  let n := (servers.map fun s => s.addrs.length).sum
  let w := (servers.map fun s => s.addrs.length * s.weight).sum
  let t := ((servers.filter fun s => !s.down).map fun s => s.addrs.length).sum
  { number := n, totalWeight := w, tries := t, single := single
    weighted := w != n, name := host
    peer := fun i => (serverPeers checkAdd servers).getD i {} }

/-- The record of one address of an upstream implicitly defined by `proxy_pass`. -/
def implicitPeer (a : Sockaddr × String) : RrPeer :=
  { sockaddr := a.1, name := a.2, weight := 1, effectiveWeight := 1, currentWeight := 0
    maxConns := 0, maxFails := 1, failTimeout := 10, checkIndex := checkIndexError }

/-- The group of an implicitly defined upstream. -/
def implicitPeers (host : String) (addrs : List (Sockaddr × String)) : RrPeers :=
  { number := addrs.length, totalWeight := addrs.length, tries := addrs.length
    single := addrs.length == 1, weighted := false, name := host
    peer := fun i => (addrs.map implicitPeer).getD i {} }

/-- `ngx_http_upstream_init_round_robin`. `none` is `NGX_ERROR`: no servers, no port, or
a host that does not resolve. -/
def upstreamInitRoundRobin (checkAdd : UpstreamServer → Sockaddr × String → ℕ) :
    UpstreamConf → Option Upstream
  | .servers host servers =>
    let primary := servers.filter fun s => !s.backup
    let backup := servers.filter fun s => s.backup
    let n := (primary.map fun s => s.addrs.length).sum
    if n = 0 then none
    else if (backup.map fun s => s.addrs.length).sum = 0 then
      some { peers := fun g => match g with
               | .primary => initPeers checkAdd host primary (n == 1)
               | .backup => {}
             next := false }
    else
      some { peers := fun g => match g with
               | .primary => initPeers checkAdd host primary false
               | .backup => initPeers checkAdd host backup false
             next := true }
  | .implicit host port addrs =>
    if port = 0 then none
    else match addrs with
      | none => none
      | some [] => none
      | some (a :: as) =>
        some { peers := fun g => match g with
                 | .primary => implicitPeers host (a :: as)
                 | .backup => {}
               next := false }

/-! ### Fresh groups -/

/-- A peer record as configuration leaves it. -/
structure FreshPeer (p : RrPeer) : Prop where
  weight_pos : 0 < p.weight
  effective : p.effectiveWeight = p.weight
  current : p.currentWeight = 0
  conns : p.conns = 0

/-- A group as configuration leaves it. -/
structure FreshPeers (ps : RrPeers) : Prop where
  number_pos : 0 < ps.number
  initNumber : ps.initNumber = none
  peer : ∀ i < ps.number, FreshPeer (ps.peer i)
  total : (ps.totalWeight : ℤ) = ∑ i ∈ Finset.range ps.number, (ps.peer i).weight

/-- An upstream as configuration leaves it: the primary group alone is a single peer
only when there is one address and no backup server. -/
structure FreshUpstream (up : Upstream) : Prop where
  primary : FreshPeers (up.peers .primary)
  backup : up.next = true → FreshPeers (up.peers .backup)
  no_backup : up.next = false → (up.peers .backup).number = 0
  single : (up.peers .primary).single = true ↔
    (up.peers .primary).number = 1 ∧ up.next = false
  backup_single : (up.peers .backup).single = false

/-- A sum over indices is the sum over the list. -/
theorem sum_range_getD {α : Type*} (f : α → ℤ) (l : List α) (d : α) :
    ∑ i ∈ Finset.range l.length, f (l.getD i d) = (l.map f).sum := by
  induction l with
  | nil => simp
  | cons a l ih =>
    rw [length_cons, Finset.sum_range_succ', map_cons, sum_cons, ← ih,
      add_comm]
    rfl

section

variable (checkAdd : UpstreamServer → Sockaddr × String → ℕ)
include checkAdd

theorem length_serverPeers (servers : List UpstreamServer) :
    (serverPeers checkAdd servers).length = (servers.map fun s => s.addrs.length).sum := by
  simp [serverPeers, length_flatMap]

/-- The weights of the records add up to the total weight of the servers. -/
theorem sum_weight_serverPeers (servers : List UpstreamServer) :
    ((serverPeers checkAdd servers).map fun p => p.weight).sum
      = ((servers.map fun s => s.addrs.length * s.weight).sum : ℕ) := by
  induction servers with
  | nil => simp [serverPeers]
  | cons s servers ih =>
    have hs : (s.addrs.map (serverPeer checkAdd s)).map (fun p => p.weight)
        = List.replicate s.addrs.length (s.weight : ℤ) := by
      rw [map_map]
      exact map_eq_replicate_iff.mpr fun a _ => rfl
    have hcons : serverPeers checkAdd (s :: servers)
        = s.addrs.map (serverPeer checkAdd s) ++ serverPeers checkAdd servers := by
      simp [serverPeers]
    rw [hcons, map_append, sum_append, ih, hs, sum_replicate]
    simp

/-- Every record of a group built from servers comes from one address of one server. -/
theorem initPeers_peer (host : String) (servers : List UpstreamServer) (single : Bool) {i : ℕ}
    (hi : i < (initPeers checkAdd host servers single).number) :
    ∃ s ∈ servers, ∃ a ∈ s.addrs,
      (initPeers checkAdd host servers single).peer i = serverPeer checkAdd s a := by
  have hlen : i < (serverPeers checkAdd servers).length := by
    rw [length_serverPeers]
    exact hi
  have hmem : (serverPeers checkAdd servers).getD i {} ∈ serverPeers checkAdd servers := by
    rw [getD_eq_getElem _ _ hlen]
    exact getElem_mem hlen
  obtain ⟨s, hs, hp⟩ := mem_flatMap.mp hmem
  obtain ⟨a, ha, hp⟩ := mem_map.mp hp
  exact ⟨s, hs, a, ha, hp.symm⟩

/-- A group built from servers is fresh. -/
theorem initPeers_fresh (host : String) (servers : List UpstreamServer) (single : Bool)
    (hn : (servers.map fun s => s.addrs.length).sum ≠ 0) :
    FreshPeers (initPeers checkAdd host servers single) where
  number_pos := Nat.pos_of_ne_zero hn
  initNumber := rfl
  peer := by
    intro i hi
    obtain ⟨s, -, a, -, hp⟩ := initPeers_peer checkAdd host servers single hi
    rw [hp]
    exact ⟨Int.natCast_pos.mpr s.weight_pos, rfl, rfl, rfl⟩
  total := by
    have hnum : (initPeers checkAdd host servers single).number
        = (serverPeers checkAdd servers).length := by
      rw [length_serverPeers]
      rfl
    rw [hnum]
    refine Eq.trans ?_ (sum_range_getD (fun p : RrPeer => p.weight) _ {}).symm
    rw [sum_weight_serverPeers]
    rfl

end

/-- The group of an implicitly defined upstream is fresh. -/
theorem implicitPeers_fresh (host : String) {addrs : List (Sockaddr × String)}
    (hne : addrs ≠ []) : FreshPeers (implicitPeers host addrs) := by
  have hpeer : ∀ i < addrs.length,
      ∃ a, (implicitPeers host addrs).peer i = implicitPeer a := by
    intro i hi
    have hlen : i < (addrs.map implicitPeer).length := by simpa using hi
    refine ⟨addrs[i], ?_⟩
    simp only [implicitPeers]
    rw [getD_eq_getElem _ _ hlen, getElem_map]
  refine ⟨length_pos_iff.mpr hne, rfl, ?_, ?_⟩
  · intro i hi
    obtain ⟨a, ha⟩ := hpeer i hi
    rw [ha]
    exact ⟨Int.one_pos, rfl, rfl, rfl⟩
  · have hone : ∑ i ∈ Finset.range addrs.length,
        ((implicitPeers host addrs).peer i).weight
          = ∑ i ∈ Finset.range addrs.length, (1 : ℤ) := by
      refine Finset.sum_congr rfl ?_
      intro i hi
      obtain ⟨a, ha⟩ := hpeer i (Finset.mem_range.mp hi)
      rw [ha]
      rfl
    refine Eq.trans ?_ hone.symm
    simp [implicitPeers]

/-- **A configured upstream is fresh.** -/
theorem upstreamInitRoundRobin_fresh
    {checkAdd : UpstreamServer → Sockaddr × String → ℕ} {conf : UpstreamConf}
    {up : Upstream} (h : upstreamInitRoundRobin checkAdd conf = some up) :
    FreshUpstream up := by
  cases conf with
  | servers host servers =>
    simp only [upstreamInitRoundRobin] at h
    split_ifs at h with hn hb
    · obtain rfl := Option.some.inj h
      refine ⟨initPeers_fresh _ _ _ _ hn, by simp, fun _ => rfl, ?_, rfl⟩
      simp [initPeers]
    · obtain rfl := Option.some.inj h
      refine ⟨initPeers_fresh _ _ _ _ hn, fun _ => initPeers_fresh _ _ _ _ hb, by simp, ?_,
        rfl⟩
      simp [initPeers]
  | implicit host port addrs =>
    simp only [upstreamInitRoundRobin] at h
    split_ifs at h with hport
    match addrs, h with
    | some (a :: as), h =>
      obtain rfl := Option.some.inj h
      refine ⟨implicitPeers_fresh host (by simp), by simp, fun _ => rfl, ?_, rfl⟩
      simp [implicitPeers]

/-! ### Per-request data -/

/-- `ngx_http_upstream_rr_peer_data_t`: the group the request picks from, the peer it
holds, and the `tried` bitmap. -/
structure RrPeerData where
  group : Group := .primary
  current : Option (Group × ℕ) := none
  tried : List Word := []

/-- What the balancers read and write of `ngx_peer_connection_t`. `sockaddr` is set while
the request holds a peer: the caller frees it only then, and resets it to `NULL`. -/
structure PeerConnection where
  sockaddr : Option Sockaddr := none
  name : String := ""
  tries : ℕ := 0
  cached : Bool := false
  connection : Option ℕ := none

/-- The number of bitmap words `ngx_http_upstream_init_round_robin_peer` provides: the
word inside the record while both groups fit it, an allocated array otherwise. -/
def triedWords (up : Upstream) : ℕ :=
  let n := (up.peers .primary).number
  let n := if up.next && decide ((up.peers .backup).number > n)
    then (up.peers .backup).number else n
  if n ≤ 64 then 1 else (n + 63) / 64

/-- `ngx_http_upstream_tries`. -/
def upstreamTries (up : Upstream) : ℕ :=
  (up.peers .primary).tries + if up.next then (up.peers .backup).tries else 0

/-- `ngx_http_upstream_init_round_robin_peer`. -/
def upstreamInitRoundRobinPeer (up : Upstream) : RrPeerData × PeerConnection :=
  ({ group := .primary, current := none, tried := List.replicate (triedWords up) 0#64 },
   { tries := upstreamTries up })

/-- The words a group's bitmap needs, as the fall-over to backup computes them. -/
def groupWords (ps : RrPeers) : ℕ :=
  (ps.number + 63) / 64

/-- **The bitmap is large enough** for every group the request can pick from: the words
cleared at fall-over and the word of every peer index are allocated. -/
theorem groupWords_le_triedWords (up : Upstream) (g : Group)
    (hg : g = .backup → up.next = true) : groupWords (up.peers g) ≤ triedWords up := by
  have hle : (up.peers g).number ≤
      if up.next && decide ((up.peers .backup).number > (up.peers .primary).number)
        then (up.peers .backup).number else (up.peers .primary).number := by
    cases g with
    | primary =>
      split_ifs with h
      · simp only [Bool.and_eq_true, decide_eq_true_eq] at h
        omega
      · exact le_refl _
    | backup =>
      rw [hg rfl]
      split_ifs with h
      · exact le_refl _
      · simpa using h
  simp only [triedWords, groupWords]
  split_ifs at hle ⊢ <;> omega

theorem div_lt_groupWords {ps : RrPeers} {i : ℕ} (hi : i < ps.number) :
    i / 64 < groupWords ps := by
  simp only [groupWords]
  omega

/-! ### Freeing a peer -/

/-- `conns--` on an `ngx_uint_t`. -/
def uintDec (n : ℕ) : ℕ :=
  if n = 0 then 2 ^ 64 - 1 else n - 1

/-- What `ngx_http_upstream_free_round_robin_peer` does to a peer that is not the single
one, apart from the connection count: a failure is counted and takes a share of the
effective weight, a success after a passed check forgives the failures. -/
def RrPeer.settle (peer : RrPeer) (failed : Bool) (now : ℤ) : RrPeer :=
  if failed then
    let peer := { peer with fails := peer.fails + 1, accessed := now, checked := now }
    let peer := if peer.maxFails ≠ 0
      then { peer with
              effectiveWeight := peer.effectiveWeight - peer.weight / (peer.maxFails : ℤ) }
      else peer
    if peer.effectiveWeight < 0 then { peer with effectiveWeight := 0 } else peer
  else
    if peer.accessed < peer.checked then { peer with fails := 0 } else peer

/-- The effective weight of a settled peer: a failure takes a share of the weight, but never
below zero. -/
theorem RrPeer.effectiveWeight_settle (peer : RrPeer) (failed : Bool) (now : ℤ) :
    (peer.settle failed now).effectiveWeight
      = if failed then max 0 (peer.effectiveWeight
          - if peer.maxFails ≠ 0 then peer.weight / (peer.maxFails : ℤ) else 0)
        else peer.effectiveWeight := by
  simp only [RrPeer.settle]
  split_ifs with hf hm hneg hneg hold
  · exact (max_eq_left hneg.le).symm
  · exact (max_eq_right (not_lt.mp hneg)).symm
  · rw [sub_zero]
    exact (max_eq_left hneg.le).symm
  · rw [sub_zero]
    exact (max_eq_right (not_lt.mp hneg)).symm
  · rfl
  · rfl

theorem RrPeer.weight_settle (peer : RrPeer) (failed : Bool) (now : ℤ) :
    (peer.settle failed now).weight = peer.weight := by
  simp only [RrPeer.settle]
  split_ifs <;> rfl

theorem RrPeer.currentWeight_settle (peer : RrPeer) (failed : Bool) (now : ℤ) :
    (peer.settle failed now).currentWeight = peer.currentWeight := by
  simp only [RrPeer.settle]
  split_ifs <;> rfl

theorem RrPeer.conns_settle (peer : RrPeer) (failed : Bool) (now : ℤ) :
    (peer.settle failed now).conns = peer.conns := by
  simp only [RrPeer.settle]
  split_ifs <;> rfl

/-- `ngx_http_upstream_free_round_robin_peer`; `failed` is `state & NGX_PEER_FAILED`. A
request that holds no peer is never freed. -/
def upstreamFreeRoundRobinPeer (up : Upstream) (pc : PeerConnection) (rrp : RrPeerData)
    (failed : Bool) (now : ℤ) : Upstream × PeerConnection :=
  match rrp.current with
  | none => (up, pc)
  | some (g, i) =>
    let peer := (up.peers g).peer i
    if (up.peers rrp.group).single then
      (up.setPeer g i { peer with conns := uintDec peer.conns }, { pc with tries := 0 })
    else
      let peer := peer.settle failed now
      (up.setPeer g i { peer with conns := uintDec peer.conns },
        { pc with tries := pc.tries - 1 })

end Hengine
