import Mathlib.Algebra.Order.Ring.Int
import Mathlib.Data.List.Basic

/-!
# Health Checks

The model of the bookkeeping in `ngx_http_upstream_check_module.c`. The state of a checked peer is a
record in shared memory, found by its address. Every worker has an array of its own with an entry for
each peer that it checks; an entry points to its record, and the record counts the entries that point
to it, in all workers. Peers that are added while the workers run get a record that is in use for the
same address, a deleted one, or a new one; and an entry that was deleted, or a new one.

An address is the bytes of its `sockaddr`. The array of entries may move when it is full and grows;
whether it can grow in place is up to the pool. `Luck` is what a call depends on besides: the
allocations, and whether the address of the check can be made. A result is `none` where the process
dies of a null pointer.

## Main definitions

* `PeerShm.statusUpdate`: a result of a check.
* `addDynamicPeer`, `deleteDynamicPeer`: peers come and go.
* `peerDown`, `getPeer`, `freePeer`: what the balancers call, with the index of a peer.
-/

namespace Hengine.Check

/-- The part of `ngx_http_upstream_check_srv_conf_t` that is used here; `sendHash` is the hash of the
text that is sent, and `needPool` belongs to the type of the check. -/
structure Conf where
  checkInterval : ℕ
  riseCount : UInt64
  fallCount : UInt64
  port : ℕ
  defaultDown : Bool
  unique : Bool
  checkType : ℕ
  send : List UInt8
  sendHash : ℕ
  statusAlive : ℕ
  needPool : Bool
deriving DecidableEq, Repr

/-- `ngx_http_upstream_check_peer_shm_t`: `owner` is `none` for `NGX_INVALID_PID`, `sockaddr` is
`none` for the null pointer, and `deleted` says that `delete` is `PEER_DELETED`. -/
structure PeerShm where
  owner : Option ℕ
  accessTime : ℕ
  fallCount : UInt64
  riseCount : UInt64
  busyness : UInt64
  accessCount : UInt64
  checksum : ℕ
  sockaddr : Option (List UInt8)
  socklen : ℕ
  ref : ℤ
  deleted : Bool
  down : Bool
deriving DecidableEq, Repr

/-- `ngx_memzero(peer_shm, sizeof(ngx_http_upstream_check_peer_shm_t))`. -/
def PeerShm.zero : PeerShm := ⟨some 0, 0, 0, 0, 0, 0, 0, none, 0, 0, false, false⟩

/-- `ngx_http_upstream_check_init_shm_peer`. -/
def PeerShm.initShmPeer (p : PeerShm) (opeer : Option PeerShm) (initDown : Bool) : PeerShm :=
  match opeer with
  | some o =>
    { p with
      accessTime := o.accessTime
      accessCount := o.accessCount
      fallCount := o.fallCount
      riseCount := o.riseCount
      busyness := o.busyness
      down := o.down
      owner := none }
  | none =>
    { p with
      accessTime := 0
      accessCount := 0
      fallCount := 0
      riseCount := 0
      busyness := 0
      down := initDown
      owner := none }

/-- `ngx_http_upstream_check_status_update`, under the lock of the record. -/
def PeerShm.statusUpdate (conf : Conf) (now : ℕ) (result : Bool) (p : PeerShm) : PeerShm :=
  if p.deleted then p
  else if result then
    let p := { p with riseCount := p.riseCount + 1, fallCount := 0 }
    let p := if p.down ∧ conf.riseCount ≤ p.riseCount then { p with down := false } else p
    { p with accessTime := now }
  else
    let p := { p with riseCount := 0, fallCount := p.fallCount + 1 }
    let p := if !p.down ∧ conf.fallCount ≤ p.fallCount then { p with down := true } else p
    { p with accessTime := now }

/-- The record part of `ngx_http_upstream_check_get_peer`. -/
def PeerShm.get (p : PeerShm) : PeerShm :=
  { p with busyness := p.busyness + 1, accessCount := p.accessCount + 1 }

/-- The record part of `ngx_http_upstream_check_free_peer`. -/
def PeerShm.free (p : PeerShm) : PeerShm :=
  if 0 < p.busyness then { p with busyness := p.busyness - 1 } else p

/-! ### Entries and records -/

/-- `ngx_addr_t`. -/
structure Addr where
  sockaddr : List UInt8
  name : List UInt8
deriving DecidableEq, Repr

/-- `ngx_http_upstream_check_peer_t`: `shm` is the number of the record that it points to, or `none`
for the null pointer. -/
structure Peer where
  index : ℕ
  upstreamName : List UInt8
  peerAddr : Addr
  conf : Conf
  shm : Option ℕ
  deleted : Bool
deriving DecidableEq, Repr

/-- `ngx_http_upstream_check_peers_shm_t`. -/
structure PeersShm where
  peers : List PeerShm
  maxNumber : ℕ
deriving DecidableEq, Repr

/-- `number`. -/
def PeersShm.number (sh : PeersShm) : ℕ := sh.peers.length

/-- The array `peers` of a worker, with its `nalloc`. -/
structure Worker where
  peers : List Peer
  nalloc : ℕ
deriving DecidableEq, Repr

/-- What a call depends on: the memory of a new record, whether the array can grow and whether it
moves, the address with the port of the checks (there is none for a socket of the file system), and
the pool of a timer, for an entry of the array. -/
structure Luck where
  record : Bool
  push : Bool
  moves : Bool
  port : Bool
  pool : ℕ → Bool

/-! ### Finding a record -/

/-- The first loop of `ngx_http_upstream_check_add_dynamic_peer_shm`, from the record `i` on: a record
in use of the same address and the same text. -/
@[grind =]
def sameRecord (conf : Conf) (addr : Addr) : List PeerShm → ℕ → Option (Option ℕ)
  | [], _ => some none
  | p :: ps, i =>
    if p.deleted then sameRecord conf addr ps (i + 1)
    else if addr.sockaddr.length = p.socklen then
      match p.sockaddr with
      | none => none
      | some sockaddr =>
        if addr.sockaddr = sockaddr ∧ p.checksum = conf.sendHash then some (some i)
        else sameRecord conf addr ps (i + 1)
    else sameRecord conf addr ps (i + 1)

/-- The record `i` for a new address. -/
def PeersShm.initRecord (sh : PeersShm) (i : ℕ) (conf : Conf) (addr : Addr) (luck : Luck) :
    PeersShm × Option ℕ :=
  let zeroed := { PeerShm.zero with socklen := addr.sockaddr.length }
  if luck.record then
    let made := { zeroed with sockaddr := some addr.sockaddr }.initShmPeer none conf.defaultDown
    ({ sh with peers := sh.peers.set i { made with checksum := conf.sendHash } }, some i)
  else ({ sh with peers := sh.peers.set i zeroed }, none)

/-- `ngx_http_upstream_check_add_dynamic_peer_shm`. -/
def PeersShm.addDynamicPeer (sh : PeersShm) (conf : Conf) (addr : Addr) (luck : Luck) :
    Option (PeersShm × Option ℕ) :=
  (sameRecord conf addr sh.peers 0).map fun same =>
    match same with
    | some i => (sh, some i)
    | none =>
      match sh.peers.findIdx? PeerShm.deleted with
      | some i => sh.initRecord i conf addr luck
      | none =>
        if sh.number ≥ sh.maxNumber then (sh, none)
        else
          { sh with peers := sh.peers ++ [PeerShm.zero] }.initRecord sh.number conf addr luck

/-! ### Timers -/

/-- `ngx_http_upstream_check_add_timer`: the record of the entry counts it. -/
def addTimer (pool : Bool) (p : Peer) (sh : PeersShm) : Option PeersShm :=
  if p.conf.needPool ∧ !pool then some sh
  else p.shm.map fun i =>
    { sh with peers := sh.peers.modify i fun r => { r with ref := r.ref + 1 } }

/-- The timers of all entries in use, from the entry `k` on: the array has moved. -/
@[grind =]
def addTimers (pool : ℕ → Bool) : List Peer → ℕ → PeersShm → Option PeersShm
  | [], _, sh => some sh
  | p :: ps, k, sh =>
    if p.deleted then addTimers pool ps (k + 1) sh
    else (addTimer (pool k) p sh).bind (addTimers pool ps (k + 1))

/-! ### Peers come and go -/

/-- The place of the new entry `fresh`, which is not written yet: the first that was deleted, or a new
one; then the array may move. -/
def Worker.place (w : Worker) (fresh : Peer) (luck : Luck) (sh : PeersShm) :
    Option (Worker × PeersShm × Option ℕ) :=
  match w.peers.findIdx? Peer.deleted with
  | some k => some (w, sh, some k)
  | none =>
    if !luck.push then some (w, sh, none)
    else
      let full := w.peers.length = w.nalloc
      let grown : Worker :=
        ⟨w.peers ++ [fresh],
          if full then (if luck.moves then 2 * w.nalloc else w.nalloc + 1) else w.nalloc⟩
      if full ∧ luck.moves then
        (addTimers luck.pool w.peers 0 sh).map fun sh => (grown, sh, some w.peers.length)
      else some (grown, sh, some w.peers.length)

/-- `ngx_http_upstream_check_add_dynamic_peer`: the array, the records and the index. -/
def addDynamicPeer (conf : Conf) (name : List UInt8) (addr : Addr) (luck : Luck) (w : Worker)
    (sh : PeersShm) : Option (Worker × PeersShm × Option ℕ) :=
  if conf.checkInterval = 0 then some (w, sh, none)
  else
    (sh.addDynamicPeer conf addr luck).bind fun (sh, index) =>
      match index with
      | none => some (w, sh, none)
      | some index =>
        let peer : Peer := ⟨index, name, addr, conf, none, false⟩
        (w.place peer luck sh).bind fun (w, sh, place) =>
          match place with
          | none => some (w, sh, none)
          | some k =>
            if conf.port ≠ 0 ∧ !luck.port then
              some ({ w with peers := w.peers.set k peer }, sh, none)
            else
              let peer := { peer with shm := some index }
              (addTimer (luck.pool k) peer sh).map fun sh =>
                ({ w with peers := w.peers.set k peer }, sh, some index)

/-- `ngx_http_upstream_check_clear_peer`; nobody looks at the configuration any more. -/
def Peer.clear (p : Peer) : Peer :=
  { p with index := 0, upstreamName := [], peerAddr := ⟨[], []⟩, shm := none, deleted := true }

/-- The record when an entry of the worker `pid` leaves it. -/
def PeerShm.release (pid : ℕ) (p : PeerShm) : PeerShm :=
  { p with
    owner := if p.owner = some pid then none else p.owner
    ref := p.ref - 1
    deleted := p.deleted || p.ref - 1 ≤ 0 }

/-- `ngx_http_upstream_check_delete_dynamic_peer`. -/
def deleteDynamicPeer (pid : ℕ) (name : List UInt8) (addr : Addr) (w : Worker) (sh : PeersShm) :
    Option (Worker × PeersShm) :=
  match w.peers.findIdx? fun p =>
    !p.deleted && p.upstreamName = name && p.peerAddr.sockaddr = addr.sockaddr with
  | none => some (w, sh)
  | some k =>
    (w.peers[k]?.bind Peer.shm).map fun i =>
      ({ w with peers := w.peers.modify k Peer.clear },
        { sh with peers := sh.peers.modify i (PeerShm.release pid) })

/-! ### The balancers -/

/-- `ngx_http_upstream_check_peer_down`, with `upstream_check_index_invalid`. -/
def peerDown (sh : PeersShm) (index : ℕ) : Bool :=
  if index ≥ sh.number ∨ index ≥ sh.maxNumber then false
  else (sh.peers[index]?.map PeerShm.down).getD false

/-- `ngx_http_upstream_check_get_peer` and `ngx_http_upstream_check_free_peer`: the entry of that
number has its record changed. -/
def onPeer (change : PeerShm → PeerShm) (w : Worker) (sh : PeersShm) (index : ℕ) :
    Option PeersShm :=
  if index ≥ sh.number ∨ index ≥ sh.maxNumber then some sh
  else (w.peers[index]?.bind Peer.shm).map fun i => { sh with peers := sh.peers.modify i change }

/-- `ngx_http_upstream_check_get_peer`. -/
def getPeer : Worker → PeersShm → ℕ → Option PeersShm := onPeer PeerShm.get

/-- `ngx_http_upstream_check_free_peer`. -/
def freePeer : Worker → PeersShm → ℕ → Option PeersShm := onPeer PeerShm.free

/-! ### Before the workers start -/

/-- `ngx_http_upstream_check_unique_peer`. -/
def uniquePeer (peers : List Peer) (addr : Addr) (conf : Conf) : Option ℕ :=
  peers.findIdx? fun p =>
    !p.deleted && p.peerAddr.sockaddr = addr.sockaddr && p.conf.checkType = conf.checkType &&
      p.conf.send = conf.send && p.conf.statusAlive = conf.statusAlive

/-- `ngx_http_upstream_check_add_peer` while the configuration is read. -/
def addPeer (conf : Conf) (name : List UInt8) (addr : Addr) (peers : List Peer) :
    List Peer × Option ℕ :=
  if conf.checkInterval = 0 then (peers, none)
  else
    match if conf.unique then uniquePeer peers addr conf else none with
    | some i => (peers, some i)
    | none => (peers ++ [⟨peers.length, name, addr, conf, none, false⟩], some peers.length)

/-- `ngx_http_upstream_check_find_shm_peer`. -/
def findShmPeer (opeers : List PeerShm) (addr : Addr) : Option PeerShm :=
  opeers.find? fun o => addr.sockaddr.length = o.socklen && o.sockaddr = some addr.sockaddr

/-- The record that `ngx_http_upstream_check_init_shm_zone` makes for a peer, which inherits from one
of the process before if there is one. -/
def Peer.record (p : Peer) (opeer : Option PeerShm) : PeerShm :=
  { PeerShm.zero with
    socklen := p.peerAddr.sockaddr.length
    sockaddr := some p.peerAddr.sockaddr }.initShmPeer opeer p.conf.defaultDown

/-- `MAX_DYNAMIC_PEER`. -/
def maxDynamicPeer : ℕ := 4096

/-- `ngx_http_upstream_check_init_shm_zone`. -/
def initShmZone (opeers : List PeerShm) (peers : List Peer) : PeersShm :=
  ⟨peers.map fun p => p.record (findShmPeer opeers p.peerAddr), peers.length + maxDynamicPeer⟩

/-- `ngx_http_upstream_check_add_timers`: a worker starts, and every entry gets its record. -/
def initProcess (pool : ℕ → Bool) (peers : List Peer) (nalloc : ℕ) (sh : PeersShm) :
    Option (Worker × PeersShm) :=
  let peers := peers.mapIdx fun i p => { p with shm := some i }
  (addTimers pool peers 0 sh).map fun sh => (⟨peers, nalloc⟩, sh)

end Hengine.Check
