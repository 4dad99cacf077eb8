import Hengine.Core.SlabRun
import Hengine.Lib.Memory

/-!
# The Memory of the Records

The model of the addresses in `ngx_http_upstream_check_module.c`. A record of a checked peer has a pointer
to the bytes of the address of the peer, in a block of the slab pool of the zone. A record that is deleted
gives its block back; it may be filled again for another peer, with a new block.

The bytes of the blocks are kept beside the pool, for the allocator never looks at them. The hash of the
text that is sent is an argument, and so is the size of a record. A result is `none` where the process dies
of a null pointer.

## Main definitions

* `CheckShm.initShmZone`: the records of the configuration.
* `CheckShm.addDynamicPeerShm`: a record for a new peer.
* `CheckShm.address`: the address of a record in use.
* `CheckShm.Enough`: the block that is asked for has room for the address.
-/

namespace Hengine

/-- The bytes of the block that a request gets: a chunk, or whole pages. -/
def SlabSizes.chunkRoom (z : SlabSizes) (size : ℕ) : ℕ :=
  if z.maxSize < size then z.pages size * z.pagesize else 2 ^ z.shift size

namespace CheckShm

/-- The part of `ngx_http_upstream_check_peer_shm_t` that finds a record: `sockaddr` is `none` for the null
pointer, and `deleted` says that `delete` is `PEER_DELETED`. -/
structure PeerShm where
  sockaddr : Option ℕ
  socklen : ℕ
  checksum : ℕ
  ref : ℤ
  deleted : Bool
deriving DecidableEq, Repr

/-- `ngx_memzero(&peer_shm[index], sizeof(ngx_http_upstream_check_peer_shm_t))`. -/
def PeerShm.zero : PeerShm := ⟨none, 0, 0, 0, false⟩

/-- The pool of the zone, the bytes of its blocks, and the records. -/
structure PeersShm where
  pool : SlabPool
  mem : Memory Unit UInt8
  peers : List PeerShm
  maxNumber : ℕ

/-- `MAX_DYNAMIC_PEER`. -/
def maxDynamicPeer : ℕ := 4096

variable (z : SlabZone)

/-- A turn of the loop of `ngx_http_upstream_check_init_shm_zone`: the record of a peer of the
configuration. There is no zone where its memory cannot be had. -/
def initPeer (s : PeersShm) (sockaddr : List UInt8) : Option PeersShm :=
  (slabAllocLocked z sockaddr.length s.pool).bind fun
    | (none, _) => none
    | (some p, pool) =>
      some { s with
        pool := pool
        mem := s.mem.write () p sockaddr
        peers := s.peers ++ [{ PeerShm.zero with sockaddr := some p, socklen := sockaddr.length }] }

/-- `ngx_http_upstream_check_init_shm_zone`: the array of the records, which has room for more, and the
addresses of the peers of the configuration. `record` is the size of a record, and four words stand before
the array. -/
def initShmZone (record : ℕ) (words : ℕ → ℕ → Word) (bytes : Memory Unit UInt8)
    (sockaddrs : List (List UInt8)) : Option PeersShm :=
  let number := sockaddrs.length
  (slabAllocLocked z (4 * 8 + (number + maxDynamicPeer) * record) (slabInit z words)).bind fun
    | (none, _) => none
    | (some _, pool) => sockaddrs.foldlM (initPeer z) ⟨pool, bytes, [], number + maxDynamicPeer⟩

/-- The bytes at the pointer of a record. -/
def PeersShm.bytes (s : PeersShm) (p : ℕ) (r : PeerShm) : List UInt8 :=
  s.mem.slice () p (p + r.socklen)

/-- The first loop of `ngx_http_upstream_check_add_dynamic_peer_shm`, from the record `i` on: a record in use
of the same address and the same text. -/
@[grind =]
def sameRecord (s : PeersShm) (sockaddr : List UInt8) (sendHash : ℕ) :
    List PeerShm → ℕ → Option (Option ℕ)
  | [], _ => some none
  | r :: rs, i =>
    if r.deleted then sameRecord s sockaddr sendHash rs (i + 1)
    else if sockaddr.length = r.socklen then
      match r.sockaddr with
      | none => none
      | some p =>
        if sockaddr = s.bytes p r ∧ r.checksum = sendHash then some (some i)
        else sameRecord s sockaddr sendHash rs (i + 1)
    else sameRecord s sockaddr sendHash rs (i + 1)

/-- The record that is filled for a new address: the first deleted one, or a new one. -/
def PeersShm.freeRecord (s : PeersShm) : Option ℕ :=
  match s.peers.findIdx? PeerShm.deleted with
  | some i => some i
  | none => if s.peers.length ≥ s.maxNumber then none else some s.peers.length

/-- The records with another one at `i`, which may be new. -/
def PeersShm.put (s : PeersShm) (i : ℕ) (r : PeerShm) : List PeerShm :=
  if i < s.peers.length then s.peers.set i r else s.peers ++ [r]

/-- The record `i` for a new address. The size that is asked for is `peer_shm->socklen`, which is that of the
first record. `made` is the result of `ngx_http_upstream_check_init_shm_peer`. -/
def PeersShm.fill (s : PeersShm) (i : ℕ) (sockaddr : List UInt8) (sendHash : ℕ) (made : Bool) :
    Option (PeersShm × Option ℕ) :=
  let zeroed := { PeerShm.zero with socklen := sockaddr.length }
  ((s.put i zeroed)[0]?).bind fun first =>
    (slabAllocLocked z first.socklen s.pool).map fun
      | (none, pool) => ({ s with pool := pool, peers := s.put i zeroed }, none)
      | (some p, pool) =>
        let filled := { zeroed with sockaddr := some p, checksum := if made then sendHash else 0 }
        ({ s with
            pool := pool
            mem := s.mem.write () p sockaddr
            peers := s.put i filled }, if made then some i else none)

/-- `ngx_http_upstream_check_add_dynamic_peer_shm`: the records and the index. -/
def PeersShm.addDynamicPeerShm (s : PeersShm) (sockaddr : List UInt8) (sendHash : ℕ) (made : Bool) :
    Option (PeersShm × Option ℕ) :=
  (sameRecord s sockaddr sendHash s.peers 0).bind fun
    | some i => some (s, some i)
    | none =>
      match s.freeRecord with
      | none => some (s, none)
      | some i => s.fill z i sockaddr sendHash made

/-- `ngx_http_upstream_check_delete_dynamic_peer`, as far as it is about the record `i` of the entry that is
deleted. An entry never has a record without a block. -/
def PeersShm.release (s : PeersShm) (i : ℕ) : Option PeersShm :=
  s.peers[i]?.bind fun r =>
    let r := { r with ref := r.ref - 1 }
    if r.ref ≤ 0 ∧ !r.deleted then
      r.sockaddr.bind fun p =>
        (slabFreeLocked z p s.pool).map fun pool =>
          { s with pool := pool, peers := s.peers.set i { r with deleted := true } }
    else some { s with peers := s.peers.set i r }

/-- What the workers do to the records. -/
inductive Event
  /-- `ngx_http_upstream_check_add_dynamic_peer_shm` -/
  | add (sockaddr : List UInt8) (sendHash : ℕ) (made : Bool)
  /-- `ngx_http_upstream_check_add_timer` of an entry counts its record -/
  | attach (i : ℕ)
  /-- `ngx_http_upstream_check_delete_dynamic_peer` of an entry -/
  | release (i : ℕ)

/-- What an event does. -/
def PeersShm.step (s : PeersShm) : Event → Option PeersShm
  | .add sockaddr sendHash made => (s.addDynamicPeerShm z sockaddr sendHash made).map Prod.fst
  | .attach i => some { s with peers := s.peers.modify i fun r => { r with ref := r.ref + 1 } }
  | .release i => s.release z i

/-- The records of a zone, under any sequence of calls of the workers. -/
def machine (record : ℕ) : Machine PeersShm Event :=
  Machine.ofStep (fun s => ∃ words bytes sockaddrs, initShmZone z record words bytes sockaddrs = some s)
    (PeersShm.step z)

/-! ### What is proved -/

/-- The block of a record in use. -/
def PeersShm.block (s : PeersShm) (i : ℕ) : Option ℕ :=
  s.peers[i]?.bind fun r => if r.deleted then none else r.sockaddr

/-- The address of a record in use. -/
def PeersShm.address (s : PeersShm) (i : ℕ) : Option (List UInt8) :=
  s.peers[i]?.bind fun r => if r.deleted then none else r.sockaddr.map fun p => s.bytes p r

/-- The addresses fit in the blocks of their records, which do not meet. -/
structure PeersShm.Fits (s : PeersShm) : Prop where
  fits : ∀ i p a, s.block i = some p → s.address i = some a → a.length ≤ slabRoom z s.pool p
  apart : ∀ i j p q, i ≠ j → s.block i = some p → s.block j = some q →
    Apart p (slabRoom z s.pool p) q (slabRoom z s.pool q)

/-- **Enough is asked for**: the record of a new address is the first one, or the address is not longer than
the block for an address as long as that of the first one. -/
def PeersShm.Enough (s : PeersShm) : Event → Prop
  | .add sockaddr sendHash _ =>
    sameRecord s sockaddr sendHash s.peers 0 = some none → ∀ i, s.freeRecord = some i →
      i = 0 ∨ ∀ first, s.peers[0]? = some first →
        sockaddr.length ≤ z.chunkRoom first.socklen
  | _ => True

end CheckShm

end Hengine
