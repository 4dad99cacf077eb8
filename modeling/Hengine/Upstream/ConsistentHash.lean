import Hengine.Core.SegmentTreeExact
import Hengine.Lib.Machine
import Hengine.Upstream.Peers
import Hengine.Http.Bytes

/-!
# The Consistent Hash Balancer

The model of `ngx_http_upstream_consistent_hash_module.c`. Each peer has virtual nodes, which are
sorted by their hash; a request goes to the node that follows its own hash. A peer that is down
or has failed too often is taken out with all its nodes: these are deleted from a segment tree
over the nodes and queued, each with a time at which it comes back. A request whose peer is out
asks the tree for the nodes that are left.

The nodes are numbered from 1, as in `ucscf->servers`. `ngx_qsort` leaves open how nodes with one
hash are ordered, so the balancer is made from any sorted order of the nodes. The answers of
`ngx_http_upstream_check_peer_down` come from outside and are given with each request; without
the module for health checks they are always no.
-/

namespace Hengine

open Function

/-! ### Virtual nodes -/

/-- The four bytes of `k`, from the lowest on, as a number. -/
def word32 (a b c d : UInt8) : UInt32 :=
  a.toUInt32 ||| b.toUInt32 <<< 8 ||| c.toUInt32 <<< 16 ||| d.toUInt32 <<< 24

/-- `ngx_murmur_hash2`. -/
def murmurHash2 (data : List UInt8) : UInt32 :=
  let h := go (0 ^^^ UInt32.ofNat data.length) data
  let h := h ^^^ (h >>> 13)
  let h := h * 0x5bd1e995
  h ^^^ (h >>> 15)
where
  /-- The words of four bytes, and the bytes that are left. -/
  go (h : UInt32) : List UInt8 → UInt32
    | a :: b :: c :: d :: data =>
      let k := word32 a b c d * 0x5bd1e995
      let k := (k ^^^ (k >>> 24)) * 0x5bd1e995
      go (h * 0x5bd1e995 ^^^ k) data
    | [a, b, c] => (h ^^^ c.toUInt32 <<< 16 ^^^ b.toUInt32 <<< 8 ^^^ a.toUInt32) * 0x5bd1e995
    | [a, b] => (h ^^^ b.toUInt32 <<< 8 ^^^ a.toUInt32) * 0x5bd1e995
    | [a] => (h ^^^ a.toUInt32) * 0x5bd1e995
    | [] => h

/-- `ngx_atoi` of an identifier; `none` for `NGX_ERROR`. -/
def chashAtoi (line : List UInt8) : Option ℕ :=
  if line = [] then none
  else line.foldlM (fun value ch =>
    if ch < 48 ∨ ch > 57 then none
    else if value * 10 + (ch.toNat - 48) > 2 ^ 63 - 1 then none
    else some (value * 10 + (ch.toNat - 48))) 0

/-- `sid`: the identifier of a peer, or a hash of its name. -/
def chashSid (peer : RrPeer) : ℕ :=
  match chashAtoi (str peer.id) with
  | some sid => if sid > 65535 then (murmurHash2 (str peer.name)).toNat else sid
  | none => (murmurHash2 (str peer.name)).toNat

/-- The number of virtual nodes of a peer: 160 for each unit of weight, and `1 << 14` at most. -/
def chashWeight (peer : RrPeer) : ℕ := min (peer.weight.toNat * 160) (1 <<< 14)

/-- `ngx_http_upstream_chash_server_t`, without what changes. -/
structure VirtualNode where
  hash : UInt32
  rnindex : ℕ
deriving DecidableEq, Repr

/-- The virtual nodes of the peer `i`: the hashes of the low four bytes of `id`. -/
def peerNodes (i : ℕ) (peer : RrPeer) : List VirtualNode :=
  (List.range (chashWeight peer)).map fun j =>
    let id := chashSid peer * 256 * 16 + j
    ⟨murmurHash2 [UInt8.ofNat id, UInt8.ofNat (id >>> 8), UInt8.ofNat (id >>> 16),
      UInt8.ofNat (id >>> 24)], i⟩

/-- All virtual nodes, peer by peer. -/
def virtualNodes (peers : RrPeers) : List VirtualNode :=
  (List.range peers.number).flatMap fun i => peerNodes i (peers.peer i)

/-! ### The balancer -/

/-- `ngx_http_upstream_chash_srv_conf_t` with the peers: `down` and `timeout` of each virtual node,
and the queue `down_servers`. -/
structure ConsistentHash where
  peers : RrPeers
  servers : List VirtualNode
  down : ℕ → Bool
  timeout : ℕ → ℤ
  downServers : List ℕ
  tree : SegTree Unit

namespace ConsistentHash

/-- `ucscf->number`. -/
def number (s : ConsistentHash) : ℕ := s.servers.length

/-- `&ucscf->servers[index]`, if there is such a node with a peer. -/
def server (s : ConsistentHash) (index : ℕ) : Option VirtualNode :=
  if index = 0 then none else s.servers[index - 1]?

/-- `ngx_http_upstream_init_chash`, with the nodes in sorted order. -/
def init (peers : RrPeers) (servers : List VirtualNode) : Option ConsistentHash :=
  (SegTree.build (servers.length + 1) (SegTree.init servers.length) 1 1 servers.length).map
    fun tree =>
      { peers := peers, servers := servers, down := fun _ => false, timeout := fun _ => 0,
        downServers := [], tree := tree }

/-- Write through a peer pointer. -/
def setPeer (s : ConsistentHash) (p : ℕ) (peer : RrPeer) : ConsistentHash :=
  { s with peers := s.peers.setPeer p peer }

/-- The test of a peer that may not be used. -/
def unfit (s : ConsistentHash) (check : ℕ → Bool) (p : ℕ) : Bool :=
  check p || (s.peers.peer p).fails > (s.peers.peer p).maxFails || (s.peers.peer p).down

/-- One node of the queue: when its time has come, it goes back into the tree, and its peer has
not failed and is not down any more. -/
def recoverOne (now : ℤ) (check : ℕ → Bool) (s : ConsistentHash) (id : ℕ) :
    Option ConsistentHash :=
  if now ≥ s.timeout id then do
    let node ← s.server id
    let peer := s.peers.peer node.rnindex
    if check node.rnindex then some s
    else
      let s := s.setPeer node.rnindex { peer with fails := 0, down := false }
      let tree ← s.tree.insert (s.number + 1) 1 1 s.number id ⟨id, none⟩
      some { s with
        down := update s.down id false
        downServers := s.downServers.erase id
        tree := tree }
  else some s

/-- The loop over the queue. A node that is removed is the one the loop is at. -/
def recover (s : ConsistentHash) (now : ℤ) (check : ℕ → Bool) : Option ConsistentHash :=
  s.downServers.foldlM (recoverOne now check) s

/-- `ucscf->real_node[rnindex]`. -/
def realNode (s : ConsistentHash) (rnindex : ℕ) : List ℕ :=
  (List.range' 1 s.number).filter fun i => (s.server i).any fun v => v.rnindex = rnindex

/-- One virtual node is taken out. -/
def deleteOne (now : ℤ) (failTimeout : ℤ) (s : ConsistentHash) (i : ℕ) : Option ConsistentHash :=
  if s.down i then some s
  else do
    let tree ← s.tree.delete (s.number + 1) 1 1 s.number i
    some { s with
      tree := tree
      down := update s.down i true
      timeout := update s.timeout i (now + failTimeout)
      downServers := i :: s.downServers }

/-- `ngx_http_upstream_chash_delete_node`: all virtual nodes of the peer are taken out. -/
def deleteNode (s : ConsistentHash) (now : ℤ) (rnindex : ℕ) : Option ConsistentHash :=
  (s.realNode rnindex).foldlM (deleteOne now (s.peers.peer rnindex).failTimeout) s

/-- The loop of `ngx_http_upstream_chash_get_server_index`. The sum of `low` and `hight` is a
`uint32_t`, so with many nodes the loop may go on for ever: then it runs out of fuel. -/
@[grind =]
def searchIndex (s : ConsistentHash) (hash : UInt32) : ℕ → ℕ → ℕ → Option ℕ
  | 0, _, _ => none
  | fuel + 1, low, hight =>
    if low < hight then
      let mid := ((low + hight) % 2 ^ 32) >>> 1
      let h := (s.server mid).elim 0 VirtualNode.hash
      if h = hash then some mid
      else if h < hash then searchIndex s hash fuel (mid + 1) hight
      else searchIndex s hash fuel low mid
    else some low

/-- `ngx_http_upstream_chash_get_server_index`, whose `n` is a `uint32_t`. A node with the very hash
is returned from within the loop; the test after the loop would let it pass too. -/
def getServerIndex (s : ConsistentHash) (hash : UInt32) : Option ℕ :=
  let n := s.number % 2 ^ 32
  (s.searchIndex hash s.number 1 n).map fun low =>
    if low = n ∧ (s.server low).elim 0 VirtualNode.hash < hash then 1 else low

/-- `diff1` and `diff2`: the distance of two hashes. -/
def hashDiff (a b : UInt32) : ℕ := if a > b then a.toNat - b.toNat else b.toNat - a.toNat

/-- The key of a node as an index of 32 bits. -/
def keyIndex (v : SegNode Unit) : ℕ := (v.key % 2 ^ 32).toNat

/-- Which of the nodes that the tree has found is tried; `none` if there is none. -/
def choose (s : ConsistentHash) (hash : UInt32) (index1 index2 : ℕ) : Option ℕ :=
  if index1 = 0xffffffff then if index2 = 0xffffffff then none else some index2
  else if index2 = 0xffffffff then some index1
  else
    let hash1 := (s.server index1).elim 0 VirtualNode.hash
    let hash2 := (s.server index2).elim 0 VirtualNode.hash
    some (if hashDiff hash1 hash > hashDiff hash2 hash then index2 else index1)

/-- What a request gets: a virtual node, or `NGX_BUSY`. -/
inductive Reply
  | busy
  | node (index : ℕ)
deriving DecidableEq, Repr

/-- The `while` loop: nodes left of `index` and right of it are tried until one is fit. -/
@[grind =]
def search (now : ℤ) (hash : UInt32) (check : ℕ → Bool) :
    ℕ → ConsistentHash → ℕ → Option (ConsistentHash × Reply)
  | 0, _, _ => none
  | fuel + 1, s, index => do
    let one ← s.tree.query (s.number + 1) 1 1 s.number 1 (index - 1)
    let two ← s.tree.query (s.number + 1) 1 1 s.number (index + 1) s.number
    match s.choose hash (keyIndex one) (keyIndex two) with
    | none => some (s, .busy)
    | some index1 =>
      let node ← s.server index1
      if s.unfit check node.rnindex then
        let s ← s.deleteNode now node.rnindex
        search now hash check fuel s index1
      else if s.down index1 then some (s, .busy)
      else some (s, .node index1)

/-- `ngx_http_upstream_get_chash_peer`. -/
def getPeer (s : ConsistentHash) (now : ℤ) (hash : UInt32) (check : ℕ → Bool) :
    Option (ConsistentHash × Reply) := do
  let s ← s.recover now check
  let index ← s.getServerIndex hash
  let node ← s.server index
  if s.unfit check node.rnindex then
    let s ← s.deleteNode now node.rnindex
    search now hash check (s.number + 1) s index
  else if s.down index then some (s, .busy)
  else some (s, .node index)

/-- `ngx_http_upstream_free_chash_peer` after a failure, for the node of the request. -/
def freePeer (s : ConsistentHash) (index : ℕ) : Option ConsistentHash := do
  let node ← s.server index
  let peer := s.peers.peer node.rnindex
  some (s.setPeer node.rnindex { peer with fails := peer.fails + 1 })

end ConsistentHash

/-! ### Runs -/

/-- A request with its time, its hash, the health of the peers and what it gets; or the failure
of a request that has got some node, with its time, which the code does not look at. -/
inductive ChashEvent
  | request (now : ℤ) (hash : UInt32) (check : ℕ → Bool) (reply : ConsistentHash.Reply)
  | failure (now : ℤ) (index : ℕ)

/-- What an event does. -/
def ConsistentHash.step (s : ConsistentHash) : ChashEvent → ConsistentHash → Prop
  | .request now hash check reply, s' => s.getPeer now hash check = some (s', reply)
  | .failure _ index, s' => s.freePeer index = some s'

/-- The balancer over some peers as they are configured. -/
def chashMachine (conf : RrPeers) : Machine ConsistentHash ChashEvent where
  init s := ∃ servers : List VirtualNode, servers.Perm (virtualNodes conf) ∧
    servers.Pairwise (fun a b => a.hash ≤ b.hash) ∧ ConsistentHash.init conf servers = some s
  step s e s' := s.step e s'

end Hengine
