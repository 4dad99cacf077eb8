import Hengine.Core.RbTreeOrder
import Mathlib.Data.Int.Init
import Mathlib.Algebra.Group.Nat.Defs

/-!
# The local block cache of the TFS module

The model of `ngx_http_tfs_local_block_cache.c`. The cache is in shared memory: a red-black tree, ordered by
the hash of a key and then by the key, and a queue of the same nodes, the last used one first. When no
memory is left, an insertion discards nodes from the end of the queue and asks for memory once more.

The hash is a parameter, so that keys may collide in any way. A node is the address of its chunk. Which chunk
the slab pool gives, and what stands in it, is part of the event.
-/

namespace Hengine.Tfs

open RbTree Function

/-! ### Keys -/

/-- `ngx_http_tfs_block_cache_key_t`. -/
structure BlockKey where
  nsAddr : UInt64
  blockId : UInt32
deriving DecidableEq

/-- `ngx_http_tfs_block_cache_cmp`. -/
def blockCacheCmp (left right : BlockKey) : ℤ :=
  if left.nsAddr = right.nsAddr then
    if left.blockId = right.blockId then 0
    else if left.blockId < right.blockId then -1
    else 1
  else if left.nsAddr < right.nsAddr then -1
  else 1

/-! ### The cache -/

/-- The cache: the tree with the hash of each node as its key, the other fields of the nodes, and the queue,
its head first. -/
structure BlockCache where
  tree : RbTree
  key : ℕ → BlockKey
  count : ℕ → ℕ
  data : ℕ → ℕ → UInt64
  queue : List ℕ

namespace BlockCache

/-- Turns that are enough for every loop over the tree. -/
def fuel (c : BlockCache) : ℕ := c.queue.length + 2

/-- `ngx_http_tfs_local_block_cache_rbtree_insert_value`: the side of `temp` on which `node` goes. -/
def nodeSide (c : BlockCache) (node temp : ℕ) : Bool :=
  if c.tree.key node < c.tree.key temp then false
  else if c.tree.key temp < c.tree.key node then true
  else if blockCacheCmp (c.key node) (c.key temp) < 0 then false else true

/-- The list of data servers of a node: `count` words from its `data` on. -/
def words (c : BlockCache) (x : ℕ) : List UInt64 := (List.range (c.count x)).map (c.data x)

/-- What a lookup returns. -/
inductive Reply
  | ok (value : List UInt64)
  | declined
  | error
deriving DecidableEq

variable (hash : BlockKey → UInt32)

/-- The side of a node on which the loop of a lookup goes on, or `none` where it has found the key. -/
def keySide (c : BlockCache) (key : BlockKey) (x : ℕ) : Option Bool :=
  if (hash key).toNat < c.tree.key x then some false
  else if c.tree.key x < (hash key).toNat then some true
  else if blockCacheCmp key (c.key x) = 0 then none
  else if blockCacheCmp key (c.key x) < 0 then some false
  else some true

/-- `ngx_http_tfs_local_block_cache_lookup`; `memory` tells whether the request's pool has memory for the
answer. -/
def lookup (c : BlockCache) (key : BlockKey) (memory : Bool) : Option (BlockCache × Reply) := do
  match ← search (c.keySide hash key) c.tree c.fuel c.tree.root with
  | none => some (c, .declined)
  | some x =>
    if memory then some ({ c with queue := x :: c.queue.erase x }, .ok (c.words x))
    else some (c, .error)

/-! ### Discarding -/

/-- `NGX_HTTP_TFS_BLOCK_CACHE_DISCARD_ITEM_COUNT`. -/
def discardItemCount : ℕ := 10000

/-- The loop of `ngx_http_tfs_local_block_cache_discard` over the queue, its end first. -/
@[grind =]
def discardLoop (fuel : ℕ) : ℕ → RbTree → List ℕ → Option (RbTree × List ℕ)
  | 0, t, q => some (t, q)
  | _ + 1, t, [] => some (t, [])
  | i + 1, t, x :: q => do
    let t ← t.delete fuel x
    discardLoop fuel i t q

/-- `ngx_http_tfs_local_block_cache_discard`. -/
def discard (c : BlockCache) : Option BlockCache := do
  let p ← discardLoop c.fuel discardItemCount c.tree c.queue.reverse
  some { c with tree := p.1, queue := p.2.reverse }

/-! ### Inserting -/

/-- The fields of a new node. The byte `len` takes the list only modulo 32 words, and `count` its length
modulo 65536; the words behind are those that the chunk had. -/
def store (c : BlockCache) (node : ℕ) (key : BlockKey) (value : List UInt64) (chunk : ℕ → UInt64) :
    BlockCache :=
  { c with
    tree := { c.tree with key := update c.tree.key node (hash key).toNat }
    key := update c.key node key
    count := update c.count node (value.length % 65536)
    data := update c.data node fun j =>
      if j < value.length % 256 * 8 % 256 / 8 then value.getD j 0 else chunk j }

/-- The new node goes into the tree and to the head of the queue. -/
def insertNode (c : BlockCache) (node : ℕ) : Option BlockCache := do
  let t ← insertBy c.nodeSide c.fuel c.tree node
  some { c with tree := t, queue := node :: c.queue }

/-- Nodes are discarded where the first try at the memory failed. -/
def makeRoom (c : BlockCache) (first : Option ℕ) : Option BlockCache :=
  if first.isSome then some c else c.discard

/-- `ngx_http_tfs_local_block_cache_insert`: `first` and `second` are what the two tries at the memory give.
The result is `NGX_ERROR` where both fail. -/
def insert (c : BlockCache) (key : BlockKey) (value : List UInt64) (first second : Option ℕ)
    (chunk : ℕ → UInt64) : Option BlockCache := do
  let c ← c.makeRoom first
  match first.or second with
  | none => some c
  | some node => (c.store hash node key value chunk).insertNode node

/-! ### Removing -/

/-- The inner loop of `ngx_http_tfs_local_block_cache_remove`, from a node with the hash of the key on: it
ends before a node with another hash. -/
@[grind =]
def removeRun (c : BlockCache) (key : BlockKey) : ℕ → ℕ → Option (Option ℕ)
  | 0, _ => none
  | fuel + 1, x =>
    if blockCacheCmp key (c.key x) = 0 then some (some x)
    else
      let y := c.tree.child (!decide (blockCacheCmp key (c.key x) < 0)) x
      if y ≠ c.tree.sentinel ∧ (hash key).toNat = c.tree.key y then removeRun c key fuel y
      else some none

/-- The outer loop of `ngx_http_tfs_local_block_cache_remove`: the node to be removed. -/
@[grind =]
def removeWalk (c : BlockCache) (key : BlockKey) : ℕ → ℕ → Option (Option ℕ)
  | 0, _ => none
  | fuel + 1, x =>
    if x = c.tree.sentinel then some none
    else if (hash key).toNat < c.tree.key x then removeWalk c key fuel (c.tree.child false x)
    else if c.tree.key x < (hash key).toNat then removeWalk c key fuel (c.tree.child true x)
    else c.removeRun hash key (fuel + 1) x

/-- `ngx_http_tfs_local_block_cache_remove`. -/
def remove (c : BlockCache) (key : BlockKey) : Option BlockCache := do
  match ← c.removeWalk hash key c.fuel c.tree.root with
  | none => some c
  | some x => do
    let t ← c.tree.delete c.fuel x
    some { c with tree := t, queue := c.queue.erase x }

end BlockCache

/-! ### Runs -/

/-- An operation on the cache, with what the allocators do in it. -/
inductive CacheEvent
  | insert (key : BlockKey) (value : List UInt64) (first second : Option ℕ) (chunk : ℕ → UInt64)
  | lookup (key : BlockKey) (memory : Bool)
  | remove (key : BlockKey)
  | discard

/-- The cache after an operation. -/
def BlockCache.step (hash : BlockKey → UInt32) (c : BlockCache) : CacheEvent → Option BlockCache
  | .insert key value first second chunk => c.insert hash key value first second chunk
  | .lookup key memory => (c.lookup hash key memory).map Prod.fst
  | .remove key => c.remove hash key
  | .discard => c.discard

/-- A list has at most `2^32 - 1` data servers, and a chunk that the pool gives is in no use. -/
def CacheEvent.Possible (c : BlockCache) : CacheEvent → Prop
  | insert _ value first second _ => value.length < 2 ^ 32 ∧
      ∀ c' ∈ c.makeRoom first, ∀ node ∈ first.or second,
        node ∉ c'.queue ∧ node ≠ c.tree.sentinel
  | _ => True

/-- The cache under any sequence of operations, from `ngx_http_tfs_local_block_cache_init_zone` on. -/
def blockCacheMachine (hash : BlockKey → UInt32) : Machine BlockCache CacheEvent where
  init c := c.queue = [] ∧ ∃ sentinel t, c.tree = RbTree.init sentinel t
  step c e c' := e.Possible c ∧ c.step hash e = some c'

/-- What an operation does to the map that the cache should be. -/
def CacheEvent.record (m : BlockKey → Option (List UInt64)) :
    CacheEvent → BlockKey → Option (List UInt64)
  | insert key value first second _ =>
    if (first.or second).isSome then update m key (some value) else m
  | remove key => update m key none
  | _ => m

/-- The value of the last insert of a key that no remove of the key followed. An insert without memory is
none. -/
def lastInsert (es : List CacheEvent) : BlockKey → Option (List UInt64) :=
  es.foldl CacheEvent.record fun _ => none

/-! ### When the cache is right -/

/-- The nodes on the way of a lookup. -/
@[grind =]
def BlockCache.trail (hash : BlockKey → UInt32) (c : BlockCache) (key : BlockKey) : ℕ → ℕ → List ℕ
  | 0, _ => []
  | fuel + 1, x =>
    if x = c.tree.sentinel then []
    else
      match c.keySide hash key x with
      | none => [x]
      | some d => x :: trail hash c key fuel (c.tree.child d x)

/-- On the way to the node of a key, only nodes with the hash of the key follow the first one with it. -/
def BlockCache.Joined (hash : BlockKey → UInt32) (c : BlockCache) (key : BlockKey) : Prop :=
  ∀ x ∈ (c.trail hash key c.fuel c.tree.root).dropWhile fun x => c.tree.key x ≠ (hash key).toNat,
    c.tree.key x = (hash key).toNat

/-- A key is inserted when it is not in the cache, with at most 31 data servers; and a key is removed when
it is not in the cache, or no node with another hash stands between the nodes with its hash above it. -/
def CacheEvent.Safe (hash : BlockKey → UInt32) (c : BlockCache) : CacheEvent → Prop
  | insert key value first second _ => (first.or second).isSome →
      value.length < 32 ∧ ∀ c' ∈ c.makeRoom first, ∀ x ∈ c'.queue, c'.key x ≠ key
  | remove key => (∃ x ∈ c.queue, c.key x = key) → c.Joined hash key
  | _ => True

instance (c : BlockCache) : (e : CacheEvent) → Decidable (e.Possible c)
  | .insert .. => inferInstanceAs (Decidable (_ ∧ _))
  | .lookup .. | .remove _ | .discard => inferInstanceAs (Decidable True)

instance (hash : BlockKey → UInt32) (c : BlockCache) (key : BlockKey) :
    Decidable (c.Joined hash key) :=
  inferInstanceAs (Decidable (∀ _ ∈ _, _))

instance (hash : BlockKey → UInt32) (c : BlockCache) : (e : CacheEvent) → Decidable (e.Safe hash c)
  | .insert .. => inferInstanceAs (Decidable (_ → _))
  | .remove _ => inferInstanceAs (Decidable (_ → _))
  | .lookup .. | .discard => inferInstanceAs (Decidable True)

end Hengine.Tfs
