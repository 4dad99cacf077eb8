import Hengine.Lib.Holders
import Hengine.Lib.Machine
import Mathlib.Algebra.Order.Ring.Int

/-!
# The File Cache

`ngx_http_file_cache.c`: the index of the cache in shared memory, and what the workers,
the loader and the manager do with it. The index is a red-black tree of nodes, one for
each key, and a queue of the same nodes in the order of their use; the tree is kept here
as the list of the nodes that are in it. A node lives in the memory of the zone, so a
process that holds a pointer to it goes on using whatever stands there; addresses that
were freed are given out again. The sixteen bytes of a key are taken as one number.

A step of the model is what one process does between taking the lock of the zone and
releasing it. Two operations release it in the middle: `ngx_http_file_cache_exists`, when
there is no memory for a node, and `ngx_http_file_cache_delete`, around the removal of the
file. Such a process stays in a `CachePhase` that says where it goes on, and others may
act before it does.

What the upstream module does between the operations is not decided here: a request that
holds a node may do any of them next, and the clock may show anything. `sh->cold` is read
before the lock is taken, so a file may be found by a reader at any time.

`cacheMachine` is the cache as a machine, over which the results about it are stated.
-/

namespace Hengine

open Function Option

/-! ### Nodes and requests -/

/-- The return codes of the operations. -/
inductive CacheCode
  | ok | error | again | declined | updating | stale
deriving Repr, DecidableEq

/-- `ngx_http_file_cache_node_t`; `fileExists` is its `exists`. -/
structure FileCacheNode where
  key : ℕ
  count : ℕ := 0
  uses : ℕ := 0
  validMsec : ℕ := 0
  error : ℕ := 0
  fileExists : Bool := false
  updating : Bool := false
  deleting : Bool := false
  uniq : ℕ := 0
  expire : ℕ := 0
  validSec : ℕ := 0
  bodyStart : ℕ := 0
  fsSize : ℕ := 0
  lockTime : ℕ := 0
deriving Repr, DecidableEq

/-- `ngx_http_cache_t`, the part of a request's context that the operations use. -/
structure CacheCtx where
  key : ℕ
  main : ℕ
  variant : ℕ := 0
  uniq : ℕ := 0
  validSec : ℕ := 0
  validMsec : ℕ := 0
  error : ℕ := 0
  minUses : ℕ := 1
  bufferSize : ℕ := 0
  bodyStart : ℕ := 0
  fsSize : ℕ := 0
  node : Option ℕ := none
  lockAge : ℕ := 0
  lockTime : ℕ := 0
  updated : Bool := false
  updating : Bool := false
  fileExists : Bool := false
  secondary : Bool := false
  updateVariant : Bool := false
deriving Repr, DecidableEq

/-- `count` is a field of twenty bits. -/
def countLimit : ℕ := 2 ^ 20

/-- `fcn->count++`. -/
def incCount (count : ℕ) : ℕ := if count + 1 = countLimit then 0 else count + 1

/-- `fcn->count--`. -/
def decCount (count : ℕ) : ℕ := if count = 0 then countLimit - 1 else count - 1

/-- `fcn->uses++`, in a field of ten bits. -/
def incUses (uses : ℕ) : ℕ := (uses + 1) % 2 ^ 10

namespace FileCacheNode

/-- A request comes to hold the node. -/
def enter (n : FileCacheNode) : FileCacheNode :=
  { n with uses := incUses n.uses, count := incCount n.count }

/-- `renew:`, where an entry starts again from nothing. -/
def renew (n : FileCacheNode) : FileCacheNode :=
  { n with
    validMsec := 0
    error := 0
    fileExists := false
    validSec := 0
    uniq := 0
    bodyStart := 0
    fsSize := 0 }

/-- The node of a key that was not there. -/
def fresh (key : ℕ) : FileCacheNode := { key := key, uses := 1, count := 1 }

/-- The node under the lock of `ngx_http_file_cache_reopen`. -/
def leave (n : FileCacheNode) : FileCacheNode := { n with count := decCount n.count }

/-- The node under the lock of `ngx_http_file_cache_update_variant`. -/
def leaveVariant (n : FileCacheNode) : FileCacheNode :=
  { n with count := decCount n.count, updating := false }

/-- The node under the lock of `ngx_http_file_cache_update`. `file` is what `ngx_fd_info`
said of the file that was renamed, its `uniq` and its `fs_size`; it is `none` when one of
the two failed. -/
def update (c : CacheCtx) (file : Option (ℕ × ℕ)) (n : FileCacheNode) : FileCacheNode :=
  { n with
    count := decCount n.count
    error := 0
    uniq := (file.map Prod.fst).getD 0
    bodyStart := c.bodyStart
    fsSize := (file.map Prod.snd).getD 0
    fileExists := file.isSome || n.fileExists
    updating := false }

/-- The node under the lock of `ngx_http_file_cache_free`, before it may be removed. The
flag is cleared by the request whose lock it is. -/
def release (c : CacheCtx) (n : FileCacheNode) : FileCacheNode :=
  let n := { n with
    count := decCount n.count
    updating := if c.updating && n.lockTime == c.lockTime then false else n.updating }
  if c.error ≠ 0 then
    if c.validSec ≠ 0 then
      { n with error := c.error, validSec := c.validSec, validMsec := c.validMsec }
    else { n with error := c.error }
  else n

/-- The node that `ngx_http_file_cache_read` found not to exist, after the file was read. -/
def coldRead (c : CacheCtx) (n : FileCacheNode) : FileCacheNode :=
  { n with
    uses := 1
    bodyStart := c.bodyStart
    fileExists := true
    uniq := c.uniq
    fsSize := c.fsSize }

end FileCacheNode

/-- The lock of `ngx_http_file_cache_read` on a stale entry. -/
def readStale (c : CacheCtx) (n : FileCacheNode) : CacheCode × CacheCtx × FileCacheNode :=
  if n.updating then (.updating, c, n)
  else (.stale, { c with updating := true, lockTime := n.lockTime }, { n with updating := true })

/-- `ngx_http_file_cache_lock`, when `c->lock` is set and `ngx_current_msec` is `now`. -/
def fileCacheLock (now : ℕ) (c : CacheCtx) (n : FileCacheNode) : CacheCtx × FileCacheNode :=
  if !n.updating || decide (n.lockTime ≤ now) then
    ({ c with updating := true, lockTime := now + c.lockAge },
      { n with updating := true, lockTime := now + c.lockAge })
  else (c, n)

/-! ### The index -/

/-- The zone: `ngx_http_file_cache_sh_t`, with the memory its nodes stand in. -/
structure FileCacheSh where
  nodes : ℕ → FileCacheNode
  tree : List ℕ
  queue : List ℕ
  count : ℕ
  size : ℤ
  watermark : ℕ

namespace FileCacheSh

/-- A node is written to. -/
def modify (sh : FileCacheSh) (i : ℕ) (f : FileCacheNode → FileCacheNode) : FileCacheSh :=
  { sh with nodes := update sh.nodes i (f (sh.nodes i)) }

/-- `ngx_http_file_cache_lookup`. -/
def lookup (sh : FileCacheSh) (key : ℕ) : Option ℕ :=
  sh.tree.find? fun i => (sh.nodes i).key = key

/-- The node is moved to the head of the queue and expires at `expire`. -/
def requeue (sh : FileCacheSh) (i expire : ℕ) : FileCacheSh :=
  { sh.modify i fun n => { n with expire := expire } with queue := i :: sh.queue.erase i }

/-- A new node, at the address `i`, in the tree and in the queue. -/
def insert (sh : FileCacheSh) (i : ℕ) (n : FileCacheNode) : FileCacheSh :=
  { sh with
    nodes := update sh.nodes i n
    tree := i :: sh.tree
    queue := i :: sh.queue
    count := sh.count + 1 }

/-- The node is taken out and its memory freed. -/
def remove (sh : FileCacheSh) (i : ℕ) : FileCacheSh :=
  { sh with tree := sh.tree.erase i, queue := sh.queue.erase i, count := sh.count - 1 }

/-- `ngx_http_file_cache_set_watermark`. -/
def setWatermark (sh : FileCacheSh) : FileCacheSh :=
  { sh with watermark := sh.count - sh.count / 8 }

end FileCacheSh

/-! ### Looking up and taking a node -/

/-- `done:` of `ngx_http_file_cache_exists`. -/
def existsDone (i expire : ℕ) (sh : FileCacheSh) (c : CacheCtx) : FileCacheSh × CacheCtx :=
  (sh.requeue i expire,
    { c with uniq := (sh.nodes i).uniq, error := (sh.nodes i).error, node := some i })

/-- The node a request gets: new for the request, or the one it has already. -/
def existsEnter (c : CacheCtx) (n : FileCacheNode) : FileCacheNode :=
  if c.node = none then n.enter else n

/-- `ngx_http_file_cache_exists` for a node `i` that it found; `now` is `ngx_time()`. -/
def existsFound (now inactive i : ℕ) (sh : FileCacheSh) (c : CacheCtx) :
    CacheCode × FileCacheSh × CacheCtx :=
  let n := existsEnter c (sh.nodes i)
  let sh := sh.modify i (existsEnter c)
  if n.error ≠ 0 then
    if n.validSec < now then (.declined, existsDone i (now + inactive) (sh.modify i .renew) c)
    else (.ok, existsDone i (now + inactive) sh c)
  else if n.fileExists || decide (n.uses ≥ c.minUses) then
    (.ok, existsDone i (now + inactive) sh
      { c with
        fileExists := n.fileExists
        bodyStart := if n.bodyStart ≠ 0 && !c.updateVariant then n.bodyStart else c.bodyStart })
  else (.again, existsDone i (now + inactive) sh c)

/-- `ngx_http_file_cache_exists` for memory at `i` that it was given for a node. -/
def existsNew (now inactive i : ℕ) (sh : FileCacheSh) (c : CacheCtx) : FileCacheSh × CacheCtx :=
  (sh.insert i { FileCacheNode.fresh c.key with expire := now + inactive },
    { c with uniq := 0, error := 0, node := some i })

/-- `ngx_http_file_cache_add`. -/
def fileCacheAdd (now inactive : ℕ) (key : ℕ) (fsSize : ℕ) (alloc : Option ℕ)
    (sh : FileCacheSh) : FileCacheSh :=
  match sh.lookup key, alloc with
  | some i, _ => sh.requeue i (now + inactive)
  | none, none => sh.setWatermark
  | none, some i =>
    { sh.insert i
        { key := key, uses := 1, fileExists := true, fsSize := fsSize, expire := now + inactive }
      with size := sh.size + fsSize }

/-! ### Deleting -/

/-- The end of `ngx_http_file_cache_delete`. -/
def deleteUnheld (sh : FileCacheSh) (i : ℕ) : FileCacheSh :=
  if (sh.nodes i).count = 0 then sh.remove i else sh

/-- `ngx_http_file_cache_delete` up to the removal of a file. -/
def deleteStart (sh : FileCacheSh) (i : ℕ) : FileCacheSh :=
  { sh.modify i fun n => { n with count := incCount n.count, deleting := true } with
    size := sh.size - (sh.nodes i).fsSize }

/-- `ngx_http_file_cache_delete` after the removal of the file. -/
def deleteFinish (sh : FileCacheSh) (i : ℕ) : FileCacheSh :=
  deleteUnheld (sh.modify i fun n => { n with count := decCount n.count, deleting := false }) i

/-- The loop of `ngx_http_file_cache_forced_expire`, with the tries that are left and the
sentinel: the index, the time to wait, and the node that is deleted. -/
@[grind =]
def forcedExpireLoop (expire : ℕ) :
    ℕ → Option ℕ → FileCacheSh → FileCacheSh × ℕ × Option ℕ
  | 0, _, sh => (sh, 1, none)
  | tries + 1, sentinel, sh =>
    match sh.queue.getLast? with
    | none => (sh, 10, none)
    | some i =>
      if sentinel = some i then (sh, 10, none)
      else if (sh.nodes i).count = 0 then (sh, 0, some i)
      else forcedExpireLoop expire tries (some (sentinel.getD i)) (sh.requeue i expire)

/-- The loop of `ngx_http_file_cache_expire`, which began at the time `now`: the limits of
the manager on files and time end it after `files` nodes. It ends with the node whose file
is to be removed, and the number of nodes it may still look at. -/
@[grind =]
def expireLoop (now expire : ℕ) : ℕ → FileCacheSh → FileCacheSh × Option (ℕ × ℕ)
  | 0, sh => (sh, none)
  | files + 1, sh =>
    match sh.queue.getLast? with
    | none => (sh, none)
    | some i =>
      if (sh.nodes i).expire > now then (sh, none)
      else if (sh.nodes i).count = 0 then
        if (sh.nodes i).fileExists then (sh, some (i, files))
        else expireLoop now expire files (deleteUnheld sh i)
      else if (sh.nodes i).deleting then (sh, none)
      else expireLoop now expire files (sh.requeue i expire)

/-! ### Processes -/

/-- Where a process goes on when it has removed a file: in `ngx_http_file_cache_exists`, in
the manager's loop, or in `ngx_http_file_cache_expire`. -/
inductive AfterDelete
  | retry
  | manager
  | expire (now files : ℕ)
deriving Repr, DecidableEq

/-- Where a process is while it does not have the lock. -/
inductive CachePhase
  | idle
  /-- `ngx_http_file_cache_exists` had no memory and calls
  `ngx_http_file_cache_forced_expire`. -/
  | expiring
  /-- `ngx_http_file_cache_delete` removes the file of the node. -/
  | removing (i : ℕ) (after : AfterDelete)
  /-- `ngx_http_file_cache_exists` tries again to get memory. -/
  | retrying
deriving Repr, DecidableEq

/-- A request, or the manager, which is an actor that never asks for a node. -/
structure CacheActor where
  ctx : CacheCtx
  phase : CachePhase := .idle
  rc : CacheCode := .ok
deriving Repr, DecidableEq

/-- The node an actor holds: the one it is deleting, or that of a request which has not
finished. -/
def CacheActor.held (x : CacheActor) : Option ℕ :=
  match x.phase with
  | .removing i _ => some i
  | _ => if x.ctx.updated then none else x.ctx.node

/-- What an actor does under one lock. The memory that the allocator gives is a part of the
operation, and so is what the file system said of a file. -/
inductive CacheOp
  | lookup (alloc : Option ℕ)
  | retry (alloc : Option ℕ)
  | forcedExpire
  | expire (files : ℕ)
  | finishDelete
  | coldRead (uniq fsSize bodyStart : ℕ)
  | readStale
  | lock
  | respond (error validSec validMsec bodyStart : ℕ)
  | reopen (variant : ℕ)
  | updateVariant (variant : Option (ℕ))
  | update (file : Option (ℕ × ℕ))
  | free
deriving Repr, DecidableEq

/-- What the processes see of the clock: `ngx_time()` and `ngx_current_msec`. -/
structure CacheClock where
  time : ℕ
  msec : ℕ
deriving Repr, DecidableEq

/-- The allocator gives memory that is not in use. -/
def allocFree (sh : FileCacheSh) (alloc : Option ℕ) : Bool :=
  match alloc with
  | none => true
  | some i => decide (i ∉ sh.tree)

/-- `ngx_http_file_cache_exists`, up to where it releases the lock. -/
def fileCacheExists (now inactive : ℕ) (alloc : Option ℕ) (sh : FileCacheSh) (x : CacheActor) :
    FileCacheSh × CacheActor :=
  match x.ctx.node.or (sh.lookup x.ctx.key), alloc with
  | some i, _ =>
    let r := existsFound now inactive i sh x.ctx
    (r.2.1, { x with ctx := r.2.2, rc := r.1 })
  | none, some i =>
    let r := existsNew now inactive i sh x.ctx
    (r.1, { x with ctx := r.2, rc := .declined })
  | none, none => (sh.setWatermark, { x with phase := .expiring })

/-- `ngx_http_file_cache_exists`, from where it takes the lock again: it does not look the
key up a second time. -/
def existsRetry (now inactive : ℕ) (alloc : Option ℕ) (sh : FileCacheSh) (x : CacheActor) :
    FileCacheSh × CacheActor :=
  match alloc with
  | some i =>
    let r := existsNew now inactive i sh x.ctx
    (r.1, { x with ctx := r.2, rc := .declined, phase := .idle })
  | none => (sh, { x with rc := .error, phase := .idle })

/-- The phase behind a deletion. -/
def AfterDelete.phase : AfterDelete → CachePhase
  | .retry => .retrying
  | .manager | .expire .. => .idle

/-- `ngx_http_file_cache_delete`, called for a node that nobody holds: the file of the node
is removed without the lock. -/
def fileCacheDelete (sh : FileCacheSh) (i : ℕ) (after : AfterDelete) : FileCacheSh × CachePhase :=
  if (sh.nodes i).fileExists then (deleteStart sh i, .removing i after)
  else (deleteUnheld sh i, after.phase)

/-- `ngx_http_file_cache_forced_expire`, called by the manager or from `exists`. -/
def fileCacheForcedExpire (expire : ℕ) (after : AfterDelete) (sh : FileCacheSh) :
    FileCacheSh × CachePhase :=
  let r := forcedExpireLoop expire 20 none sh
  match r.2.2 with
  | none => (r.1, after.phase)
  | some i => fileCacheDelete r.1 i after

/-- `ngx_http_file_cache_expire`, from the start or from behind a deletion. -/
def fileCacheExpire (now expire files : ℕ) (sh : FileCacheSh) : FileCacheSh × CachePhase :=
  let r := expireLoop now expire files sh
  match r.2 with
  | none => (r.1, .idle)
  | some (i, files) => fileCacheDelete r.1 i (.expire now files)

/-- Going on behind the removal of a file. -/
def afterDelete (expire : ℕ) (after : AfterDelete) (sh : FileCacheSh) : FileCacheSh × CachePhase :=
  match after with
  | .retry | .manager => (sh, after.phase)
  | .expire now files => fileCacheExpire now expire files sh

/-- `ngx_http_file_cache_free`, for a node `i` that the request holds. -/
def fileCacheFree (i : ℕ) (sh : FileCacheSh) (c : CacheCtx) : FileCacheSh × CacheCtx :=
  let n := (sh.nodes i).release c
  let sh := sh.modify i (.release c)
  let c' := { c with updated := true, updating := false }
  if c.error = 0 && !n.fileExists && n.count == 0 && c.minUses == 1 then
    (sh.remove i, { c' with node := none })
  else (sh, c')

/-- `ngx_http_file_cache_update`, for a node `i` that the request holds. -/
def fileCacheUpdate (i : ℕ) (file : Option (ℕ × ℕ)) (sh : FileCacheSh) (c : CacheCtx) :
    FileCacheSh × CacheCtx :=
  ({ sh.modify i (.update c file) with
      size := sh.size + (((file.map Prod.snd).getD 0 : ℕ) - ((sh.nodes i).fsSize : ℤ)) },
    { c with updated := true, updating := false })

/-- The lock of `ngx_http_file_cache_read` while the cache is loaded: the file was opened and
read before. -/
def fileCacheColdRead (i uniq fsSize bodyStart : ℕ) (sh : FileCacheSh) (c : CacheCtx) :
    FileCacheSh × CacheCtx :=
  let c := { c with uniq := uniq, fsSize := fsSize, bodyStart := bodyStart }
  if (sh.nodes i).fileExists then (sh, c)
  else ({ sh.modify i (.coldRead c) with size := sh.size + fsSize }, c)

/-- `ngx_http_file_cache_reopen`, with the variant that the file asked for. -/
def fileCacheReopen (i : ℕ) (variant : ℕ) (sh : FileCacheSh) (c : CacheCtx) :
    Option (FileCacheSh × CacheCtx) :=
  if c.secondary then none
  else
    some (sh.modify i .leave,
      { c with
        node := none
        secondary := true
        bodyStart := c.bufferSize
        variant := variant
        key := variant })

/-- `ngx_http_file_cache_update_variant`, up to its call of `exists`, with the variant of the
response; `none` is a response without a `Vary` header, which leaves `c->variant` as it is. -/
def fileCacheUpdateVariant (i : ℕ) (variant : Option (ℕ)) (sh : FileCacheSh)
    (c : CacheCtx) : Option (FileCacheSh × CacheCtx) :=
  if c.secondary = false ∨ variant = some c.key then none
  else
    some (sh.modify i .leaveVariant,
      { c with
        node := none
        updateVariant := true
        variant := variant.getD c.variant
        key := c.main })

/-- What the upstream module writes into the context of a request. -/
def CacheCtx.respond (error validSec validMsec bodyStart : ℕ) (c : CacheCtx) : CacheCtx :=
  { c with error := error, validSec := validSec, validMsec := validMsec, bodyStart := bodyStart }

/-- The lock of `ngx_http_file_cache_read` on the stale node `i`. -/
def fileCacheReadStale (i : ℕ) (sh : FileCacheSh) (c : CacheCtx) : FileCacheSh × CacheCtx :=
  let r := readStale c (sh.nodes i)
  (sh.modify i fun _ => r.2.2, r.2.1)

/-- `ngx_http_file_cache_lock` on the node `i`. -/
def fileCacheLockNode (now i : ℕ) (sh : FileCacheSh) (c : CacheCtx) : FileCacheSh × CacheCtx :=
  let r := fileCacheLock now c (sh.nodes i)
  (sh.modify i fun _ => r.2, r.1)

/-- The operations of a request that holds the node `i` and is in none of the gaps. -/
def heldStep (clock : CacheClock) (sh : FileCacheSh) (c : CacheCtx) (i : ℕ) :
    CacheOp → Option (FileCacheSh × CacheCtx)
  | .coldRead uniq fsSize bodyStart => some (fileCacheColdRead i uniq fsSize bodyStart sh c)
  | .readStale => some (fileCacheReadStale i sh c)
  | .lock => some (fileCacheLockNode clock.msec i sh c)
  | .respond error validSec validMsec bodyStart =>
    some (sh, c.respond error validSec validMsec bodyStart)
  | .reopen variant => fileCacheReopen i variant sh c
  | .updateVariant variant => fileCacheUpdateVariant i variant sh c
  | .update file => some (fileCacheUpdate i file sh c)
  | .free => some (fileCacheFree i sh c)
  | _ => none

/-- The operations of an actor that is in none of the gaps. -/
def idleStep (inactive : ℕ) (clock : CacheClock) (sh : FileCacheSh) (x : CacheActor) :
    CacheOp → Option (FileCacheSh × CacheActor)
  | .lookup alloc =>
    if !x.ctx.updated && allocFree sh alloc then
      some (fileCacheExists clock.time inactive alloc sh x)
    else none
  | .forcedExpire =>
    if !x.ctx.updated && x.ctx.node == none then
      let r := fileCacheForcedExpire (clock.time + inactive) .manager sh
      some (r.1, { x with phase := r.2 })
    else none
  | .expire files =>
    if !x.ctx.updated && x.ctx.node == none then
      let r := fileCacheExpire clock.time (clock.time + inactive) files sh
      some (r.1, { x with phase := r.2 })
    else none
  | op =>
    match x.held with
    | none => none
    | some i => (heldStep clock sh x.ctx i op).map fun r => (r.1, { x with ctx := r.2 })

/-- One operation of an actor. -/
def actorStep (inactive : ℕ) (clock : CacheClock) (sh : FileCacheSh) (x : CacheActor) (op : CacheOp) :
    Option (FileCacheSh × CacheActor) :=
  match x.phase with
  | .idle => idleStep inactive clock sh x op
  | .expiring =>
    match op with
    | .forcedExpire =>
      let r := fileCacheForcedExpire (clock.time + inactive) .retry sh
      some (r.1, { x with phase := r.2 })
    | _ => none
  | .retrying =>
    match op with
    | .retry alloc =>
      if allocFree sh alloc then some (existsRetry clock.time inactive alloc sh x) else none
    | _ => none
  | .removing i after =>
    match op with
    | .finishDelete =>
      let r := afterDelete (clock.time + inactive) after (deleteFinish sh i)
      some (r.1, { x with phase := r.2 })
    | _ => none

/-- The cache and all that use it. -/
structure CacheState where
  sh : FileCacheSh
  clock : CacheClock
  actors : List CacheActor

/-- The steps: the clock shows another time, a request starts with a key of its own, the
loader adds a file, or an actor does something under the lock. -/
inductive CacheEvent
  | clock (clock : CacheClock)
  | start (key : ℕ) (minUses lockAge bufferSize : ℕ)
  | add (key : ℕ) (fsSize : ℕ) (alloc : Option ℕ)
  | act (k : ℕ) (op : CacheOp)
deriving Repr, DecidableEq

/-- A request that starts, with the context as `ngx_http_file_cache_create_key` leaves it. -/
def startActor (key : ℕ) (minUses lockAge bufferSize : ℕ) : CacheActor where
  ctx := {
    key := key, main := key, minUses := minUses, lockAge := lockAge,
    bufferSize := bufferSize, bodyStart := bufferSize }

/-- One step. -/
def cacheStep (inactive : ℕ) (s : CacheState) : CacheEvent → Option CacheState
  | .clock clock => some { s with clock := clock }
  | .start key minUses lockAge bufferSize =>
    some { s with actors := s.actors ++ [startActor key minUses lockAge bufferSize] }
  | .add key fsSize alloc =>
    if allocFree s.sh alloc then
      some { s with sh := fileCacheAdd s.clock.time inactive key fsSize alloc s.sh }
    else none
  | .act k op =>
    match s.actors[k]? with
    | none => none
    | some x =>
      (actorStep inactive s.clock s.sh x op).map fun r =>
        { s with sh := r.1, actors := s.actors.set k r.2 }

/-- An empty zone, as `ngx_http_file_cache_init` leaves it. -/
def emptySh : FileCacheSh :=
  ⟨fun _ => { key := 0 }, [], [], 0, 0, 2 ^ 64 - 1⟩

/-- The cache as a machine: the zone is empty at first and nobody uses it. -/
def cacheMachine (inactive : ℕ) : Machine CacheState CacheEvent :=
  .ofStep (fun s => s.sh = emptySh ∧ s.actors = []) (cacheStep inactive)

/-! ### What the loops do -/

section Loops

variable {P : FileCacheSh → Prop} {expire : ℕ}

/-- **The rule for the forced expiry.** What moving a node to the head keeps is kept, and the
loop ends with a node that nobody holds. -/
theorem forcedExpireLoop_rule
    (hrequeue : ∀ sh i, P sh → i ∈ sh.queue → P (sh.requeue i expire)) (tries : ℕ) :
    ∀ (sentinel : Option ℕ) (sh : FileCacheSh), P sh →
      P (forcedExpireLoop expire tries sentinel sh).1 ∧
        ∀ i, (forcedExpireLoop expire tries sentinel sh).2.2 = some i →
          i ∈ (forcedExpireLoop expire tries sentinel sh).1.queue ∧
            ((forcedExpireLoop expire tries sentinel sh).1.nodes i).count = 0 := by
  induction tries with
  | zero =>
    intro sentinel sh hP
    exact ⟨hP, by simp [forcedExpireLoop]⟩
  | succ tries ih =>
    intro sentinel sh hP
    rw [forcedExpireLoop]
    cases hl : sh.queue.getLast? with
    | none => exact ⟨hP, by simp⟩
    | some i =>
      have hi : i ∈ sh.queue := List.mem_of_getLast? hl
      simp only
      split
      · exact ⟨hP, by simp⟩
      split
      · rename_i h0
        refine ⟨hP, ?_⟩
        intro j hj
        cases hj
        exact ⟨hi, h0⟩
      · exact ih _ _ (hrequeue sh i hP hi)

/-- **The rule for the expiry.** -/
theorem expireLoop_rule (now : ℕ)
    (hrequeue : ∀ sh i, P sh → i ∈ sh.queue → P (sh.requeue i expire))
    (hremove : ∀ sh i, P sh → i ∈ sh.queue → (sh.nodes i).count = 0 →
      (sh.nodes i).fileExists = false → P (sh.remove i)) (files : ℕ) :
    ∀ sh : FileCacheSh, P sh →
      P (expireLoop now expire files sh).1 ∧
        ∀ i m, (expireLoop now expire files sh).2 = some (i, m) →
          i ∈ (expireLoop now expire files sh).1.queue ∧
            ((expireLoop now expire files sh).1.nodes i).count = 0 := by
  induction files with
  | zero =>
    intro sh hP
    exact ⟨hP, by simp [expireLoop]⟩
  | succ files ih =>
    intro sh hP
    rw [expireLoop]
    cases hl : sh.queue.getLast? with
    | none => exact ⟨hP, by simp⟩
    | some i =>
      have hi : i ∈ sh.queue := List.mem_of_getLast? hl
      simp only
      split
      · exact ⟨hP, by simp⟩
      split
      · rename_i h0
        split
        · refine ⟨hP, ?_⟩
          intro j m hj
          cases hj
          exact ⟨hi, h0⟩
        · rename_i hex
          rw [deleteUnheld, if_pos h0]
          exact ih _ (hremove sh i hP hi h0 (by simpa using hex))
      split
      · exact ⟨hP, by simp⟩
      · exact ih _ (hrequeue sh i hP hi)

/-- What is left when a process has let nodes expire: a zone with `P`, or one in which the
deletion of a node that nobody held has begun. -/
def Expired (P : FileCacheSh → Prop) (r : FileCacheSh × CachePhase) : Prop :=
  (P r.1 ∧ (r.2 = .idle ∨ r.2 = .retrying)) ∨
    ∃ sh i after, P sh ∧ i ∈ sh.queue ∧ (sh.nodes i).count = 0 ∧
      (sh.nodes i).fileExists = true ∧ r = (deleteStart sh i, .removing i after)

theorem AfterDelete.phase_cases (after : AfterDelete) :
    after.phase = .idle ∨ after.phase = .retrying := by
  cases after with
  | retry => exact Or.inr rfl
  | manager => exact Or.inl rfl
  | expire now files => exact Or.inl rfl

variable {sh : FileCacheSh}

/-- A deletion of an expired node keeps a property, if removing it does. -/
theorem fileCacheDelete_expired {i : ℕ} {after : AfterDelete} (hP : P sh) (hi : i ∈ sh.queue)
    (h0 : (sh.nodes i).count = 0) (hremove : (sh.nodes i).fileExists = false → P (sh.remove i)) :
    Expired P (fileCacheDelete sh i after) := by
  rw [fileCacheDelete]
  split
  · rename_i hex
    exact Or.inr ⟨sh, i, after, hP, hi, h0, hex, rfl⟩
  · rename_i hex
    refine Or.inl ⟨?_, after.phase_cases⟩
    rw [deleteUnheld, if_pos h0]
    exact hremove (by simpa using hex)

/-- A node that is found is the one of the request. -/
theorem existsFound_ctx (now inactive i : ℕ) (sh : FileCacheSh) (c : CacheCtx) :
    (existsFound now inactive i sh c).2.2.node = some i ∧
      (existsFound now inactive i sh c).2.2.updated = c.updated := by
  rw [existsFound]
  split
  · split <;> exact ⟨rfl, rfl⟩
  · split <;> exact ⟨rfl, rfl⟩

/-- **The rule for a node that was found.** What entering the node, renewing it and moving it
to the head keep is kept. -/
theorem existsFound_rule {now inactive i : ℕ} {c : CacheCtx}
    (henter : P (sh.modify i (existsEnter c)))
    (hrenew : (sh.nodes i).error ≠ 0 → (sh.nodes i).validSec < now →
      P ((sh.modify i (existsEnter c)).modify i .renew))
    (hrequeue : ∀ sh, P sh → P (sh.requeue i (now + inactive))) :
    P (existsFound now inactive i sh c).2.1 := by
  have herror : (existsEnter c (sh.nodes i)).error = (sh.nodes i).error := by
    rw [existsEnter]
    split <;> rfl
  have hvalid : (existsEnter c (sh.nodes i)).validSec = (sh.nodes i).validSec := by
    rw [existsEnter]
    split <;> rfl
  rw [existsFound]
  simp only [herror, hvalid]
  split
  · rename_i herr
    split
    · rename_i hlt
      exact hrequeue _ (hrenew herr hlt)
    · exact hrequeue _ henter
  split
  · exact hrequeue _ henter
  · exact hrequeue _ henter

variable (hrequeue : ∀ sh i, P sh → i ∈ sh.queue → P (sh.requeue i expire))
  (hremove : ∀ sh i, P sh → i ∈ sh.queue → (sh.nodes i).count = 0 →
    (sh.nodes i).fileExists = false → P (sh.remove i))

include hrequeue hremove

/-- So does a forced expiry. -/
theorem fileCacheForcedExpire_expired (after : AfterDelete) (hP : P sh) :
    Expired P (fileCacheForcedExpire expire after sh) := by
  obtain ⟨hloop, hnode⟩ := forcedExpireLoop_rule hrequeue 20 none sh hP
  rw [fileCacheForcedExpire]
  split
  · exact Or.inl ⟨hloop, after.phase_cases⟩
  · rename_i i hi
    obtain ⟨hq, h0⟩ := hnode i hi
    exact fileCacheDelete_expired hloop hq h0 (hremove _ i hloop hq h0)

/-- So does the expiry by the manager. -/
theorem fileCacheExpire_expired (now files : ℕ) (hP : P sh) :
    Expired P (fileCacheExpire now expire files sh) := by
  obtain ⟨hloop, hnode⟩ := expireLoop_rule now hrequeue hremove files sh hP
  rw [fileCacheExpire]
  split
  · exact Or.inl ⟨hloop, Or.inl rfl⟩
  · rename_i i m hi
    obtain ⟨hq, h0⟩ := hnode i m hi
    exact fileCacheDelete_expired hloop hq h0 (hremove _ i hloop hq h0)

/-- What holds on the way of the expiry holds after a deletion. -/
theorem afterDelete_expired (after : AfterDelete) (hP : P sh) :
    Expired P (afterDelete expire after sh) := by
  cases after with
  | retry => exact Or.inl ⟨hP, Or.inr rfl⟩
  | manager => exact Or.inl ⟨hP, Or.inl rfl⟩
  | expire now files => exact fileCacheExpire_expired hrequeue hremove now files hP

end Loops

/-! ### What an actor can do -/

/-- What one operation of an actor can do. The last case is that of a request that holds a
node and has the lock for a moment. -/
inductive ActorMove (inactive : ℕ) (clock : CacheClock) (sh : FileCacheSh) (x : CacheActor)
    (op : CacheOp) : FileCacheSh → CacheActor → Prop
  | found {i : ℕ} {alloc : Option ℕ} :
      op = .lookup alloc → x.phase = .idle → x.ctx.updated = false →
      x.ctx.node.or (sh.lookup x.ctx.key) = some i →
      ActorMove inactive clock sh x op (existsFound clock.time inactive i sh x.ctx).2.1
        { x with
          ctx := (existsFound clock.time inactive i sh x.ctx).2.2
          rc := (existsFound clock.time inactive i sh x.ctx).1 }
  | inserted {i : ℕ} :
      (op = .lookup (some i) ∧ x.phase = .idle ∧ x.ctx.updated = false ∧ x.ctx.node = none ∧
          sh.lookup x.ctx.key = none) ∨
        (op = .retry (some i) ∧ x.phase = .retrying) →
      i ∉ sh.tree →
      ActorMove inactive clock sh x op (existsNew clock.time inactive i sh x.ctx).1
        { ctx := (existsNew clock.time inactive i sh x.ctx).2, phase := .idle, rc := .declined }
  | noMemory :
      op = .lookup none → x.phase = .idle → x.ctx.updated = false → x.ctx.node = none →
      ActorMove inactive clock sh x op sh.setWatermark { x with phase := .expiring }
  | stillNoMemory :
      op = .retry none → x.phase = .retrying →
      ActorMove inactive clock sh x op sh { x with rc := .error, phase := .idle }
  | forced {after : AfterDelete} :
      op = .forcedExpire →
      x.phase = .expiring ∨ (x.phase = .idle ∧ x.ctx.updated = false ∧ x.ctx.node = none) →
      ActorMove inactive clock sh x op
        (fileCacheForcedExpire (clock.time + inactive) after sh).1
        { x with phase := (fileCacheForcedExpire (clock.time + inactive) after sh).2 }
  | expired {files : ℕ} :
      op = .expire files → x.phase = .idle → x.ctx.updated = false → x.ctx.node = none →
      ActorMove inactive clock sh x op
        (fileCacheExpire clock.time (clock.time + inactive) files sh).1
        { x with phase := (fileCacheExpire clock.time (clock.time + inactive) files sh).2 }
  | finished {i : ℕ} {after : AfterDelete} :
      op = .finishDelete → x.phase = .removing i after →
      ActorMove inactive clock sh x op
        (afterDelete (clock.time + inactive) after (deleteFinish sh i)).1
        { x with phase := (afterDelete (clock.time + inactive) after (deleteFinish sh i)).2 }
  | held {i : ℕ} {sh' : FileCacheSh} {c : CacheCtx} :
      x.phase = .idle → x.ctx.updated = false → x.ctx.node = some i →
      heldStep clock sh x.ctx i op = some (sh', c) →
      ActorMove inactive clock sh x op sh' { x with ctx := c }

/-- What an actor can do in none of the gaps. -/
theorem idleStep_cases {inactive : ℕ} {clock : CacheClock} {sh sh' : FileCacheSh}
    {x x' : CacheActor} {op : CacheOp} (hphase : x.phase = .idle)
    (h : idleStep inactive clock sh x op = some (sh', x')) :
    ActorMove inactive clock sh x op sh' x' := by
  rw [idleStep.eq_def] at h
  split at h
  · rename_i alloc
    split at h
    · rename_i hguard
      simp only [Bool.and_eq_true, Bool.not_eq_true'] at hguard
      obtain ⟨hupd, halloc⟩ := hguard
      rw [fileCacheExists.eq_def] at h
      split at h
      · rename_i i hi
        cases h
        exact .found rfl hphase hupd hi
      · rename_i i hnone
        cases h
        obtain ⟨hnode, hlook⟩ := or_eq_none_iff.mp hnone
        rw [hphase]
        exact .inserted (Or.inl ⟨rfl, hphase, hupd, hnode, hlook⟩) (by simpa [allocFree] using halloc)
      · rename_i hnone
        cases h
        exact .noMemory rfl hphase hupd (or_eq_none_iff.mp hnone).1
    · cases h
  · split at h
    · rename_i hguard
      simp only [Bool.and_eq_true, Bool.not_eq_true', beq_iff_eq] at hguard
      cases h
      exact .forced rfl (Or.inr ⟨hphase, hguard⟩)
    · cases h
  · split at h
    · rename_i hguard
      simp only [Bool.and_eq_true, Bool.not_eq_true', beq_iff_eq] at hguard
      cases h
      exact .expired rfl hphase hguard.1 hguard.2
    · cases h
  · split at h
    · cases h
    · rename_i i hheld
      simp only [map_eq_some_iff, Prod.exists, Prod.mk.injEq] at h
      obtain ⟨sh₁, c, hstep, rfl, rfl⟩ := h
      simp only [CacheActor.held, hphase] at hheld
      split at hheld
      · cases hheld
      · rename_i hupd
        exact .held hphase (by simpa using hupd) hheld hstep

/-- **What an actor can do.** -/
theorem actorStep_cases {inactive : ℕ} {clock : CacheClock} {sh sh' : FileCacheSh}
    {x x' : CacheActor} {op : CacheOp} (h : actorStep inactive clock sh x op = some (sh', x')) :
    ActorMove inactive clock sh x op sh' x' := by
  cases hphase : x.phase with
  | idle =>
    rw [actorStep.eq_def, hphase] at h
    exact idleStep_cases hphase h
  | expiring =>
    rw [actorStep.eq_def, hphase] at h
    cases op with
    | forcedExpire =>
      cases h
      exact .forced rfl (Or.inl hphase)
    | _ => cases h
  | retrying =>
    rw [actorStep.eq_def, hphase] at h
    cases op with
    | retry alloc =>
      simp only at h
      split at h
      · rename_i halloc
        cases alloc with
        | none =>
          cases h
          exact .stillNoMemory rfl hphase
        | some i =>
          cases h
          exact .inserted (Or.inr ⟨rfl, hphase⟩) (by simpa [allocFree] using halloc)
      · cases h
    | _ => cases h
  | removing i after =>
    rw [actorStep.eq_def, hphase] at h
    cases op with
    | finishDelete =>
      cases h
      exact .finished rfl hphase
    | _ => cases h

/-! ### Conditions on the steps of a run -/

/-- A condition on what an actor does, as one on the steps. -/
def OnActor (C : FileCacheSh → CacheActor → CacheOp → Prop) (s : CacheState) : CacheEvent → Prop
  | .act k op => ∀ x ∈ s.actors[k]?, C s.sh x op
  | _ => True

instance OnActor.decidable (C : FileCacheSh → CacheActor → CacheOp → Prop)
    [∀ sh x op, Decidable (C sh x op)] (s : CacheState) : (e : CacheEvent) → Decidable (OnActor C s e)
  | .act k op => inferInstanceAs (Decidable (∀ x ∈ s.actors[k]?, C s.sh x op))
  | .clock _ => .isTrue trivial
  | .start .. => .isTrue trivial
  | .add .. => .isTrue trivial

/-- There is room in the counter of a node that a request finds. -/
def CountFits (sh : FileCacheSh) (x : CacheActor) : CacheOp → Prop
  | .lookup _ =>
    ∀ i ∈ sh.lookup x.ctx.key, x.ctx.node = none → (sh.nodes i).count + 1 < countLimit
  | _ => True

instance CountFits.decidable (sh : FileCacheSh) (x : CacheActor) :
    (op : CacheOp) → Decidable (CountFits sh x op)
  | .lookup _ => inferInstanceAs (Decidable
      (∀ i ∈ sh.lookup x.ctx.key, x.ctx.node = none → (sh.nodes i).count + 1 < countLimit))
  | .retry _ | .forcedExpire | .expire _ | .finishDelete | .coldRead .. | .readStale | .lock
  | .respond .. | .reopen _ | .updateVariant _ | .update _ | .free => .isTrue trivial

end Hengine
