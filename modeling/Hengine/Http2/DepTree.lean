import Mathlib.Algebra.Order.Ring.Nat
import Hengine.Lib.Forest
import Hengine.Lib.Machine

/-!
# The Dependency Tree of a Connection

The model of the stream dependencies of `ngx_http_v2.c`: nodes with a parent, a queue of
children, a rank and a weight, which `HEADERS` and `PRIORITY` frames create and move about,
and of which those without a stream wait in a queue to be taken for new streams.

A node is named by its stream identifier, under which `streams_index` finds it; each field
of `ngx_http_v2_node_t` is a function of that name. A queue is a list; a node has one link
for the queues of children, so taking it out of a queue takes it out of whichever it is in.
The relative weights are floating-point numbers that nothing here depends on, and are left
out.
-/

namespace Hengine

open Function

/-- The nodes of a connection: `streams_index` as the list of identifiers in it, the fields of
the nodes, `dependencies` as the children of the root, and `closed` with `closed_nodes`, a
number of 8 bits. -/
structure DepTree where
  ids : List ℕ
  parent : ℕ → Ref ℕ
  children : Ref ℕ → List ℕ
  rank : ℕ → ℕ
  weight : ℕ → ℕ
  stream : ℕ → Bool
  closed : List ℕ
  closedNodes : ℕ

/-- `ngx_queue_insert_after`: `y` behind `x`, in the queue that has `x`. -/
@[grind =]
def insertAfter (x y : ℕ) : List ℕ → List ℕ
  | [] => []
  | z :: l => if z = x then z :: y :: l else z :: insertAfter x y l

namespace DepTree

/-- The nodes of a new connection. -/
def empty : DepTree :=
  { ids := [], parent := fun _ => .null, children := fun _ => [], rank := fun _ => 0,
    weight := fun _ => 0, stream := fun _ => false, closed := [], closedNodes := 0 }

/-- `h2c->closed_nodes++`. -/
def incClosed (t : DepTree) : DepTree := { t with closedNodes := (t.closedNodes + 1) % 256 }

/-- `h2c->closed_nodes--`. -/
def decClosed (t : DepTree) : DepTree := { t with closedNodes := (t.closedNodes + 255) % 256 }

/-- `ngx_queue_remove(&node->queue)`. -/
def queueRemove (t : DepTree) (x : ℕ) : DepTree :=
  { t with children := fun q => (t.children q).erase x }

/-- `ngx_http_v2_node_children_update`. The recursion goes as deep as the tree, for which the
number of nodes is enough. -/
def nodeChildrenUpdate (t : DepTree) (x : ℕ) : Option DepTree :=
  (relabel (fun a => t.children (.node a)) (t.ids.length + 1) t.rank x).map fun r =>
    { t with rank := r }

/-! ### `ngx_http_v2_set_dependency` -/

/-- The rank under a parent. -/
def rankUnder (t : DepTree) : Ref ℕ → ℕ
  | .node g => t.rank g + 1
  | _ => 1

/-- The body of the loop, once it has met `node` above its new parent `p`: `p` takes a place
beside `node`. Its children are renumbered unless they are about to leave it. -/
def raiseParent (t : DepTree) (node p : ℕ) (exclusive : Bool) : Option DepTree :=
  let t := t.queueRemove p
  let t := { t with
    children := fun q => insertAfter node p (t.children q)
    parent := update t.parent p (t.parent node)
    rank := update t.rank p (t.rankUnder (t.parent node)) }
  if exclusive then some t else t.nodeChildrenUpdate p

/-- The children of `q` become children of `node`. -/
def adopt (t : DepTree) (node : ℕ) (q : Ref ℕ) : DepTree :=
  { t with
    parent := fun c => if c ∈ t.children q then .node node else t.parent c
    children := update
      (update t.children (.node node) (t.children (.node node) ++ t.children q)) q [] }

/-- `node` becomes the last child of `q`. -/
def moveUnder (t : DepTree) (node : ℕ) (q : Ref ℕ) : DepTree :=
  let t := if t.parent node = .null then t else t.queueRemove node
  { t with
    children := update t.children q (t.children q ++ [node])
    parent := update t.parent node q }

/-- The end of `ngx_http_v2_set_dependency`, where `q` is the parent. -/
def attach (t : DepTree) (node : ℕ) (q : Ref ℕ) (exclusive : Bool) : Option DepTree :=
  let t := if exclusive then t.adopt node q else t
  (t.moveUnder node q).nodeChildrenUpdate node

/-- The loop over the ancestors of the parent `p`, for a node that is in the tree already. -/
def raiseBelow (t : DepTree) (node p : ℕ) (exclusive : Bool) : Option DepTree :=
  if t.parent node = .null then some t
  else do
    let met ← climbTo t.parent t.rank node (t.ids.length + 1) (t.parent p)
    if met then t.raiseParent node p exclusive else some t

/-- A parent without a stream goes to the end of the queue for reuse. -/
def keepParent (t : DepTree) (p : ℕ) : DepTree :=
  if t.stream p then t else { t with closed := t.closed.erase p ++ [p] }

/-- `ngx_http_v2_set_dependency`. -/
def setDependency (t : DepTree) (node depend : ℕ) (exclusive : Bool) : Option DepTree :=
  if depend ≠ 0 ∧ depend ∈ t.ids then do
    let t ← t.raiseBelow node depend exclusive
    let t := { t with rank := update t.rank node (t.rank depend + 1) }
    (t.keepParent depend).attach node (.node depend) exclusive
  else
    let exclusive := if depend ≠ 0 then false else exclusive
    { t with rank := update t.rank node 1 }.attach node .root exclusive

/-! ### `ngx_http_v2_get_node_by_id` -/

/-- The children of a node that is given up: they go to its parent, with a share of its weight
that is at least 1. -/
def orphan (t : DepTree) (z : ℕ) : DepTree :=
  let kids := t.children (.node z)
  let sum := (kids.map t.weight).sum
  { t with
    parent := fun c => if c ∈ kids then t.parent z else t.parent c
    weight := fun c =>
      if c ∈ kids then
        if t.weight z * t.weight c / sum = 0 then 1 else t.weight z * t.weight c / sum
      else t.weight c }

/-- The children of a node that is given up follow those of its parent in the queue, and the
node is in the index no more. -/
def dropNode (t : DepTree) (z : ℕ) : DepTree :=
  let q := t.parent z
  { t with
    ids := t.ids.erase z
    children := update
      (update t.children q (t.children q ++ t.children (.node z))) (.node z) []
    parent := update t.parent z .null }

/-- `ngx_http_v2_get_closed_node`: the node that has waited longest is taken out of the tree.
Its memory is cleared, so no node has its name any more. -/
def getClosedNode (t : DepTree) : Option DepTree :=
  match t.closed with
  | [] => none
  | z :: closed =>
    let t := ({ t with closed := closed }.decClosed.queueRemove z).orphan z
    let t := { t with rank := update t.rank z (t.rankUnder (t.parent z) - 1) }
    (t.nodeChildrenUpdate z).map (dropNode · z)

/-- A cleared node for `sid`, in front of the index. -/
def addNode (t : DepTree) (sid : ℕ) : DepTree :=
  { t with
    ids := sid :: t.ids
    parent := update t.parent sid .null
    children := update t.children (.node sid) []
    rank := update t.rank sid 0
    weight := update t.weight sid 0
    stream := update t.stream sid false }

/-- `ngx_http_v2_get_node_by_id(h2c, sid, 1)`: the node of `sid`, which may be a new one or one
that is taken again. -/
def getNodeById (t : DepTree) (sid : ℕ) : Option DepTree :=
  if sid ∈ t.ids then some t
  else if t.closedNodes < 32 then some (t.addNode sid)
  else t.getClosedNode.map (addNode · sid)

/-! ### Frames and closings -/

/-- The priority fields of a frame: `depend`, `excl` and the byte of the weight. -/
structure Priority where
  depend : ℕ
  exclusive : Bool
  weight : UInt8
deriving Repr, DecidableEq

/-- `node->weight = weight`. -/
def setWeight (t : DepTree) (x w : ℕ) : DepTree :=
  { t with weight := update t.weight x w }

/-- The node gets its stream; one that has been in the tree before waits for reuse no more. -/
def openStream (t : DepTree) (sid : ℕ) : DepTree :=
  let t := if t.parent sid ≠ .null then { t with closed := t.closed.erase sid }.decClosed else t
  { t with stream := update t.stream sid true }

/-- What `ngx_http_v2_state_headers` does to the nodes, for a stream that is accepted. -/
def headersNode (t : DepTree) (sid : ℕ) (priority : Option Priority) : Option DepTree := do
  let t ← t.getNodeById sid
  let t := t.openStream sid
  match priority with
  | some p => (t.setWeight sid (p.weight.toNat + 1)).setDependency sid p.depend p.exclusive
  | none =>
    if t.parent sid = .null then (t.setWeight sid 16).setDependency sid 0 false
    else some t

/-- A node without a stream goes to the end of the queue for reuse. -/
def awaitReuse (t : DepTree) (sid : ℕ) : DepTree :=
  if t.stream sid then t
  else if t.parent sid = .null then { t with closed := t.closed ++ [sid] }.incClosed
  else { t with closed := t.closed.erase sid ++ [sid] }

/-- What `ngx_http_v2_state_priority` does to the nodes. -/
def priorityNode (t : DepTree) (sid : ℕ) (p : Priority) : Option DepTree := do
  let t ← t.getNodeById sid
  let t := (t.setWeight sid (p.weight.toNat + 1)).awaitReuse sid
  t.setDependency sid p.depend p.exclusive

/-- What `ngx_http_v2_close_stream` does to the node of the stream. -/
def closeNode (t : DepTree) (sid : ℕ) : DepTree :=
  { t with
    stream := update t.stream sid false
    closed := t.closed ++ [sid] }.incClosed

end DepTree

/-- What the frames read and write besides the nodes: `last_sid` and `processing`. -/
structure DepConn where
  tree : DepTree
  lastSid : ℕ
  processing : ℕ

/-- A frame, or the end of a stream. A `HEADERS` frame may be refused because it comes with
data before the settings are acknowledged. -/
inductive DepEvent
  | headers (sid : ℕ) (priority : Option DepTree.Priority) (early : Bool)
  | priority (sid : ℕ) (p : DepTree.Priority)
  | close (sid : ℕ)
deriving Repr, DecidableEq

/-- What comes of an event: it is not possible or ends the connection; a loop or a recursion
does not end, or follows a link to nothing; or it is done. -/
inductive DepResult
  | rejected
  | stuck
  | done (s : DepConn)

/-- The result of an operation on the nodes. -/
def DepResult.ofTree (lastSid processing : ℕ) : Option DepTree → DepResult
  | none => .stuck
  | some t => .done ⟨t, lastSid, processing⟩

/-- One event, where at most `concurrentStreams` streams are processed at a time. -/
def DepConn.handle (concurrentStreams : ℕ) (s : DepConn) : DepEvent → DepResult
  | .headers sid priority early =>
    let depend := (priority.map DepTree.Priority.depend).getD 0
    if sid % 2 = 0 ∨ sid ≤ s.lastSid ∨ depend = sid then .rejected
    else if s.processing ≥ concurrentStreams ∨ early then .done { s with lastSid := sid }
    else .ofTree sid (s.processing + 1) (s.tree.headersNode sid priority)
  | .priority sid p =>
    if sid = 0 ∨ p.depend = sid then .rejected
    else .ofTree s.lastSid s.processing (s.tree.priorityNode sid p)
  | .close sid =>
    if sid ∈ s.tree.ids ∧ s.tree.stream sid then
      .done ⟨s.tree.closeNode sid, s.lastSid, s.processing - 1⟩
    else .rejected

/-- The events on a connection, from a new one on. -/
def depMachine (concurrentStreams : ℕ) : Machine DepConn DepEvent where
  init s := s = ⟨.empty, 0, 0⟩
  step s e s' := s.handle concurrentStreams e = .done s'

end Hengine
