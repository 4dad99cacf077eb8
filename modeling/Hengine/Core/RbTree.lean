import Mathlib.Data.List.Basic
import Mathlib.Order.Basic

/-!
# The Red-Black Tree

The model of `ngx_rbtree.c`. A node is a number, `0` is the null pointer, and the fields of the
nodes are functions. What the source has twice, once for the left and once for the right side, is
written once with the side as an argument: `child false` is `left` and `child true` is `right`.

Loops have fuel, and a result is `none` if it is not enough.
-/

namespace Hengine

open Function

/-- `ngx_rbtree_t` with the fields of the nodes. A node is red or black. -/
structure RbTree where
  root : ℕ
  sentinel : ℕ
  child : Bool → ℕ → ℕ
  parent : ℕ → ℕ
  red : ℕ → Bool
  key : ℕ → ℕ

namespace RbTree

def setChild (t : RbTree) (d : Bool) (x y : ℕ) : RbTree :=
  { t with child := update t.child d (update (t.child d) x y) }

def setParent (t : RbTree) (x y : ℕ) : RbTree :=
  { t with parent := update t.parent x y }

def setRed (t : RbTree) (x : ℕ) (c : Bool) : RbTree :=
  { t with red := update t.red x c }

def setRoot (t : RbTree) (x : ℕ) : RbTree := { t with root := x }

/-- `ngx_rbtree_init`. -/
def init (sentinel : ℕ) (t : RbTree) : RbTree :=
  { t.setRed sentinel false with root := sentinel, sentinel := sentinel }

/-- `ngx_rbtree_min`. -/
@[grind =]
def min (t : RbTree) : ℕ → ℕ → Option ℕ
  | 0, _ => none
  | fuel + 1, node =>
    if t.child false node ≠ t.sentinel then t.min fuel (t.child false node) else some node

/-- A child gets a parent; the sentinel does not. -/
def adopt (t : RbTree) (x parent : ℕ) : RbTree :=
  if x ≠ t.sentinel then t.setParent x parent else t

/-- Below the parent of `node`, or as the root, `temp` takes the place of `node`. The child on the
side `d` of the parent is looked at first. -/
def hook (d : Bool) (t : RbTree) (node temp : ℕ) : RbTree :=
  if node = t.root then t.setRoot temp
  else if node = t.child d (t.parent node) then t.setChild d (t.parent node) temp
  else t.setChild (!d) (t.parent node) temp

/-- `ngx_rbtree_left_rotate`, for `d` the left side, and `ngx_rbtree_right_rotate`. -/
def rotate (d : Bool) (t : RbTree) (node : ℕ) : RbTree :=
  let temp := t.child (!d) node
  let t := t.setChild (!d) node (t.child d temp)
  let t := t.adopt (t.child d temp) node
  let t := t.setParent temp (t.parent node)
  let t := t.hook d node temp
  let t := t.setChild d temp node
  t.setParent node temp

/-! ### `ngx_rbtree_insert` -/

/-- The side on which a key goes below a node. -/
def sideOf (t : RbTree) (node temp : ℕ) : Bool := !decide (t.key node < t.key temp)

/-- The node is made a red leaf below `temp`. -/
def link (t : RbTree) (p : Bool) (temp node : ℕ) : RbTree :=
  let t := t.setChild p temp node
  let t := t.setParent node temp
  let t := t.setChild false node t.sentinel
  let t := t.setChild true node t.sentinel
  t.setRed node true

/-- `ngx_rbtree_insert_value`. -/
@[grind =]
def insertValue : ℕ → RbTree → ℕ → ℕ → Option RbTree
  | 0, _, _, _ => none
  | fuel + 1, t, temp, node =>
    let p := t.sideOf node temp
    if t.child p temp = t.sentinel then some (t.link p temp node)
    else insertValue fuel t (t.child p temp) node

/-- A turn of the loop that balances the tree again, where the parent of the node is on the side
`d`. -/
def insertStep (d : Bool) (t : RbTree) (node : ℕ) : RbTree × ℕ :=
  let temp := t.child (!d) (t.parent (t.parent node))
  if t.red temp then
    let t := t.setRed (t.parent node) false
    let t := t.setRed temp false
    let t := t.setRed (t.parent (t.parent node)) true
    (t, t.parent (t.parent node))
  else
    let (t, node) :=
      if node = t.child (!d) (t.parent node) then
        let node := t.parent node
        (t.rotate d node, node)
      else (t, node)
    let t := t.setRed (t.parent node) false
    let t := t.setRed (t.parent (t.parent node)) true
    (t.rotate (!d) (t.parent (t.parent node)), node)

/-- The loop. -/
@[grind =]
def insertFixup : ℕ → RbTree → ℕ → Option RbTree
  | 0, _, _ => none
  | fuel + 1, t, node =>
    if node ≠ t.root ∧ t.red (t.parent node) then
      let d := !decide (t.parent node = t.child false (t.parent (t.parent node)))
      let (t, node) := insertStep d t node
      insertFixup fuel t node
    else some t

/-- `ngx_rbtree_insert`, with `ngx_rbtree_insert_value` as the function of the tree. -/
def insert (fuel : ℕ) (t : RbTree) (node : ℕ) : Option RbTree :=
  if t.root = t.sentinel then
    let t := t.setParent node 0
    let t := t.setChild false node t.sentinel
    let t := t.setChild true node t.sentinel
    let t := t.setRed node false
    some (t.setRoot node)
  else do
    let t ← insertValue fuel t t.root node
    let t ← insertFixup fuel t node
    some (t.setRed t.root false)

/-! ### `ngx_rbtree_delete` -/

/-- The fields of a node that has been taken out. -/
def clear (t : RbTree) (node : ℕ) : RbTree :=
  let t := t.setChild false node 0
  let t := t.setChild true node 0
  let t := t.setParent node 0
  { t with key := update t.key node 0 }

/-- The node that leaves its place, and the one that takes this place. -/
def substOf (fuel : ℕ) (t : RbTree) (node : ℕ) : Option (ℕ × ℕ) :=
  if t.child false node = t.sentinel then some (node, t.child true node)
  else if t.child true node = t.sentinel then some (node, t.child false node)
  else do
    let subst ← t.min fuel (t.child true node)
    some (subst, t.child true subst)

/-- `subst` takes the place of `node`. -/
def replace (t : RbTree) (node subst : ℕ) : RbTree :=
  let t := t.setChild false subst (t.child false node)
  let t := t.setChild true subst (t.child true node)
  let t := t.setParent subst (t.parent node)
  let t := t.setRed subst (t.red node)
  let t := t.hook false node subst
  let t := t.adopt (t.child false subst) subst
  t.adopt (t.child true subst) subst

/-- If the sibling `w` of `temp` is red, a rotation makes another node the sibling. -/
def redSibling (t : RbTree) (d : Bool) (temp : ℕ) : RbTree :=
  let w := t.child (!d) (t.parent temp)
  if t.red w then
    let t := t.setRed w false
    let t := t.setRed (t.parent temp) true
    t.rotate d (t.parent temp)
  else t

/-- If the far child of the sibling is black, a rotation makes the near child the sibling. -/
def blackFar (t : RbTree) (d : Bool) (temp : ℕ) : RbTree :=
  let w := t.child (!d) (t.parent temp)
  if !t.red (t.child (!d) w) then
    let t := t.setRed (t.child d w) false
    let t := t.setRed w true
    t.rotate (!d) w
  else t

/-- The last rotation: the sibling takes the place and the colour of the parent. -/
def lastRotation (t : RbTree) (d : Bool) (temp : ℕ) : RbTree :=
  let w := t.child (!d) (t.parent temp)
  let t := t.setRed w (t.red (t.parent temp))
  let t := t.setRed (t.parent temp) false
  let t := t.setRed (t.child (!d) w) false
  t.rotate d (t.parent temp)

/-- A turn with a black sibling. The sibling `w` is read again after a rotation. -/
def blackSibling (t : RbTree) (d : Bool) (temp : ℕ) : RbTree × ℕ :=
  let w := t.child (!d) (t.parent temp)
  if !t.red (t.child false w) && !t.red (t.child true w) then
    (t.setRed w true, t.parent temp)
  else
    let t := t.blackFar d temp
    let t := t.lastRotation d temp
    (t, t.root)

/-- A turn of the loop that balances the tree again, where `temp` is on the side `d`. -/
def deleteStep (d : Bool) (t : RbTree) (temp : ℕ) : RbTree × ℕ :=
  (t.redSibling d temp).blackSibling d temp

/-- The loop, and the node that is made black after it. -/
@[grind =]
def deleteFixup : ℕ → RbTree → ℕ → Option RbTree
  | 0, _, _ => none
  | fuel + 1, t, temp =>
    if temp ≠ t.root ∧ !t.red temp then
      let d := !decide (temp = t.child false (t.parent temp))
      let (t, temp) := deleteStep d t temp
      deleteFixup fuel t temp
    else some (t.setRed temp false)

/-- `ngx_rbtree_delete`. -/
def delete (fuel : ℕ) (t : RbTree) (node : ℕ) : Option RbTree := do
  let (subst, temp) ← t.substOf fuel node
  if subst = t.root then
    let t := t.setRoot temp
    let t := t.setRed temp false
    some (t.clear node)
  else
    let red := t.red subst
    let parent := t.parent subst
    let t := t.hook false subst temp
    let t :=
      if subst = node then t.setParent temp parent
      else (t.setParent temp (if parent = node then subst else parent)).replace node subst
    let t := t.clear node
    if red then some t else deleteFixup fuel t temp

/-! ### `ngx_rbtree_next` -/

/-- The loop up to the first ancestor of which the node is on the left. -/
@[grind =]
def climb (t : RbTree) : ℕ → ℕ → Option (Option ℕ)
  | 0, _ => none
  | fuel + 1, node =>
    if node = t.root then some none
    else if node = t.child false (t.parent node) then some (some (t.parent node))
    else t.climb fuel (t.parent node)

/-- `ngx_rbtree_next`; the result may be null. -/
def next (fuel : ℕ) (t : RbTree) (node : ℕ) : Option (Option ℕ) :=
  if t.child true node ≠ t.sentinel then (t.min fuel (t.child true node)).map some
  else t.climb fuel node

/-- The nodes from `node` on, by `ngx_rbtree_next`. -/
@[grind =]
def iterate (fuel : ℕ) (t : RbTree) : ℕ → Option ℕ → Option (List ℕ)
  | 0, _ => none
  | _ + 1, none => some []
  | n + 1, some node => do
    let following ← t.next fuel node
    let rest ← t.iterate fuel n following
    some (node :: rest)

/-- All nodes, from `ngx_rbtree_min` on. -/
def walk (fuel : ℕ) (t : RbTree) : Option (List ℕ) :=
  if t.root = t.sentinel then some []
  else do
    let first ← t.min fuel t.root
    t.iterate fuel fuel (some first)

end RbTree

end Hengine
