import Hengine.Lib.LinkTree
import Hengine.Lib.Machine
import Mathlib.Algebra.Group.Nat.Defs

/-!
# Radix Trees

The model of `ngx_radix_tree.c`. A tree has nodes with two children, a parent and a value, which
may be none; nodes that are taken out wait in a free list to be used again. The functions for
keys of 32 bits and of 128 bits walk down the tree in the same way and differ in how they go
from one bit of a key to the next: a `BitCursor` is such a way, and the walks are written once.

A node is a number, `next false` and `next true` are its `left` and `right`. A result is `none`
where the program would follow a pointer that is null. Memory does not run out.
-/

namespace Hengine

open Function

/-- `NGX_RADIX_NO_VALUE`. -/
def radixNoValue : ℕ := 2 ^ 64 - 1

/-- What an insertion or a deletion returns. -/
inductive RadixCode
  | ok
  | busy
  | error
deriving DecidableEq, Repr

/-- `ngx_radix_tree_t` with its nodes, and the first node that has never been used. -/
structure RadixTree where
  root : ℕ
  next : Bool → ℕ → Option ℕ
  parent : ℕ → Option ℕ
  value : ℕ → ℕ
  free : List ℕ
  fresh : ℕ

/-- How a function goes through the bits of a key: the bit of the key at the cursor, whether the
mask has the bit, and the cursor after it, if the loop goes on. -/
structure BitCursor (κ : Type) where
  keyBit : κ → Bool
  maskBit : κ → Bool
  advance : κ → Option κ

namespace RadixTree

variable {κ : Type}

/-- `ngx_radix_alloc`. -/
def alloc (t : RadixTree) : ℕ × RadixTree :=
  match t.free with
  | p :: free => (p, { t with free := free })
  | [] => (t.fresh, { t with fresh := t.fresh + 1 })

/-- The first loop of an insertion: the node at which it ends, and the cursor if the child that
it would go on to is missing. -/
@[grind =]
def descend (C : BitCursor κ) (t : RadixTree) : ℕ → κ → ℕ → Option (ℕ × Option κ)
  | 0, _, _ => none
  | fuel + 1, c, node =>
    if C.maskBit c then
      match t.next (C.keyBit c) node with
      | none => some (node, some c)
      | some n =>
        match C.advance c with
        | none => some (n, none)
        | some c => descend C t fuel c n
    else some (node, none)

/-- A new node, as a child of `node`. -/
def addChild (t : RadixTree) (b : Bool) (node : ℕ) : ℕ × RadixTree :=
  let (n, t) := t.alloc
  (n, { t with
    next := grow t.next b node n
    parent := update t.parent n (some node)
    value := update t.value n radixNoValue })

/-- The second loop of an insertion: new nodes down to the end of the mask. -/
@[grind =]
def extend (C : BitCursor κ) : ℕ → κ → RadixTree → ℕ → Option (RadixTree × ℕ)
  | 0, _, _, _ => none
  | fuel + 1, c, t, node =>
    if C.maskBit c then
      let (n, t) := t.addChild (C.keyBit c) node
      match C.advance c with
      | none => some (t, n)
      | some c => extend C fuel c t n
    else some (t, node)

/-- An insertion. -/
def insert (C : BitCursor κ) (fuel : ℕ) (c : κ) (t : RadixTree) (value : ℕ) :
    Option (RadixTree × RadixCode) := do
  match ← t.descend C fuel c t.root with
  | (node, none) =>
    if t.value node ≠ radixNoValue then some (t, .busy)
    else some ({ t with value := update t.value node value }, .ok)
  | (node, some c) =>
    let (t, node) ← extend C fuel c t node
    some ({ t with value := update t.value node value }, .ok)

/-- The loop of a deletion: the node at the end of the mask, if it is there. -/
@[grind =]
def lookup (C : BitCursor κ) (t : RadixTree) : ℕ → κ → Option ℕ → Option (Option ℕ)
  | 0, _, _ => none
  | _ + 1, _, none => some none
  | fuel + 1, c, some node =>
    if C.maskBit c then
      let node := t.next (C.keyBit c) node
      match C.advance c with
      | none => some node
      | some c => lookup C t fuel c node
    else some (some node)

/-- Whether a node has children. -/
def hasChild (t : RadixTree) (node : ℕ) : Bool :=
  (t.next true node).isSome || (t.next false node).isSome

/-- The loop that takes out a node without children, and then its ancestors as long as they have
neither children nor a value. The root has no parent to unlink it from. -/
@[grind =]
def unlink : ℕ → RadixTree → ℕ → Option RadixTree
  | 0, _, _ => none
  | fuel + 1, t, node => do
    let parent ← t.parent node
    let t := { t with
      next := prune t.next (t.next true parent == some node) parent
      free := node :: t.free }
    if t.hasChild parent then some t
    else if t.value parent ≠ radixNoValue then some t
    else if t.parent parent = none then some t
    else unlink fuel t parent

/-- A deletion. -/
def delete (C : BitCursor κ) (fuel : ℕ) (c : κ) (t : RadixTree) :
    Option (RadixTree × RadixCode) := do
  match ← t.lookup C fuel c (some t.root) with
  | none => some (t, .error)
  | some node =>
    if t.hasChild node then
      if t.value node ≠ radixNoValue then
        some ({ t with value := update t.value node radixNoValue }, .ok)
      else some (t, .error)
    else do
      let t ← unlink fuel t node
      some (t, .ok)

/-- The loop of a search, with the value found so far. The cursor goes on without a mask. -/
@[grind =]
def find (C : BitCursor κ) (t : RadixTree) : ℕ → κ → Option ℕ → ℕ → Option ℕ
  | 0, _, _, _ => none
  | _ + 1, _, none, value => some value
  | fuel + 1, c, some node, value => do
    let value := if t.value node ≠ radixNoValue then t.value node else value
    let c' ← C.advance c
    find C t fuel c' (t.next (C.keyBit c) node) value

end RadixTree

/-! ### Keys of 32 bits -/

/-- The cursor is `bit`, which moves to the right until it is zero. -/
def cursor32 (key mask : UInt32) : BitCursor UInt32 where
  keyBit bit := key &&& bit != 0
  maskBit bit := bit &&& mask != 0
  advance bit := some (bit >>> 1)

/-- `ngx_radix32tree_insert`. -/
def radix32treeInsert (t : RadixTree) (key mask : UInt32) (value : ℕ) :
    Option (RadixTree × RadixCode) :=
  t.insert (cursor32 key mask) 33 0x80000000 value

/-- `ngx_radix32tree_delete`. -/
def radix32treeDelete (t : RadixTree) (key mask : UInt32) : Option (RadixTree × RadixCode) :=
  t.delete (cursor32 key mask) 33 0x80000000

/-- `ngx_radix32tree_find`. -/
def radix32treeFind (t : RadixTree) (key : UInt32) : Option ℕ :=
  t.find (cursor32 key 0) 34 0x80000000 (some t.root) radixNoValue

/-! ### Keys of 128 bits -/

/-- The cursor is the index `i` of a byte with `bit`. The loops of an insertion and of a deletion
end after the last byte. Keys and masks are arrays of which only 16 bytes are given. -/
def cursor128 (key mask : ℕ → UInt8) : BitCursor (ℕ × UInt8) where
  keyBit c := key c.1 &&& c.2 != 0
  maskBit c := c.2 &&& mask c.1 != 0
  advance c :=
    if c.2 >>> 1 = 0 then if c.1 + 1 = 16 then none else some (c.1 + 1, 0x80)
    else some (c.1, c.2 >>> 1)

/-- The cursor of a search goes on to the next byte in any case. -/
def cursorFind128 (key : ℕ → UInt8) : BitCursor (ℕ × UInt8) where
  keyBit c := key c.1 &&& c.2 != 0
  maskBit _ := false
  advance c := if c.2 >>> 1 = 0 then some (c.1 + 1, 0x80) else some (c.1, c.2 >>> 1)

/-- `ngx_radix128tree_insert`. -/
def radix128treeInsert (t : RadixTree) (key mask : ℕ → UInt8) (value : ℕ) :
    Option (RadixTree × RadixCode) :=
  t.insert (cursor128 key mask) 129 (0, 0x80) value

/-- `ngx_radix128tree_delete`. -/
def radix128treeDelete (t : RadixTree) (key mask : ℕ → UInt8) : Option (RadixTree × RadixCode) :=
  t.delete (cursor128 key mask) 129 (0, 0x80)

/-- `ngx_radix128tree_find`. -/
def radix128treeFind (t : RadixTree) (key : ℕ → UInt8) : Option ℕ :=
  t.find (cursorFind128 key) 130 (0, 0x80) (some t.root) radixNoValue

/-! ### `ngx_radix_tree_create` -/

/-- A tree with a root only. -/
def RadixTree.empty : RadixTree :=
  { root := 0, next := fun _ _ => none, parent := fun _ => none, value := fun _ => radixNoValue,
    free := [], fresh := 1 }

/-- The inner loop: a node for each prefix under the mask. -/
@[grind =]
def preallocateLevel (mask inc : UInt32) : ℕ → RadixTree → UInt32 → Option RadixTree
  | 0, _, _ => none
  | fuel + 1, t, key => do
    let (t, rc) ← radix32treeInsert t key mask radixNoValue
    if rc ≠ .ok then none
    else if key + inc = 0 then some t
    else preallocateLevel mask inc fuel t (key + inc)

/-- The outer loop: one level after the other. -/
@[grind =]
def preallocate : ℕ → RadixTree → UInt32 → UInt32 → Option RadixTree
  | 0, t, _, _ => some t
  | n + 1, t, mask, inc => do
    let mask := mask >>> 1 ||| 0x80000000
    let t ← preallocateLevel mask inc (2 ^ 32) t 0
    preallocate n t mask (inc >>> 1)

/-- `ngx_radix_tree_create`, with so many levels. The default, `-1`, depends on how many nodes
there are to a page. -/
def radixTreeCreate (nodesPerPage : ℕ) (levels : Option ℕ) : Option RadixTree :=
  let levels := match levels with
    | some n => n
    | none => if nodesPerPage = 128 then 6 else if nodesPerPage = 256 then 7 else 8
  preallocate levels .empty 0 0x80000000

end Hengine
