import Hengine.Dubbo.Hessian

/-!
# Hessian 2: Objects

The model of `write_object` and `read_object` in `hessian2_output.cc` and `hessian2_input.cc`, with the
part of `hessian2_ext.cc` for maps.

A map is known by its address. The writer numbers the maps in the order in which it begins to write
them, and writes a map that it has begun before as a reference, with its number. The reader numbers
them in the same way. So a value is a tree with an address at every map, where a map that occurs once
more is a leaf `ref` with its address; for the reader the addresses are the numbers.

The entries of a map stand in the order of the tree `std::map`, for the writer, and in the order in which
they were put, for the reader, which does not look at it. The reader turns in a circle where it does not
consume anything; so it has a number of steps, and fails when there are no more.

## Main definitions

* `Obj`: the values.
* `writeObject`, `readObject`: the writer and the reader.
-/

namespace Hengine.Hessian

mutual

/-- `Object`. A double is given by its 64 bits. -/
inductive Obj
  | null
  | bool (v : Bool)
  | int (v : Int32)
  | long (v : Int64)
  | double (bits : UInt64)
  | date (v : Int64)
  | str (s : List UInt8)
  | bytes (s : List UInt8)
  | map (id : ℕ) (entries : Entries)
  | ref (id : ℕ)

/-- The entries of a `Map`. -/
inductive Entries
  | nil
  | cons (key value : Obj) (rest : Entries)

end

/-! ### Writing -/

/-- `hessian2_output::write_ref(int32_t)`. -/
def writeRef (i : ℕ) : List UInt8 := 0x51 :: numberBytes 4 i

mutual

/-- `hessian2_output::write_object`; `refs` are the maps that have been begun, in the order of their
numbers. -/
def writeObject : Obj → List ℕ → List UInt8 × List ℕ
  | .null, refs => (writeNull, refs)
  | .bool v, refs => ([if v then 0x54 else 0x46], refs)
  | .int v, refs => (0x49 :: numberBytes 4 v.toUInt32.toNat, refs)
  | .long v, refs => (0x4c :: numberBytes 8 v.toUInt64.toNat, refs)
  | .double bits, refs => (0x44 :: numberBytes 8 bits.toNat, refs)
  | .date v, refs => (0x4a :: numberBytes 8 v.toUInt64.toNat, refs)
  | .str s, refs => (writeUtf8String s, refs)
  | .bytes s, refs => (writeBytes s, refs)
  | .map id entries, refs =>
    match refs.idxOf? id with
    | some i => (writeRef i, refs)
    | none =>
      let r := writeEntries entries (refs ++ [id])
      (0x48 :: r.1 ++ [0x5a], r.2)
  | .ref id, refs => (writeRef (refs.idxOf id), refs)

/-- The loop of `map_serialize_hessian2`. -/
@[grind =]
def writeEntries : Entries → List ℕ → List UInt8 × List ℕ
  | .nil, refs => ([], refs)
  | .cons key value rest, refs =>
    let k := writeObject key refs
    let v := writeObject value k.2
    let r := writeEntries rest v.2
    (k.1 ++ v.1 ++ r.1, r.2)

end

/-! ### Maps -/

/-- Neither of two doubles is less than the other: they are equal, or both zero, or one of them is not a
number. -/
def sameDouble (a b : UInt64) : Bool :=
  let magnitude (x : UInt64) : UInt64 := x &&& 0x7fffffffffffffff
  a = b || magnitude a = 0 && magnitude b = 0 || 0x7ff0000000000000 < magnitude a ||
    0x7ff0000000000000 < magnitude b

/-- Two keys neither of which is less for `object_ptr_less_comparator`. -/
def sameKey : Obj → Obj → Bool
  | .null, .null => true
  | .bool a, .bool b => a = b
  | .int a, .int b => a = b
  | .long a, .long b => a = b
  | .double a, .double b => sameDouble a b
  | .date a, .date b => a = b
  | .str a, .str b => a = b
  | .bytes a, .bytes b => a = b
  | .map a _, .map b _ => a = b
  | .map a _, .ref b => a = b
  | .ref a, .map b _ => a = b
  | .ref a, .ref b => a = b
  | _, _ => false

/-- `Map::put`. -/
@[grind =]
def Entries.put (key value : Obj) : Entries → Entries
  | .nil => .cons key value .nil
  | .cons key' value' rest =>
    if sameKey key' key then .cons key' value rest
    else .cons key' value' (rest.put key value)

/-! ### Reading -/

/-- What the reader does with floating point numbers, and with the exceptions of Java. -/
structure Ext extends Doubles where
  exception : List UInt8 → ℕ → Reader UInt8 (Obj × ℕ)

/-- `hessian2_input::read_int32`. -/
def readInt32 (d : Doubles) : Reader UInt8 ℤ := do
  let tag ← Reader.next
  if tag = 68 then return d.toInt (← Reader.number 8)
  else if tag = 70 ∨ tag = 78 ∨ tag = 91 then return 0
  else if tag = 73 ∨ tag = 89 then return signed 32 (← Reader.number 4)
  else if tag = 76 then return signed 32 (← Reader.number 8)
  else if tag = 84 ∨ tag = 92 then return 1
  else if tag = 93 then addOne 0
  else if tag = 94 then return signed 16 (← addTwo 0).toNat
  else if tag = 95 then return d.toInt (d.seconds (signed 32 (← Reader.number 4)))
  else readShort tag

/-- `hessian2_input::read_int64`. -/
def readInt64 (d : Doubles) : Reader UInt8 ℤ := do
  let tag ← Reader.next
  if tag = 68 then return d.toInt (← Reader.number 8)
  else if tag = 70 ∨ tag = 78 ∨ tag = 91 then return 0
  else if tag = 73 ∨ tag = 89 then return (← Reader.number 4)
  else if tag = 76 then return signed 64 (← Reader.number 8)
  else if tag = 84 ∨ tag = 92 then return 1
  else if tag = 93 then addOne 0
  else if tag = 94 then addTwo 0
  else if tag = 95 then return d.toInt (d.seconds (signed 32 (← Reader.number 4)))
  else readShort tag

/-- `hessian2_input::read_double`. -/
def readDouble (d : Doubles) : Reader UInt8 ℕ := do
  let tag ← Reader.next
  if tag = 68 ∨ tag = 73 ∨ tag = 89 then Reader.number 8
  else if tag = 70 ∨ tag = 78 ∨ tag = 91 then return d.ofInt 0
  else if tag = 76 then return d.ofInt (← Reader.number 8)
  else if tag = 84 ∨ tag = 92 then return d.ofInt 1
  else if tag = 93 then return d.ofInt (← addOne 0)
  else if tag = 94 then return d.ofInt (← addTwo 0)
  else if tag = 95 then return d.seconds (signed 32 (← Reader.number 4))
  else return d.ofInt (← readShort tag)

/-- `hessian2_input::read_utc_date`. -/
def readUtcDate : Reader UInt8 ℤ := do
  let tag ← Reader.next
  if tag = 74 then return signed 64 (← Reader.number 8)
  else if tag = 75 then return (← Reader.number 4) * 60000
  else failure

/-- `hessian2_input::read_bool`, for the tags with which `read_object` calls it. -/
def readBool : Reader UInt8 Bool := do
  let tag ← Reader.next
  if tag = 70 then return false
  else if tag = 84 then return true
  else failure

/-- The loop of `read_map`, with a reader of objects; `n` is the number of the next map. -/
@[grind =]
def readEntries (read : ℕ → Reader UInt8 (Obj × ℕ)) :
    ℕ → ℕ → Entries → Reader UInt8 (Entries × ℕ)
  | 0, _, _ => failure
  | turns + 1, n, entries => do
    let tag ← Reader.peek
    if tag = 0x5a then
      let _ ← Reader.next
      return (entries, n)
    else
      let (key, n) ← read n
      let (value, n) ← read n
      readEntries read turns n (entries.put key value)

/-- A map of a type without a deserializer of its own. -/
def readPlainMap (read : ℕ → Reader UInt8 (Obj × ℕ)) (turns n : ℕ) : Reader UInt8 (Obj × ℕ) := do
  let (entries, m) ← readEntries read turns (n + 1) .nil
  return (.map n entries, m)

/-- `string_ends_with`. -/
def stringEndsWith (target suffix : List UInt8) : Bool := suffix.reverse.isPrefixOf target.reverse

/-- `hessian2_input::read_map`. -/
def readMap (x : Ext) (read : ℕ → Reader UInt8 (Obj × ℕ)) (turns n : ℕ) :
    Reader UInt8 (Obj × ℕ) := do
  let tag ← Reader.next
  if tag = 0x48 then readPlainMap read turns n
  else if tag = 0x4d then
    match ← readUtf8String x.toDoubles with
    | none => failure
    | some type =>
      if stringEndsWith type "Exception".toUTF8.toList ∨
          stringEndsWith type "Error".toUTF8.toList then x.exception type n
      else readPlainMap read turns n
  else if tag = 0x4e then return (.null, n)
  else failure

/-- A `String` or a `ByteArray` needs its bytes. -/
def present : Option (List UInt8) → Reader UInt8 (List UInt8)
  | none => failure
  | some s => pure s

/-- `hessian2_input::read_object`, in at most so many steps; `n` is the number of the next map. It looks
at the tag, and does not take it away for a null pointer or a reference. -/
@[grind =]
def readObject (x : Ext) : ℕ → ℕ → Reader UInt8 (Obj × ℕ)
  | 0, _ => failure
  | fuel + 1, n => do
    let tag ← Reader.peek
    if tag ≤ 31 ∨ 48 ≤ tag ∧ tag ≤ 51 ∨ tag = 82 ∨ tag = 83 then
      return (.str (← present (← readUtf8String x.toDoubles)), n)
    else if 32 ≤ tag ∧ tag ≤ 47 ∨ 52 ≤ tag ∧ tag ≤ 55 ∨ tag = 65 ∨ tag = 66 then
      return (.bytes (← present (← readBytes)), n)
    else if 56 ≤ tag ∧ tag ≤ 63 ∨ tag = 76 ∨ tag = 89 ∨ 216 ≤ tag then
      return (.long (Int64.ofInt (← readInt64 x.toDoubles)), n)
    else if tag = 68 ∨ 91 ≤ tag ∧ tag ≤ 95 then
      return (.double (UInt64.ofNat (← readDouble x.toDoubles)), n)
    else if tag = 70 ∨ tag = 84 then return (.bool (← readBool), n)
    else if tag = 72 ∨ tag = 77 then readMap x (readObject x fuel) fuel n
    else if tag = 73 ∨ 128 ≤ tag ∧ tag ≤ 215 then
      return (.int (Int32.ofInt (← readInt32 x.toDoubles)), n)
    else if tag = 74 ∨ tag = 75 then return (.date (Int64.ofInt (← readUtcDate)), n)
    else if tag = 78 then return (.null, n)
    else if tag = 81 then
      let i ← Reader.number 4
      if i < n then return (.ref i, n) else failure
    else failure

end Hengine.Hessian
