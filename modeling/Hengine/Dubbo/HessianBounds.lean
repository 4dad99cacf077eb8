import Hengine.Dubbo.HessianObject

/-!
# Hessian 2: the Pointer of the Reader

The model of `hessian2_input` with the pointer `_curr`, and of the reader of exceptions in `hessian2_ext.cc`.
Every access to a byte is one of its own, and says so when the byte is behind the end of the data; the tests
against `_end` stand where they stand in the source. In front of the loop of a map and behind the first byte
of a character the model has a hook (`Mode`): in the source nothing is tested there.

A reader gives what the rest of the reading depends on: the strings, for the types and the keys of exceptions,
and whether an object is null or an exception. The numbers and the other values are those of `readObject`.
The memory of the objects is left out, but for the two strings of an exception that are not allocated with
`new`: `Safeguard` frees these too when an exception is thrown while they are read. A reader has a number of steps, for the loop of a map can turn in a
circle.

## Main definitions

* `parseUtf8String`, `readUtf8String`, `readBytes`, `readMap`, `readObject`: the readers.
* `Mode.source`: the reader of the source.
* `Mode.tested`: a reader that tests for the end before every byte, and for a null before every entry of a map.
-/

namespace Hengine.Hessian.Bounds

/-- What is known of an object. -/
inductive Kind
  | null
  | exception
  | other
deriving DecidableEq, Repr

/-- `_curr`, and the objects of `_refs_list`. -/
structure Place where
  curr : ℕ
  refs : List Kind
deriving DecidableEq, Repr

/-- Why a reader stops: it throws an exception; it reads the byte `i` behind the end; it takes what a null
pointer points to; it frees what was not allocated; it has no steps any more. The tested reader stops instead where the end cuts a character,
and where an entry of a map is null. -/
inductive Stop
  | error
  | outside (i : ℕ)
  | null
  | freed
  | again
  | cut
  | circle
deriving DecidableEq, Repr

/-- A reader with a pointer into its data. -/
abbrev Cursor := ReaderT (List UInt8) (StateT Place (Except Stop))

/-- A reader stops. -/
def stop {α : Type} (e : Stop) : Cursor α := fun _ _ => .error e

/-- `Safeguard<string>`, when the string is one that the caller has not allocated with `new`: an exception
frees it. -/
def safeguard {α : Type} (c : Cursor α) : Cursor α := fun data s =>
  match c data s with
  | .error .error => .error .freed
  | r => r

/-- `*_curr`. -/
def deref : Cursor UInt8 := fun data s =>
  match data[s.curr]? with
  | some b => .ok (b, s)
  | none => .error (.outside s.curr)

/-- `seek`. -/
def seek (offset : ℕ) : Cursor Unit := fun _ s => .ok ((), { s with curr := s.curr + offset })

/-- `*_curr++`. -/
def derefNext : Cursor UInt8 := do
  let b ← deref
  seek 1
  return b

/-- `n` times `*_curr++`. -/
@[grind =]
def derefs : ℕ → Cursor (List UInt8)
  | 0 => pure []
  | n + 1 => do
    let b ← derefNext
    return b :: (← derefs n)

/-- An exception if `_curr + offset >= _end`. -/
def guardEnd (offset : ℤ) : Cursor Unit := fun data s =>
  if (data.length : ℤ) ≤ s.curr + offset then .error .error else .ok ((), s)

/-- `peek`. -/
def peek : Cursor UInt8 := do
  guardEnd 0
  deref

/-- `parse_8bit`. -/
def parse8bit : Cursor UInt8 := do
  guardEnd 0
  derefNext

/-- `parse_16bit`, `parse_32bit` and `parse_64bit`, with `n` for the number of bytes. -/
def parseBytes (n : ℕ) : Cursor ℕ := do
  guardEnd (n - 1)
  return ofNumberBytes (← derefs n)

/-- `parse_16bit`. -/
def parse16bit : Cursor ℕ := parseBytes 2

/-- `parse_32bit`. -/
def parse32bit : Cursor ℕ := parseBytes 4

/-- `parse_64bit`. -/
def parse64bit : Cursor ℕ := parseBytes 8

/-- `parse_double`. -/
def parseDouble : Cursor ℕ := parse64bit

/-- `parse_raw_bytes`. -/
def parseRawBytes (byteSize : ℕ) : Cursor (List UInt8) := do
  guardEnd (byteSize - 1)
  derefs byteSize

/-- What happens where the source tests nothing: `next` for the bytes behind the first one of a character,
`entry` before a key and before a value of a map. -/
structure Mode where
  next : Cursor UInt8
  entry : Cursor Unit

/-- The reader of the source. -/
def Mode.source : Mode := ⟨derefNext, pure ()⟩

/-- The end is tested for before every byte, and a null before every entry. -/
def Mode.tested : Mode where
  next := fun data s => if data.length ≤ s.curr then .error .cut else derefNext data s
  entry := fun data s => if data[s.curr]? = some 78 then .error .circle else .ok ((), s)

variable (m : Mode) (d : Doubles)

/-! ### Strings and byte arrays -/

/-- The loop of `parse_utf8_string`. -/
@[grind =]
def parseChars : ℕ → Cursor (List UInt8)
  | 0 => pure []
  | charSize + 1 => do
    guardEnd 0
    let ch ← derefNext
    if ch < 0x80 then return ch :: (← parseChars charSize)
    else if ch &&& 0xe0 = 0xc0 then
      let b ← m.next
      return ch :: b :: (← parseChars charSize)
    else if ch &&& 0xf0 = 0xe0 then
      let b ← m.next
      let b' ← m.next
      return ch :: b :: b' :: (← parseChars charSize)
    else stop .error

/-- `parse_utf8_string`. -/
def parseUtf8String (charSize : ℕ) : Cursor (List UInt8) := do
  guardEnd (charSize - 1)
  parseChars m charSize

/-- The loops of `read_chunked_utf8_string` and `read_chunked_bytes`: chunks with the tag `mark`, and then the
last one. -/
@[grind =]
def readChunks (mark : UInt8) (parse : ℕ → Cursor (List UInt8)) (last : UInt8 → Cursor (List UInt8)) :
    ℕ → UInt8 → Cursor (List UInt8)
  | 0, _ => stop .again
  | turns + 1, tag =>
    if tag = mark then do
      let size ← parse16bit
      let chunk ← parse size
      let tag ← parse8bit
      return chunk ++ (← readChunks mark parse last turns tag)
    else last tag

/-- `read_chunked_utf8_string` and `read_chunked_bytes`, with a guard for the string from behind the first tag
on; a turn takes more than one byte, so there are at most as many as there are bytes. -/
def readChunked (guard : Cursor (List UInt8) → Cursor (List UInt8)) (mark : UInt8)
    (parse : ℕ → Cursor (List UInt8)) (last : UInt8 → Cursor (List UInt8)) :
    Cursor (Option (List UInt8)) := do
  let tag ← parse8bit
  if tag = 78 then return none
  else
    let data ← read
    return some (← guard (readChunks mark parse last (data.length + 1) tag))

/-- The last chunk of `read_chunked_utf8_string`, and the strings of one chunk of `read_utf8_string`. -/
def lastString (tag : UInt8) : Cursor (List UInt8) :=
  if tag ≤ 31 then parseUtf8String m tag.toNat
  else if 48 ≤ tag ∧ tag ≤ 51 then do
    let b ← parse8bit
    parseUtf8String m ((tag.toNat - 48) * 256 + b.toNat)
  else if tag = 83 then do
    let size ← parse16bit
    parseUtf8String m size
  else stop .error

/-- `read_chunked_utf8_string()`. -/
def readChunkedUtf8String : Cursor (Option (List UInt8)) :=
  readChunked id 0x52 (parseUtf8String m) (lastString m)

/-- `read_chunked_utf8_string(mutable_detail_message())`. -/
def readDetailMessage : Cursor (Option (List UInt8)) :=
  readChunked safeguard 0x52 (parseUtf8String m) (lastString m)

/-- `256 * parse_8bit() + parse_8bit()`. -/
def addTwo (base : ℤ) : Cursor ℤ := do
  let a ← parse8bit
  let b ← parse8bit
  return base + 256 * a.toNat + b.toNat

/-- `base + parse_8bit()`. -/
def addOne (base : ℤ) : Cursor ℤ := do
  let b ← parse8bit
  return base + b.toNat

/-- The integers of one to three bytes that all readers of numbers read in the same way. -/
def readShort (tag : UInt8) : Cursor ℤ :=
  let t : ℤ := tag.toNat
  if 56 ≤ tag ∧ tag ≤ 63 then addTwo ((t - 60) * 65536)
  else if 128 ≤ tag ∧ tag ≤ 191 then pure (t - 144)
  else if 192 ≤ tag ∧ tag ≤ 207 then addOne ((t - 200) * 256)
  else if 208 ≤ tag ∧ tag ≤ 215 then addTwo ((t - 212) * 65536)
  else if 216 ≤ tag ∧ tag ≤ 239 then pure (t - 224)
  else if 240 ≤ tag then addOne ((t - 248) * 256)
  else stop .error

/-- `read_utf8_string()`. -/
def readUtf8String : Cursor (Option (List UInt8)) := do
  let tag ← parse8bit
  if tag ≤ 31 ∨ 48 ≤ tag ∧ tag ≤ 51 ∨ tag = 83 then return some (← lastString m tag)
  else if tag = 68 then return some (d.text (← parseDouble))
  else if tag = 70 then return some "false".toUTF8.toList
  else if tag = 73 ∨ tag = 89 then return some (int32ToString (signed 32 (← parse32bit)))
  else if tag = 76 then return some (int32ToString (signed 32 (← parse64bit)))
  else if tag = 78 then return none
  else if tag = 82 then
    modify fun s => { s with curr := s.curr - 1 }
    readChunkedUtf8String m
  else if tag = 84 then return some "true".toUTF8.toList
  else if tag = 91 then return some "0.0".toUTF8.toList
  else if tag = 92 then return some "1.0".toUTF8.toList
  else if tag = 93 then return some (int32ToString (← addOne 0))
  else if tag = 94 then return some (int32ToString (← addTwo 0))
  else if tag = 95 then return some (d.text (d.seconds (signed 32 (← parse32bit))))
  else return some (int32ToString (← readShort tag))

/-- `read_utf8_string(&key)`, for the tags `S` and `s` with which it is called. -/
def readKey : Cursor (Option (List UInt8)) := safeguard (readUtf8String m d)

/-- The last chunk of `read_chunked_bytes`, and the arrays of one chunk of `read_bytes`. -/
def lastBytes (tag : UInt8) : Cursor (List UInt8) :=
  if 32 ≤ tag ∧ tag ≤ 47 then parseRawBytes (tag.toNat - 32)
  else if 52 ≤ tag ∧ tag ≤ 55 then do
    let b ← parse8bit
    parseRawBytes ((tag.toNat - 52) * 256 + b.toNat)
  else if tag = 66 then do
    let size ← parse16bit
    parseRawBytes size
  else stop .error

/-- `read_chunked_bytes`. -/
def readChunkedBytes : Cursor (Option (List UInt8)) := readChunked id 0x41 parseRawBytes lastBytes

/-- `read_bytes`. -/
def readBytes : Cursor (Option (List UInt8)) := do
  let tag ← parse8bit
  if tag = 65 then
    modify fun s => { s with curr := s.curr - 1 }
    readChunkedBytes
  else if tag = 78 then return none
  else return some (← lastBytes tag)

/-! ### Numbers -/

/-- `(parse_8bit() << 24) + (parse_8bit() << 16) + (parse_8bit() << 8) + parse_8bit()`. -/
def fourBytes : Cursor Unit := do
  let _ ← parse8bit
  let _ ← parse8bit
  let _ ← parse8bit
  let _ ← parse8bit
  return ()

/-- `read_int32`. -/
def readInt32 : Cursor Unit := do
  let tag ← parse8bit
  if tag = 68 then discard parseDouble
  else if tag = 70 ∨ tag = 78 ∨ tag = 91 ∨ tag = 84 ∨ tag = 92 then return ()
  else if tag = 73 ∨ tag = 89 then fourBytes
  else if tag = 76 then discard parse64bit
  else if tag = 93 then discard (addOne 0)
  else if tag = 94 then discard (addTwo 0)
  else if tag = 95 then discard parse32bit
  else discard (readShort tag)

/-- `read_int64`. -/
def readInt64 : Cursor Unit := do
  let tag ← parse8bit
  if tag = 68 then discard parseDouble
  else if tag = 70 ∨ tag = 78 ∨ tag = 91 ∨ tag = 84 ∨ tag = 92 then return ()
  else if tag = 73 ∨ tag = 89 then discard parse32bit
  else if tag = 76 then discard parse64bit
  else if tag = 93 then discard (addOne 0)
  else if tag = 94 then discard (addTwo 0)
  else if tag = 95 then discard parse32bit
  else discard (readShort tag)

/-- `read_double`. -/
def readDouble : Cursor Unit := do
  let tag ← parse8bit
  if tag = 68 ∨ tag = 73 ∨ tag = 89 then discard parseDouble
  else if tag = 70 ∨ tag = 78 ∨ tag = 91 ∨ tag = 84 ∨ tag = 92 then return ()
  else if tag = 76 then discard parse64bit
  else if tag = 93 then discard (addOne 0)
  else if tag = 94 then discard (addTwo 0)
  else if tag = 95 then discard parse32bit
  else discard (readShort tag)

/-- `read_utc_date`. -/
def readUtcDate : Cursor Unit := do
  let tag ← parse8bit
  if tag = 74 then discard parse64bit
  else if tag = 75 then discard parse32bit
  else stop .error

/-- `read_bool`, for the tags with which `read_object` calls it. -/
def readBool : Cursor Unit := do
  let tag ← parse8bit
  if tag = 70 ∨ tag = 84 then return ()
  else stop .error

/-! ### Objects -/

/-- `add_ref`. -/
def addRef (k : Kind) : Cursor Unit := modify fun s => { s with refs := s.refs ++ [k] }

/-- `read_ref`. -/
def readRef : Cursor Kind := do
  let id ← parse32bit
  match (← get).refs[id]? with
  | some k => return k
  | none => stop .error

/-- The loop of `read_map`, with a reader of objects. -/
@[grind =]
def readEntries (readObject : Cursor Kind) : ℕ → Cursor Unit
  | 0 => stop .again
  | turns + 1 => do
    let tag ← peek
    if tag = 0x5a then seek 1
    else
      m.entry
      let _ ← readObject
      m.entry
      let _ ← readObject
      readEntries readObject turns

/-- The loop of `exception_deserialize`. `read_type` throws an exception, so there is no stack trace. -/
@[grind =]
def readFields (readObject : Cursor Kind) : ℕ → Cursor Unit
  | 0 => stop .again
  | turns + 1 => do
    let tag ← peek
    if tag = 0x7a then seek 1
    else if tag = 0x53 ∨ tag = 0x73 then
      let key ← readKey m d
      if key = some "detailMessage".toUTF8.toList then
        let _ ← readDetailMessage m
        readFields readObject turns
      else if key = some "cause".toUTF8.toList then
        let cause ← readObject
        if cause = .other then stop .error
        else readFields readObject turns
      else if key = some "stackTrace".toUTF8.toList then
        let tag ← parse8bit
        if tag = 78 then readFields readObject turns
        else stop .error
      else
        let _ ← readObject
        readFields readObject turns
    else stop .error

/-- `exception_deserialize`. -/
def exceptionDeserialize (readObject : Cursor Kind) (turns : ℕ) : Cursor Kind := do
  addRef .exception
  readFields m d readObject turns
  return .exception

/-- The end of `read_map`, for a type without a deserializer of its own. -/
def readPlainMap (readObject : Cursor Kind) (turns : ℕ) : Cursor Kind := do
  addRef .other
  readEntries m readObject turns
  return .other

/-- The types of exceptions: `*Exception` and `*Error`. -/
def isException (type : List UInt8) : Bool :=
  stringEndsWith type "Exception".toUTF8.toList || stringEndsWith type "Error".toUTF8.toList

/-- `Map::DEFAULT_CLASSNAME`. -/
def mapClassname : List UInt8 := "java.util.HashMap".toUTF8.toList

/-- `read_map`. -/
def readMap (readObject : Cursor Kind) (turns : ℕ) (classname : List UInt8) : Cursor Kind := do
  let tag ← parse8bit
  if tag = 0x48 then readPlainMap m readObject turns
  else if tag = 0x4d then
    match ← readUtf8String m d with
    | none => stop .null
    | some type =>
      let type := if type = [] then (if classname = [] then mapClassname else classname) else type
      if isException type then exceptionDeserialize m d readObject turns
      else readPlainMap m readObject turns
  else if tag = 78 then return .null
  else stop .error

/-- `read_object`, in at most so many steps. The tag is not taken away for a null pointer or a reference. -/
@[grind =]
def readObject : ℕ → Cursor Kind
  | 0 => stop .again
  | fuel + 1 => do
    let tag ← peek
    if tag ≤ 31 ∨ 48 ≤ tag ∧ tag ≤ 51 ∨ tag = 82 ∨ tag = 83 then
      let _ ← readUtf8String m d
      return .other
    else if 32 ≤ tag ∧ tag ≤ 47 ∨ 52 ≤ tag ∧ tag ≤ 55 ∨ tag = 65 ∨ tag = 66 then
      let _ ← readBytes
      return .other
    else if 56 ≤ tag ∧ tag ≤ 63 ∨ tag = 76 ∨ tag = 89 ∨ 216 ≤ tag then
      readInt64
      return .other
    else if tag = 68 ∨ 91 ≤ tag ∧ tag ≤ 95 then
      readDouble
      return .other
    else if tag = 70 ∨ tag = 84 then
      readBool
      return .other
    else if tag = 72 ∨ tag = 77 then readMap m d (readObject fuel) fuel []
    else if tag = 73 ∨ 128 ≤ tag ∧ tag ≤ 215 then
      readInt32
      return .other
    else if tag = 74 ∨ tag = 75 then
      readUtcDate
      return .other
    else if tag = 78 then return .null
    else if tag = 81 then readRef
    else stop .error

/-! ### Entry points -/

/-- The entry points of the reader. -/
inductive Entry
  | object
  | utf8String
  | bytes
  | int32
  | int64
  | double
  | map (classname : List UInt8)

/-- An entry point, in at most so many steps. -/
def Entry.run (fuel : ℕ) : Entry → Cursor Unit
  | object => discard (readObject m d fuel)
  | utf8String => discard (readUtf8String m d)
  | bytes => discard readBytes
  | int32 => readInt32
  | int64 => readInt64
  | double => readDouble
  | map classname => discard (readMap m d (readObject m d fuel) fuel classname)

end Hengine.Hessian.Bounds
