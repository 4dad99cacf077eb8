import Hengine.Lib.Reader

/-!
# Hessian 2: Strings and Byte Arrays

The model of the writer and the reader of strings and byte arrays in `hessian2_output.cc` and
`hessian2_input.cc`. A string is written in chunks of `0x8000` characters, a byte array in chunks of
`0x8000` bytes; the tag of a chunk says whether it is the last one, and holds its length if that is
short. A length is a number of characters for a string, and of bytes for a byte array.

What is written is appended to a string of bytes; so a writer is the list of the bytes that it appends.
A reader fails where the source throws an exception, or reads behind the end of its data. It gives
`none` for the null pointer. In sums of several bytes the operands are taken from left to right.

## Main definitions

* `writeUtf8String`, `writeBytes`: the writers.
* `readUtf8String`, `readBytes`: the readers.
-/

namespace Hengine.Hessian

/-! ### Writing -/

/-- The number of bytes that `write_utf8_string` takes for a character, by its first byte. -/
def charWidth (b : UInt8) : ℕ :=
  if b &&& 0x80 ≠ 0 then
    if b &&& 0xe0 = 0xc0 then 2
    else if b &&& 0xf0 = 0xe0 then 3
    else 4
  else 1

/-- The length of a chunk, with its tag. -/
def lengthTag (len : ℕ) : List UInt8 :=
  if len ≤ 31 then [UInt8.ofNat len]
  else if len ≤ 1023 then [UInt8.ofNat (48 + len / 256), UInt8.ofNat len]
  else 0x53 :: numberBytes 2 len

/-- The loop of `write_utf8_string`: `i` is the position, `len` the number of characters of the chunk,
which begins at `last`. -/
def writeChunks (str : List UInt8) (byteSize i len last : ℕ) : List UInt8 :=
  if i < byteSize then
    let next := i + charWidth (str.getD i 0)
    if len + 1 ≥ 0x8000 then
      0x52 :: numberBytes 2 (len + 1) ++ (str.drop last).take (next - last) ++
        writeChunks str byteSize next 0 next
    else writeChunks str byteSize next (len + 1) last
  else if len ≤ 0 then []
  else lengthTag len ++ (str.drop last).take (i - last)
termination_by byteSize - i
decreasing_by
  all_goals
    have hwidth : 0 < charWidth (str.getD i 0) := by
      unfold charWidth
      split_ifs <;> omega
    omega

/-- `hessian2_output::write_null`. -/
def writeNull : List UInt8 := [0x4e]

/-- `hessian2_output::write_utf8_string`; the size is a `uint32_t`. -/
def writeUtf8String (str : List UInt8) : List UInt8 :=
  let byteSize := str.length % 2 ^ 32
  if byteSize = 0 then writeNull else writeChunks str byteSize 0 0 0

/-- The rest of a byte array. -/
def writeLastBytes (bytes : List UInt8) : List UInt8 :=
  let size := bytes.length
  (if size ≤ 15 then [UInt8.ofNat (32 + size)]
    else if size ≤ 1023 then [UInt8.ofNat (52 + size / 256), UInt8.ofNat size]
    else 0x42 :: numberBytes 2 size) ++ bytes

/-- The loop of `write_bytes`. -/
def writeByteChunks (bytes : List UInt8) : List UInt8 :=
  if bytes.length > 0x8000 then
    0x41 :: numberBytes 2 0x8000 ++ bytes.take 0x8000 ++ writeByteChunks (bytes.drop 0x8000)
  else writeLastBytes bytes
termination_by bytes.length
decreasing_by
  rw [List.length_drop]
  omega

/-- `hessian2_output::write_bytes`; the size is a `uint32_t`. -/
def writeBytes (bytes : List UInt8) : List UInt8 :=
  let byteSize := bytes.length % 2 ^ 32
  if byteSize = 0 then writeNull else writeByteChunks (bytes.take byteSize)

/-! ### Reading -/

/-- The loop of `parse_utf8_string`. -/
@[grind =]
def parseChars : ℕ → Reader UInt8 (List UInt8)
  | 0 => pure []
  | n + 1 => do
    let ch ← Reader.next
    if ch < 0x80 then return ch :: (← parseChars n)
    else if ch &&& 0xe0 = 0xc0 then
      let b ← Reader.next
      return ch :: b :: (← parseChars n)
    else if ch &&& 0xf0 = 0xe0 then
      let b ← Reader.next
      let b' ← Reader.next
      return ch :: b :: b' :: (← parseChars n)
    else failure

/-- `hessian2_input::parse_utf8_string`. -/
def parseUtf8String (charSize : ℕ) : Reader UInt8 (List UInt8) := do
  let data ← get
  if charSize ≤ data.length then parseChars charSize else failure

/-- The loops of `read_chunked_utf8_string` and `read_chunked_bytes`: chunks with the tag `mark`, and
then the last one. A turn takes more than one byte, so there are at most as many as there are bytes. -/
@[grind =]
def readChunks (mark : UInt8) (parse : ℕ → Reader UInt8 (List UInt8))
    (last : UInt8 → Reader UInt8 (List UInt8)) : ℕ → UInt8 → Reader UInt8 (List UInt8)
  | 0, _ => failure
  | turns + 1, tag =>
    if tag = mark then do
      let size ← Reader.number 2
      let chunk ← parse size
      let tag ← Reader.next
      return chunk ++ (← readChunks mark parse last turns tag)
    else last tag

/-- `read_chunked_utf8_string` and `read_chunked_bytes`, with `dest` empty or null. -/
def readChunked (mark : UInt8) (parse : ℕ → Reader UInt8 (List UInt8))
    (last : UInt8 → Reader UInt8 (List UInt8)) : Reader UInt8 (Option (List UInt8)) := do
  let tag ← Reader.next
  if tag = 0x4e then return none
  else
    let data ← get
    return some (← readChunks mark parse last (data.length + 1) tag)

/-- The last chunk of `read_chunked_utf8_string`. -/
def lastString (tag : UInt8) : Reader UInt8 (List UInt8) :=
  if tag ≤ 31 then parseUtf8String tag.toNat
  else if 48 ≤ tag ∧ tag ≤ 51 then do
    let b ← Reader.next
    parseUtf8String ((tag.toNat - 48) * 256 + b.toNat)
  else if tag = 83 then do
    let size ← Reader.number 2
    parseUtf8String size
  else failure

/-- `hessian2_input::read_chunked_utf8_string`. -/
def readChunkedUtf8String : Reader UInt8 (Option (List UInt8)) :=
  readChunked 0x52 parseUtf8String lastString

/-- What the reader does with floating point numbers, which are given by their 64 bits: their text, and
the number of seconds for a number of milliseconds. -/
structure Doubles where
  text : ℕ → List UInt8
  ofInt : ℤ → ℕ
  seconds : ℤ → ℕ
  toInt : ℕ → ℤ

/-- A number of `bits` bits with its sign. -/
def signed (bits v : ℕ) : ℤ :=
  if v % 2 ^ bits < 2 ^ (bits - 1) then (v % 2 ^ bits : ℕ) else (v % 2 ^ bits : ℕ) - 2 ^ bits

/-- `int32_to_string`. -/
def int32ToString (v : ℤ) : List UInt8 := (toString v).toUTF8.toList

/-- The next two bytes, as a number that is added to `base`. -/
def addTwo (base : ℤ) : Reader UInt8 ℤ := do
  let a ← Reader.next
  let b ← Reader.next
  return base + 256 * a.toNat + b.toNat

/-- The next byte, as a number that is added to `base`. -/
def addOne (base : ℤ) : Reader UInt8 ℤ := do
  let b ← Reader.next
  return base + b.toNat

/-- The integers of one to three bytes that `read_int32`, `read_int64` and `read_utf8_string` read in
the same way. -/
def readShort (tag : UInt8) : Reader UInt8 ℤ :=
  let t : ℤ := tag.toNat
  if 56 ≤ tag ∧ tag ≤ 63 then addTwo ((t - 60) * 65536)
  else if 128 ≤ tag ∧ tag ≤ 191 then pure (t - 144)
  else if 192 ≤ tag ∧ tag ≤ 207 then addOne ((t - 200) * 256)
  else if 208 ≤ tag ∧ tag ≤ 215 then addTwo ((t - 212) * 65536)
  else if 216 ≤ tag ∧ tag ≤ 239 then pure (t - 224)
  else if 240 ≤ tag then addOne ((t - 248) * 256)
  else failure

/-- `hessian2_input::read_utf8_string`. -/
def readUtf8String (d : Doubles) : Reader UInt8 (Option (List UInt8)) := do
  let tag ← Reader.next
  if tag ≤ 31 ∨ 48 ≤ tag ∧ tag ≤ 51 ∨ tag = 83 then return some (← lastString tag)
  else if tag = 68 then return some (d.text (← Reader.number 8))
  else if tag = 70 then return some "false".toUTF8.toList
  else if tag = 73 ∨ tag = 89 then
    return some (int32ToString (signed 32 (← Reader.number 4)))
  else if tag = 76 then return some (int32ToString (signed 32 (← Reader.number 8)))
  else if tag = 78 then return none
  else if tag = 82 then
    modify (tag :: ·)
    readChunkedUtf8String
  else if tag = 84 then return some "true".toUTF8.toList
  else if tag = 91 then return some "0.0".toUTF8.toList
  else if tag = 92 then return some "1.0".toUTF8.toList
  else if tag = 93 then return some (int32ToString (← addOne 0))
  else if tag = 94 then return some (int32ToString (← addTwo 0))
  else if tag = 95 then
    return some (d.text (d.seconds (signed 32 (← Reader.number 4))))
  else return some (int32ToString (← readShort tag))

/-- The last chunk of `read_chunked_bytes`. -/
def lastBytes (tag : UInt8) : Reader UInt8 (List UInt8) :=
  if 32 ≤ tag ∧ tag ≤ 47 then Reader.bytes (tag.toNat - 32)
  else if 52 ≤ tag ∧ tag ≤ 55 then do
    let b ← Reader.next
    Reader.bytes ((tag.toNat - 52) * 256 + b.toNat)
  else if tag = 66 then do
    let size ← Reader.number 2
    Reader.bytes size
  else failure

/-- `hessian2_input::read_chunked_bytes`. -/
def readChunkedBytes : Reader UInt8 (Option (List UInt8)) :=
  readChunked 0x41 Reader.bytes lastBytes

/-- `hessian2_input::read_bytes`. -/
def readBytes : Reader UInt8 (Option (List UInt8)) := do
  let tag ← Reader.next
  if tag = 65 then
    modify (tag :: ·)
    readChunkedBytes
  else if tag = 78 then return none
  else return some (← lastBytes tag)

end Hengine.Hessian
