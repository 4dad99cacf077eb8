import Mathlib.Algebra.Ring.Nat
import Mathlib.Data.List.Basic

/-!
# Bytes, Buffers and Return Codes of the Parsers

What the request parsers share: the `u_char` constants they compare with, the `usual`
bit table, the part of `ngx_buf_t` they read, and the return codes of
`ngx_http_request.h`. A buffer is kept as the bytes before `pos` and the bytes from
`pos` to `last`; an offset is a number of bytes from the start of the memory.
-/

namespace Hengine

open List

/-- `ngx_http_parse.c`'s return values. -/
inductive ParseCode
  | ok
  | again
  | error
  | done
  | headerDone
  | invalidMethod
  | invalidRequest
  | invalidVersion
  | invalid09Method
  | invalidHeader
deriving Repr, DecidableEq

/-- The part of `ngx_buf_t` a parser reads: what stands before `pos`, and `pos .. last`. -/
structure Buf where
  before : List UInt8
  rest : List UInt8
deriving Repr, DecidableEq

namespace Buf

/-- `b->pos`, as an offset from the start of the memory. -/
def pos (b : Buf) : ℕ := b.before.length

/-- More bytes read from the connection into the same memory. -/
def append (b : Buf) (bytes : List UInt8) : Buf :=
  { b with rest := b.rest ++ bytes }

/-- `b->pos` set `n` bytes further. -/
def advance (b : Buf) (n : ℕ) : Buf :=
  { before := b.before ++ b.rest.take n, rest := b.rest.drop n }

/-- `b->pos = b->last`. -/
def drain (b : Buf) : Buf :=
  { before := b.before ++ b.rest, rest := [] }

theorem append_advance (b : Buf) (y : List UInt8) {n : ℕ} (h : n ≤ b.rest.length) :
    (b.append y).advance n = (b.advance n).append y := by
  simp only [advance, append, mk.injEq]
  exact ⟨by rw [take_append_of_le_length h], drop_append_of_le_length h⟩

/-- A drained buffer goes on where the old one ended. -/
theorem drain_append_advance (b : Buf) (y : List UInt8) (n : ℕ) :
    (b.append y).advance (b.rest.length + n) = (b.drain.append y).advance n := by
  have htake : b.rest.take (b.rest.length + n) = b.rest := take_of_length_le (by omega)
  simp [advance, append, drain, take_append, drop_append, htake]

theorem append_append (b : Buf) (x y : List UInt8) :
    (b.append x).append y = b.append (x ++ y) := by
  simp [append]

end Buf

/-! ### Recorded pointers -/

/-- The bytes of the memory between two recorded pointers. -/
def between (mem : List UInt8) (start stop : Option ℕ) : List UInt8 :=
  (mem.take (stop.getD 0)).drop (start.getD 0)

theorem between_part (pre part post : List UInt8) :
    between (pre ++ part ++ post) (some pre.length) (some (pre ++ part).length) = part := by
  rw [between, Option.getD_some, Option.getD_some, take_left, drop_left]

/-! ### Characters -/

/-- `NGX_MAX_OFF_T_VALUE`, for a 64-bit `off_t`. -/
def maxOffT : ℕ := 2 ^ 63 - 1

theorem forall_byte {P : UInt8 → Prop} (h : ∀ n < 256, P (UInt8.ofNat n)) (c : UInt8) : P c := by
  have hc := h c.toNat c.toNat_lt
  rwa [UInt8.ofNat_toNat] at hc

/-- `CR`. -/
def cr : UInt8 := 0x0d
/-- `LF`. -/
def lf : UInt8 := 0x0a

/-- The byte of an ASCII character. -/
def byte (c : Char) : UInt8 := c.toNat.toUInt8

/-- The bytes of an ASCII text. -/
def str (s : String) : List UInt8 := s.toList.map byte

theorem str_ofList (l : List Char) : str (String.ofList l) = l.map byte := by
  rw [str, String.toList_ofList]

/-- `ch >= '0' && ch <= '9'`. -/
def isDigit (ch : UInt8) : Bool := byte '0' ≤ ch && ch ≤ byte '9'

/-- `c = (u_char) (ch | 0x20)`, as the parsers fold the case of letters. -/
def fold20 (ch : UInt8) : UInt8 := ch ||| 0x20

/-- `ngx_tolower`. -/
def tolower (c : UInt8) : UInt8 := if byte 'A' ≤ c ∧ c ≤ byte 'Z' then c ||| 0x20 else c

/-- `c >= 'a' && c <= 'z'` of the folded character. -/
def isAlpha (ch : UInt8) : Bool := byte 'a' ≤ fold20 ch && fold20 ch ≤ byte 'z'

/-- The table `usual[]` (without `NGX_WIN32`). -/
def usualTable : List UInt32 :=
  [0x00000000, 0x7fff37d6, 0xffffffff, 0x7fffffff,
   0xffffffff, 0xffffffff, 0xffffffff, 0xffffffff]

/-- `usual[ch >> 5] & (1U << (ch & 0x1f))`. -/
def usual (ch : UInt8) : Bool :=
  (usualTable.getD (ch >>> 5).toNat 0) &&& ((1 : UInt32) <<< (ch &&& 0x1f).toUInt32) != 0

end Hengine
