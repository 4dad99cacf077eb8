import Hengine.Lib.Numerals

/-!
# Addresses as text

The model of `ngx_inet_addr`, `ngx_inet6_addr` and `ngx_inet6_ntop` in `ngx_inet.c`.

An IPv6 address is a list of 16 bytes. The parser writes the bytes it reads at `addr`, one behind the
other: they are the list `out`, and what stood in the 16 bytes before is `mem`. Where `::` stands, the
bytes behind it are moved to the end of the address, and the gap is filled with zero bytes; the two loops
for that are `moveBack` and `zeroFill`. The machine is little-endian.
-/

namespace Hengine.Inet

open List

/-! ### IPv4 addresses -/

/-- `htonl` and `ntohl`: the four bytes in the other order. -/
def htonl (w : UInt32) : UInt32 :=
  (w.toUInt8.toUInt32 <<< 24) + ((w >>> 8).toUInt8.toUInt32 <<< 16) +
    ((w >>> 16).toUInt8.toUInt32 <<< 8) + (w >>> 24).toUInt8.toUInt32

/-- `INADDR_NONE`. -/
def inaddrNone : UInt32 := 0xffffffff

/-- The loop of `ngx_inet_addr`. -/
@[grind =]
def inetAddrLoop : List UInt8 → UInt32 → ℕ → ℕ → UInt32
  | [], addr, octet, n => if n = 3 then htonl ((addr <<< 8) + octet.toUInt32) else inaddrNone
  | c :: text, addr, octet, n =>
    if 0x30 ≤ c ∧ c ≤ 0x39 then
      if 255 < octet * 10 + (c - 0x30).toNat then inaddrNone
      else inetAddrLoop text addr (octet * 10 + (c - 0x30).toNat) n
    else if c = 0x2e then inetAddrLoop text ((addr <<< 8) + octet.toUInt32) 0 (n + 1)
    else inaddrNone

/-- `ngx_inet_addr`. -/
def inetAddr (text : List UInt8) : UInt32 := inetAddrLoop text 0 0 0

/-! ### The parser -/

/-- The local variables of `ngx_inet6_addr`. `digit` is the text that begins at the pointer and has
`len4 - 1` bytes. -/
structure State where
  out : List UInt8
  zero : Option ℕ
  digit : Option (List UInt8)
  n : ℕ
  nibbles : ℕ
  word : ℕ
  deriving DecidableEq

/-- `*addr++ = (u_char) (word >> 8); *addr++ = (u_char) (word & 0xff)`. -/
def wordBytes (word : ℕ) : List UInt8 := [(word >>> 8).toUInt8, (word &&& 0xff).toUInt8]

/-- The branch for a dot. -/
def dotted (st : State) : Option State :=
  match st.digit with
  | none => none
  | some digit =>
    if st.n < 2 then none
    else if inetAddr digit = inaddrNone then none
    else
      let word := htonl (inetAddr digit)
      some { st with
        word := word.toNat
        out := st.out ++ [((word >>> 24) &&& 0xff).toUInt8, ((word >>> 16) &&& 0xff).toUInt8]
        n := st.n - 1 }

/-- The loop of `ngx_inet6_addr`. -/
@[grind =]
def inet6Loop : List UInt8 → State → Option State
  | [], st => some st
  | c :: text, st =>
    if c = 0x3a then
      if st.nibbles ≠ 0 then
        if st.n - 1 ≠ 0 then
          inet6Loop text { st with
            digit := some text, out := st.out ++ wordBytes st.word, n := st.n - 1
            nibbles := 0, word := 0 }
        else none
      else if st.zero = none then
        inet6Loop text { st with digit := some text, zero := some st.out.length }
      else none
    else if c = 0x2e ∧ st.nibbles ≠ 0 then dotted st
    else if 4 < st.nibbles + 1 then none
    else if 0x30 ≤ c ∧ c ≤ 0x39 then
      inet6Loop text { st with nibbles := st.nibbles + 1, word := st.word * 16 + (c - 0x30).toNat }
    else if 0x61 ≤ c ||| 0x20 ∧ c ||| 0x20 ≤ 0x66 then
      inet6Loop text { st with
        nibbles := st.nibbles + 1, word := st.word * 16 + ((c ||| 0x20) - 0x61).toNat + 10 }
    else none

/-- `while (s >= zero) *d-- = *s--`, where `count` bytes are left from `zero` at `z`, and `d` is `n` bytes
behind `s`. -/
@[grind =]
def moveBack (n z : ℕ) : ℕ → List UInt8 → List UInt8
  | 0, mem => mem
  | count + 1, mem => moveBack n z count (mem.set (z + count + n) (mem.getD (z + count) 0))

/-- `ngx_memzero(zero, n)`. -/
def zeroFill (n z : ℕ) (mem : List UInt8) : List UInt8 :=
  mem.take z ++ (List.replicate n 0 ++ mem.drop (z + n))

/-- The bytes that were written, moved and filled in the memory of the address. -/
def expand (mem out : List UInt8) (z n : ℕ) : List UInt8 :=
  zeroFill n z (moveBack n z (out.length - z) (out ++ mem.drop out.length))

/-- What follows the loop. -/
def inet6Finish (mem : List UInt8) (st : State) : Option (List UInt8) :=
  if st.nibbles = 0 ∧ st.zero = none then none
  else
    let out := st.out ++ wordBytes st.word
    if st.n - 1 ≠ 0 then
      match st.zero with
      | some z => some (expand mem out z ((st.n - 1) * 2))
      | none => none
    else
      match st.zero with
      | none => some (out ++ mem.drop out.length)
      | some _ => none

/-- `ngx_inet6_addr` with the memory `mem` at `addr`. -/
def inet6Addr (p mem : List UInt8) : Option (List UInt8) :=
  match p with
  | [] => none
  | c :: text =>
    let st : State := { out := [], zero := none, digit := none, n := 8, nibbles := 0, word := 0 }
    (inet6Loop (if c = 0x3a then text else c :: text) st).bind (inet6Finish mem)

/-! ### The printer -/

/-- A digit of `hex[] = "0123456789abcdef"`. -/
def hexChar (d : ℕ) : UInt8 := if d < 10 then 0x30 + d.toUInt8 else 0x61 + (d - 10).toUInt8

/-- `%xd` of `ngx_sprintf`. -/
def sprintfHex (n : ℕ) : List UInt8 := numeral hexChar 14 n

/-- `%ud` of `ngx_sprintf`. -/
def sprintfDec (n : ℕ) : List UInt8 := numeral hexChar 8 n

/-- `"%ud.%ud.%ud.%ud"`. -/
def sprintfDotted (a b c d : UInt8) : List UInt8 :=
  sprintfDec a.toNat ++ 0x2e :: (sprintfDec b.toNat ++ 0x2e :: (sprintfDec c.toNat ++
    0x2e :: sprintfDec d.toNat))

/-- The local variables of the loop that looks for zeros; `none` is `(ngx_uint_t) -1`. -/
structure Zeros where
  zero : Option ℕ
  last : Option ℕ
  max : ℕ
  n : ℕ
  deriving DecidableEq

/-- `if (max < n) { zero = last; max = n; }`. -/
def Zeros.record (z : Zeros) : Zeros :=
  if z.max < z.n then { z with zero := z.last, max := z.n } else z

/-- One turn of the loop that looks for zeros. -/
def Zeros.turn (p : List UInt8) (z : Zeros) (i : ℕ) : Zeros :=
  if p.getD i 0 ≠ 0 ∨ p.getD (i + 1) 0 ≠ 0 then { z.record with n := 0 }
  else { z with n := z.n + 1, last := if z.n = 0 then some i else z.last }

/-- The loop that looks for zeros. -/
def Zeros.scan (p : List UInt8) : Zeros :=
  ([0, 2, 4, 6, 8, 10, 12, 14].foldl (Zeros.turn p) ⟨none, none, 1, 0⟩).record

/-- The number of two bytes, `p[i] * 256 + p[i + 1]`. -/
def wordAt (p : List UInt8) (i : ℕ) : ℕ := (p.getD i 0).toNat * 256 + (p.getD (i + 1) 0).toNat

/-- The loop that prints the words up to `n`. -/
def printWords (p : List UInt8) (zero : Option ℕ) (max n i : ℕ) : List UInt8 :=
  if i < n then
    if some i = zero then 0x3a :: printWords p zero max n (i + (max - 1) * 2 + 2)
    else sprintfHex (wordAt p i) ++ ((if i < 14 then [0x3a] else []) ++ printWords p zero max n (i + 2))
  else []
termination_by n - i

/-- Whether the last four bytes are printed as an IPv4 address. -/
def dottedTail (p : List UInt8) (z : Zeros) : Prop :=
  z.zero = some 0 ∧
    (z.max = 5 ∧ p.getD 10 0 = 0xff ∧ p.getD 11 0 = 0xff ∨ z.max = 6 ∨
      z.max = 7 ∧ p.getD 14 0 ≠ 0 ∧ p.getD 15 0 ≠ 1)

instance (p : List UInt8) (z : Zeros) : Decidable (dottedTail p z) :=
  inferInstanceAs (Decidable (_ ∧ (_ ∨ _ ∨ _)))

/-- `NGX_INET6_ADDRSTRLEN`. -/
def inet6AddrStrLen : ℕ := 45

/-- `ngx_inet6_ntop`: the text that is written. -/
def inet6Ntop (p : List UInt8) (len : ℕ) : List UInt8 :=
  if len < inet6AddrStrLen then []
  else
    let z := Zeros.scan p
    let n := if dottedTail p z then 12 else 16
    (if z.zero = some 0 then [0x3a] else []) ++ (printWords p z.zero z.max n 0 ++
      if n = 12 then sprintfDotted (p.getD 12 0) (p.getD 13 0) (p.getD 14 0) (p.getD 15 0) else [])

/-! ### Moving bytes -/

/-- **The loop moves the bytes** by the width of the gap. -/
theorem getElem?_moveBack {n z : ℕ} (hn : 0 < n) : ∀ (count : ℕ) {mem : List UInt8},
    z + count + n ≤ mem.length → ∀ i, (moveBack n z count mem)[i]? =
      if z + n ≤ i ∧ i < z + n + count then mem[i - n]? else mem[i]?
  | 0, mem, _, i => by
    rw [moveBack, if_neg (by omega)]
  | count + 1, mem, h, i => by
    have hget : mem.getD (z + count) 0 = mem[z + count] := by
      rw [getD_eq_getElem?_getD, getElem?_eq_getElem (by omega), Option.getD_some]
    rw [moveBack, getElem?_moveBack hn count (by rw [length_set]; omega)]
    by_cases hlast : i = z + count + n
    · rw [if_neg (by omega), if_pos (by omega), hlast, getElem?_set_self (by omega), hget,
        Nat.add_sub_cancel, getElem?_eq_getElem]
    · by_cases hin : z + n ≤ i ∧ i < z + n + count
      · rw [if_pos hin, if_pos (by omega), getElem?_set_ne (by omega)]
      · rw [if_neg hin, if_neg (by omega), getElem?_set_ne (by omega)]

/-- **A gap in an address**: what was written behind it goes to the end, if with the gap there are as many
bytes as in the address. -/
theorem expand_eq {mem a b : List UInt8} {n : ℕ} (hn : 0 < n)
    (hlen : a.length + b.length + n = mem.length) :
    expand mem (a ++ b) a.length n = a ++ (List.replicate n 0 ++ b) := by
  have hmem : (a ++ b ++ mem.drop (a ++ b).length).length = mem.length := by
    simp only [length_append, length_drop]
    omega
  rw [expand, zeroFill, length_append, Nat.add_sub_cancel_left, ← length_append]
  congr 1
  · apply ext_getElem?
    intro i
    rw [getElem?_take]
    split_ifs with hi
    · rw [getElem?_moveBack hn _ (by omega), if_neg (by omega), append_assoc,
        getElem?_append_left hi]
    · rw [getElem?_eq_none (by omega)]
  congr 1
  apply ext_getElem?
  intro i
  rw [getElem?_drop, getElem?_moveBack hn _ (by omega)]
  by_cases hi : i < b.length
  · rw [if_pos (by omega), append_assoc, getElem?_append_right (by omega),
      getElem?_append_left (by omega)]
    congr 1
    omega
  · rw [if_neg (by omega), getElem?_eq_none (by omega), getElem?_eq_none (by omega)]

end Hengine.Inet
