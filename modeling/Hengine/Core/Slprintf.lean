import Hengine.Lib.Numerals

/-!
# Formatted Output

The model of `ngx_vslprintf`, `ngx_sprintf_num` and `ngx_sprintf_str`.

The buffer is what has been written behind `buf`, and `last` is its capacity. A write `*buf++` stands without
a test where the source has none, so that it could go behind `last`. An argument is taken under the type that
its directive names, and has a value for each of them; of a pointer this is the memory behind it. What is done
with a `double` is a parameter. Numbers have 64 bits, as `long`, `size_t` and the pointers.

`none` stands for a format that ends inside a directive: the source copies the terminator and goes on behind
it.

## Main definitions

* `sprintfNum`, `sprintfStr`: a number, and a string.
* `Directive.convert`: what is written for a directive.
* `vslprintf`: the loop over the format.
-/

namespace Hengine.Slprintf

/-- An argument, under every type that it can be taken as: an integer or a pointer in `word`, the memory that
a string pointer or `data` points to, the `len` of an `ngx_str_t` or an `ngx_variable_value_t`, a `double`. -/
structure Arg (δ : Type) where
  word : UInt64
  data : ℕ → UInt8
  len : UInt64
  double : δ

/-- What is done with a `double`: `f < 0`, `-f`, `(int64_t) f`, and the fraction
`(f - (double) ui64) * scale + 0.5` as an integer. -/
structure Doubles (δ : Type) where
  neg : δ → Bool
  minus : δ → δ
  toInt : δ → UInt64
  frac : δ → UInt64 → UInt64 → UInt64

/-- `hex`: 0, 1 for `x` and 2 for `X`. -/
inductive Hex
  | none
  | x
  | X
deriving DecidableEq, Repr

/-- The character of a digit, in the table of a `hex`. -/
def Hex.char (h : Hex) (digit : ℕ) : UInt8 :=
  UInt8.ofNat (if digit < 10 then 0x30 + digit else (if h = .X then 0x41 else 0x61) + (digit - 10))

/-! ### Numbers -/

/-- The loops that fill `temp` from its end, in base `k + 2`. -/
def tempDigits (c : ℕ → UInt8) (k n : ℕ) (p : List UInt8) : List UInt8 :=
  if n / (k + 2) = 0 then c (n % (k + 2)) :: p
  else tempDigits c k (n / (k + 2)) (c (n % (k + 2)) :: p)
termination_by n
decreasing_by
  refine Nat.div_lt_self (Nat.pos_of_ne_zero fun hn => ?_) (by omega)
  simp_all

/-- The digits in `temp`. -/
def temp (hexadecimal : Hex) (ui64 : UInt64) : List UInt8 :=
  if hexadecimal = .none then
    if ui64 ≤ 0xffffffff then tempDigits Hex.none.char 8 ui64.toUInt32.toNat []
    else tempDigits Hex.none.char 8 ui64.toNat []
  else tempDigits hexadecimal.char 14 ui64.toNat []

/-- The loop of the padding, `n` times at most. -/
@[grind =]
def padding (last : ℕ) (zero : UInt8) : ℕ → List UInt8 → List UInt8
  | 0, buf => buf
  | n + 1, buf => if buf.length < last then padding last zero n (buf ++ [zero]) else buf

/-- `(size_t) (last - buf)`. -/
def rest (last : ℕ) (buf : List UInt8) : ℕ := (((last : ℤ) - buf.length) % 2 ^ 64).toNat

/-- `ngx_sprintf_num`. -/
def sprintfNum (last : ℕ) (buf : List UInt8) (ui64 : UInt64) (zero : UInt8) (hexadecimal : Hex)
    (width : UInt64) : List UInt8 :=
  let p := temp hexadecimal ui64
  let buf := padding last zero (width.toNat - p.length) buf
  buf ++ p.take (if last < buf.length + p.length then rest last buf else p.length)

/-! ### Strings -/

/-- `while (*src && buf < last) *buf++ = *src++`. -/
def copyZero (last : ℕ) (data : ℕ → UInt8) (i : ℕ) (buf : List UInt8) : List UInt8 :=
  if data i ≠ 0 ∧ buf.length < last then copyZero last data (i + 1) (buf ++ [data i]) else buf
termination_by last - buf.length
decreasing_by simp; omega

/-- The two digits of a byte. -/
def Hex.byte (h : Hex) (b : UInt8) : List UInt8 := [h.char (b.toNat / 16), h.char (b.toNat % 16)]

/-- `while (*src && buf < last - 1)`, with two digits for each byte. -/
def hexZero (last : ℕ) (h : Hex) (data : ℕ → UInt8) (i : ℕ) (buf : List UInt8) : List UInt8 :=
  if data i ≠ 0 ∧ buf.length + 1 < last then hexZero last h data (i + 1) (buf ++ h.byte (data i))
  else buf
termination_by last - buf.length
decreasing_by simp [Hex.byte]; omega

/-- `while (len-- && buf < last - 1)`, with two digits for each byte. -/
@[grind =]
def hexLen (last : ℕ) (h : Hex) (data : ℕ → UInt8) : ℕ → ℕ → List UInt8 → List UInt8
  | 0, _, buf => buf
  | len + 1, i, buf =>
    if buf.length + 1 < last then hexLen last h data len (i + 1) (buf ++ h.byte (data i)) else buf

/-- `ngx_sprintf_str`. The `len` of a string that ends in a zero is `(size_t) -1`. -/
def sprintfStr (last : ℕ) (buf : List UInt8) (data : ℕ → UInt8) (len : UInt64) (hexadecimal : Hex) :
    List UInt8 :=
  if hexadecimal = .none then
    if len = -1 then copyZero last data 0 buf
    else buf ++ (List.range (min (rest last buf) len.toNat)).map data
  else
    if len = -1 then hexZero last hexadecimal data 0 buf
    else hexLen last hexadecimal data len.toNat 0 buf

/-! ### Directives -/

/-- The conversions, by their letters. -/
inductive Conv
  | V | v | s
  | O | P | T | M | z | i | d | l | D | L | A
  | f | r | p | c | Z | N | percent
deriving DecidableEq, Repr

/-- The letter of a conversion. -/
def Conv.letter : Conv → UInt8
  | .V => 0x56 | .v => 0x76 | .s => 0x73
  | .O => 0x4f | .P => 0x50 | .T => 0x54 | .M => 0x4d | .z => 0x7a | .i => 0x69 | .d => 0x64
  | .l => 0x6c | .D => 0x44 | .L => 0x4c | .A => 0x41
  | .f => 0x66 | .r => 0x72 | .p => 0x70 | .c => 0x63 | .Z => 0x5a | .N => 0x4e | .percent => 0x25

/-- The cases of `switch (*fmt)`. -/
def Conv.all : List Conv :=
  [.V, .v, .s, .O, .P, .T, .M, .z, .i, .d, .l, .D, .L, .A, .f, .r, .p, .c, .Z, .N, .percent]

/-- The case of a character. -/
def Conv.ofLetter (b : UInt8) : Option Conv := Conv.all.find? fun conv => conv.letter == b

/-- Whether a conversion takes an argument. -/
def Conv.takes : Conv → Bool
  | .Z | .N | .percent => false
  | _ => true

/-- What stands between the `%` and the letter: `fracWidth` is the number behind the point, `slen` the length
for `%*s`. -/
structure Flags where
  zero : UInt8
  width : UInt64 := 0
  sign : Bool := true
  hex : Hex := .none
  maxWidth : Bool := false
  fracWidth : UInt64 := 0
  slen : UInt64 := -1
deriving DecidableEq, Repr

/-- The number of an integer conversion: with its sign, or without. -/
inductive Number
  | signed (i64 : Int64)
  | unsigned (ui64 : UInt64)
deriving DecidableEq

/-- The number of an integer conversion: the width of its type, and how it is extended to 64 bits. -/
def Conv.number (sign : Bool) (word : UInt64) : Conv → Number
  | .P => .signed word.toUInt32.toInt32.toInt64
  | .M => if word.toInt64 = -1 then .signed (-1) else .unsigned word
  | .d | .D =>
    if sign then .signed word.toUInt32.toInt32.toInt64 else .unsigned word.toUInt32.toUInt64
  | .z | .i | .l | .L | .A => if sign then .signed word.toInt64 else .unsigned word
  | .p => .unsigned word
  -- `O`, `T` and `r`
  | _ => .signed word.toInt64

/-- The flags that an integer conversion sets: `NGX_INT_T_LEN` and `NGX_ATOMIC_T_LEN` for an `m`, and those
of a pointer. -/
def Conv.flags (f : Flags) : Conv → Flags
  | .i | .A => if f.maxWidth then { f with width := 20 } else f
  | .p => { f with hex := .X, zero := 0x30, width := 16 }
  | _ => f

/-- The end of the loop's body: the minus, and the number. -/
def integer (last : ℕ) (buf : List UInt8) (f : Flags) : Number → List UInt8
  | .signed i64 =>
    if i64 < 0 then sprintfNum last (buf ++ [0x2d]) (-i64).toUInt64 f.zero f.hex f.width
    else sprintfNum last buf i64.toUInt64 f.zero f.hex f.width
  | .unsigned ui64 => sprintfNum last buf ui64 f.zero f.hex f.width

/-- `scale`, multiplied by ten `n` times. -/
@[grind =]
def scaleOf : ℕ → UInt64
  | 0 => 1
  | n + 1 => scaleOf n * 10

variable {δ : Type} (d : Doubles δ)

/-- The integer part and the fraction of a `double` that is not negative. -/
def parts (fracWidth : UInt64) (x : δ) : UInt64 × UInt64 :=
  if fracWidth = 0 then (d.toInt x, 0)
  else
    let scale := scaleOf fracWidth.toNat
    let frac := d.frac x (d.toInt x) scale
    if frac = scale then (d.toInt x + 1, 0) else (d.toInt x, frac)

/-- The case of `%f`. -/
def float (last : ℕ) (buf : List UInt8) (f : Flags) (x : δ) : List UInt8 :=
  let (buf, x) := if d.neg x then (buf ++ [0x2d], d.minus x) else (buf, x)
  let (ui64, frac) := parts d f.fracWidth x
  let buf := sprintfNum last buf ui64 f.zero .none f.width
  if f.fracWidth = 0 then buf
  else
    let buf := if buf.length < last then buf ++ [0x2e] else buf
    sprintfNum last buf frac 0x30 .none f.fracWidth

/-- The cases of `switch (*fmt)`. -/
def Conv.convert (last : ℕ) (buf : List UInt8) (f : Flags) (arg : Arg δ) : Conv → List UInt8
  | .V => sprintfStr last buf arg.data arg.len f.hex
  -- the `len` of an `ngx_variable_value_t` has 28 bits
  | .v => sprintfStr last buf arg.data (arg.len &&& 0xfffffff) f.hex
  | .s => sprintfStr last buf arg.data f.slen f.hex
  | .f => float d last buf f arg.double
  | .c => buf ++ [arg.word.toUInt8]
  | .Z => buf ++ [0]
  | .N => buf ++ [0x0a]
  | .percent => buf ++ [0x25]
  | conv => integer last buf (conv.flags f) (conv.number f.sign arg.word)

/-! ### The format -/

/-- A decimal digit of the format. -/
def isDigit (b : UInt8) : Bool := 0x30 ≤ b && b ≤ 0x39

/-- The loops over the digits of a width, and what follows them. -/
@[grind =]
def readWidth : List UInt8 → UInt64 → UInt64 × List UInt8
  | [], width => (width, [])
  | b :: fmt, width =>
    if isDigit b then readWidth fmt (width * 10 + (b - 0x30).toUInt64) else (width, b :: fmt)

variable (args : ℕ → Arg δ)

/-- The loop over the flags: the flags, what follows them, and the number of arguments taken. -/
@[grind =]
def readFlags : List UInt8 → ℕ → Flags → Flags × List UInt8 × ℕ
  | [], taken, f => (f, [], taken)
  | b :: fmt, taken, f =>
    if b = 0x75 then readFlags fmt taken { f with sign := false }
    else if b = 0x6d then readFlags fmt taken { f with maxWidth := true }
    else if b = 0x58 then readFlags fmt taken { f with hex := .X, sign := false }
    else if b = 0x78 then readFlags fmt taken { f with hex := .x, sign := false }
    else if b = 0x2e then
      let (fracWidth, fmt) := readWidth fmt f.fracWidth
      ({ f with fracWidth }, fmt, taken)
    else if b = 0x2a then readFlags fmt (taken + 1) { f with slen := (args taken).word }
    else (f, b :: fmt, taken)

/-- What follows a `%`, up to the letter. -/
def readDirective (fmt : List UInt8) (taken : ℕ) : Flags × List UInt8 × ℕ :=
  let zero := if fmt.head? = some 0x30 then 0x30 else 0x20
  let (width, fmt) := readWidth fmt 0
  readFlags args fmt taken { zero, width }

/-- `ngx_vslprintf`, with a number of turns of its loop. -/
@[grind =]
def loop (last : ℕ) : ℕ → List UInt8 → ℕ → List UInt8 → Option (List UInt8)
  | _, [], _, buf => some buf
  | 0, _ :: _, _, _ => none
  | turns + 1, b :: fmt, taken, buf =>
    if last ≤ buf.length then some buf
    else if b = 0x25 then
      match readDirective args fmt taken with
      | (_, [], _) => none
      | (f, b :: fmt, taken) =>
        match Conv.ofLetter b with
        | some conv =>
          loop last turns fmt (taken + conv.takes.toNat) (conv.convert d last buf f (args taken))
        | none => loop last turns fmt taken (buf ++ [b])
    else loop last turns fmt taken (buf ++ [b])

/-- `ngx_vslprintf`: what is written for a format, with the bytes before its terminator in `fmt`, and a
buffer of `last` bytes. The format has fewer directives than bytes. -/
def vslprintf (last : ℕ) (fmt : List UInt8) : Option (List UInt8) := loop d args last fmt.length fmt 0 []

end Hengine.Slprintf
