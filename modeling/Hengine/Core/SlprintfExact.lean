import Hengine.Core.Slprintf
import Mathlib.Data.Nat.Find

/-!
# What Formatted Output Writes

A format is a list of items: plain characters, and directives with a width, flags, a precision and one of the
conversions of the source. Its text is what it stands for when there is no end of the buffer. It is undefined
if a string has no end.

Every function that writes is told by one relation, `Writes`: it stays inside the buffer, and what it writes
is the text where that fits. Such functions compose.
-/

namespace Hengine.Slprintf

variable {last : ℕ} {buf buf' : List UInt8}

/-! ### Writing a text -/

/-- A text behind another one. -/
def concat (text text' : Option (List UInt8)) : Option (List UInt8) :=
  text.bind fun t => text'.map fun t' => t ++ t'

/-- A joined text is one of both parts. -/
theorem mem_concat {text text' : Option (List UInt8)} {t : List UInt8} (h : t ∈ concat text text') :
    ∃ a ∈ text, ∃ b ∈ text', t = a ++ b := by
  obtain ⟨a, ha, hb⟩ := Option.bind_eq_some_iff.mp h
  obtain ⟨b, hb', rfl⟩ := Option.map_eq_some_iff.mp hb
  exact ⟨a, ha, b, hb', rfl⟩

/-- **A text is written to a buffer**: the buffer is not left, and all of the text is there if it fits. -/
def Writes (last : ℕ) (text : Option (List UInt8)) (buf buf' : List UInt8) : Prop :=
  buf'.length ≤ last ∧ ∀ t ∈ text, buf.length + t.length ≤ last → buf' = buf ++ t

/-- One piece of the text after the other. -/
theorem Writes.trans {text text' : Option (List UInt8)} {buf'' : List UInt8}
    (h : Writes last text buf buf') (h' : Writes last text' buf' buf'') :
    Writes last (concat text text') buf buf'' := by
  refine ⟨h'.1, fun t ht hfits => ?_⟩
  obtain ⟨a, ha, b, hb, rfl⟩ := mem_concat ht
  rw [List.length_append] at hfits
  have hfirst : buf' = buf ++ a := h.2 a ha (by omega)
  have hlen : buf'.length = buf.length + a.length := by rw [hfirst, List.length_append]
  rw [h'.2 b hb (by omega), hfirst, List.append_assoc]

theorem writes_char (h : buf.length < last) (b : UInt8) : Writes last (some [b]) buf (buf ++ [b]) := by
  refine ⟨by rw [List.length_append]; exact h, fun t ht _ => ?_⟩
  rw [Option.mem_some.mp ht]

/-- In a full buffer nothing is written. -/
theorem writes_full (h : buf.length = last) (text : Option (List UInt8)) :
    Writes last text buf buf := by
  refine ⟨h.le, fun t _ hfits => ?_⟩
  have hnil : t = [] := List.length_eq_zero_iff.mp (by omega)
  rw [hnil, List.append_nil]

/-- What is appended is the part of the text that fits. -/
theorem writes_take (h : buf.length ≤ last) (t : List UInt8) :
    Writes last (some t) buf (buf ++ t.take (last - buf.length)) := by
  refine ⟨by rw [List.length_append, List.length_take]; omega, fun t' ht hfits => ?_⟩
  rw [Option.mem_some.mp ht] at *
  rw [List.take_of_length_le (by omega)]

/-! ### Numbers -/

/-- The padding fills up to the end of the buffer at most. -/
theorem padding_eq (zero : UInt8) : ∀ (n : ℕ) (buf : List UInt8),
    padding last zero n buf = buf ++ (List.replicate n zero).take (last - buf.length)
  | 0, buf => by rw [padding, List.replicate_zero, List.take_nil, List.append_nil]
  | n + 1, buf => by
    rw [padding]
    split
    next hroom =>
      have hlen : (buf ++ [zero]).length = buf.length + 1 := by rw [List.length_append]; rfl
      obtain ⟨m, hm⟩ : ∃ m, last - buf.length = m + 1 := ⟨last - buf.length - 1, by omega⟩
      rw [padding_eq zero n, hlen, hm, show last - (buf.length + 1) = m by omega, List.replicate_succ,
        List.take_succ_cons, List.append_assoc]
      rfl
    next hfull =>
      rw [show last - buf.length = 0 by omega, List.take_zero, List.append_nil]

theorem rest_eq (hlast : last < 2 ^ 64) (h : buf.length ≤ last) :
    rest last buf = last - buf.length := by
  rw [rest]
  omega

/-- The text of a number. -/
def numberText (ui64 : UInt64) (zero : UInt8) (hexadecimal : Hex) (width : UInt64) :
    Option (List UInt8) :=
  concat (some (List.replicate (width.toNat - (temp hexadecimal ui64).length) zero))
    (some (temp hexadecimal ui64))

variable (hlast : last < 2 ^ 64)
include hlast

/-- What `ngx_sprintf_num` writes. -/
theorem writes_sprintfNum (h : buf.length ≤ last) (ui64 : UInt64) (zero : UInt8) (hexadecimal : Hex)
    (width : UInt64) : Writes last (numberText ui64 zero hexadecimal width) buf
      (sprintfNum last buf ui64 zero hexadecimal width) := by
  rw [sprintfNum, padding_eq]
  have hpadded := writes_take h (List.replicate (width.toNat - (temp hexadecimal ui64).length) zero)
  generalize buf ++ (List.replicate (width.toNat - (temp hexadecimal ui64).length) zero).take
    (last - buf.length) = buf' at hpadded ⊢
  refine hpadded.trans ?_
  have htaken : (temp hexadecimal ui64).take (if last < buf'.length + (temp hexadecimal ui64).length
      then rest last buf' else (temp hexadecimal ui64).length) =
      (temp hexadecimal ui64).take (last - buf'.length) := by
    split
    next => rw [rest_eq hlast hpadded.1]
    next hroom => rw [List.take_length, List.take_of_length_le (by omega)]
  show Writes last _ buf' (buf' ++ List.take _ _)
  rw [htaken]
  exact writes_take hpadded.1 _

omit hlast

/-! ### Strings -/

open Classical in
/-- The string that ends in a zero, if it does. -/
noncomputable def zeroText (data : ℕ → UInt8) : Option (List UInt8) :=
  if h : ∃ n, data n = 0 then some ((List.range (Nat.find h)).map data) else none

/-- The text of a string. -/
noncomputable def stringText (data : ℕ → UInt8) (len : UInt64) (hexadecimal : Hex) :
    Option (List UInt8) :=
  let bytes := if len = -1 then zeroText data else some ((List.range len.toNat).map data)
  if hexadecimal = .none then bytes else bytes.map fun t => t.flatMap hexadecimal.byte

/-- A string up to its NUL. -/
theorem mem_zeroText {data : ℕ → UInt8} {t : List UInt8} (h : t ∈ zeroText data) :
    ∃ n, data n = 0 ∧ (∀ j < n, data j ≠ 0) ∧ t = (List.range n).map data := by
  rw [zeroText] at h
  split at h
  next hzero =>
    classical
    refine ⟨Nat.find hzero, Nat.find_spec hzero, fun j hj => Nat.find_min hzero hj, ?_⟩
    rw [← Option.mem_some.mp h]
  next => cases h

/-- The bytes from `i` on. -/
def slice (data : ℕ → UInt8) (i n : ℕ) : List UInt8 := (List.range n).map fun j => data (i + j)

theorem slice_succ (data : ℕ → UInt8) (i n : ℕ) :
    slice data i (n + 1) = data i :: slice data (i + 1) n := by
  rw [slice, List.range_succ_eq_map, List.map_cons, List.map_map, slice]
  congr 2
  funext j
  show data (i + (j + 1)) = data (i + 1 + j)
  rw [Nat.add_right_comm, Nat.add_assoc]

/-- **A string that ends in a zero byte** is copied up to the end of the buffer at most. -/
theorem copyZero_spec (data : ℕ → UInt8) (i : ℕ) (buf : List UInt8) (h : buf.length ≤ last) :
    (copyZero last data i buf).length ≤ last ∧
      ∀ n, data (i + n) = 0 → (∀ j < n, data (i + j) ≠ 0) → buf.length + n ≤ last →
        copyZero last data i buf = buf ++ slice data i n := by
  fun_induction copyZero last data i buf with
  | case1 i buf hmore ih =>
    obtain ⟨hlen, hcopied⟩ := ih (by rw [List.length_append]; exact hmore.2)
    refine ⟨hlen, fun n hzero hbefore hfits => ?_⟩
    cases n with
    | zero => exact absurd hzero hmore.1
    | succ n =>
      rw [hcopied n (by rw [← hzero]; congr 1; omega)
        (fun j hj => by rw [Nat.add_right_comm]; exact hbefore (j + 1) (by omega))
        (by rw [List.length_append, List.length_singleton]; omega),
        slice_succ, List.append_assoc]
      rfl
  | case2 i buf hdone =>
    refine ⟨h, fun n hzero hbefore hfits => ?_⟩
    cases n with
    | zero => rw [slice, List.range_zero, List.map_nil, List.append_nil]
    | succ n => exact absurd ⟨hbefore 0 (by omega), by omega⟩ hdone

/-- **Its hexadecimal form** likewise, where a byte has two digits. -/
theorem hexZero_spec (table : Hex) (data : ℕ → UInt8) (i : ℕ) (buf : List UInt8) (h : buf.length ≤ last) :
    (hexZero last table data i buf).length ≤ last ∧
      ∀ n, data (i + n) = 0 → (∀ j < n, data (i + j) ≠ 0) → buf.length + 2 * n ≤ last →
        hexZero last table data i buf = buf ++ (slice data i n).flatMap table.byte := by
  fun_induction hexZero last table data i buf with
  | case1 i buf hmore ih =>
    have hlen : (buf ++ table.byte (data i)).length = buf.length + 2 := by rw [List.length_append]; rfl
    obtain ⟨hbound, hcopied⟩ := ih (by omega)
    refine ⟨hbound, fun n hzero hbefore hfits => ?_⟩
    cases n with
    | zero => exact absurd hzero hmore.1
    | succ n =>
      rw [hcopied n (by rw [← hzero]; congr 1; omega)
        (fun j hj => by rw [Nat.add_right_comm]; exact hbefore (j + 1) (by omega)) (by omega),
        slice_succ, List.flatMap_cons, List.append_assoc]
  | case2 i buf hdone =>
    refine ⟨h, fun n hzero hbefore hfits => ?_⟩
    cases n with
    | zero => rw [slice, List.range_zero, List.map_nil, List.flatMap_nil, List.append_nil]
    | succ n => exact absurd ⟨hbefore 0 (by omega), by omega⟩ hdone

/-- **The hexadecimal form of a counted string** likewise. -/
theorem hexLen_spec (table : Hex) (data : ℕ → UInt8) : ∀ (len i : ℕ) (buf : List UInt8),
    buf.length ≤ last → (hexLen last table data len i buf).length ≤ last ∧ (buf.length + 2 * len ≤ last →
      hexLen last table data len i buf = buf ++ (slice data i len).flatMap table.byte)
  | 0, i, buf, h => by
    refine ⟨h, fun _ => ?_⟩
    rw [hexLen, slice, List.range_zero, List.map_nil, List.flatMap_nil, List.append_nil]
  | len + 1, i, buf, h => by
    have hlen : (buf ++ table.byte (data i)).length = buf.length + 2 := by rw [List.length_append]; rfl
    rw [hexLen]
    split
    next hroom =>
      obtain ⟨hbound, hcopied⟩ := hexLen_spec table data len (i + 1) (buf ++ table.byte (data i)) (by omega)
      refine ⟨hbound, fun hfits => ?_⟩
      rw [hcopied (by omega), slice_succ, List.flatMap_cons, List.append_assoc]
    next hfull => exact ⟨h, fun hfits => absurd hfits (by omega)⟩

theorem length_hexText (table : Hex) (t : List UInt8) : (t.flatMap table.byte).length = 2 * t.length := by
  induction t with
  | nil => rfl
  | cons b t ih =>
    rw [List.flatMap_cons, List.length_append, ih, List.length_cons]
    show 2 + _ = _
    omega

theorem slice_zero (data : ℕ → UInt8) (n : ℕ) : slice data 0 n = (List.range n).map data := by
  rw [slice]
  simp

/-- What `ngx_sprintf_str` writes. -/
theorem writes_sprintfStr (hlast : last < 2 ^ 64) (h : buf.length ≤ last) (data : ℕ → UInt8)
    (len : UInt64) (hexadecimal : Hex) : Writes last (stringText data len hexadecimal) buf
      (sprintfStr last buf data len hexadecimal) := by
  rw [stringText, sprintfStr]
  split
  next =>
    split
    next =>
      obtain ⟨hbound, hcopied⟩ := copyZero_spec data 0 buf h
      refine ⟨hbound, fun t ht hfits => ?_⟩
      obtain ⟨n, hzero, hbefore, rfl⟩ := mem_zeroText ht
      rw [List.length_map, List.length_range] at hfits
      rw [← slice_zero]
      exact hcopied n (by rwa [Nat.zero_add]) (fun j hj => by rw [Nat.zero_add]; exact hbefore j hj) hfits
    next =>
      rw [rest_eq hlast h, ← List.take_range, List.map_take]
      exact writes_take h _
  next =>
    split
    next =>
      obtain ⟨hbound, hcopied⟩ := hexZero_spec hexadecimal data 0 buf h
      refine ⟨hbound, fun t ht hfits => ?_⟩
      obtain ⟨bytes, hbytes, rfl⟩ := Option.map_eq_some_iff.mp ht
      obtain ⟨n, hzero, hbefore, rfl⟩ := mem_zeroText hbytes
      rw [length_hexText, List.length_map, List.length_range] at hfits
      rw [← slice_zero]
      exact hcopied n (by rwa [Nat.zero_add]) (fun j hj => by rw [Nat.zero_add]; exact hbefore j hj) hfits
    next =>
      obtain ⟨hbound, hcopied⟩ := hexLen_spec hexadecimal data len.toNat 0 buf h
      refine ⟨hbound, fun t ht hfits => ?_⟩
      obtain ⟨bytes, hbytes, rfl⟩ := Option.map_eq_some_iff.mp ht
      obtain rfl := Option.mem_some.mp hbytes
      rw [length_hexText, List.length_map, List.length_range] at hfits
      rw [← slice_zero]
      exact hcopied hfits

/-! ### Directives -/

/-- The text of an integer. -/
def integerText (f : Flags) : Number → Option (List UInt8)
  | .signed i64 =>
    if i64 < 0 then concat (some [0x2d]) (numberText (-i64).toUInt64 f.zero f.hex f.width)
    else numberText i64.toUInt64 f.zero f.hex f.width
  | .unsigned ui64 => numberText ui64 f.zero f.hex f.width

variable {δ : Type} (d : Doubles δ)

/-- The text of a `double` that is not negative. -/
def plainFloatText (f : Flags) (x : δ) : Option (List UInt8) :=
  let (ui64, frac) := parts d f.fracWidth x
  if f.fracWidth = 0 then numberText ui64 f.zero .none f.width
  else concat (concat (numberText ui64 f.zero .none f.width) (some [0x2e]))
    (numberText frac 0x30 .none f.fracWidth)

/-- The text of a `double`. -/
def floatText (f : Flags) (x : δ) : Option (List UInt8) :=
  if d.neg x then concat (some [0x2d]) (plainFloatText d f (d.minus x)) else plainFloatText d f x

/-- The text of a directive. -/
noncomputable def Conv.text (f : Flags) (arg : Arg δ) : Conv → Option (List UInt8)
  | .V => stringText arg.data arg.len f.hex
  | .v => stringText arg.data (arg.len &&& 0xfffffff) f.hex
  | .s => stringText arg.data f.slen f.hex
  | .f => floatText d f arg.double
  | .c => some [arg.word.toUInt8]
  | .Z => some [0]
  | .N => some [0x0a]
  | .percent => some [0x25]
  | conv => integerText (conv.flags f) (conv.number f.sign arg.word)

/-- **A number** is written with its padding and sign. -/
theorem writes_integer (hlast : last < 2 ^ 64) (h : buf.length < last) (f : Flags) (n : Number) :
    Writes last (integerText f n) buf (integer last buf f n) := by
  cases n with
  | signed i64 =>
    rw [integerText, integer]
    split
    · have hminus := writes_char h 0x2d
      exact hminus.trans (writes_sprintfNum hlast hminus.1 _ _ _ _)
    · exact writes_sprintfNum hlast h.le _ _ _ _
  | unsigned ui64 => exact writes_sprintfNum hlast h.le _ _ _ _

theorem writes_point (h : buf.length ≤ last) (b : UInt8) :
    Writes last (some [b]) buf (if buf.length < last then buf ++ [b] else buf) := by
  split
  next hroom => exact writes_char hroom b
  next hfull => exact writes_full (by omega) _

/-- What is written for a `double`. -/
theorem writes_float (hlast : last < 2 ^ 64) (h : buf.length < last) (f : Flags) (x : δ) :
    Writes last (floatText d f x) buf (float d last buf f x) := by
  have hplain : ∀ (buf : List UInt8) (x : δ), buf.length ≤ last →
      Writes last (plainFloatText d f x) buf
        (let buf := sprintfNum last buf (parts d f.fracWidth x).1 f.zero .none f.width
         if f.fracWidth = 0 then buf
         else sprintfNum last (if buf.length < last then buf ++ [0x2e] else buf)
          (parts d f.fracWidth x).2 0x30 .none f.fracWidth) := by
    intro buf x hbuf
    have hint := writes_sprintfNum hlast hbuf (parts d f.fracWidth x).1 f.zero .none f.width
    show Writes last (if _ then _ else _) _ (if _ then _ else _)
    split
    · exact hint
    · have hpoint := hint.trans (writes_point hint.1 0x2e)
      exact hpoint.trans (writes_sprintfNum hlast hpoint.1 _ _ _ _)
  rw [floatText, float]
  split
  · have hminus := writes_char h 0x2d
    exact hminus.trans (hplain _ _ hminus.1)
  · exact hplain _ _ h.le

/-- **What is written for a directive** is its text, as far as there is room. -/
theorem Conv.writes_convert (hlast : last < 2 ^ 64) (h : buf.length < last) (f : Flags) (arg : Arg δ)
    (conv : Conv) : Writes last (conv.text d f arg) buf (conv.convert d last buf f arg) := by
  have hinteger := writes_integer hlast h (conv.flags f) (conv.number f.sign arg.word)
  cases conv with
  | V | v | s => exact writes_sprintfStr hlast h.le _ _ _
  | f => exact writes_float d hlast h _ _
  | c | Z | N | percent => exact writes_char h _
  | _ => exact hinteger

/-! ### Formats -/

/-- The flags of a directive. -/
inductive Flag
  | u
  | m
  | X
  | x
  | star
deriving DecidableEq, Repr

/-- The character of a flag. -/
def Flag.letter : Flag → UInt8
  | .u => 0x75
  | .m => 0x6d
  | .X => 0x58
  | .x => 0x78
  | .star => 0x2a

/-- A directive: the digits of the width, the flags, the digits behind a point, and the conversion. -/
structure Directive where
  width : List (Fin 10)
  flags : List Flag
  frac : Option (List (Fin 10))
  conv : Conv

/-- An item of a format: a plain character, or a directive. -/
inductive Item
  | plain (b : UInt8) (hb : b ≠ 0x25 ∧ b ≠ 0)
  | directive (directive : Directive)

/-- Digits as they are written. -/
def digitBytes (digits : List (Fin 10)) : List UInt8 := digits.map fun x => 0x30 + UInt8.ofNat x

/-- A precision as it is written. -/
def fracBytes : Option (List (Fin 10)) → List UInt8
  | none => []
  | some digits => 0x2e :: digitBytes digits

/-- What stands behind the `%`. -/
def Directive.bytes (x : Directive) : List UInt8 :=
  digitBytes x.width ++ (x.flags.map Flag.letter ++ (fracBytes x.frac ++ [x.conv.letter]))

/-- An item as it is written. -/
def Item.bytes : Item → List UInt8
  | .plain b _ => [b]
  | .directive x => 0x25 :: x.bytes

/-- The bytes of a format. -/
def formatBytes (format : List Item) : List UInt8 := format.flatMap Item.bytes

/-- The number of a width, in 64 bits. -/
def widthOf (digits : List (Fin 10)) (width : UInt64) : UInt64 :=
  digits.foldl (fun width x => width * 10 + UInt64.ofNat x) width

variable (args : ℕ → Arg δ)

/-- What a flag says. A `*` takes an argument. -/
def Flag.set (f : Flags × ℕ) : Flag → Flags × ℕ
  | .u => ({ f.1 with sign := false }, f.2)
  | .m => ({ f.1 with maxWidth := true }, f.2)
  | .X => ({ f.1 with hex := .X, sign := false }, f.2)
  | .x => ({ f.1 with hex := .x, sign := false }, f.2)
  | .star => ({ f.1 with slen := (args f.2).word }, f.2 + 1)

/-- The flags of a directive, and the number of arguments that are taken then. -/
def Directive.read (x : Directive) (taken : ℕ) : Flags × ℕ :=
  let zero := if x.width.head? = some 0 then 0x30 else 0x20
  let f := x.flags.foldl (Flag.set args) ({ zero, width := widthOf x.width 0 }, taken)
  match x.frac with
  | none => f
  | some digits => ({ f.1 with fracWidth := widthOf digits f.1.fracWidth }, f.2)

/-- The text of a format, with the number of arguments that are taken before it. -/
noncomputable def formatText : List Item → ℕ → Option (List UInt8)
  | [], _ => some []
  | .plain b _ :: format, taken => concat (some [b]) (formatText format taken)
  | .directive x :: format, taken =>
    let (f, taken) := x.read args taken
    concat (x.conv.text d f (args taken)) (formatText format (taken + x.conv.takes.toNat))

/-! ### Reading a format -/

theorem isDigit_digit (x : Fin 10) : isDigit (0x30 + UInt8.ofNat x) = true := by
  revert x
  decide

theorem digit_value (x : Fin 10) : ((0x30 + UInt8.ofNat x : UInt8) - 0x30).toUInt64 = UInt64.ofNat x := by
  revert x
  decide

/-- The width is read up to the first byte that is no digit. -/
theorem readWidth_digits {b : UInt8} (hb : isDigit b = false) (fmt : List UInt8) :
    ∀ (digits : List (Fin 10)) (width : UInt64),
      readWidth (digitBytes digits ++ b :: fmt) width = (widthOf digits width, b :: fmt)
  | [], width => by
    show readWidth (b :: fmt) width = _
    rw [readWidth, hb]
    rfl
  | x :: digits, width => by
    show readWidth ((0x30 + UInt8.ofNat x) :: (digitBytes digits ++ b :: fmt)) width = _
    rw [readWidth, isDigit_digit, if_pos rfl, digit_value, readWidth_digits hb fmt digits]
    rfl

theorem isDigit_letter (conv : Conv) : isDigit conv.letter = false := by
  cases conv <;> decide

theorem ofLetter_letter (conv : Conv) : Conv.ofLetter conv.letter = some conv := by
  cases conv <;> decide

theorem readFlags_letter (conv : Conv) (fmt : List UInt8) (taken : ℕ) (f : Flags) :
    readFlags args (conv.letter :: fmt) taken f = (f, conv.letter :: fmt, taken) := by
  cases conv <;> rfl

/-- The decimal places and the conversion are read last. -/
theorem readFlags_frac (frac : Option (List (Fin 10))) (conv : Conv) (fmt : List UInt8) (taken : ℕ)
    (f : Flags) : readFlags args (fracBytes frac ++ conv.letter :: fmt) taken f =
      ((match frac with
        | none => f
        | some digits => { f with fracWidth := widthOf digits f.fracWidth }),
        conv.letter :: fmt, taken) := by
  cases frac with
  | none => exact readFlags_letter args conv fmt taken f
  | some digits =>
    show readFlags args (0x2e :: (digitBytes digits ++ conv.letter :: fmt)) taken f = _
    rw [readFlags]
    have hwidth := readWidth_digits (isDigit_letter conv) fmt digits f.fracWidth
    exact congrArg (fun r => (({ f with fracWidth := r.1 }, r.2, taken) : Flags × List UInt8 × ℕ)) hwidth

/-- **The flags** are read one after the other. -/
theorem readFlags_flags (frac : Option (List (Fin 10))) (conv : Conv) (fmt : List UInt8) :
    ∀ (flags : List Flag) (taken : ℕ) (f : Flags),
      readFlags args (flags.map Flag.letter ++ (fracBytes frac ++ conv.letter :: fmt)) taken f =
        readFlags args (fracBytes frac ++ conv.letter :: fmt)
          (flags.foldl (Flag.set args) (f, taken)).2 (flags.foldl (Flag.set args) (f, taken)).1
  | [], _, _ => rfl
  | flag :: flags, taken, f => by
    have ih := readFlags_flags frac conv fmt flags
    cases flag <;> exact ih _ _

/-- Something that is no digit stands behind the width. -/
theorem behind_width (x : Directive) (fmt : List UInt8) :
    ∃ b s, x.flags.map Flag.letter ++ (fracBytes x.frac ++ x.conv.letter :: fmt) = b :: s ∧
      isDigit b = false := by
  obtain ⟨width, flags, frac, conv⟩ := x
  cases flags with
  | cons flag flags => exact ⟨_, _, rfl, by cases flag <;> decide⟩
  | nil =>
    cases frac with
    | some digits => exact ⟨_, _, rfl, by decide⟩
    | none => exact ⟨_, _, rfl, isDigit_letter conv⟩

/-- **A directive is read** as it is meant, up to its letter. -/
theorem readDirective_bytes (x : Directive) (fmt : List UInt8) (taken : ℕ) :
    readDirective args (x.bytes ++ fmt) taken =
      ((x.read args taken).1, x.conv.letter :: fmt, (x.read args taken).2) := by
  have hbytes : x.bytes ++ fmt = digitBytes x.width ++
      (x.flags.map Flag.letter ++ (fracBytes x.frac ++ x.conv.letter :: fmt)) := by
    rw [Directive.bytes]
    simp
  obtain ⟨b, s, hbehind, hb⟩ := behind_width x fmt
  have hzero : (x.bytes ++ fmt).head? = some 0x30 ↔ x.width.head? = some 0 := by
    rw [hbytes, hbehind]
    cases x.width with
    | nil =>
      refine iff_of_false (fun heq => ?_) nofun
      rw [Option.some.inj heq] at hb
      exact absurd hb (by decide)
    | cons digit digits =>
      show some (0x30 + UInt8.ofNat digit) = _ ↔ some digit = _
      rw [Option.some_inj, Option.some_inj]
      revert digit
      decide
  rw [readDirective, if_congr hzero rfl rfl, hbytes, hbehind, readWidth_digits hb]
  show readFlags args (b :: s) taken _ = _
  rw [← hbehind, readFlags_flags, readFlags_frac, Directive.read]
  cases x.frac <;> rfl

/-! ### The output -/

/-- An item is written with one turn of the loop. -/
theorem writes_loop (hlast : last < 2 ^ 64) : ∀ (format : List Item) (turns taken : ℕ) (buf : List UInt8),
    format.length ≤ turns → buf.length ≤ last →
      ∃ out, loop d args last turns (formatBytes format) taken buf = some out ∧
        Writes last (formatText d args format taken) buf out
  | [], turns, taken, buf, _, hbuf => by
    refine ⟨buf, by cases turns <;> rfl, hbuf, fun t ht _ => ?_⟩
    rw [← Option.mem_some.mp ht, List.append_nil]
  | item :: format, 0, _, _, hturns, _ => absurd hturns (by rw [List.length_cons]; omega)
  | item :: format, turns + 1, taken, buf, hturns, hbuf => by
    have ih := writes_loop hlast format turns
    rw [List.length_cons] at hturns
    by_cases hfull : last ≤ buf.length
    · refine ⟨buf, ?_, writes_full (by omega) _⟩
      cases item <;> exact if_pos hfull
    · have hroom : buf.length < last := by omega
      cases item with
      | plain b hb =>
        have hchar := writes_char hroom b
        obtain ⟨out, hout, hwrites⟩ := ih taken (buf ++ [b]) (by omega) hchar.1
        refine ⟨out, ?_, hchar.trans hwrites⟩
        show loop d args last (turns + 1) (b :: formatBytes format) taken buf = _
        rw [loop, if_neg hfull, if_neg hb.1]
        exact hout
      | directive x =>
        have hconv := x.conv.writes_convert d hlast hroom (x.read args taken).1
          (args (x.read args taken).2)
        obtain ⟨out, hout, hwrites⟩ := ih ((x.read args taken).2 + x.conv.takes.toNat) _ (by omega)
          hconv.1
        refine ⟨out, ?_, hconv.trans hwrites⟩
        show loop d args last (turns + 1) (0x25 :: (x.bytes ++ formatBytes format)) taken buf = _
        rw [loop, if_neg hfull, if_pos rfl, readDirective_bytes]
        dsimp only
        rw [ofLetter_letter]
        exact hout

/-- Each item of a format has a byte at least. -/
theorem length_le_formatBytes (format : List Item) : format.length ≤ (formatBytes format).length := by
  induction format with
  | nil => exact Nat.le_refl _
  | cons item format ih =>
    have hitem : 0 < item.bytes.length := by cases item <;> exact Nat.succ_pos _
    rw [formatBytes, List.flatMap_cons, List.length_append, List.length_cons]
    exact Nat.add_comm 1 _ ▸ Nat.add_le_add hitem ih

/-- **Formatted output stays in its buffer**: for every format and all arguments, and every buffer, no more
bytes are written than the buffer has. What is written is the text of the format if the buffer has room for
it, and is the same for every larger buffer then. -/
theorem vslprintf_bounded (format : List Item) (size : UInt64) :
    ∃ out, vslprintf d args size.toNat (formatBytes format) = some out ∧ out.length ≤ size.toNat ∧
      ∀ text, formatText d args format 0 = some text → text.length ≤ size.toNat →
        out = text ∧ ∀ larger : UInt64, size ≤ larger →
          vslprintf d args larger.toNat (formatBytes format) = some out := by
  have hwritten : ∀ size : UInt64, ∃ out, vslprintf d args size.toNat (formatBytes format) = some out ∧
      Writes size.toNat (formatText d args format 0) [] out := fun size =>
    writes_loop d args size.toNat_lt format _ 0 [] (length_le_formatBytes format) (Nat.zero_le _)
  have hall : ∀ (size : UInt64) (text : List UInt8), formatText d args format 0 = some text →
      text.length ≤ size.toNat → vslprintf d args size.toNat (formatBytes format) = some text := by
    intro size text htext hfits
    obtain ⟨out, hout, hwrites⟩ := hwritten size
    rw [hout, hwrites.2 text htext (by rw [List.length_nil]; omega)]
    rfl
  obtain ⟨out, hout, hwrites⟩ := hwritten size
  refine ⟨out, hout, hwrites.1, fun text htext hfits => ?_⟩
  have heq : out = text := Option.some.inj (hout.symm.trans (hall size text htext hfits))
  refine ⟨heq, fun larger hlarger => ?_⟩
  rw [heq]
  exact hall larger text htext (hfits.trans (UInt64.le_iff_toNat_le.mp hlarger))

end Hengine.Slprintf
