import Hengine.Lib.Tables

/-!
# URI Escaping

The model of `ngx_escape_uri` and `ngx_unescape_uri` in `ngx_string.c`.

A byte is escaped if its bit is set in the table of the escape type. The first pass counts these bytes,
and the second writes `%` and two digits for each. The unescaper is a machine of three states; with type
0 it puts a byte for every `%` with two digits.
-/

namespace Hengine.Escape

/-- `NGX_ESCAPE_URI`, and so on. -/
inductive EscapeType
  | uri
  | args
  | uriComponent
  | html
  | refresh
  | memcached
  | mailAuth
  deriving DecidableEq

/-- The tables of `ngx_escape_uri`. -/
def EscapeType.map : EscapeType → List UInt32
  | .uri => [0xffffffff, 0xd000002d, 0x50000000, 0xb8000001,
      0xffffffff, 0xffffffff, 0xffffffff, 0xffffffff]
  | .args => [0xffffffff, 0xd800086d, 0x50000000, 0xb8000001,
      0xffffffff, 0xffffffff, 0xffffffff, 0xffffffff]
  | .uriComponent => [0xffffffff, 0xfc009fff, 0x78000001, 0xb8000001,
      0xffffffff, 0xffffffff, 0xffffffff, 0xffffffff]
  | .html => [0xffffffff, 0x500000ad, 0x50000000, 0xb8000001,
      0xffffffff, 0xffffffff, 0xffffffff, 0xffffffff]
  | .refresh => [0xffffffff, 0x50000085, 0x50000000, 0xd8000001,
      0xffffffff, 0xffffffff, 0xffffffff, 0xffffffff]
  | .memcached => [0xffffffff, 0x00000021, 0x00000000, 0x00000000,
      0x00000000, 0x00000000, 0x00000000, 0x00000000]
  | .mailAuth => [0xffffffff, 0x00000021, 0x00000000, 0x00000000,
      0x00000000, 0x00000000, 0x00000000, 0x00000000]

/-- `escape[*src >> 5] & (1U << (*src & 0x1f))`. -/
def EscapeType.escapes (type : EscapeType) (ch : UInt8) : Bool :=
  type.map.getD (ch >>> 5).toNat 0 &&& ((1 : UInt32) <<< (ch &&& 0x1f).toUInt32) ≠ 0

/-- The first pass of `ngx_escape_uri`. -/
@[grind =]
def escapeUriCount (type : EscapeType) : List UInt8 → ℕ
  | [] => 0
  | ch :: src =>
    if type.escapes ch then escapeUriCount type src + 1 else escapeUriCount type src

/-- `hex`. -/
def hex (n : UInt8) : UInt8 := "0123456789ABCDEF".toUTF8.toList.getD n.toNat 0

/-- The second pass. -/
@[grind =]
def escapeUri (type : EscapeType) : List UInt8 → List UInt8
  | [] => []
  | ch :: src =>
    if type.escapes ch then 0x25 :: hex (ch >>> 4) :: hex (ch &&& 0xf) :: escapeUri type src
    else ch :: escapeUri type src

/-- `NGX_UNESCAPE_URI` and `NGX_UNESCAPE_REDIRECT`. -/
structure UnescapeType where
  uri : Bool
  redirect : Bool

/-- The states of `ngx_unescape_uri`. -/
inductive UnescapeState
  | usual
  | quoted
  | quotedSecond

/-- Bytes that are put before others. -/
def put (w : List UInt8) (r : List UInt8 × List UInt8) : List UInt8 × List UInt8 := (w ++ r.1, r.2)

/-- The loop of `ngx_unescape_uri`: what is put, and what is left of the source. `prev` is the byte
before the next one. -/
@[grind =]
def unescapeLoop (type : UnescapeType) :
    UnescapeState → UInt8 → UInt8 → List UInt8 → List UInt8 × List UInt8
  | _, _, _, [] => ([], [])
  | .usual, decoded, _, ch :: s =>
    if ch = 0x3f ∧ (type.uri || type.redirect) then ([ch], s)
    else if ch = 0x25 then unescapeLoop type .quoted decoded ch s
    else put [ch] (unescapeLoop type .usual decoded ch s)
  | .quoted, decoded, _, ch :: s =>
    if 0x30 ≤ ch ∧ ch ≤ 0x39 then unescapeLoop type .quotedSecond (ch - 0x30) ch s
    else if 0x61 ≤ ch ||| 0x20 ∧ ch ||| 0x20 ≤ 0x66 then
      unescapeLoop type .quotedSecond ((ch ||| 0x20) - 0x61 + 10) ch s
    else put [ch] (unescapeLoop type .usual decoded ch s)
  | .quotedSecond, decoded, prev, ch :: s =>
    if 0x30 ≤ ch ∧ ch ≤ 0x39 then
      let b := (decoded <<< 4) + (ch - 0x30)
      if type.redirect then
        if 0x25 < b ∧ b < 0x7f then put [b] (unescapeLoop type .usual decoded ch s)
        else put [0x25, prev, ch] (unescapeLoop type .usual decoded ch s)
      else put [b] (unescapeLoop type .usual decoded ch s)
    else if 0x61 ≤ ch ||| 0x20 ∧ ch ||| 0x20 ≤ 0x66 then
      let b := (decoded <<< 4) + ((ch ||| 0x20) - 0x61) + 10
      if type.uri then
        if b = 0x3f then ([b], s) else put [b] (unescapeLoop type .usual decoded ch s)
      else if type.redirect then
        if b = 0x3f then ([b], s)
        else if 0x25 < b ∧ b < 0x7f then put [b] (unescapeLoop type .usual decoded ch s)
        else put [0x25, prev, ch] (unescapeLoop type .usual decoded ch s)
      else put [b] (unescapeLoop type .usual decoded ch s)
    else unescapeLoop type .usual decoded ch s

/-- `ngx_unescape_uri`. -/
def unescapeUri (type : UnescapeType) (src : List UInt8) : List UInt8 × List UInt8 :=
  unescapeLoop type .usual 0 0 src

/-! ### Two passes -/

/-- **What is counted is what is written**: two bytes more for each byte that is escaped. -/
theorem length_escapeUri (type : EscapeType) (src : List UInt8) :
    (escapeUri type src).length = 2 * escapeUriCount type src + src.length := by
  induction src with
  | nil => rfl
  | cons ch src ih =>
    rw [escapeUri, escapeUriCount]
    split_ifs
    · simp only [List.length_cons, ih]
      omega
    · simp only [List.length_cons, ih]
      omega

/-! ### The way back -/

/-- `type` 0. -/
def plain : UnescapeType := ⟨false, false⟩

theorem hex_eq (n : UInt8) : hex n = [0x30, 0x31, 0x32, 0x33, 0x34, 0x35, 0x36, 0x37, 0x38, 0x39, 0x41,
    0x42, 0x43, 0x44, 0x45, 0x46].getD n.toNat 0 :=
  congrArg (List.getD · n.toNat 0) ((toUTF8_toList _).trans (by decide))

/-- A digit is a decimal digit or a letter, and stands for its place in the table. -/
theorem hex_cases {n : UInt8} (h : n < 16) :
    (0x30 ≤ hex n ∧ hex n ≤ 0x39) ∧ hex n - 0x30 = n ∨
      ¬ (0x30 ≤ hex n ∧ hex n ≤ 0x39) ∧ (0x61 ≤ hex n ||| 0x20 ∧ hex n ||| 0x20 ≤ 0x66) ∧
        (hex n ||| 0x20) - 0x61 + 10 = n := by
  have hall : ∀ k < 16, (0x30 ≤ hex (.ofNat k) ∧ hex (.ofNat k) ≤ 0x39) ∧
      hex (.ofNat k) - 0x30 = .ofNat k ∨
      ¬ (0x30 ≤ hex (.ofNat k) ∧ hex (.ofNat k) ≤ 0x39) ∧
        (0x61 ≤ hex (.ofNat k) ||| 0x20 ∧ hex (.ofNat k) ||| 0x20 ≤ 0x66) ∧
        (hex (.ofNat k) ||| 0x20) - 0x61 + 10 = .ofNat k := by
    simp only [hex_eq]
    decide
  have hn := hall n.toNat (UInt8.lt_iff_toNat_lt.1 h)
  rwa [UInt8.ofNat_toNat] at hn

/-- A byte has two digits. -/
theorem hex_halves (ch : UInt8) :
    ch >>> 4 < 16 ∧ ch &&& 0xf < 16 ∧ ((ch >>> 4) <<< 4) + (ch &&& 0xf) = ch := by
  have hhigh : (ch >>> 4).toNat = ch.toNat / 16 := by
    rw [UInt8.toNat_shiftRight, Nat.shiftRight_eq_div_pow]
    rfl
  have hlow : (ch &&& 0xf).toNat = ch.toNat % 16 := by
    rw [UInt8.toNat_and]
    exact Nat.and_two_pow_sub_one_eq_mod ch.toNat 4
  have hback : ((ch >>> 4) <<< 4).toNat = ch.toNat / 16 * 16 := by
    rw [UInt8.toNat_shiftLeft, hhigh, Nat.shiftLeft_eq]
    have hlt := ch.toNat_lt
    exact Nat.mod_eq_of_lt (by show ch.toNat / 16 * 16 < 2 ^ 8; omega)
  have hlt := ch.toNat_lt
  refine ⟨UInt8.lt_iff_toNat_lt.2 ?_, UInt8.lt_iff_toNat_lt.2 ?_, UInt8.toNat_inj.1 ?_⟩
  · rw [hhigh]
    exact Nat.div_lt_of_lt_mul hlt
  · rw [hlow]
    exact Nat.mod_lt _ (by decide)
  · rw [UInt8.toNat_add, hback, hlow]
    omega

/-- The first of two hexadecimal digits is kept. -/
theorem unescapeLoop_first {n : UInt8} (h : n < 16) (decoded prev : UInt8) (s : List UInt8) :
    unescapeLoop plain .quoted decoded prev (hex n :: s) =
      unescapeLoop plain .quotedSecond n (hex n) s := by
  rw [unescapeLoop]
  rcases hex_cases h with ⟨hdigit, hn⟩ | ⟨hdigit, hletter, hn⟩
  · rw [if_pos hdigit, hn]
  · rw [if_neg hdigit, if_pos hletter, hn]

/-- The second digit completes a quoted byte. -/
theorem unescapeLoop_second {n : UInt8} (h : n < 16) (decoded prev : UInt8) (s : List UInt8) :
    unescapeLoop plain .quotedSecond decoded prev (hex n :: s) =
      put [(decoded <<< 4) + n] (unescapeLoop plain .usual decoded (hex n) s) := by
  rw [unescapeLoop]
  rcases hex_cases h with ⟨hdigit, hn⟩ | ⟨hdigit, hletter, hn⟩
  · rw [if_pos hdigit, hn]
    rfl
  · rw [if_neg hdigit, if_pos hletter, UInt8.add_assoc, hn]
    rfl

/-- **A byte that is escaped.** -/
theorem unescapeLoop_hex (decoded prev : UInt8) (ch : UInt8) (s : List UInt8) :
    unescapeLoop plain .usual decoded prev (0x25 :: hex (ch >>> 4) :: hex (ch &&& 0xf) :: s) =
      put [ch] (unescapeLoop plain .usual (ch >>> 4) (hex (ch &&& 0xf)) s) := by
  obtain ⟨hhigh, hlow, hsum⟩ := hex_halves ch
  rw [unescapeLoop, if_neg (by decide), if_pos rfl, unescapeLoop_first hhigh, unescapeLoop_second hlow,
    hsum]

/-- An escaped text, from any state between two characters. -/
theorem unescapeLoop_escapeUri {type : EscapeType} (h : type.escapes 0x25 = true) (src : List UInt8) :
    ∀ decoded prev : UInt8,
      unescapeLoop plain .usual decoded prev (escapeUri type src) = (src, []) := by
  induction src with
  | nil => exact fun _ _ => rfl
  | cons ch src ih =>
    intro decoded prev
    rw [escapeUri]
    split_ifs with hch
    · rw [unescapeLoop_hex, ih]
      rfl
    · have hpercent : ch ≠ 0x25 := by
        rintro rfl
        exact hch h
      rw [unescapeLoop, if_neg (by simp [plain]), if_neg hpercent, ih]
      rfl

/-- **Escaping.** The second pass writes what the first one counts; and if `%` is one of the bytes that
are escaped, an escaped text is unescaped to what it was. -/
theorem escapeUri_trip (type : EscapeType) (src : List UInt8) :
    (escapeUri type src).length = 2 * escapeUriCount type src + src.length ∧
      (type.escapes 0x25 = true → unescapeUri plain (escapeUri type src) = (src, [])) :=
  ⟨length_escapeUri type src, fun h => unescapeLoop_escapeUri h src 0 0⟩

/-- A text that looks escaped. -/
theorem escapeUri_trip_percent :
    unescapeUri plain (escapeUri .uriComponent [0x25, 0x34, 0x31]) = ([0x25, 0x34, 0x31], []) :=
  (escapeUri_trip .uriComponent [0x25, 0x34, 0x31]).2 (by decide)

end Hengine.Escape
