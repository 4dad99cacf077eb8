import Mathlib.Data.List.Basic

/-!
# JSON Escaping

The model of `ngx_escape_json` in `ngx_string.c`, and of what a text is that stands between quotation
marks: the strings of JSON, in which the characters from `0x80` on are bytes like the others.

An escape `\uXXXX` stands for the bytes of its character, and the two halves of a character that needs
two of them come one after the other.
-/

namespace Hengine.Escape

open List

/-- The first pass of `ngx_escape_json`: the bytes that are written beside those that are given. -/
@[grind =]
def escapeJsonLen : List UInt8 → ℕ
  | [] => 0
  | ch :: src =>
    if ch = 0x5c ∨ ch = 0x22 then escapeJsonLen src + 1
    else if ch ≤ 0x1f then
      if ch = 0x0a ∨ ch = 0x0d ∨ ch = 0x09 ∨ ch = 0x08 ∨ ch = 0x0c then escapeJsonLen src + 1
      else escapeJsonLen src + 5
    else escapeJsonLen src

/-- The bytes that the second pass writes for one. -/
def escapeJsonByte (ch : UInt8) : List UInt8 :=
  if ch > 0x1f then
    if ch = 0x5c ∨ ch = 0x22 then [0x5c, ch] else [ch]
  else if ch = 0x0a then [0x5c, 0x6e]
  else if ch = 0x0d then [0x5c, 0x72]
  else if ch = 0x09 then [0x5c, 0x74]
  else if ch = 0x08 then [0x5c, 0x62]
  else if ch = 0x0c then [0x5c, 0x66]
  else
    let high : UInt8 := ch >>> 4
    let low : UInt8 := ch &&& 0xf
    [0x5c, 0x75, 0x30, 0x30, 0x30 + high, if low < 10 then 0x30 + low else 0x41 + low - 10]

/-- The second pass. -/
@[grind =]
def escapeJson : List UInt8 → List UInt8
  | [] => []
  | ch :: src => escapeJsonByte ch ++ escapeJson src

/-! ### Strings of JSON -/

/-- A digit of a code. -/
def hexDigit (b : UInt8) : Option ℕ :=
  if 0x30 ≤ b ∧ b ≤ 0x39 then some (b.toNat - 0x30)
  else if 0x41 ≤ b ∧ b ≤ 0x46 then some (b.toNat - 0x41 + 10)
  else if 0x61 ≤ b ∧ b ≤ 0x66 then some (b.toNat - 0x61 + 10)
  else none

/-- The code of four digits. -/
def hexCode (a b c d : UInt8) : Option ℕ := do
  return (((← hexDigit a) * 16 + (← hexDigit b)) * 16 + (← hexDigit c)) * 16 + (← hexDigit d)

/-- What a short escape stands for. -/
def shortEscape (b : UInt8) : Option UInt8 :=
  if b = 0x22 ∨ b = 0x5c ∨ b = 0x2f then some b
  else if b = 0x62 then some 0x08
  else if b = 0x66 then some 0x0c
  else if b = 0x6e then some 0x0a
  else if b = 0x72 then some 0x0d
  else if b = 0x74 then some 0x09
  else none

/-- The characters up to the quotation mark at the end. -/
@[grind =]
def decodeJsonChars : List UInt8 → Option (List UInt8)
  | [] => none
  | 0x5c :: 0x75 :: a :: b :: c :: d :: s =>
    match hexCode a b c d with
    | none => none
    | some u =>
      if 0xd800 ≤ u ∧ u < 0xdc00 then
        match s with
        | 0x5c :: 0x75 :: a' :: b' :: c' :: d' :: s' =>
          match hexCode a' b' c' d' with
          | none => none
          | some v =>
            if 0xdc00 ≤ v ∧ v < 0xe000 then
              (String.utf8EncodeChar
                (Char.ofNat (0x10000 + (u - 0xd800) * 0x400 + (v - 0xdc00))) ++ ·) <$>
                decodeJsonChars s'
            else none
        | _ => none
      else if 0xdc00 ≤ u ∧ u < 0xe000 then none
      else (String.utf8EncodeChar (Char.ofNat u) ++ ·) <$> decodeJsonChars s
  | 0x5c :: b :: s =>
    match shortEscape b with
    | none => none
    | some ch => (ch :: ·) <$> decodeJsonChars s
  | ch :: s =>
    if ch = 0x22 then if s = [] then some [] else none
    else if ch < 0x20 ∨ ch = 0x5c then none
    else (ch :: ·) <$> decodeJsonChars s

/-- A string of JSON, with its quotation marks. -/
def decodeJson : List UInt8 → Option (List UInt8)
  | 0x22 :: s => decodeJsonChars s
  | _ => none

/-! ### Two passes -/

/-- The bytes that have an escape of one letter. -/
abbrev Short (ch : UInt8) : Prop := ch = 0x0a ∨ ch = 0x0d ∨ ch = 0x09 ∨ ch = 0x08 ∨ ch = 0x0c

/-- The two digits of a control character are read back. -/
theorem hexCode_control {ch : UInt8} (h : ch ≤ 0x1f) :
    hexCode 0x30 0x30 ((0x30 : UInt8) + (ch >>> 4 : UInt8))
      (if ch &&& 0xf < 10 then 0x30 + (ch &&& 0xf) else 0x41 + (ch &&& 0xf) - 10) =
        some ch.toNat := by
  have hall : ∀ k < 32, hexCode 0x30 0x30 ((0x30 : UInt8) + (UInt8.ofNat k >>> 4 : UInt8))
      (if UInt8.ofNat k &&& 0xf < 10 then 0x30 + (UInt8.ofNat k &&& 0xf)
        else 0x41 + (UInt8.ofNat k &&& 0xf) - 10) = some (UInt8.ofNat k).toNat := by
    decide
  have hch := hall ch.toNat (Nat.lt_succ_of_le (UInt8.le_iff_toNat_le.1 h))
  rwa [UInt8.ofNat_toNat] at hch

/-- A control character is one byte of UTF-8. -/
theorem utf8EncodeChar_control {ch : UInt8} (h : ch ≤ 0x1f) :
    String.utf8EncodeChar (Char.ofNat ch.toNat) = [ch] := by
  have hall : ∀ k < 32, String.utf8EncodeChar (Char.ofNat (UInt8.ofNat k).toNat) =
      [UInt8.ofNat k] := by
    decide
  have hch := hall ch.toNat (Nat.lt_succ_of_le (UInt8.le_iff_toNat_le.1 h))
  rwa [UInt8.ofNat_toNat] at hch

/-- A byte stays, or gets a backslash, or a letter, or a code. -/
theorem escapeJsonByte_cases (ch : UInt8) :
    (ch = 0x5c ∨ ch = 0x22) ∧ escapeJsonByte ch = [0x5c, ch] ∨
    ¬ (ch = 0x5c ∨ ch = 0x22) ∧ ¬ ch ≤ 0x1f ∧ escapeJsonByte ch = [ch] ∨
    ¬ (ch = 0x5c ∨ ch = 0x22) ∧ ch ≤ 0x1f ∧ Short ch ∧
      (∃ b, escapeJsonByte ch = [0x5c, b] ∧ b ≠ 0x75 ∧ shortEscape b = some ch) ∨
    ¬ (ch = 0x5c ∨ ch = 0x22) ∧ ch ≤ 0x1f ∧ ¬ Short ch ∧
      ∃ c d, escapeJsonByte ch = [0x5c, 0x75, 0x30, 0x30, c, d] ∧
        hexCode 0x30 0x30 c d = some ch.toNat := by
  unfold escapeJsonByte
  by_cases hmark : ch = 0x5c ∨ ch = 0x22
  · have hgt : ch > 0x1f := by rcases hmark with rfl | rfl <;> decide
    rw [if_pos hgt, if_pos hmark]
    exact .inl ⟨hmark, rfl⟩
  · by_cases hgt : ch > 0x1f
    · rw [if_pos hgt, if_neg hmark]
      exact .inr (.inl ⟨hmark, UInt8.not_le.2 hgt, rfl⟩)
    · have hle : ch ≤ 0x1f := UInt8.not_lt.1 hgt
      rw [if_neg hgt]
      by_cases hshort : Short ch
      · refine .inr (.inr (.inl ⟨hmark, hle, hshort, ?_⟩))
        rcases hshort with rfl | rfl | rfl | rfl | rfl
        · exact ⟨0x6e, rfl, by decide, rfl⟩
        · exact ⟨0x72, rfl, by decide, rfl⟩
        · exact ⟨0x74, rfl, by decide, rfl⟩
        · exact ⟨0x62, rfl, by decide, rfl⟩
        · exact ⟨0x66, rfl, by decide, rfl⟩
      · refine .inr (.inr (.inr ⟨hmark, hle, hshort, ?_⟩))
        obtain ⟨hn, hr, ht, hb, hf⟩ : ¬ ch = 0x0a ∧ ¬ ch = 0x0d ∧ ¬ ch = 0x09 ∧ ¬ ch = 0x08 ∧
            ¬ ch = 0x0c := by simpa [Short] using hshort
        rw [if_neg hn, if_neg hr, if_neg ht, if_neg hb, if_neg hf]
        exact ⟨_, _, rfl, hexCode_control hle⟩

/-- **What is counted is what is written**, beside the bytes that are given. -/
theorem length_escapeJson (src : List UInt8) :
    (escapeJson src).length = escapeJsonLen src + src.length := by
  induction src with
  | nil => rfl
  | cons ch src ih =>
    rw [escapeJson, length_append, ih, escapeJsonLen, length_cons]
    rcases escapeJsonByte_cases ch with ⟨hmark, hbyte⟩ | ⟨hmark, hle, hbyte⟩ |
      ⟨hmark, hle, hshort, b, hbyte, -⟩ | ⟨hmark, hle, hshort, c, d, hbyte, -⟩
    · rw [hbyte, if_pos hmark]
      simp only [length_cons, length_nil]
      omega
    · rw [hbyte, if_neg hmark, if_neg hle]
      simp only [length_cons, length_nil]
      omega
    · rw [hbyte, if_neg hmark, if_pos hle, if_pos hshort]
      simp only [length_cons, length_nil]
      omega
    · rw [hbyte, if_neg hmark, if_pos hle, if_neg hshort]
      simp only [length_cons, length_nil]
      omega

/-! ### The way back -/

/-- **One byte.** -/
theorem decodeJsonChars_byte (ch : UInt8) (s : List UInt8) :
    decodeJsonChars (escapeJsonByte ch ++ s) = (ch :: ·) <$> decodeJsonChars s := by
  rcases escapeJsonByte_cases ch with ⟨hmark, hbyte⟩ | ⟨hmark, hle, hbyte⟩ |
    ⟨hmark, hle, hshort, b, hbyte, hu, hb⟩ | ⟨hmark, hle, hshort, c, d, hbyte, hcode⟩
  · rw [hbyte]
    rcases hmark with rfl | rfl
    · simp [decodeJsonChars, shortEscape]
    · simp [decodeJsonChars, shortEscape]
  · have hlow : ¬ ch < 0x20 := fun hlt =>
      hle (UInt8.le_iff_toNat_le.2 (Nat.le_of_lt_succ (UInt8.lt_iff_toNat_lt.1 hlt)))
    rw [not_or] at hmark
    rw [hbyte]
    simp [decodeJsonChars, hmark, hlow]
  · rw [hbyte]
    simp [decodeJsonChars, hb, hu]
  · have hlt : ch.toNat ≤ 31 := UInt8.le_iff_toNat_le.1 hle
    rw [hbyte]
    show decodeJsonChars (0x5c :: 0x75 :: 0x30 :: 0x30 :: c :: d :: s) = _
    rw [decodeJsonChars, hcode]
    dsimp only
    rw [if_neg (by omega), if_neg (by omega), utf8EncodeChar_control hle]
    rfl

/-- **The text that is written** stands, between quotation marks, for the bytes that were given. -/
theorem decodeJson_escapeJson (src : List UInt8) :
    decodeJson (0x22 :: escapeJson src ++ [0x22]) = some src := by
  induction src with
  | nil => rfl
  | cons ch src ih =>
    rw [escapeJson, cons_append, append_assoc, decodeJson, decodeJsonChars_byte]
    rw [cons_append, decodeJson] at ih
    rw [ih]
    rfl

/-- **Escaping for JSON.** The second pass writes what the first one counts, and the text that it writes
stands for the bytes that were given. -/
theorem escapeJson_correct (src : List UInt8) :
    (escapeJson src).length = escapeJsonLen src + src.length ∧
      decodeJson (0x22 :: escapeJson src ++ [0x22]) = some src :=
  ⟨length_escapeJson src, decodeJson_escapeJson src⟩

end Hengine.Escape
