import Mathlib.Tactic.IntervalCases
import Hengine.Lib.Tables

/-!
# Base64

The model of `ngx_encode_base64_internal` and `ngx_decode_base64_internal` in `ngx_string.c`, with the
tables of the functions that call them.

Three bytes make four characters; one or two bytes that are left make two or three, and only the standard
form fills them up with `=`. The decoder first looks at all characters up to a `=`, and refuses those
that are not in the table, and a number of them that leaves one over.
-/

namespace Hengine.Base64

open List

/-! ### Tables -/

/-- `basis64` of `ngx_encode_base64`. -/
def basis64 : List UInt8 :=
  "ABCDEFGHIJKLMNOPQRSTUVWXYZabcdefghijklmnopqrstuvwxyz0123456789+/".toUTF8.toList

/-- `basis64` of `ngx_encode_base64url`. -/
def basis64url : List UInt8 :=
  "ABCDEFGHIJKLMNOPQRSTUVWXYZabcdefghijklmnopqrstuvwxyz0123456789-_".toUTF8.toList

/-- `basis64` of `ngx_decode_base64`. -/
def table64 : List UInt8 := [
    77, 77, 77, 77, 77, 77, 77, 77, 77, 77, 77, 77, 77, 77, 77, 77,
    77, 77, 77, 77, 77, 77, 77, 77, 77, 77, 77, 77, 77, 77, 77, 77,
    77, 77, 77, 77, 77, 77, 77, 77, 77, 77, 77, 62, 77, 77, 77, 63,
    52, 53, 54, 55, 56, 57, 58, 59, 60, 61, 77, 77, 77, 77, 77, 77,
    77, 0, 1, 2, 3, 4, 5, 6, 7, 8, 9, 10, 11, 12, 13, 14,
    15, 16, 17, 18, 19, 20, 21, 22, 23, 24, 25, 77, 77, 77, 77, 77,
    77, 26, 27, 28, 29, 30, 31, 32, 33, 34, 35, 36, 37, 38, 39, 40,
    41, 42, 43, 44, 45, 46, 47, 48, 49, 50, 51, 77, 77, 77, 77, 77,
    77, 77, 77, 77, 77, 77, 77, 77, 77, 77, 77, 77, 77, 77, 77, 77,
    77, 77, 77, 77, 77, 77, 77, 77, 77, 77, 77, 77, 77, 77, 77, 77,
    77, 77, 77, 77, 77, 77, 77, 77, 77, 77, 77, 77, 77, 77, 77, 77,
    77, 77, 77, 77, 77, 77, 77, 77, 77, 77, 77, 77, 77, 77, 77, 77,
    77, 77, 77, 77, 77, 77, 77, 77, 77, 77, 77, 77, 77, 77, 77, 77,
    77, 77, 77, 77, 77, 77, 77, 77, 77, 77, 77, 77, 77, 77, 77, 77,
    77, 77, 77, 77, 77, 77, 77, 77, 77, 77, 77, 77, 77, 77, 77, 77,
    77, 77, 77, 77, 77, 77, 77, 77, 77, 77, 77, 77, 77, 77, 77, 77]

/-- `basis64` of `ngx_decode_base64url`. -/
def table64url : List UInt8 := [
    77, 77, 77, 77, 77, 77, 77, 77, 77, 77, 77, 77, 77, 77, 77, 77,
    77, 77, 77, 77, 77, 77, 77, 77, 77, 77, 77, 77, 77, 77, 77, 77,
    77, 77, 77, 77, 77, 77, 77, 77, 77, 77, 77, 77, 77, 62, 77, 77,
    52, 53, 54, 55, 56, 57, 58, 59, 60, 61, 77, 77, 77, 77, 77, 77,
    77, 0, 1, 2, 3, 4, 5, 6, 7, 8, 9, 10, 11, 12, 13, 14,
    15, 16, 17, 18, 19, 20, 21, 22, 23, 24, 25, 77, 77, 77, 77, 63,
    77, 26, 27, 28, 29, 30, 31, 32, 33, 34, 35, 36, 37, 38, 39, 40,
    41, 42, 43, 44, 45, 46, 47, 48, 49, 50, 51, 77, 77, 77, 77, 77,
    77, 77, 77, 77, 77, 77, 77, 77, 77, 77, 77, 77, 77, 77, 77, 77,
    77, 77, 77, 77, 77, 77, 77, 77, 77, 77, 77, 77, 77, 77, 77, 77,
    77, 77, 77, 77, 77, 77, 77, 77, 77, 77, 77, 77, 77, 77, 77, 77,
    77, 77, 77, 77, 77, 77, 77, 77, 77, 77, 77, 77, 77, 77, 77, 77,
    77, 77, 77, 77, 77, 77, 77, 77, 77, 77, 77, 77, 77, 77, 77, 77,
    77, 77, 77, 77, 77, 77, 77, 77, 77, 77, 77, 77, 77, 77, 77, 77,
    77, 77, 77, 77, 77, 77, 77, 77, 77, 77, 77, 77, 77, 77, 77, 77,
    77, 77, 77, 77, 77, 77, 77, 77, 77, 77, 77, 77, 77, 77, 77, 77]

/-! ### Encoding and decoding -/

/-- A character of the basis. -/
def char (basis : List UInt8) (i : UInt8) : UInt8 := basis.getD i.toNat 0

/-- `ngx_encode_base64_internal`. -/
@[grind =]
def encodeInternal (basis : List UInt8) (padding : Bool) : List UInt8 → List UInt8
  | a :: b :: c :: s =>
    char basis ((a >>> 2) &&& 0x3f) :: char basis (((a &&& 3) <<< 4) ||| (b >>> 4)) ::
      char basis (((b &&& 0x0f) <<< 2) ||| (c >>> 6)) :: char basis (c &&& 0x3f) ::
      encodeInternal basis padding s
  | [a, b] =>
    [char basis ((a >>> 2) &&& 0x3f), char basis (((a &&& 3) <<< 4) ||| (b >>> 4)),
      char basis ((b &&& 0x0f) <<< 2)] ++ if padding then [0x3d] else []
  | [a] =>
    [char basis ((a >>> 2) &&& 0x3f), char basis ((a &&& 3) <<< 4)] ++
      if padding then [0x3d, 0x3d] else []
  | [] => []

/-- The loop that looks at the characters: they, up to a `=`, or an error. -/
@[grind =]
def validate (table : List UInt8) : List UInt8 → Option (List UInt8)
  | [] => some []
  | ch :: src =>
    if ch = 0x3d then some []
    else if table.getD ch.toNat 0 = 77 then none
    else (ch :: ·) <$> validate table src

/-- The loop that writes the bytes, and the two cases behind it. -/
@[grind =]
def decodeGroups (table : List UInt8) : List UInt8 → List UInt8
  | a :: b :: c :: d :: s =>
    (char table a <<< 2 ||| char table b >>> 4) :: (char table b <<< 4 ||| char table c >>> 2) ::
      (char table c <<< 6 ||| char table d) :: decodeGroups table s
  | [a, b, c] =>
    [char table a <<< 2 ||| char table b >>> 4, char table b <<< 4 ||| char table c >>> 2]
  | [a, b] => [char table a <<< 2 ||| char table b >>> 4]
  | [_] => []
  | [] => []

/-- `ngx_decode_base64_internal`. -/
def decodeInternal (table : List UInt8) (src : List UInt8) : Option (List UInt8) := do
  let chars ← validate table src
  if chars.length % 4 = 1 then none else return decodeGroups table chars

/-- `ngx_encode_base64`. -/
def encodeBase64 : List UInt8 → List UInt8 := encodeInternal basis64 true

/-- `ngx_encode_base64url`. -/
def encodeBase64url : List UInt8 → List UInt8 := encodeInternal basis64url false

/-- `ngx_decode_base64`. -/
def decodeBase64 : List UInt8 → Option (List UInt8) := decodeInternal table64

/-- `ngx_decode_base64url`. -/
def decodeBase64url : List UInt8 → Option (List UInt8) := decodeInternal table64url

/-- `ngx_base64_encoded_length`. -/
def encodedLength (len : ℕ) : ℕ := (len + 2) / 3 * 4

/-- `ngx_base64_decoded_length`. -/
def decodedLength (len : ℕ) : ℕ := (len + 3) / 4 * 3

/-! ### Tables that are inverse -/

/-- A table that finds the characters of a basis. -/
structure Inverse (basis table : List UInt8) : Prop where
  find : ∀ i < 64, char table (char basis i) = i
  ne : ∀ i < 64, char basis i ≠ 0x3d

/-- That two tables are inverse is checked entry by entry. -/
theorem Inverse.of_all {basis table : List UInt8} (hlen : basis.length = 64)
    (h : (basis.zipIdx.all fun q => char table q.1 == .ofNat q.2 && q.1 != 0x3d) = true) :
    Inverse basis table := by
  have hat {i : UInt8} (hi : i < 64) : char table (char basis i) = i ∧ char basis i ≠ 0x3d := by
    have hlt : i.toNat < basis.length := by
      rw [hlen]
      exact UInt8.lt_iff_toNat_lt.1 hi
    have hp := getD_of_all basis (p := fun ch k => char table ch == .ofNat k && ch != 0x3d) h hlt 0
    obtain ⟨hfind, hne⟩ := Bool.and_eq_true_iff.1 hp
    rw [UInt8.ofNat_toNat] at hfind
    exact ⟨eq_of_beq hfind, bne_iff_ne.1 hne⟩
  exact ⟨fun i hi => (hat hi).1, fun i hi => (hat hi).2⟩

/-- The alphabet of Base64, character by character. -/
theorem basis64_eq : basis64 = [
    65, 66, 67, 68, 69, 70, 71, 72, 73, 74, 75, 76, 77, 78, 79, 80, 81, 82, 83, 84, 85, 86, 87,
    88, 89, 90, 97, 98, 99, 100, 101, 102, 103, 104, 105, 106, 107, 108, 109, 110, 111, 112, 113,
    114, 115, 116, 117, 118, 119, 120, 121, 122, 48, 49, 50, 51, 52, 53, 54, 55, 56, 57, 43, 47] :=
  (toUTF8_toList _).trans (by decide)

/-- The alphabet for URLs, character by character. -/
theorem basis64url_eq : basis64url = [
    65, 66, 67, 68, 69, 70, 71, 72, 73, 74, 75, 76, 77, 78, 79, 80, 81, 82, 83, 84, 85, 86, 87,
    88, 89, 90, 97, 98, 99, 100, 101, 102, 103, 104, 105, 106, 107, 108, 109, 110, 111, 112, 113,
    114, 115, 116, 117, 118, 119, 120, 121, 122, 48, 49, 50, 51, 52, 53, 54, 55, 56, 57, 45, 95] :=
  (toUTF8_toList _).trans (by decide)

theorem inverse64 : Inverse basis64 table64 :=
  basis64_eq ▸ .of_all rfl (by decide)

theorem inverse64url : Inverse basis64url table64url :=
  basis64url_eq ▸ .of_all rfl (by decide)

/-! ### Groups of six bits -/

/-- The groups of six bits of a text. -/
@[grind =]
def sextets : List UInt8 → List UInt8
  | a :: b :: c :: s =>
    ((a >>> 2) &&& 0x3f) :: (((a &&& 3) <<< 4) ||| (b >>> 4)) ::
      (((b &&& 0x0f) <<< 2) ||| (c >>> 6)) :: (c &&& 0x3f) :: sextets s
  | [a, b] => [(a >>> 2) &&& 0x3f, ((a &&& 3) <<< 4) ||| (b >>> 4), (b &&& 0x0f) <<< 2]
  | [a] => [(a >>> 2) &&& 0x3f, (a &&& 3) <<< 4]
  | [] => []

/-- What fills up the last group. -/
def pad (padding : Bool) (s : List UInt8) : List UInt8 :=
  if padding then List.replicate ((3 - s.length % 3) % 3) 0x3d else []

/-- **The encoder** writes the character of each sextet, and the padding. -/
theorem encodeInternal_eq (basis : List UInt8) (padding : Bool) : ∀ s : List UInt8,
    encodeInternal basis padding s = (sextets s).map (char basis) ++ pad padding s
  | a :: b :: c :: s => by
    have hpad : pad padding (a :: b :: c :: s) = pad padding s := by
      simp only [pad, length_cons]
      rw [show s.length + 1 + 1 + 1 = s.length + 3 from rfl, Nat.add_mod_right]
    rw [encodeInternal, encodeInternal_eq basis padding s, sextets, hpad]
    rfl
  | [a, b] => by cases padding <;> rfl
  | [a] => by cases padding <;> rfl
  | [] => by cases padding <;> rfl

/-- How long the code is, with the padding and without it. -/
theorem length_sextets : ∀ s : List UInt8,
    (sextets s).length + (pad true s).length = encodedLength s.length ∧
      (sextets s).length = (4 * s.length + 2) / 3
  | a :: b :: c :: s => by
    obtain ⟨hpad, hlen⟩ := length_sextets s
    simp only [sextets, pad, if_true, length_cons, length_replicate, encodedLength] at *
    omega
  | [a, b] => by simp [sextets, pad, encodedLength]
  | [a] => by simp [sextets, pad, encodedLength]
  | [] => ⟨rfl, rfl⟩

/-- The bytes of some groups of six bits. -/
@[grind =]
def octets : List UInt8 → List UInt8
  | i :: j :: k :: l :: s =>
    (i <<< 2 ||| j >>> 4) :: (j <<< 4 ||| k >>> 2) :: (k <<< 6 ||| l) :: octets s
  | [i, j, k] => [i <<< 2 ||| j >>> 4, j <<< 4 ||| k >>> 2]
  | [i, j] => [i <<< 2 ||| j >>> 4]
  | [_] => []
  | [] => []

/-- Decoding looks the characters up and joins their sextets. -/
theorem decodeGroups_eq (table : List UInt8) : ∀ s : List UInt8,
    decodeGroups table s = octets (s.map (char table))
  | a :: b :: c :: d :: s => by
    rw [decodeGroups, decodeGroups_eq table s]
    rfl
  | [a, b, c] => rfl
  | [a, b] => rfl
  | [_] => rfl
  | [] => rfl

/-! ### Bits -/

theorem bits_first (a b : UInt8) :
    ((a >>> 2) &&& 0x3f) <<< 2 ||| (((a &&& 3) <<< 4) ||| (b >>> 4)) >>> 4 = a := by
  apply UInt8.eq_of_toBitVec_eq
  ext i hi
  interval_cases i <;> simp

theorem bits_second (a b c : UInt8) :
    (((a &&& 3) <<< 4) ||| (b >>> 4)) <<< 4 ||| (((b &&& 0x0f) <<< 2) ||| (c >>> 6)) >>> 2 = b := by
  apply UInt8.eq_of_toBitVec_eq
  ext i hi
  interval_cases i <;> simp

theorem bits_third (b c : UInt8) :
    (((b &&& 0x0f) <<< 2) ||| (c >>> 6)) <<< 6 ||| c &&& 0x3f = c := by
  apply UInt8.eq_of_toBitVec_eq
  ext i hi
  interval_cases i <;> simp

theorem lt_of_and {x : UInt8} (h : x &&& 0x3f = x) : x < 64 := by
  have hnat := congrArg UInt8.toNat h
  rw [UInt8.toNat_and] at hnat
  have hle : x.toNat &&& 63 ≤ 63 := Nat.and_le_right
  exact UInt8.lt_iff_toNat_lt.2 (Nat.lt_succ_of_le (hnat ▸ hle))

/-- The four sextets of three bytes are below 64. -/
theorem bits_lt (a b : UInt8) :
    (a >>> 2) &&& 0x3f < 64 ∧ ((a &&& 3) <<< 4) ||| (b >>> 4) < 64 ∧
      ((a &&& 0x0f) <<< 2) ||| (b >>> 6) < 64 ∧ a &&& 0x3f < 64 := by
  refine ⟨lt_of_and ?_, lt_of_and ?_, lt_of_and ?_, lt_of_and ?_⟩
  all_goals
    apply UInt8.eq_of_toBitVec_eq
    ext i hi
    interval_cases i <;> simp

/-- **The groups of a text** make the text again. -/
theorem octets_sextets : ∀ s : List UInt8, octets (sextets s) = s
  | a :: b :: c :: s => by
    rw [sextets, octets, octets_sextets s, bits_first, bits_second, bits_third]
  | [a, b] => by
    have hsecond := bits_second a b 0
    have hzero : (0 : UInt8) >>> 6 = 0 := rfl
    rw [hzero, UInt8.or_zero] at hsecond
    rw [sextets, octets, bits_first, hsecond]
  | [a] => by
    have hfirst := bits_first a 0
    have hzero : (0 : UInt8) >>> 4 = 0 := rfl
    rw [hzero, UInt8.or_zero] at hfirst
    rw [sextets, octets, hfirst]
  | [] => rfl

/-- A sextet has six bits. -/
theorem sextets_lt : ∀ s : List UInt8, ∀ i ∈ sextets s, i < 64
  | a :: b :: c :: s => by
    rw [sextets]
    simp only [forall_mem_cons]
    exact ⟨(bits_lt a b).1, (bits_lt a b).2.1, (bits_lt b c).2.2.1, (bits_lt c c).2.2.2, sextets_lt s⟩
  | [a, b] => by
    have hthird := (bits_lt b 0).2.2.1
    have hzero : (0 : UInt8) >>> 6 = 0 := rfl
    rw [hzero, UInt8.or_zero] at hthird
    simp only [sextets, forall_mem_cons]
    exact ⟨(bits_lt a b).1, (bits_lt a b).2.1, hthird, nofun⟩
  | [a] => by
    have hsecond := (bits_lt a 0).2.1
    have hzero : (0 : UInt8) >>> 4 = 0 := rfl
    rw [hzero, UInt8.or_zero] at hsecond
    simp only [sextets, forall_mem_cons]
    exact ⟨(bits_lt a 0).1, hsecond, nofun⟩
  | [] => nofun

/-! ### The theorem -/

/-- The characters of groups are valid, and what fills up the last group ends them. -/
theorem validate_map {basis table : List UInt8} (h : Inverse basis table) {p : List UInt8}
    (hp : p = [] ∨ ∃ q, p = 0x3d :: q) : ∀ {is : List UInt8}, (∀ i ∈ is, i < 64) →
      validate table (is.map (char basis) ++ p) = some (is.map (char basis))
  | [], _ => by
    rcases hp with rfl | ⟨q, rfl⟩
    · rfl
    · rfl
  | i :: is, his => by
    obtain ⟨hi, his⟩ := forall_mem_cons.1 his
    have hvalid : table.getD (char basis i).toNat 0 ≠ 77 := by
      have hfind : table.getD (char basis i).toNat 0 = i := h.find i hi
      rw [hfind]
      rintro rfl
      exact absurd hi (by decide)
    rw [map_cons, cons_append, validate, if_neg (h.ne i hi), if_neg hvalid,
      validate_map h hp his]
    rfl

/-- A padding is empty or begins with `=`. -/
theorem pad_cases (padding : Bool) (s : List UInt8) :
    pad padding s = [] ∨ ∃ q, pad padding s = 0x3d :: q := by
  unfold pad
  split_ifs
  · cases (3 - s.length % 3) % 3 with
    | zero => exact .inl rfl
    | succ n => exact .inr ⟨_, replicate_succ⟩
  · exact .inl rfl

/-- **What is encoded is decoded.** -/
theorem decodeInternal_encodeInternal {basis table : List UInt8} (h : Inverse basis table)
    (padding : Bool) (s : List UInt8) :
    decodeInternal table (encodeInternal basis padding s) = some s := by
  have hmap : ((sextets s).map (char basis)).map (char table) = sextets s := by
    rw [map_map]
    exact (map_congr_left fun i hi => h.find i (sextets_lt s i hi)).trans (map_id _)
  have hlen : ¬ ((sextets s).map (char basis)).length % 4 = 1 := by
    rw [length_map, (length_sextets s).2]
    omega
  rw [decodeInternal, encodeInternal_eq, validate_map h (pad_cases padding s) (sextets_lt s)]
  show (if _ then none else some _) = _
  rw [if_neg hlen, decodeGroups_eq, hmap, octets_sextets]

/-- The octets of a group fit the decoded length. -/
theorem length_octets : ∀ s : List UInt8, (octets s).length ≤ decodedLength s.length
  | i :: j :: k :: l :: s => by
    have hrest := length_octets s
    simp only [octets, length_cons, decodedLength] at *
    omega
  | [_, _, _] => by simp [octets, decodedLength]
  | [_, _] => by simp [octets, decodedLength]
  | [_] => Nat.zero_le _
  | [] => Nat.le_refl _

/-- The characters that are valid are no more than those of the source. -/
theorem length_validate {table : List UInt8} : ∀ {src chars : List UInt8},
    validate table src = some chars → chars.length ≤ src.length
  | [], _, h => by
    cases h
    exact Nat.le_refl _
  | ch :: src, chars, h => by
    rw [validate] at h
    split_ifs at h
    · cases h
      exact Nat.zero_le _
    · obtain ⟨rest, hrest, rfl⟩ := Option.map_eq_some_iff.1 h
      exact Nat.succ_le_succ (length_validate hrest)

/-- **The callers allocate enough.** -/
theorem length_decodeInternal {table src dst : List UInt8} (h : decodeInternal table src = some dst) :
    dst.length ≤ decodedLength src.length := by
  obtain ⟨chars, hchars, h⟩ := Option.bind_eq_some_iff.1 h
  split_ifs at h
  cases h
  rw [decodeGroups_eq]
  have hlen := length_octets (chars.map (char table))
  have hle := length_validate hchars
  rw [length_map] at hlen
  unfold decodedLength at *
  omega

/-- **Base64.** What is encoded is decoded, in both forms; the standard form has the length of the macro,
and the other one four characters for three bytes, and no more than it needs for what is left; and what
is decoded fits in what the macro gives. -/
theorem base64_trip :
    (∀ s, decodeBase64 (encodeBase64 s) = some s ∧ decodeBase64url (encodeBase64url s) = some s ∧
      (encodeBase64 s).length = encodedLength s.length ∧
      (encodeBase64url s).length = (4 * s.length + 2) / 3 ∧
      (encodeBase64url s).length ≤ encodedLength s.length) ∧
    ∀ src dst, decodeBase64 src = some dst ∨ decodeBase64url src = some dst →
      dst.length ≤ decodedLength src.length := by
  refine ⟨fun s => ⟨decodeInternal_encodeInternal inverse64 true s,
    decodeInternal_encodeInternal inverse64url false s, ?_, ?_, ?_⟩, fun src dst h => ?_⟩
  · rw [encodeBase64, encodeInternal_eq, length_append, length_map]
    exact (length_sextets s).1
  · rw [encodeBase64url, encodeInternal_eq, length_append, length_map, (length_sextets s).2]
    rfl
  · rw [encodeBase64url, encodeInternal_eq, length_append, length_map, ← (length_sextets s).1]
    exact Nat.le_add_right _ _
  · exact h.elim length_decodeInternal length_decodeInternal

/-- The form for URLs does not have the length of the macro. -/
theorem url_length_differs :
    ¬ ∀ s, (encodeBase64url s).length = encodedLength s.length := fun h => absurd (h [0]) (by decide)

end Hengine.Base64
