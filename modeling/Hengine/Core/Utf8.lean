import Mathlib.Algebra.Order.Ring.Nat
import Mathlib.Data.List.Basic

/-!
# Decoding UTF-8

The model of `ngx_utf8_decode` and `ngx_utf8_length`. A pointer into a string is what stands from there on;
`none` is a byte read behind the end.

The bytes behind the first one are only tested against `0x80`, and of the first one only the lower bits are
taken. So a sequence is misread (`Misread`) if it has a byte from `0xc0` on behind the first one, or the first
one is from `0xf8` on; and surrogates are taken for characters.
-/

namespace Hengine.Utf8

open List

/-- `0xffffffff`. -/
def error : ℕ := 0xffffffff
/-- `0xfffffffe`. -/
def incomplete : ℕ := 0xfffffffe

/-- The loop of `ngx_utf8_decode`, and what follows it. -/
@[grind =]
def decodeLoop (valid : ℕ) : ℕ → ℕ → List UInt8 → ℕ × List UInt8
  | 0, u, p => (if valid < u then u else error, p)
  | len + 1, u, i :: p =>
    if i < 0x80 then (error, p) else decodeLoop valid len (u <<< 6 ||| i.toNat &&& 0x3f) p
  -- not reached, there are enough bytes
  | _ + 1, _, [] => (error, [])

/-- The part behind the tests of the first byte: `p` is the string, `len` the number of bytes behind it. -/
def decodeMore (p : List UInt8) (u valid len : ℕ) : ℕ × List UInt8 :=
  if p.length - 1 < len then (incomplete, p) else decodeLoop valid len u p.tail

/-- `ngx_utf8_decode`: the value, and where `p` is then. -/
def decode : List UInt8 → Option (ℕ × List UInt8)
  | [] => none
  | b :: p =>
    let u := b.toNat
    some <|
      if 0xf0 ≤ u then decodeMore (b :: p) (u &&& 0x07) 0xffff 3
      else if 0xe0 ≤ u then decodeMore (b :: p) (u &&& 0x0f) 0x7ff 2
      else if 0xc2 ≤ u then decodeMore (b :: p) (u &&& 0x1f) 0x7f 1
      else (error, p)

/-- The loop of `ngx_utf8_length` over a string of `n` bytes; a turn takes a byte at least. -/
@[grind =]
def lengthLoop (n : ℕ) : ℕ → List UInt8 → ℕ → ℕ
  | _, [], len => len
  | 0, _ :: _, _ => n
  | turns + 1, c :: p, len =>
    if c < 0x80 then lengthLoop n turns p (len + 1)
    else
      match decode (c :: p) with
      | none => n
      | some (u, p) => if 0x10ffff < u then n else lengthLoop n turns p (len + 1)

/-- `ngx_utf8_length`. -/
def utf8Length (p : List UInt8) : ℕ := lengthLoop p.length p.length p 0

/-! ### The value of a sequence -/

theorem shift_six (u : ℕ) (i : UInt8) : u <<< 6 ||| i.toNat &&& 0x3f = u * 64 + i.toNat % 64 := by
  have hmask : i.toNat &&& 0x3f = i.toNat % 2 ^ 6 := Nat.and_two_pow_sub_one_eq_mod _ 6
  rw [hmask, ← Nat.shiftLeft_add_eq_or_of_lt (Nat.mod_lt _ (by decide)), Nat.shiftLeft_eq]

theorem decodeLoop_more {valid len u : ℕ} {i : UInt8} (h : ¬ i < 0x80) (p : List UInt8) :
    decodeLoop valid (len + 1) u (i :: p) = decodeLoop valid len (u * 64 + i.toNat % 64) p := by
  rw [decodeLoop, if_neg h, shift_six]

theorem decodeLoop_stop {valid len u : ℕ} {i : UInt8} (h : i < 0x80) (p : List UInt8) :
    decodeLoop valid (len + 1) u (i :: p) = (error, p) := by
  rw [decodeLoop, if_pos h]

/-- The value of two bytes. -/
def value2 (b c : UInt8) : ℕ := b.toNat % 32 * 64 + c.toNat % 64
/-- The value of three bytes. -/
def value3 (b c d : UInt8) : ℕ := (b.toNat % 16 * 64 + c.toNat % 64) * 64 + d.toNat % 64
/-- The value of four bytes. -/
def value4 (b c d e : UInt8) : ℕ := ((b.toNat % 8 * 64 + c.toNat % 64) * 64 + d.toNat % 64) * 64 + e.toNat % 64

theorem and_one_f (b : UInt8) : b.toNat &&& 0x1f = b.toNat % 32 := Nat.and_two_pow_sub_one_eq_mod _ 5
theorem and_f (b : UInt8) : b.toNat &&& 0x0f = b.toNat % 16 := Nat.and_two_pow_sub_one_eq_mod _ 4
theorem and_seven (b : UInt8) : b.toNat &&& 0x07 = b.toNat % 8 := Nat.and_two_pow_sub_one_eq_mod _ 3

/-- **Two bytes.** -/
theorem decode_two {b c : UInt8} (hb : 0xc2 ≤ b.toNat ∧ b.toNat < 0xe0) (hc : ¬ c < 0x80) (p : List UInt8) :
    decode (b :: c :: p) = some (value2 b c, p) := by
  have hbig : 0x7f < value2 b c := by rw [value2]; omega
  rw [decode]
  rw [if_neg (by omega), if_neg (by omega), if_pos hb.1, decodeMore,
    if_neg (by rw [length_cons, length_cons]; omega), tail_cons, decodeLoop_more hc, and_one_f,
    decodeLoop]
  exact congrArg some (Prod.ext (if_pos hbig) rfl)

/-- **Three bytes.** -/
theorem decode_three {b c d : UInt8} (hb : 0xe0 ≤ b.toNat ∧ b.toNat < 0xf0) (hc : ¬ c < 0x80)
    (hd : ¬ d < 0x80) (p : List UInt8) : decode (b :: c :: d :: p) =
      some (if 0x7ff < value3 b c d then value3 b c d else error, p) := by
  rw [decode]
  rw [if_neg (by omega), if_pos hb.1, decodeMore,
    if_neg (by rw [length_cons, length_cons, length_cons]; omega), tail_cons,
    decodeLoop_more hc, decodeLoop_more hd, and_f, decodeLoop]
  rfl

/-- **Four bytes.** -/
theorem decode_four {b c d e : UInt8} (hb : 0xf0 ≤ b.toNat) (hc : ¬ c < 0x80) (hd : ¬ d < 0x80)
    (he : ¬ e < 0x80) (p : List UInt8) : decode (b :: c :: d :: e :: p) =
      some (if 0xffff < value4 b c d e then value4 b c d e else error, p) := by
  rw [decode]
  rw [if_pos hb, decodeMore,
    if_neg (by rw [length_cons, length_cons, length_cons, length_cons]; omega),
    tail_cons, decodeLoop_more hc, decodeLoop_more hd, decodeLoop_more he, and_seven, decodeLoop]
  rfl

/-! ### The encoding of a character -/

variable {p : List UInt8} {b : UInt8} {c : Char}

/-- A character of two bytes. -/
theorem encode_two (h : 0x7f < c.toNat) (h' : c.toNat ≤ 0x7ff) : String.utf8EncodeChar c =
    [UInt8.ofNat (c.toNat / 64 + 0xc0), UInt8.ofNat (c.toNat % 64 + 0x80)] := by
  have hlow : ¬ c.val.toNat ≤ 0x7f := by show ¬ c.toNat ≤ _; omega
  have hmod : c.toNat / 64 % 0x20 = c.toNat / 64 := Nat.mod_eq_of_lt (by omega)
  rw [String.utf8EncodeChar]
  rw [if_neg hlow, if_pos (show c.val.toNat ≤ 0x7ff from h')]
  show [UInt8.ofNat (c.toNat / 64 % 0x20 + 0xc0), _] = _
  rw [hmod]
  rfl

/-- A character of three bytes. -/
theorem encode_three (h : 0x7ff < c.toNat) (h' : c.toNat ≤ 0xffff) : String.utf8EncodeChar c =
    [UInt8.ofNat (c.toNat / 4096 + 0xe0), UInt8.ofNat (c.toNat / 64 % 64 + 0x80),
      UInt8.ofNat (c.toNat % 64 + 0x80)] := by
  have hlow : ¬ c.val.toNat ≤ 0x7f := by show ¬ c.toNat ≤ _; omega
  have hlow' : ¬ c.val.toNat ≤ 0x7ff := by show ¬ c.toNat ≤ _; omega
  have hmod : c.toNat / 4096 % 0x10 = c.toNat / 4096 := Nat.mod_eq_of_lt (by omega)
  rw [String.utf8EncodeChar]
  rw [if_neg hlow, if_neg hlow', if_pos (show c.val.toNat ≤ 0xffff from h')]
  show [UInt8.ofNat (c.toNat / 4096 % 0x10 + 0xe0), _, _] = _
  rw [hmod]
  rfl

/-- The encoding of a character in four bytes. -/
theorem encode_four (h : 0xffff < c.toNat) : String.utf8EncodeChar c =
    [UInt8.ofNat (c.toNat / 262144 + 0xf0), UInt8.ofNat (c.toNat / 4096 % 64 + 0x80),
      UInt8.ofNat (c.toNat / 64 % 64 + 0x80), UInt8.ofNat (c.toNat % 64 + 0x80)] := by
  have hvalid : c.toNat < 0x110000 := by
    rcases c.valid with hlow | hhigh
    · exact hlow.trans (by decide)
    · exact hhigh.2
  have hlow : ¬ c.val.toNat ≤ 0x7f := by show ¬ c.toNat ≤ _; omega
  have hlow' : ¬ c.val.toNat ≤ 0x7ff := by show ¬ c.toNat ≤ _; omega
  have hlow'' : ¬ c.val.toNat ≤ 0xffff := by show ¬ c.toNat ≤ _; omega
  have hmod : c.toNat / 262144 % 0x08 = c.toNat / 262144 := Nat.mod_eq_of_lt (by omega)
  rw [String.utf8EncodeChar]
  rw [if_neg hlow, if_neg hlow', if_neg hlow'']
  show [UInt8.ofNat (c.toNat / 262144 % 0x08 + 0xf0), _, _, _] = _
  rw [hmod]
  rfl

theorem exists_char {v : ℕ} (h : v < 0xd800 ∨ 0xdfff < v ∧ v < 0x110000) : ∃ c : Char, c.toNat = v := by
  have hvalid : v.isValidChar := h
  exact ⟨Char.ofNatAux v hvalid, rfl⟩

theorem char_range (c : Char) : c.toNat < 0xd800 ∨ 0xdfff < c.toNat ∧ c.toNat < 0x110000 := c.valid

/-! ### What is decoded -/

/-- **What is decoded is there**: the bytes that are taken are the encoding of the character. -/
def Faithful (s : List UInt8) : Prop :=
  ∃ v p, decode s = some (v, p) ∧
    (v ≤ 0x10ffff → ∃ c : Char, c.toNat = v ∧ s = String.utf8EncodeChar c ++ p)

/-- **A sequence that is misread**: there is none, or its value is accepted, but a byte behind the first one is
no continuation, or the first one is from `0xf8` on, or the value is a surrogate. -/
inductive Misread : List UInt8 → Prop
  | empty : Misread []
  | two {b c : UInt8} {p : List UInt8} (lead : 0xc2 ≤ b.toNat ∧ b.toNat < 0xe0) (bad : 0xc0 ≤ c.toNat) :
      Misread (b :: c :: p)
  | three {b c d : UInt8} {p : List UInt8} (lead : 0xe0 ≤ b.toNat ∧ b.toNat < 0xf0)
      (tail : 0x80 ≤ c.toNat ∧ 0x80 ≤ d.toNat) (short : b.toNat = 0xe0 → 0x20 ≤ c.toNat % 64)
      (bad : 0xc0 ≤ c.toNat ∨ 0xc0 ≤ d.toNat ∨ b.toNat = 0xed ∧ 0x20 ≤ c.toNat % 64) :
      Misread (b :: c :: d :: p)
  | four {b c d e : UInt8} {p : List UInt8} (lead : 0xf0 ≤ b.toNat)
      (tail : 0x80 ≤ c.toNat ∧ 0x80 ≤ d.toNat ∧ 0x80 ≤ e.toNat)
      (short : b.toNat % 8 = 0 → 0x10 ≤ c.toNat % 64)
      (range : b.toNat % 8 < 4 ∨ b.toNat % 8 = 4 ∧ c.toNat % 64 < 0x10)
      (bad : 0xf8 ≤ b.toNat ∨ 0xc0 ≤ c.toNat ∨ 0xc0 ≤ d.toNat ∨ 0xc0 ≤ e.toNat) :
      Misread (b :: c :: d :: e :: p)

theorem faithful_of_large {s : List UInt8} {v : ℕ} (h : decode s = some (v, p))
    (hv : 0x10ffff < v) : Faithful s :=
  ⟨v, p, h, fun hle => absurd hle (by omega)⟩

theorem not_lt_iff {i : UInt8} : ¬ i < 0x80 ↔ 0x80 ≤ i.toNat := by
  rw [UInt8.not_lt, UInt8.le_iff_toNat_le]
  rfl

theorem byte_eq {n : ℕ} (h : b.toNat = n) : b = UInt8.ofNat n := by
  rw [← h, UInt8.ofNat_toNat]

theorem toNat_byte {n : ℕ} (hn : n < 256) (h : b = UInt8.ofNat n) : b.toNat = n := by
  rw [h, UInt8.toNat_ofNat', Nat.mod_eq_of_lt hn]

/-- **Two bytes** are misread if the second is no continuation. -/
theorem faithful_two {b c : UInt8} (hb : 0xc2 ≤ b.toNat ∧ b.toNat < 0xe0) (hc : 0x80 ≤ c.toNat)
    (p : List UInt8) : Faithful (b :: c :: p) ↔ c.toNat < 0xc0 := by
  have hdecode := decode_two hb (not_lt_iff.mpr hc) p
  constructor
  · rintro ⟨v, p', h, hfaithful⟩
    rw [hdecode] at h
    obtain ⟨rfl, rfl⟩ := Prod.mk.inj (Option.some.inj h)
    have hv : 0x7f < value2 b c ∧ value2 b c ≤ 0x7ff := by rw [value2]; omega
    obtain ⟨x, hx, hbytes⟩ := hfaithful (by omega)
    rw [encode_two (by omega) (by omega)] at hbytes
    have hc' := toNat_byte (by omega) (List.cons.inj (List.cons.inj hbytes).2).1
    omega
  · intro hc'
    refine ⟨_, p, hdecode, fun _ => ?_⟩
    have hv : 0x7f < value2 b c ∧ value2 b c ≤ 0x7ff := by rw [value2]; omega
    obtain ⟨x, hx⟩ := exists_char (v := value2 b c) (by omega)
    refine ⟨x, hx, ?_⟩
    have hb' : b.toNat = value2 b c / 64 + 0xc0 := by rw [value2]; omega
    have hc'' : c.toNat = value2 b c % 64 + 0x80 := by rw [value2]; omega
    rw [encode_two (by omega) (by omega), hx, ← byte_eq hb', ← byte_eq hc'']
    rfl

/-- **Three bytes** are misread if one behind the first is no continuation, or the value is a surrogate. -/
theorem faithful_three {b c d : UInt8} (hb : 0xe0 ≤ b.toNat ∧ b.toNat < 0xf0) (hc : 0x80 ≤ c.toNat)
    (hd : 0x80 ≤ d.toNat) (p : List UInt8) : Faithful (b :: c :: d :: p) ↔
      ((b.toNat = 0xe0 → 0x20 ≤ c.toNat % 64) →
        c.toNat < 0xc0 ∧ d.toNat < 0xc0 ∧ ¬ (b.toNat = 0xed ∧ 0x20 ≤ c.toNat % 64)) := by
  have hdecode := decode_three hb (not_lt_iff.mpr hc) (not_lt_iff.mpr hd) p
  have hvalue : value3 b c d = (b.toNat % 16 * 64 + c.toNat % 64) * 64 + d.toNat % 64 := rfl
  by_cases hshort : 0x7ff < value3 b c d
  · rw [if_pos hshort] at hdecode
    have hlong : b.toNat = 0xe0 → 0x20 ≤ c.toNat % 64 := fun _ => by omega
    rw [forall_prop_of_true hlong]
    constructor
    · rintro ⟨v, p', h, hfaithful⟩
      rw [hdecode] at h
      obtain ⟨rfl, rfl⟩ := Prod.mk.inj (Option.some.inj h)
      obtain ⟨x, hx, hbytes⟩ := hfaithful (by omega)
      have hrange := char_range x
      rw [encode_three (by omega) (by omega)] at hbytes
      obtain ⟨-, hbytes⟩ := List.cons.inj hbytes
      obtain ⟨hc', hbytes⟩ := List.cons.inj hbytes
      have hc' := toNat_byte (by omega) hc'
      have hd' := toNat_byte (by omega) (List.cons.inj hbytes).1
      exact ⟨by omega, by omega, fun _ => by omega⟩
    · rintro ⟨hc', hd', hsurrogate⟩
      refine ⟨_, p, hdecode, fun _ => ?_⟩
      obtain ⟨x, hx⟩ := exists_char (v := value3 b c d) (by omega)
      refine ⟨x, hx, ?_⟩
      have hb' : b.toNat = value3 b c d / 4096 + 0xe0 := by omega
      have hc'' : c.toNat = value3 b c d / 64 % 64 + 0x80 := by omega
      have hd'' : d.toNat = value3 b c d % 64 + 0x80 := by omega
      rw [encode_three (by omega) (by omega), hx, ← byte_eq hb', ← byte_eq hc'', ← byte_eq hd'']
      rfl
  · rw [if_neg hshort] at hdecode
    refine iff_of_true (faithful_of_large hdecode (by decide)) fun hlong => ?_
    omega

/-- **Four bytes** are misread if the first is too large, or one behind it is no continuation. -/
theorem faithful_four {b c d e : UInt8} (hb : 0xf0 ≤ b.toNat) (hc : 0x80 ≤ c.toNat) (hd : 0x80 ≤ d.toNat)
    (he : 0x80 ≤ e.toNat) (p : List UInt8) : Faithful (b :: c :: d :: e :: p) ↔
      ((b.toNat % 8 = 0 → 0x10 ≤ c.toNat % 64) →
        (b.toNat % 8 < 4 ∨ b.toNat % 8 = 4 ∧ c.toNat % 64 < 0x10) →
          b.toNat < 0xf8 ∧ c.toNat < 0xc0 ∧ d.toNat < 0xc0 ∧ e.toNat < 0xc0) := by
  have hbyte := b.toNat_lt
  have hdecode := decode_four hb (not_lt_iff.mpr hc) (not_lt_iff.mpr hd) (not_lt_iff.mpr he) p
  have hvalue : value4 b c d e =
      ((b.toNat % 8 * 64 + c.toNat % 64) * 64 + d.toNat % 64) * 64 + e.toNat % 64 := rfl
  by_cases hin : 0xffff < value4 b c d e ∧ value4 b c d e ≤ 0x10ffff
  · rw [if_pos hin.1] at hdecode
    have hlong : b.toNat % 8 = 0 → 0x10 ≤ c.toNat % 64 := fun _ => by omega
    have hrange : b.toNat % 8 < 4 ∨ b.toNat % 8 = 4 ∧ c.toNat % 64 < 0x10 := by omega
    rw [forall_prop_of_true hlong, forall_prop_of_true hrange]
    constructor
    · rintro ⟨v, p', h, hfaithful⟩
      rw [hdecode] at h
      obtain ⟨rfl, rfl⟩ := Prod.mk.inj (Option.some.inj h)
      obtain ⟨x, hx, hbytes⟩ := hfaithful hin.2
      rw [encode_four (by omega)] at hbytes
      obtain ⟨hb', hbytes⟩ := List.cons.inj hbytes
      obtain ⟨hc', hbytes⟩ := List.cons.inj hbytes
      obtain ⟨hd', hbytes⟩ := List.cons.inj hbytes
      have hb' := toNat_byte (by omega) hb'
      have hc' := toNat_byte (by omega) hc'
      have hd' := toNat_byte (by omega) hd'
      have he' := toNat_byte (by omega) (List.cons.inj hbytes).1
      exact ⟨by omega, by omega, by omega, by omega⟩
    · rintro ⟨hb', hc', hd', he'⟩
      refine ⟨_, p, hdecode, fun _ => ?_⟩
      obtain ⟨x, hx⟩ := exists_char (v := value4 b c d e) (by omega)
      refine ⟨x, hx, ?_⟩
      have hb'' : b.toNat = value4 b c d e / 262144 + 0xf0 := by omega
      have hc'' : c.toNat = value4 b c d e / 4096 % 64 + 0x80 := by omega
      have hd'' : d.toNat = value4 b c d e / 64 % 64 + 0x80 := by omega
      have he'' : e.toNat = value4 b c d e % 64 + 0x80 := by omega
      rw [encode_four (by omega), hx, ← byte_eq hb'', ← byte_eq hc'', ← byte_eq hd'', ← byte_eq he'']
      rfl
  · refine iff_of_true (faithful_of_large hdecode ?_) fun hlong hrange => ?_
    · split
      · omega
      · decide
    · omega

/-- The number of bytes that are taken behind the first one. -/
def need (b : UInt8) : ℕ := if 0xf0 ≤ b.toNat then 3 else if 0xe0 ≤ b.toNat then 2 else 1

/-- A byte below `0x80` ends the loop. -/
theorem decodeLoop_low (valid : ℕ) : ∀ (len u : ℕ) (p : List UInt8), (∃ c ∈ p.take len, c < 0x80) →
    ∃ p', decodeLoop valid len u p = (error, p')
  | 0, _, _, h => by simp at h
  | _ + 1, _, [], h => by simp at h
  | len + 1, u, c :: p, h => by
    by_cases hc : c < 0x80
    · exact ⟨p, decodeLoop_stop hc p⟩
    · obtain ⟨c', hmem, hc'⟩ := h
      rw [take_succ_cons] at hmem
      rcases mem_cons.mp hmem with rfl | hmem
      · exact absurd hc' hc
      · rw [decodeLoop_more hc]
        exact decodeLoop_low valid len _ p ⟨c', hmem, hc'⟩

/-- Where a byte is missing, or is one of a character by itself, the value is no character. -/
theorem decodeMore_bad (u valid len : ℕ) (h : p.length < len ∨ ∃ c ∈ p.take len, c < 0x80) :
    ∃ v p', decodeMore (b :: p) u valid len = (v, p') ∧ 0x10ffff < v := by
  rw [decodeMore, length_cons, Nat.add_sub_cancel]
  split
  next => exact ⟨incomplete, _, rfl, by decide⟩
  next hshort =>
    obtain ⟨p', hp'⟩ := decodeLoop_low valid len u p (h.resolve_left hshort)
    exact ⟨error, p', hp', by decide⟩

/-- **A sequence that is not accepted**: the first byte is none of one, a byte is missing, or below `0x80`. -/
theorem faithful_of_bad
    (h : b.toNat < 0xc2 ∨ p.length < need b ∨ ∃ c ∈ p.take (need b), c < 0x80) :
    Faithful (b :: p) := by
  have hlarge : ∃ v p', decode (b :: p) = some (v, p') ∧ 0x10ffff < v := by
    by_cases hb : b.toNat < 0xc2
    · refine ⟨error, p, ?_, by decide⟩
      rw [decode, if_neg (by omega), if_neg (by omega), if_neg (by omega)]
    · have hbad := h.resolve_left hb
      rw [decode]
      rw [need] at hbad
      split at hbad
      next h4 =>
        obtain ⟨v, p', heq, hv⟩ := decodeMore_bad (b.toNat &&& 0x07) 0xffff 3 hbad
        exact ⟨v, p', by rw [if_pos h4, heq], hv⟩
      next h4 =>
        split at hbad
        next h3 =>
          obtain ⟨v, p', heq, hv⟩ := decodeMore_bad (b.toNat &&& 0x0f) 0x7ff 2 hbad
          exact ⟨v, p', by rw [if_neg h4, if_pos h3, heq], hv⟩
        next h3 =>
          obtain ⟨v, p', heq, hv⟩ := decodeMore_bad (b.toNat &&& 0x1f) 0x7f 1 hbad
          exact ⟨v, p', by rw [if_neg h4, if_neg h3, if_pos (by omega), heq], hv⟩
  obtain ⟨v, p', heq, hv⟩ := hlarge
  exact faithful_of_large heq hv

/-- A misread sequence is all there, and its bytes are from `0x80` on. -/
theorem Misread.accepted (h : Misread (b :: p)) :
    ¬ (b.toNat < 0xc2 ∨ p.length < need b ∨ ∃ c ∈ p.take (need b), c < 0x80) := by
  cases h with
  | two lead bad =>
    rw [need, if_neg (by omega), if_neg (by omega)]
    simp [UInt8.lt_iff_toNat_lt]
    omega
  | three lead tail short bad =>
    rw [need, if_neg (by omega), if_pos lead.1]
    simp [UInt8.lt_iff_toNat_lt]
    omega
  | four lead tail short range bad =>
    rw [need, if_pos lead]
    simp [UInt8.lt_iff_toNat_lt]
    omega

/-- **When a decoded character is what stands there**: when the sequence is not one that is misread. -/
theorem decode_faithful_iff : ∀ s : List UInt8, Faithful s ↔ ¬ Misread s
  | [] => by
    refine iff_of_false ?_ (not_not.mpr .empty)
    rintro ⟨v, p, h, -⟩
    cases h
  | b :: p => by
    by_cases hbad : b.toNat < 0xc2 ∨ p.length < need b ∨ ∃ c ∈ p.take (need b), c < 0x80
    · exact iff_of_true (faithful_of_bad hbad) fun h => h.accepted hbad
    · rw [not_or, not_or, not_lt, not_lt] at hbad
      obtain ⟨hb, hlen, htail⟩ := hbad
      have hcont : ∀ c ∈ p.take (need b), 0x80 ≤ c.toNat := fun c hc =>
        not_lt_iff.mp fun hlt => htail ⟨c, hc, hlt⟩
      rw [need] at hlen hcont
      by_cases h4 : 0xf0 ≤ b.toNat
      · rw [if_pos h4] at hlen hcont
        obtain ⟨c, d, e, p, rfl⟩ : ∃ c d e q, p = c :: d :: e :: q := by
          match p, hlen with
          | c :: d :: e :: q, _ => exact ⟨c, d, e, q, rfl⟩
        simp only [take_succ_cons, take_zero, mem_cons, not_mem_nil, or_false,
          forall_eq_or_imp, forall_eq] at hcont
        obtain ⟨hc, hd, he⟩ := hcont
        rw [faithful_four h4 hc hd he]
        constructor
        · intro h hmisread
          cases hmisread with
          | two lead => omega
          | three lead => omega
          | four lead tail short range bad => have := h short range; omega
        · intro h short range
          by_contra hnot
          exact h (.four h4 ⟨hc, hd, he⟩ short range (by omega))
      · rw [if_neg h4] at hlen hcont
        by_cases h3 : 0xe0 ≤ b.toNat
        · rw [if_pos h3] at hlen hcont
          obtain ⟨c, d, p, rfl⟩ : ∃ c d q, p = c :: d :: q := by
            match p, hlen with
            | c :: d :: q, _ => exact ⟨c, d, q, rfl⟩
          simp only [take_succ_cons, take_zero, mem_cons, not_mem_nil, or_false,
            forall_eq_or_imp, forall_eq] at hcont
          obtain ⟨hc, hd⟩ := hcont
          rw [faithful_three ⟨h3, by omega⟩ hc hd]
          constructor
          · intro h hmisread
            cases hmisread with
            | two lead => omega
            | three lead tail short bad => have := h short; omega
            | four lead => omega
          · intro h short
            by_contra hnot
            exact h (.three ⟨h3, by omega⟩ ⟨hc, hd⟩ short (by omega))
        · rw [if_neg h3] at hlen hcont
          obtain ⟨c, p, rfl⟩ : ∃ c q, p = c :: q := by
            match p, hlen with
            | c :: q, _ => exact ⟨c, q, rfl⟩
          have hc : 0x80 ≤ c.toNat := hcont c (by simp)
          rw [faithful_two ⟨hb, by omega⟩ hc]
          constructor
          · intro h hmisread
            cases hmisread with
            | two lead bad => omega
            | three lead => omega
            | four lead => omega
          · intro h
            by_contra hnot
            exact h (.two ⟨hb, by omega⟩ (by omega))

/-! ### The length of a string -/

/-- A character is decoded from its encoding. -/
theorem decode_encode (h : 0x7f < c.toNat) (p : List UInt8) :
    decode (String.utf8EncodeChar c ++ p) = some (c.toNat, p) := by
  have hrange := char_range c
  have hbyte : ∀ n < 256, (UInt8.ofNat n).toNat = n := fun n hn => toNat_byte hn rfl
  have htail : ∀ n, ¬ UInt8.ofNat (n % 64 + 0x80) < 0x80 := fun n => by
    rw [not_lt_iff, hbyte _ (by omega)]
    omega
  by_cases h2 : c.toNat ≤ 0x7ff
  · rw [encode_two h h2]
    show decode (UInt8.ofNat (c.toNat / 64 + 0xc0) :: UInt8.ofNat (c.toNat % 64 + 0x80) :: p) = _
    rw [decode_two (by rw [hbyte _ (by omega)]; omega) (htail _), value2, hbyte _ (by omega),
      hbyte _ (by omega)]
    congr 2
    omega
  · by_cases h3 : c.toNat ≤ 0xffff
    · rw [encode_three (by omega) h3]
      show decode (UInt8.ofNat (c.toNat / 4096 + 0xe0) :: UInt8.ofNat (c.toNat / 64 % 64 + 0x80) ::
        UInt8.ofNat (c.toNat % 64 + 0x80) :: p) = _
      have hvalue : value3 (UInt8.ofNat (c.toNat / 4096 + 0xe0)) (UInt8.ofNat (c.toNat / 64 % 64 + 0x80))
          (UInt8.ofNat (c.toNat % 64 + 0x80)) = c.toNat := by
        rw [value3, hbyte _ (by omega), hbyte _ (by omega), hbyte _ (by omega)]
        omega
      rw [decode_three (by rw [hbyte _ (by omega)]; omega) (htail _) (htail _), hvalue, if_pos (by omega)]
    · rw [encode_four (by omega)]
      show decode (UInt8.ofNat (c.toNat / 262144 + 0xf0) :: UInt8.ofNat (c.toNat / 4096 % 64 + 0x80) ::
        UInt8.ofNat (c.toNat / 64 % 64 + 0x80) :: UInt8.ofNat (c.toNat % 64 + 0x80) :: p) = _
      have hvalue : value4 (UInt8.ofNat (c.toNat / 262144 + 0xf0))
          (UInt8.ofNat (c.toNat / 4096 % 64 + 0x80)) (UInt8.ofNat (c.toNat / 64 % 64 + 0x80))
          (UInt8.ofNat (c.toNat % 64 + 0x80)) = c.toNat := by
        rw [value4, hbyte _ (by omega), hbyte _ (by omega), hbyte _ (by omega), hbyte _ (by omega)]
        omega
      rw [decode_four (by rw [hbyte _ (by omega)]; omega) (htail _) (htail _) (htail _), hvalue,
        if_pos (by omega)]

/-- The bytes of a string. -/
def encode (cs : List Char) : List UInt8 := cs.flatMap String.utf8EncodeChar

/-- A turn of the loop for each character. -/
theorem lengthLoop_encode (n : ℕ) : ∀ (cs : List Char) (turns len : ℕ), (encode cs).length ≤ turns →
    lengthLoop n turns (encode cs) len = len + cs.length
  | [], turns, len, _ => by cases turns <;> rfl
  | c :: cs, turns, len, h => by
    have hcons : encode (c :: cs) = String.utf8EncodeChar c ++ encode cs := flatMap_cons
    rw [hcons] at h ⊢
    have hpos : 0 < (String.utf8EncodeChar c).length := length_pos_iff.mpr String.utf8EncodeChar_ne_nil
    rw [length_append] at h
    obtain ⟨turns, rfl⟩ : ∃ t, turns = t + 1 := ⟨turns - 1, by omega⟩
    have ih := lengthLoop_encode n cs turns (len + 1) (by omega)
    rw [length_cons, show len + (cs.length + 1) = len + 1 + cs.length by omega, ← ih]
    by_cases hascii : c.toNat ≤ 0x7f
    · have hone : String.utf8EncodeChar c = [UInt8.ofNat c.toNat] := by
        rw [String.utf8EncodeChar]
        exact if_pos hascii
      have hlow : UInt8.ofNat c.toNat < 0x80 := by
        rw [UInt8.lt_iff_toNat_lt, UInt8.toNat_ofNat', Nat.mod_eq_of_lt (by omega)]
        exact Nat.lt_succ_of_le hascii
      rw [hone, singleton_append, lengthLoop, if_pos hlow]
    · have hrange := char_range c
      have hdecode := decode_encode (c := c) (by omega) (encode cs)
      cases hbytes : String.utf8EncodeChar c with
      | nil => exact absurd hbytes String.utf8EncodeChar_ne_nil
      | cons b s =>
        rw [hbytes] at hdecode
        have hb : ¬ b < 0x80 := by
          rw [not_lt_iff]
          by_contra hlow
          rw [cons_append, decode, if_neg (by omega), if_neg (by omega), if_neg (by omega)] at hdecode
          have herror : error = c.toNat := congrArg Prod.fst (Option.some.inj hdecode)
          rw [error] at herror
          omega
        rw [cons_append] at hdecode ⊢
        rw [lengthLoop, if_neg hb, hdecode]
        exact if_neg (by omega)

/-- **The length of a string** that is well formed is the number of its characters. -/
theorem utf8Length_encode (cs : List Char) : utf8Length (encode cs) = cs.length := by
  rw [utf8Length, lengthLoop_encode _ _ _ _ (Nat.le_refl _), Nat.zero_add]

/-- **UTF-8 is decoded as it is meant** where no sequence is misread, and the length of a well-formed string is
right. -/
theorem utf8_iff (s : List UInt8) : (Faithful s ↔ ¬ Misread s) ∧
    ∀ cs : List Char, s = encode cs → utf8Length s = cs.length :=
  ⟨decode_faithful_iff s, fun cs h => h ▸ utf8Length_encode cs⟩

/-- **A sequence that is misread**: two first bytes are one character. -/
theorem two_leads_accepted : ¬ ((∀ s : List UInt8, Faithful s) ∧
    ∀ cs : List Char, utf8Length (encode cs) = cs.length) := fun h =>
  (decode_faithful_iff [0xc3, 0xc3]).mp (h.1 _) (.two (by decide) (by decide))

end Hengine.Utf8
