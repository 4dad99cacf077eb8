import Hengine.Http.SliceExact
import Mathlib.Algebra.Order.BigOperators.Group.List

/-!
# Range Headers

What `ngx_http_range_parse` makes of ranges that were written into a `Range` header with `%O`.
-/

namespace Hengine

open List

/-- A range as it is written: `first-last`, `first-` or `-suffix`. -/
inductive ByteRange
  | both (first last : ℕ)
  | onward (first : ℕ)
  | suffix (n : ℕ)

namespace ByteRange

/-- Its numbers are in an `off_t`. -/
def Fits : ByteRange → Prop
  | both first last => first ≤ maxOffT ∧ last ≤ maxOffT
  | onward n | suffix n => n ≤ maxOffT

def text : ByteRange → List UInt8
  | both first last => sprintfOff first ++ byte '-' :: sprintfOff last
  | onward first => sprintfOff first ++ [byte '-']
  | suffix n => byte '-' :: sprintfOff n

/-- Where it starts and ends in a response of length `len`. -/
def within (len : ℕ) : ByteRange → ℤ × ℤ
  | both first last => (first, min (last + 1) len)
  | onward first => (first, len)
  | suffix n => (len - min n len, len)

/-- The ranges that have bytes in the response. -/
def satisfiable (len : ℕ) (rs : List ByteRange) : List (ℤ × ℤ) :=
  (rs.map (within len)).filter fun b => b.1 < b.2

/-- How many bytes are asked for. -/
def total (found : List (ℤ × ℤ)) : ℤ := (found.map fun b => b.2 - b.1).sum

/-- What stands behind `bytes=`. -/
def header (r : ByteRange) (rs : List ByteRange) : List UInt8 :=
  r.text ++ rs.flatMap fun r => byte ',' :: r.text

variable {len : ℕ} {t : List UInt8}

/-- **The end of a range** is read from its text and clipped. -/
theorem rangeEnd_text {n : ℕ} (hn : n ≤ maxOffT) (ht : t = [] ∨ ∃ u, t = byte ',' :: u)
    (start : ℤ) (suffix : Bool) :
    rangeEnd len start suffix (sprintfOff n ++ t) =
      some (if suffix then (len - min n len : ℤ) else start,
        if suffix then (len : ℤ) else min (n + 1) len, t) := by
  have hread : parseNumber (sprintfOff n ++ t) = some (n, t) := by
    rw [parseNumber, if_pos (startsDigit_sprintfOff n t), parseOff_sprintfOff hn]
    obtain rfl | ⟨u, rfl⟩ := ht <;> rfl
  have hskip : skipSpaces t = t := by obtain rfl | ⟨u, rfl⟩ := ht <;> rfl
  have hend : endsSpec t = true := by obtain rfl | ⟨u, rfl⟩ := ht <;> rfl
  rw [rangeEnd, hread]
  dsimp only
  rw [hskip, if_pos hend]
  cases suffix <;> simp <;> grind

/-- **One range** is read as it was written. -/
theorem rangeSpec_text {r : ByteRange} (hr : r.Fits) (ht : t = [] ∨ ∃ u, t = byte ',' :: u) :
    rangeSpec len (r.text ++ t) = some ((r.within len).1, (r.within len).2, t) := by
  have hskip (n : ℕ) (u : List UInt8) : skipSpaces (sprintfOff n ++ u) = sprintfOff n ++ u :=
    skipSpaces_digit (startsDigit_sprintfOff n u)
  have hother (n : ℕ) (u : List UInt8) : (sprintfOff n ++ u).head? ≠ some (byte '-') ∧
      ¬ endsSpec (sprintfOff n ++ u) := by
    have hdigit := startsDigit_sprintfOff n u
    constructor
    · intro h
      rw [startsDigit, h] at hdigit
      cases hdigit
    · rw [startsDigit] at hdigit
      rw [endsSpec]
      cases h : (sprintfOff n ++ u).head? <;> grind [show isDigit (byte ',') = false from rfl]
  have hread {n : ℕ} (u : List UInt8) (hn : n ≤ maxOffT) :
      rangeSpec len (sprintfOff n ++ byte '-' :: u) =
        if endsSpec (skipSpaces u) then some ((n : ℤ), (len : ℤ), skipSpaces u)
          else rangeEnd len n false (skipSpaces u) := by
    have hnumber := parseNumber_sprintfOff hn (show isDigit (byte '-') = false from rfl) u
    have hdash : expectByte (byte '-') (skipSpaces (byte '-' :: u)) = some u := rfl
    rw [hskip] at hnumber
    simp only [rangeSpec, hskip]
    rw [if_neg (hother n _).1, hnumber]
    simp only [hdash]
  cases r with
  | both first last =>
    rw [text, append_assoc, cons_append, hread _ hr.1, hskip, if_neg (hother last t).2,
      rangeEnd_text hr.2 ht]
    rfl
  | onward first =>
    rw [text, append_assoc, cons_append, hread _ hr]
    obtain rfl | ⟨u, rfl⟩ := ht <;> rfl
  | suffix n =>
    rw [text, cons_append, rangeSpec]
    exact rangeEnd_text hr ht 0 true

/-- What a list of ranges adds to those found. -/
def Adds (len left : ℕ) (ranges : List (ℤ × ℤ)) (size : ℤ) (rs : List ByteRange)
    (found : List (ℤ × ℤ)) : Prop :=
  found = ranges ++ satisfiable len rs ∧ found ≠ [] ∧ (satisfiable len rs).length ≤ left ∧
    size + total (satisfiable len rs) ≤ len ∧
    ∀ x ∈ rs, (x.within len).1 < (x.within len).2 ∨ (x.within len).1 ≠ 0

theorem total_nonneg (rs : List ByteRange) : 0 ≤ total (satisfiable len rs) := by
  refine List.sum_nonneg fun d hd => ?_
  obtain ⟨b, hb, rfl⟩ := mem_map.1 hd
  rw [satisfiable, mem_filter, decide_eq_true_iff] at hb
  omega

/-- **The ranges of a header** are read one after the other. -/
theorem rangeParse_header (hlen : len ≤ maxOffT) {found : List (ℤ × ℤ)} (rs : List ByteRange) :
    ∀ (r : ByteRange) {fuel left : ℕ} {ranges : List (ℤ × ℤ)} {size : ℤ}, (∀ x ∈ r :: rs, x.Fits) →
      rs.length < fuel → (rangeParse len fuel left ranges size (header r rs) = .ok found ↔
        Adds len left ranges size (r :: rs) found) := by
  induction rs <;> intro r fuel left ranges size hfits hfuel <;>
    obtain ⟨fuel, rfl⟩ := Nat.exists_eq_succ_of_ne_zero (Nat.ne_zero_of_lt hfuel)
  case nil =>
    rw [rangeParse, rangeStep, header, flatMap_nil, rangeSpec_text (hfits r mem_cons_self) (Or.inl rfl)]
    simp only [rangeAfter, Adds, satisfiable, total]
    grind
  case cons r' rs ih =>
    have hrest : header r (r' :: rs) = r.text ++ byte ',' :: header r' rs := by simp [header]
    have hnonneg : 0 ≤ total (satisfiable len (r' :: rs)) := total_nonneg _
    have ih' {left ranges size} := @ih r' fuel left ranges size
      (fun x hx => hfits x (mem_cons_of_mem r hx)) (Nat.lt_of_succ_lt_succ hfuel)
    rw [rangeParse, rangeStep, hrest, rangeSpec_text (hfits r mem_cons_self) (Or.inr ⟨_, rfl⟩)]
    simp only [rangeAfter, Adds, satisfiable, total] at *
    grind

/-- **A `Range` header** that was written for a list of ranges is read as such: those that have bytes
in the response are found, in order. The header is refused if there are none or more of them than
allowed, if they ask for more bytes than there are, or if a range without bytes starts at zero. -/
theorem range_header_trip (hlen : len ≤ maxOffT) (max : ℕ) (found : List (ℤ × ℤ)) (r : ByteRange)
    (rs : List ByteRange) (hfits : ∀ x ∈ r :: rs, x.Fits) :
    rangeParse len ((header r rs).length + 1) max [] 0 (header r rs) = .ok found ↔
      found = satisfiable len (r :: rs) ∧ found ≠ [] ∧ found.length ≤ max ∧ total found ≤ len ∧
      ∀ x ∈ r :: rs, (x.within len).1 < (x.within len).2 ∨ (x.within len).1 ≠ 0 := by
  have hfuel : rs.length < (header r rs).length + 1 := by
    have := length_le_sum_of_one_le (rs.map fun r => (byte ',' :: r.text).length) (by simp)
    rw [length_map] at this
    rw [header, length_append, length_flatMap]
    omega
  rw [rangeParse_header hlen rs r hfits hfuel, Adds, nil_append, Int.zero_add]
  exact and_congr_right fun h => h ▸ Iff.rfl

/-- Of ten bytes, the first four and the last two. -/
theorem range_header_trip_ten :
    rangeParse (10 : ℕ) ((header (both 0 3) [suffix 2]).length + 1) 2 [] 0
      (header (both 0 3) [suffix 2]) = .ok [(0, 4), (8, 10)] := by
  refine (range_header_trip (by decide) 2 _ (both 0 3) [suffix 2] ?_).2 ?_
  · simp [Fits, maxOffT]
  · decide

end ByteRange
end Hengine
