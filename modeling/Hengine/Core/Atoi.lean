import Mathlib.Algebra.Order.Ring.Int
import Hengine.Lib.Numerals

/-!
# Texts of numbers

The model of `ngx_atoi`, `ngx_atosz`, `ngx_atoof`, `ngx_atotm`, `ngx_atoll`, `ngx_hextoi` and
`ngx_atofp` in `ngx_string.c`.

The numbers are signed and have 64 bits. `int64` is what a variable holds when a number is assigned to it,
so a number that does not fit would come out as another one. `none` is `NGX_ERROR`.
-/

namespace Hengine.Conv

open List Option

/-- What a signed variable of 64 bits holds when `x` is assigned to it. -/
def int64 (x : ℤ) : ℤ := (x + 2 ^ 63) % 2 ^ 64 - 2 ^ 63

/-- `NGX_MAX_INT_T_VALUE`. -/
def maxIntTValue : ℕ := 9223372036854775807
/-- `NGX_MAX_SIZE_T_VALUE`. -/
def maxSizeTValue : ℕ := 9223372036854775807
/-- `NGX_MAX_OFF_T_VALUE`. -/
def maxOffTValue : ℕ := 9223372036854775807
/-- `NGX_MAX_TIME_T_VALUE`. -/
def maxTimeTValue : ℕ := 9223372036854775807
/-- The largest `long long`. -/
def maxLongLong : ℕ := 9223372036854775807

/-! ### The converters -/

/-- `*line - '0'`, for a digit. -/
def decDigit (ch : UInt8) : Option ℕ :=
  if ch < 0x30 ∨ 0x39 < ch then none else some (ch - 0x30).toNat

/-- The digits of `ngx_hextoi`. -/
def hexDigit (ch : UInt8) : Option ℕ :=
  if 0x30 ≤ ch ∧ ch ≤ 0x39 then some (ch - 0x30).toNat
  else if 0x61 ≤ ch ||| 0x20 ∧ ch ||| 0x20 ≤ 0x66 then some (((ch ||| 0x20) - 0x61).toNat + 10)
  else none

/-- `value >= cutoff && (value > cutoff || *line - '0' > cutlim)`. -/
def Full (max : ℕ) (value : ℤ) (d : ℕ) : Prop :=
  (max / 10 : ℕ) ≤ value ∧ ((max / 10 : ℕ) < value ∨ max % 10 < d)

instance (max : ℕ) (value : ℤ) (d : ℕ) : Decidable (Full max value d) :=
  inferInstanceAs (Decidable (_ ∧ _))

/-- The loop of `ngx_atoi` and its like. -/
@[grind =]
def atoLoop (max : ℕ) : List UInt8 → ℤ → Option ℤ
  | [], value => some value
  | ch :: line, value =>
    match decDigit ch with
    | none => none
    | some d => if Full max value d then none else atoLoop max line (int64 (value * 10 + d))

/-- A converter of decimal digits. -/
def ato (max : ℕ) (line : List UInt8) : Option ℤ := if line.isEmpty then none else atoLoop max line 0

/-- `ngx_atoi`. -/
def atoi : List UInt8 → Option ℤ := ato maxIntTValue
/-- `ngx_atosz`. -/
def atosz : List UInt8 → Option ℤ := ato maxSizeTValue
/-- `ngx_atoof`. -/
def atoof : List UInt8 → Option ℤ := ato maxOffTValue
/-- `ngx_atotm`. -/
def atotm : List UInt8 → Option ℤ := ato maxTimeTValue

/-- The loop of `ngx_hextoi`. -/
@[grind =]
def hextoiLoop : List UInt8 → ℤ → Option ℤ
  | [], value => some value
  | ch :: line, value =>
    if (maxIntTValue / 16 : ℕ) < value then none
    else
      match hexDigit ch with
      | none => none
      | some d => hextoiLoop line (int64 (value * 16 + d))

/-- `ngx_hextoi`. -/
def hextoi (line : List UInt8) : Option ℤ := if line.isEmpty then none else hextoiLoop line 0

/-- The loop of `ngx_atoll`, which looks at the number when it is done. -/
@[grind =]
def atollLoop : List UInt8 → ℤ → Option ℤ
  | [], value => if value < 0 then none else some value
  | ch :: line, value =>
    match decDigit ch with
    | none => none
    | some d => atollLoop line (int64 (value * 10 + d))

/-- `ngx_atoll`. -/
def atoll (line : List UInt8) : Option ℤ := if line.isEmpty then none else atollLoop line 0

/-- The first loop of `ngx_atofp`: the number, and what is left of `point`. -/
@[grind =]
def atofpLoop : List UInt8 → ℤ → Bool → ℕ → Option (ℤ × ℕ)
  | [], value, _, point => some (value, point)
  | ch :: line, value, dot, point =>
    if point = 0 then none
    else if ch = 0x2e then if dot then none else atofpLoop line value true point
    else
      match decDigit ch with
      | none => none
      | some d =>
        if Full maxIntTValue value d then none
        else atofpLoop line (int64 (value * 10 + d)) dot (if dot then point - 1 else point)

/-- The second loop of `ngx_atofp`. -/
@[grind =]
def atofpScale : ℕ → ℤ → Option ℤ
  | 0, value => some value
  | point + 1, value =>
    if (maxIntTValue / 10 : ℕ) < value then none else atofpScale point (int64 (value * 10))

/-- `ngx_atofp`. -/
def atofp (line : List UInt8) (point : ℕ) : Option ℤ :=
  if line.isEmpty then none
  else (atofpLoop line 0 false point).bind fun r => atofpScale r.2 r.1

/-! ### What they are for -/

/-- The result is the number, or `NGX_ERROR` where there is no number or a larger one. -/
def Exact (max : ℕ) (result : Option ℤ) (number : Option ℕ) : Prop :=
  result = (number.filter (· ≤ max)).map Nat.cast

/-- The digits of a fixed point number behind its dot. -/
def fraction (text : List UInt8) : List UInt8 := (text.dropWhile (· ≠ 0x2e)).tail

/-- The fixed point number that a text denotes, in units of `10 ^ -point`. -/
def fixedPoint (point : ℕ) (text : List UInt8) : Option ℕ :=
  if text.isEmpty ∨ point < (fraction text).length then none
  else (denoteFrom decDigit 10 0 (text.takeWhile (· ≠ 0x2e) ++ fraction text)).map
    (· * 10 ^ (point - (fraction text).length))

/-! ### Digits that are added up -/

theorem int64_natCast {n : ℕ} (h : n ≤ 9223372036854775807) : int64 n = n := by
  rw [int64]
  omega

/-- A decimal digit is below 10. -/
theorem decDigit_lt {ch : UInt8} {d : ℕ} (h : decDigit ch = some d) : d < 10 := by
  rw [decDigit] at h
  split_ifs at h with hch
  obtain ⟨hlo, hhi⟩ := not_or.1 hch
  rw [some_inj] at h
  rw [UInt8.not_lt, UInt8.le_iff_toNat_le] at hlo hhi
  rw [UInt8.toNat_sub_of_le _ _ (UInt8.le_iff_toNat_le.2 hlo)] at h
  simp only [UInt8.reduceToNat] at h hlo hhi
  omega

/-- A hexadecimal digit is below 16. -/
theorem hexDigit_lt {ch : UInt8} {d : ℕ} (h : hexDigit ch = some d) : d < 16 := by
  rw [hexDigit] at h
  split_ifs at h with hdec hhex <;> rw [some_inj] at h
  · rw [UInt8.toNat_sub_of_le _ _ hdec.1] at h
    have hhi := UInt8.le_iff_toNat_le.1 hdec.2
    simp only [UInt8.reduceToNat] at h hhi
    omega
  · rw [UInt8.toNat_sub_of_le _ _ hhex.1] at h
    have hhi := UInt8.le_iff_toNat_le.1 hhex.2
    simp only [UInt8.reduceToNat] at h hhi
    omega

theorem full_iff {max v d : ℕ} (hd : d < 10) : Full max v d ↔ max < v * 10 + d := by
  rw [Full]
  omega

/-- **The loop of `ngx_atoi`** gives the number if it fits. -/
theorem atoLoop_eq {max : ℕ} (hmax : max ≤ 9223372036854775807) : ∀ (s : List UInt8) {v : ℕ},
    v ≤ max → Exact max (atoLoop max s v) (denoteFrom decDigit 10 v s)
  | [], v, hv => by
    rw [Exact, atoLoop, denoteFrom_nil, filter_some, if_pos (by simpa using hv)]
    rfl
  | ch :: s, v, hv => by
    rw [Exact, atoLoop, denoteFrom_cons]
    cases hd : decDigit ch with
    | none => rfl
    | some d =>
      by_cases hfull : max < v * 10 + d
      · simp only [(full_iff (decDigit_lt hd)).2 hfull, if_true]
        rw [bind_some, filter_denoteFrom_eq_none (by decide) hfull]
        rfl
      · have hle : v * 10 + d ≤ 9223372036854775807 := by omega
        have hcast : int64 ((v : ℤ) * 10 + d) = (v * 10 + d : ℕ) := by
          rw [← int64_natCast hle]
          push_cast
          rfl
        simp only [mt (full_iff (decDigit_lt hd)).1 hfull, if_false, hcast]
        exact atoLoop_eq hmax s (by omega)

/-- `ato` reads what is denoted, up to its limit. -/
theorem ato_exact {max : ℕ} (hmax : max ≤ 9223372036854775807) (s : List UInt8) :
    Exact max (ato max s) (denote decDigit 10 s) := by
  cases s with
  | nil => rfl
  | cons ch s => exact atoLoop_eq hmax (ch :: s) (Nat.zero_le max)

/-- The loop of `ngx_hextoi`, from a number that fits: it reads what is denoted, or fails where this
does not fit. -/
theorem hextoiLoop_eq : ∀ (s : List UInt8) {v : ℕ}, v ≤ maxIntTValue →
    Exact maxIntTValue (hextoiLoop s v) (denoteFrom hexDigit 16 v s)
  | [], v, hv => by
    rw [Exact, hextoiLoop, denoteFrom_nil, filter_some, if_pos (by simpa using hv)]
    rfl
  | ch :: s, v, hv => by
    rw [Exact, hextoiLoop, denoteFrom_cons]
    by_cases hfull : maxIntTValue / 16 < v
    · rw [if_pos (by exact_mod_cast hfull)]
      cases hd : hexDigit ch with
      | none => rfl
      | some d =>
        rw [bind_some, filter_denoteFrom_eq_none (by decide)
          (by rw [maxIntTValue] at hfull ⊢; omega)]
        rfl
    · rw [if_neg (by exact_mod_cast hfull)]
      cases hd : hexDigit ch with
      | none => rfl
      | some d =>
        have hlt := hexDigit_lt hd
        have hle : v * 16 + d ≤ maxIntTValue := by
          rw [maxIntTValue] at hfull ⊢
          omega
        have hcast : int64 ((v : ℤ) * 16 + d) = (v * 16 + d : ℕ) := by
          rw [← int64_natCast hle]
          push_cast
          rfl
        simp only [hcast]
        exact hextoiLoop_eq s hle

theorem hextoi_exact (s : List UInt8) : Exact maxIntTValue (hextoi s) (denote hexDigit 16 s) := by
  cases s with
  | nil => rfl
  | cons ch s => exact hextoiLoop_eq (ch :: s) (Nat.zero_le _)

/-! ### Digits that are added up without a test -/

theorem int64_step (x : ℤ) (d : ℕ) : int64 (int64 x * 10 + d) = int64 (x * 10 + d) := by
  rw [int64, int64, int64]
  omega

/-- **The loop of `ngx_atoll`** gives what is left of the number. -/
theorem atollLoop_eq : ∀ (s : List UInt8) (n : ℕ), atollLoop s (int64 n) =
    (denoteFrom decDigit 10 n s).bind fun m => if int64 m < 0 then none else some (int64 m)
  | [], n => by rw [atollLoop, denoteFrom_nil, bind_some]
  | ch :: s, n => by
    rw [atollLoop, denoteFrom_cons]
    cases hd : decDigit ch with
    | none => rfl
    | some d =>
      have hcast : int64 (int64 n * 10 + d) = int64 (n * 10 + d : ℕ) := by
        rw [int64_step]
        push_cast
        rfl
      simp only [hcast, bind_some]
      exact atollLoop_eq s _

/-- `ngx_atoll` reads the denoted number modulo 2^64, as a signed one, and fails where that is
negative. -/
theorem atoll_eq (s : List UInt8) : atoll s = (denote decDigit 10 s).bind fun m =>
    if int64 m < 0 then none else some (int64 m) := by
  cases s with
  | nil => rfl
  | cons ch s =>
    have hloop := atollLoop_eq (ch :: s) 0
    rw [int64_natCast (Nat.zero_le _), Nat.cast_zero] at hloop
    exact hloop

/-- `ngx_atoll` is exact unless what is left of a larger number is not negative. -/
theorem atoll_exact_iff (s : List UInt8) : Exact maxLongLong (atoll s) (denote decDigit 10 s) ↔
    ∀ n, denote decDigit 10 s = some n → n < 2 ^ 63 ∨ 2 ^ 63 ≤ n % 2 ^ 64 := by
  rw [Exact, atoll_eq]
  cases denote decDigit 10 s with
  | none => simp
  | some n =>
    rw [bind_some, filter_some, show (∀ m, some n = some m → m < 2 ^ 63 ∨
      2 ^ 63 ≤ m % 2 ^ 64) ↔ n < 2 ^ 63 ∨ 2 ^ 63 ≤ n % 2 ^ 64 by
        simp only [some_inj, forall_eq']]
    by_cases hfits : n ≤ maxLongLong
    · have hcast := int64_natCast hfits
      rw [if_pos (decide_eq_true hfits), map_some, hcast, if_neg (by omega)]
      rw [maxLongLong] at hfits
      exact iff_of_true rfl (Or.inl (by omega))
    · rw [if_neg (mt of_decide_eq_true hfits), map_none]
      rw [maxLongLong] at hfits
      by_cases hneg : int64 n < 0
      · rw [if_pos hneg]
        rw [int64] at hneg
        exact iff_of_true rfl (by omega)
      · rw [if_neg hneg]
        rw [int64] at hneg
        exact iff_of_false nofun (by omega)

/-! ### Fixed point numbers -/

theorem decDigit_dot : decDigit 0x2e = none := rfl

/-- The digits behind the dot. -/
theorem atofpLoop_dot : ∀ (s : List UInt8) {v : ℕ} (point : ℕ), v ≤ maxIntTValue →
    atofpLoop s v true point =
      if point < s.length then none
      else ((denoteFrom decDigit 10 v s).filter (· ≤ maxIntTValue)).map
        fun n => ((n : ℤ), point - s.length)
  | [], v, point, hv => by
    rw [atofpLoop, denoteFrom_nil, filter_some, length_nil, if_neg (Nat.not_lt_zero _),
      if_pos (by simpa using hv)]
    rfl
  | ch :: s, v, 0, _ => by
    rw [atofpLoop, if_pos rfl, if_pos (by simp)]
  | ch :: s, v, point + 1, hv => by
    rw [atofpLoop, if_neg (Nat.succ_ne_zero _), denoteFrom_cons]
    by_cases hdot : ch = 0x2e
    · rw [if_pos hdot, hdot, decDigit_dot]
      simp
    · rw [if_neg hdot]
      cases hd : decDigit ch with
      | none => simp
      | some d =>
        by_cases hfull : maxIntTValue < v * 10 + d
        · simp only [(full_iff (decDigit_lt hd)).2 hfull, if_true, bind_some]
          rw [filter_denoteFrom_eq_none (by decide) hfull]
          simp
        · have hle : v * 10 + d ≤ maxIntTValue := Nat.le_of_not_lt hfull
          have hcast : int64 ((v : ℤ) * 10 + d) = (v * 10 + d : ℕ) := by
            rw [← int64_natCast hle]
            push_cast
            rfl
          simp only [mt (full_iff (decDigit_lt hd)).1 hfull, if_false, hcast, if_true,
            bind_some, atofpLoop_dot s _ hle, length_cons, Nat.add_sub_cancel,
            Nat.add_lt_add_iff_right, Nat.add_sub_add_right]

/-- **The first loop of `ngx_atofp`** gives the digits of the number as one. -/
theorem atofpLoop_eq : ∀ (s : List UInt8) {v point : ℕ}, v ≤ maxIntTValue → point ≠ 0 →
    atofpLoop s v false point =
      if point < (fraction s).length then none
      else ((denoteFrom decDigit 10 v (s.takeWhile (· ≠ 0x2e) ++ fraction s)).filter
        (· ≤ maxIntTValue)).map fun n => ((n : ℤ), point - (fraction s).length)
  | [], v, point, hv, _ => by
    rw [atofpLoop, takeWhile_nil, fraction, dropWhile_nil, tail_nil, append_nil,
      denoteFrom_nil, filter_some, length_nil, if_neg (Nat.not_lt_zero _),
      if_pos (by simpa using hv)]
    rfl
  | ch :: s, v, point, hv, hpoint => by
    rw [atofpLoop, if_neg hpoint]
    by_cases hdot : ch = 0x2e
    · rw [if_pos hdot, if_neg Bool.false_ne_true, atofpLoop_dot s point hv]
      simp [hdot, fraction]
    · have hfrac : fraction (ch :: s) = fraction s := by simp [fraction, hdot]
      rw [if_neg hdot, hfrac, takeWhile_cons_of_pos (by simpa using hdot), cons_append,
        denoteFrom_cons]
      cases hd : decDigit ch with
      | none => simp
      | some d =>
        by_cases hfull : maxIntTValue < v * 10 + d
        · simp only [(full_iff (decDigit_lt hd)).2 hfull, if_true, bind_some]
          rw [filter_denoteFrom_eq_none (by decide) hfull]
          simp
        · have hle : v * 10 + d ≤ maxIntTValue := Nat.le_of_not_lt hfull
          have hcast : int64 ((v : ℤ) * 10 + d) = (v * 10 + d : ℕ) := by
            rw [← int64_natCast hle]
            push_cast
            rfl
          simp only [mt (full_iff (decDigit_lt hd)).1 hfull, if_false, hcast, bind_some,
            Bool.false_eq_true, atofpLoop_eq s hle hpoint]

/-- The second loop of `ngx_atofp`. -/
theorem atofpScale_eq : ∀ (point : ℕ) {v : ℕ}, v ≤ maxIntTValue →
    Exact maxIntTValue (atofpScale point v) (some (v * 10 ^ point))
  | 0, v, hv => by
    rw [Exact, atofpScale, Nat.pow_zero, Nat.mul_one, filter_some,
      if_pos (by simpa using hv)]
    rfl
  | point + 1, v, hv => by
    rw [Exact, atofpScale, Nat.pow_succ', ← Nat.mul_assoc]
    by_cases hfull : maxIntTValue / 10 < v
    · have hover : maxIntTValue < v * 10 * 10 ^ point := by
        have hmul := Nat.le_mul_of_pos_right (v * 10) (Nat.pow_pos (n := point) (by decide : 0 < 10))
        rw [maxIntTValue] at hfull ⊢
        omega
      rw [if_pos (by exact_mod_cast hfull), filter_some, if_neg (by simpa using hover)]
      rfl
    · have hle : v * 10 ≤ maxIntTValue := by
        rw [maxIntTValue] at hfull ⊢
        omega
      have hcast : int64 ((v : ℤ) * 10) = (v * 10 : ℕ) := by
        rw [← int64_natCast hle]
        push_cast
        rfl
      rw [if_neg (by exact_mod_cast hfull), hcast]
      exact atofpScale_eq point hle

/-- **`ngx_atofp` is exact** if there may be digits behind the dot. -/
theorem atofp_eq (s : List UInt8) {point : ℕ} (h : point ≠ 0) :
    Exact maxIntTValue (atofp s point) (fixedPoint point s) := by
  rw [Exact, atofp, fixedPoint]
  cases s with
  | nil => simp
  | cons ch s =>
    have hloop := atofpLoop_eq (ch :: s) (Nat.zero_le _) h
    rw [Nat.cast_zero] at hloop
    simp only [isEmpty_cons, Bool.false_eq_true, if_false, false_or, hloop]
    by_cases hlen : point < (fraction (ch :: s)).length
    · rw [if_pos hlen, if_pos hlen]
      rfl
    · rw [if_neg hlen, if_neg hlen]
      cases denoteFrom decDigit 10 0 ((ch :: s).takeWhile (· ≠ 0x2e) ++ fraction (ch :: s)) with
      | none => rfl
      | some n =>
        by_cases hn : n ≤ maxIntTValue
        · rw [filter_some, if_pos (by simpa using hn)]
          exact atofpScale_eq _ hn
        · have hmul := Nat.le_mul_of_pos_right n
            (Nat.pow_pos (n := point - (fraction (ch :: s)).length) (by decide : 0 < 10))
          rw [filter_some, if_neg (by simpa using hn), map_some,
            filter_some, if_neg (by simp; omega)]
          rfl

theorem atofp_zero (s : List UInt8) : atofp s 0 = none := by
  cases s <;> rfl

/-- **`ngx_atofp` is exact**, but that it lets a number pass the limit when no decimal place is
asked for. -/
theorem atofp_exact_iff (s : List UInt8) (point : ℕ) :
    Exact maxIntTValue (atofp s point) (fixedPoint point s) ↔
      ∀ n, point = 0 → fixedPoint 0 s = some n → maxIntTValue < n := by
  by_cases hpoint : point = 0
  · subst hpoint
    rw [Exact, atofp_zero]
    cases fixedPoint 0 s with
    | none => simp
    | some n => by_cases hn : n ≤ maxIntTValue <;> simp [hn, Nat.not_lt.2, Nat.lt_of_not_le]
  · exact ⟨fun _ _ hzero => absurd hzero hpoint, fun _ => atofp_eq s hpoint⟩

/-- **All converters are exact** if the digits are those of a number that `ngx_atoll` does not take for a
smaller one, and `ngx_atofp` may find a digit behind the dot. -/
theorem conversions_exact_iff (text : List UInt8) (point : ℕ) :
    (Exact maxIntTValue (atoi text) (denote decDigit 10 text) ∧
        Exact maxSizeTValue (atosz text) (denote decDigit 10 text) ∧
        Exact maxOffTValue (atoof text) (denote decDigit 10 text) ∧
        Exact maxTimeTValue (atotm text) (denote decDigit 10 text) ∧
        Exact maxIntTValue (hextoi text) (denote hexDigit 16 text) ∧
        Exact maxLongLong (atoll text) (denote decDigit 10 text) ∧
        Exact maxIntTValue (atofp text point) (fixedPoint point text)) ↔
      (∀ n, denote decDigit 10 text = some n → n < 2 ^ 63 ∨ 2 ^ 63 ≤ n % 2 ^ 64) ∧
        ∀ n, point = 0 → fixedPoint 0 text = some n → maxIntTValue < n := by
  rw [atoll_exact_iff, atofp_exact_iff]
  have hfour (max : ℕ) (h : max ≤ 9223372036854775807) := ato_exact h text
  exact ⟨fun h => ⟨h.2.2.2.2.2.1, h.2.2.2.2.2.2⟩, fun h => ⟨hfour _ le_rfl, hfour _ le_rfl,
    hfour _ le_rfl, hfour _ le_rfl, hextoi_exact text, h.1, h.2⟩⟩

/-- The text `18446744073709551617`. -/
def wrapped : List UInt8 :=
  [0x31, 0x38, 0x34, 0x34, 0x36, 0x37, 0x34, 0x34, 0x30, 0x37, 0x33, 0x37, 0x30, 0x39, 0x35, 0x35, 0x31,
    0x36, 0x31, 0x37]

/-- `ngx_atoll` takes the text for `1`. -/
theorem atoll_wrapped : denote decDigit 10 wrapped = some (2 ^ 64 + 1) ∧ atoll wrapped = some 1 ∧
    ¬Exact maxLongLong (atoll wrapped) (denote decDigit 10 wrapped) := by
  rw [Exact]
  decide +kernel

end Hengine.Conv
