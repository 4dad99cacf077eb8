import Hengine.Http.SliceFilter
import Mathlib.Data.List.Range

/-!
# Slices Make Up the Served Range

When the upstream answers every range it is asked for, the slices are those of the served
range, in order, as long as no sum leaves `off_t` and the range filter looks at the range the
first slice was chosen for. Both can go wrong: a slice may end past the largest `off_t`, and
with `max_ranges 0` the whole response is announced although the first slice is the one the
client's `Range` header names.
-/

namespace Hengine

open List Option

/-! ### The client's range -/

theorem skipSpaces_suffix (p : List UInt8) : skipSpaces p <:+ p := dropWhile_suffix _

variable {p q : List UInt8} {len : ℤ}

/-- What is left behind a number. -/
theorem parseOff_suffix {n m : ℕ} (h : parseOff n p = some (m, q)) : q <:+ p := by
  induction p generalizing n with
  | nil =>
    rw [parseOff, Option.some.injEq, Prod.mk.injEq] at h
    exact h.2 ▸ suffix_refl _
  | cons c cs ih =>
    rw [parseOff] at h
    split at h
    · split at h
      · cases h
      · exact (ih h).trans (suffix_cons c cs)
    · rw [Option.some.injEq, Prod.mk.injEq] at h
      exact h.2 ▸ suffix_refl _

theorem parseNumber_some {n : ℕ} (h : parseNumber p = some (n, q)) :
    parseOff 0 p = some (n, q) := by
  rw [parseNumber] at h
  split at h
  · exact h
  · cases h

/-- The second part of a range. -/
theorem rangeEnd_some {len start s e : ℤ} {suffix : Bool} (hstart : 0 ≤ start)
    (h : rangeEnd len start suffix p = some (s, e, q)) :
    0 ≤ s ∧ e ≤ len ∧ (suffix = false → s = start) ∧ q <:+ p := by
  rw [rangeEnd] at h
  split at h
  · cases h
  · rename_i n r hn
    simp only at h
    split at h
    · rw [Option.some.injEq, Prod.mk.injEq, Prod.mk.injEq] at h
      obtain ⟨rfl, rfl, rfl⟩ := h
      refine ⟨?_, ?_, ?_, (skipSpaces_suffix r).trans (parseOff_suffix (parseNumber_some hn))⟩
      · split
        · split <;> omega
        · exact hstart
      · split <;> omega
      · rintro rfl
        rfl
    · cases h

/-- One range: it lies in the response, and unless it is a suffix it starts with the number
that `ngx_http_slice_get_start` reads. -/
theorem rangeSpec_some {len s e : ℤ} (h : rangeSpec len p = some (s, e, q)) :
    0 ≤ s ∧ e ≤ len ∧ q <:+ p ∧
      ((skipSpaces p).head? = some (byte '-') ∨
        ∃ n r, parseOff 0 (skipSpaces p) = some (n, r) ∧ s = n) := by
  rw [rangeSpec] at h
  simp only at h
  split at h
  · rename_i hdash
    obtain ⟨h1, h2, -, h4⟩ := rangeEnd_some (Int.le_refl 0) h
    exact ⟨h1, h2, h4.trans ((tail_suffix _).trans (skipSpaces_suffix p)), Or.inl hdash⟩
  · split at h
    · cases h
    · rename_i n r hn
      have hoff := parseNumber_some hn
      have hr := (parseOff_suffix hoff).trans (skipSpaces_suffix p)
      split at h
      · cases h
      · rename_i t ht
        have htail : t <:+ p := by
          rw [expectByte] at ht
          split at ht
          · rw [Option.some.injEq] at ht
            rw [← ht]
            exact (tail_suffix _).trans ((skipSpaces_suffix r).trans hr)
          · cases ht
        split at h
        · rw [Option.some.injEq, Prod.mk.injEq, Prod.mk.injEq] at h
          obtain ⟨rfl, rfl, rfl⟩ := h
          exact ⟨Int.natCast_nonneg n, Int.le_refl _, (skipSpaces_suffix t).trans htail,
            Or.inr ⟨n, r, hoff, rfl⟩⟩
        · obtain ⟨h1, h2, h3, h4⟩ := rangeEnd_some (Int.natCast_nonneg n) h
          exact ⟨h1, h2, h4.trans ((skipSpaces_suffix t).trans htail),
            Or.inr ⟨n, r, hoff, h3 rfl⟩⟩

/-- The ranges lie in the response. -/
def RangesIn (len : ℤ) (ranges : List (ℤ × ℤ)) : Prop :=
  ∀ r ∈ ranges, 0 ≤ r.1 ∧ r.1 < r.2 ∧ r.2 ≤ len

/-- One turn of the loop keeps them there. -/
def RangeStepIn (len : ℤ) : RangeStep → Prop
  | .stop (.ok found) => found ≠ [] ∧ RangesIn len found
  | .stop _ => True
  | .more _ ranges _ _ => RangesIn len ranges

/-- A turn keeps the ranges inside the file. -/
theorem rangeAfter_in {len size : ℤ} {left : ℕ} {ranges : List (ℤ × ℤ)} {p : List UInt8}
    (h : RangesIn len ranges) : RangeStepIn len (rangeAfter len left ranges size p) := by
  rw [rangeAfter]
  split
  · exact h
  · split
    · trivial
    · rename_i hne
      split
      · trivial
      · exact ⟨hne, h⟩

/-- A range that is taken lies in the response. -/
theorem rangeStep_in (size : ℤ) (left : ℕ) {ranges : List (ℤ × ℤ)} (p : List UInt8)
    (h : RangesIn len ranges) : RangeStepIn len (rangeStep len left ranges size p) := by
  rw [rangeStep]
  split
  · trivial
  · rename_i s e q hspec
    obtain ⟨h1, h2, -, -⟩ := rangeSpec_some hspec
    split
    · rename_i hlt
      split
      · trivial
      · split
        · trivial
        · refine rangeAfter_in fun r hr => ?_
          rcases mem_append.mp hr with hr | hr
          · exact h r hr
          · rw [mem_singleton.mp hr]
            exact ⟨h1, hlt, h2⟩
    · split
      · trivial
      · exact rangeAfter_in h

/-- The ranges found lie in the response. -/
theorem rangeParse_bounds (fuel left : ℕ) (ranges : List (ℤ × ℤ)) (size : ℤ) (p : List UInt8)
    (hranges : RangesIn len ranges) {found : List (ℤ × ℤ)}
    (h : rangeParse len fuel left ranges size p = .ok found) :
    found ≠ [] ∧ RangesIn len found := by
  induction fuel generalizing left ranges size p with
  | zero => cases h
  | succ fuel ih =>
    rw [rangeParse] at h
    have hstep := rangeStep_in size left p hranges
    cases hs : rangeStep len left ranges size p with
    | stop rc =>
      simp only [hs] at h
      rw [hs, h] at hstep
      exact hstep
    | more left' ranges' size' p' =>
      simp only [hs] at h
      rw [hs] at hstep
      exact ih _ _ _ _ hstep h

/-- **One range**: where the filter finds it, `ngx_http_slice_get_start` starts, and where the
filter does not take it, the start is zero. -/
theorem rangeParse_single {p : List UInt8} (hcomma : byte ',' ∉ p)
    (hdash : (skipSpaces p).head? ≠ some (byte '-')) (fuel : ℕ) :
    (∀ r rs, rangeParse len (fuel + 1) 1 [] 0 p = .ok (r :: rs) →
      (((parseOff 0 (skipSpaces p)).map Prod.fst).getD 0 : ℤ) = r.1) ∧
    (rangeParse len (fuel + 1) 1 [] 0 p = .declined →
      ((parseOff 0 (skipSpaces p)).map Prod.fst).getD 0 = 0) := by
  rw [rangeParse, rangeStep]
  cases hspec : rangeSpec len p with
  | none => simp
  | some t =>
    obtain ⟨s, e, q⟩ := t
    obtain ⟨h1, h2, h3, h4⟩ := rangeSpec_some hspec
    obtain ⟨n, r, hoff, rfl⟩ := h4.resolve_left hdash
    have hend : q.head? ≠ some (byte ',') := by
      intro hq
      exact hcomma (h3.subset (mem_of_mem_head? hq))
    rw [hoff]
    simp only [map_some, getD_some, nil_append, rangeAfter, if_neg hend]
    by_cases hlt : (n : ℤ) < e
    · by_cases hbig : (0 : ℤ) > maxOffT - (e - n)
      · simp only [if_pos hlt, if_pos hbig]
        exact ⟨fun r rs h => (by cases h), fun h => (by cases h)⟩
      · have hsize : ¬ 0 + (e - n) > len := by omega
        simp only [if_pos hlt, if_neg hbig, if_neg Nat.one_ne_zero,
          if_neg (cons_ne_nil _ _), if_neg hsize]
        refine ⟨fun r rs h => ?_, fun h => (by cases h)⟩
        rw [RangeRc.ok.injEq, List.cons.injEq] at h
        rw [← h.1]
    · by_cases hzero : (n : ℤ) = 0
      · simp only [if_neg hlt, if_pos hzero]
        exact ⟨fun r rs h => (by cases h), fun _ => (by omega)⟩
      · simp only [if_neg hlt, if_neg hzero, if_true]
        exact ⟨fun r rs h => (by cases h), fun h => (by cases h)⟩

/-- Where the first slice starts. -/
def SliceConf.first (conf : SliceConf) (req : SliceRequest) : ℕ :=
  conf.size * (sliceGetStart req / conf.size)

/-- A part that is served lies in the response, and behind the start of the first slice. -/
theorem rangeHeaderFilter_part {maxRanges : ℕ} {req : SliceRequest} {len lo hi : ℤ}
    (h : rangeHeaderFilter maxRanges req len = .part lo hi) :
    (sliceGetStart req : ℤ) ≤ lo ∧ lo < hi ∧ hi ≤ len := by
  rw [rangeHeaderFilter] at h
  split at h
  · cases h
  · split at h
    · cases h
    · rename_i p hspec
      split at h
      · cases h
      · split at h
        · rename_i start stop rs hparse
          rw [RangeOutcome.part.injEq] at h
          obtain ⟨rfl, rfl⟩ := h
          have hbounds := (rangeParse_bounds _ _ _ _ _ (by simp [RangesIn]) hparse).2 (start, stop) (by simp)
          refine ⟨?_, hbounds.2⟩
          rw [sliceGetStart, hspec]
          split
          · exact hbounds.1
          · simp only
            split
            · exact hbounds.1
            · rename_i hcomma
              split
              · exact hbounds.1
              · rename_i hdash
                have hcomma' : byte ',' ∉ p := by simpa using hcomma
                exact Int.le_of_eq ((rangeParse_single hcomma' hdash _).1 _ _ hparse)
        · cases h
        · cases h
        · cases h

/-- When all of the response is served the first slice is the first of the response, unless
ranges are disabled. -/
theorem rangeHeaderFilter_passed {maxRanges : ℕ} {req : SliceRequest} (hmax : maxRanges ≠ 0)
    (h : rangeHeaderFilter maxRanges req len = .passed) : sliceGetStart req = 0 := by
  rw [rangeHeaderFilter, if_neg hmax] at h
  rw [sliceGetStart]
  split
  · rfl
  · rename_i hif
    split at h
    · rfl
    · rename_i p hspec
      split at h
      · rename_i hfalse
        rw [hfalse] at hif
        exact absurd rfl hif
      · split
        · rfl
        · rename_i hcomma
          split
          · rfl
          · rename_i hdash
            have hcomma' : byte ',' ∉ p := by simpa using hcomma
            split at h
            · cases h
            · rename_i hparse
              exact absurd rfl (rangeParse_bounds _ _ _ _ _ (by simp [RangesIn]) hparse).1
            · cases h
            · rename_i hparse
              exact (rangeParse_single hcomma' hdash _).2 hparse

/-! ### Sums -/

theorem offT_eq {x : ℤ} (h : FitsOffT x) : offT x = x := by
  obtain ⟨h1, h2⟩ := h
  rw [offT, Int.emod_eq_of_lt (by omega) (by omega)]
  omega

theorem fitsOffT_iff {x : ℤ} (h : 0 ≤ x) : FitsOffT x ↔ x ≤ maxOffT := by
  have hmax : (maxOffT : ℤ) = 2 ^ 63 - 1 := rfl
  rw [FitsOffT, hmax]
  omega

/-! ### The upstream -/

/-- **The upstream answers** every range it is asked for that starts in the response: the
status is 206, the entity tag is always the same, and the range is what there is of the range
asked for. -/
def Answers (len : ℕ) (etag : Option (List UInt8)) (up : ℤ × ℤ → SliceResponse) : Prop :=
  ∀ a b : ℤ, 0 ≤ a → a ≤ b → a < len →
    (up (a, b)).status = 206 ∧ (up (a, b)).etag = etag ∧
    ∃ text, (up (a, b)).contentRange = some text ∧
      sliceParseContentRange text
        = some (⟨a, min (b + 1) len, some (len : ℤ)⟩, min (b + 1) len)

section Exact

variable {conf : SliceConf} {up : ℤ × ℤ → SliceResponse} {len : ℕ} {etag : Option (List UInt8)}

variable (conf) in
/-- A slice that fits is asked for as it is. -/
theorem ask_eq {s : ℤ} (hs : 0 ≤ s) (hfit : s + conf.size ≤ maxOffT) :
    conf.ask s = ((s, s + conf.size - 1), [s + conf.size, s + conf.size - 1]) := by
  have hpos := conf.size_pos
  rw [SliceConf.ask, offT_eq ((fitsOffT_iff (by omega)).mpr hfit),
    offT_eq ((fitsOffT_iff (by omega)).mpr (by omega))]

/-- **The answer is accepted.** -/
theorem sliceAccept_eq (hup : Answers len etag up) (ctx : SliceCtx) {s : ℤ} (hs : 0 ≤ s)
    (hlt : s < len) (hfit : s + conf.size ≤ maxOffT) (hstart : ctx.start = s)
    (hetag : ctx.etag = [] ∨ etag = some ctx.etag) :
    sliceAccept conf ctx (up (s, s + conf.size - 1))
      = .ok ({ ctx with start := min (s + conf.size) len, active := true,
                        etag := etag.getD ctx.etag },
          ⟨s, min (s + conf.size) len, some (len : ℤ)⟩, len,
          [min (s + conf.size) len, s + conf.size]) := by
  have hpos := conf.size_pos
  obtain ⟨-, htag, text, htext, hparse⟩ := hup s (s + conf.size - 1) hs (by omega) hlt
  have hcheck : sliceCheck ctx (up (s, s + conf.size - 1))
      = .ok (⟨s, min (s + conf.size) len, some (len : ℤ)⟩, len, min (s + conf.size) len) := by
    rw [sliceCheck, if_neg, htext, bind_some, hparse]
    · simp
    · rw [htag]
      rintro ⟨hne, hne'⟩
      exact hetag.elim hne hne'
  rw [sliceAccept, hcheck]
  simp only [offT_eq ((fitsOffT_iff (by omega)).mpr hfit)]
  rw [if_neg (by simp [hstart]), htag]

/-- The tag of the first slice is kept. -/
theorem etag_kept (ctx : SliceCtx) (hetag : ctx.etag = [] ∨ etag = some ctx.etag) :
    etag.getD ctx.etag = [] ∨ etag = some (etag.getD ctx.etag) := by
  cases etag with
  | none => exact Or.inl (hetag.resolve_right (by simp))
  | some t => exact Or.inr rfl

/-! ### What is passed on -/

variable {req : SliceRequest} {range : RangeOutcome}

/-- The bytes of an answer that are served. -/
theorem body_eq {lo hi a b : ℤ} (hrange : range.served len = (lo, hi)) (ha : 0 ≤ a) (hb : b ≤ len)
    (hlo : 0 ≤ lo) (hne : range ≠ .notSatisfiable) :
    range.body a b = List.range' (max a lo).toNat (min b hi - max a lo).toNat := by
  cases range with
  | passed =>
    simp only [RangeOutcome.served, Prod.mk.injEq] at hrange
    obtain ⟨rfl, rfl⟩ := hrange
    rw [RangeOutcome.body, max_eq_left ha, min_eq_left hb]
  | part start stop =>
    simp only [RangeOutcome.served, Prod.mk.injEq] at hrange
    obtain ⟨rfl, rfl⟩ := hrange
    rw [RangeOutcome.body]
    split
    · have hzero : (min b stop - max a start).toNat = 0 := by omega
      rw [hzero, range'_zero]
    · rfl
  | notSatisfiable => exact absurd rfl hne

/-- The bytes up to a place and those behind it. -/
theorem range_split {a b lo hi : ℤ} (hab : a ≤ b) (ha : 0 ≤ a) (hlohi : lo ≤ hi) (hlo : 0 ≤ lo) :
    List.range' (max a lo).toNat (min b hi - max a lo).toNat ++
      List.range' (max b lo).toNat (hi - max b lo).toNat
        = List.range' (max a lo).toNat (hi - max a lo).toNat := by
  rcases Int.le_total b (max a lo) with hle | hge
  · have h1 : (min b hi - max a lo).toNat = 0 := by omega
    have h2 : max b lo = max a lo := by omega
    rw [h1, h2, range'_zero, nil_append]
  · rcases Int.le_total b hi with hbh | hbh
    · have h1 : (max b lo).toNat = (max a lo).toNat + (min b hi - max a lo).toNat := by omega
      have h2 : (hi - max a lo).toNat
          = (min b hi - max a lo).toNat + (hi - max b lo).toNat := by omega
      rw [h1, h2, range'_append_1]
    · have h1 : (hi - max b lo).toNat = 0 := by omega
      have h2 : min b hi = hi := by omega
      rw [h1, h2, range'_zero, append_nil]

/-! ### The subrequests -/

/-- A range that was asked for is one slice. -/
def IsSlice (conf : SliceConf) (p : ℤ × ℤ) : Prop :=
  0 ≤ p.1 ∧ (conf.size : ℤ) ∣ p.1 ∧ p.2 = p.1 + conf.size - 1

/-- The subrequests from a place on are as they should be. -/
structure LoopExact (conf : SliceConf) (lo hi s : ℤ) (r : SliceRun) : Prop where
  ending : r.ending = .served
  asked : ∀ p ∈ r.asked, IsSlice conf p ∧ p.1 < hi ∧ FitsOffT (p.1 + conf.size)
  delivered : r.delivered = List.range' (max s lo).toNat (hi - max s lo).toNat
  sums : ∀ x ∈ r.sums, FitsOffT x

/-- The start of the slice of the last byte before `hi`. -/
def SliceConf.lastSlice (conf : SliceConf) (hi : ℤ) : ℤ := conf.size * ((hi - 1) / conf.size)

/-- A slice that begins before the end is not behind the last one. -/
theorem le_lastSlice {s hi : ℤ} (hdvd : (conf.size : ℤ) ∣ s) (hlt : s < hi) :
    s ≤ conf.lastSlice hi := by
  have hpos : (0 : ℤ) < conf.size := by exact_mod_cast conf.size_pos
  obtain ⟨k, rfl⟩ := hdvd
  refine Int.mul_le_mul_of_nonneg_left ?_ (Int.le_of_lt hpos)
  rw [Int.le_ediv_iff_mul_le hpos, Int.mul_comm]
  omega

variable (conf) in
theorem lastSlice_lt (hi : ℤ) : conf.lastSlice hi < hi := by
  have hpos : (0 : ℤ) < conf.size := by exact_mod_cast conf.size_pos
  have := Int.mul_ediv_self_le (x := hi - 1) (k := conf.size) (Int.ne_of_gt hpos)
  rw [SliceConf.lastSlice]
  omega

theorem dvd_gap {s t : ℤ} (hs : (conf.size : ℤ) ∣ s) (ht : (conf.size : ℤ) ∣ t) (hlt : s < t) :
    s + conf.size ≤ t := by
  have := Int.le_of_dvd (by omega) (Int.dvd_sub ht hs)
  omega

/-- What one subrequest does. -/
theorem sliceLoop_step (hup : Answers len etag up) {ctx : SliceCtx} (hs : 0 ≤ ctx.start)
    (hlt : ctx.start < ctx.stop) (hlen : ctx.start < len) (hfit : ctx.start + conf.size ≤ maxOffT)
    (hetag : ctx.etag = [] ∨ etag = some ctx.etag) (fuel : ℕ) :
    sliceLoop conf up range (fuel + 1) ctx
      = (sliceLoop conf up range fuel
          { ctx with range := (ctx.start, ctx.start + conf.size - 1),
                     start := min (ctx.start + conf.size) len, active := true,
                     etag := etag.getD ctx.etag }).cons (ctx.start, ctx.start + conf.size - 1)
          (range.body ctx.start (min (ctx.start + conf.size) len))
          [ctx.start + conf.size, ctx.start + conf.size - 1, min (ctx.start + conf.size) len,
            ctx.start + conf.size] := by
  have hpos := conf.size_pos
  have hstatus := (hup ctx.start (ctx.start + conf.size - 1) hs (by omega) hlen).1
  rw [sliceLoop, if_neg (by omega)]
  simp only [ask_eq conf hs hfit]
  rw [if_neg (by simp [hstatus]), sliceAccept_eq hup
    { ctx with range := (ctx.start, ctx.start + conf.size - 1), active := false } hs hlen hfit rfl
    hetag]
  rfl

/-- **The subrequests are exact** when the last slice fits. -/
theorem sliceLoop_exact (hup : Answers len etag up) (hmax : len ≤ maxOffT) {lo hi : ℤ}
    (hrange : range.served len = (lo, hi)) (hne : range ≠ .notSatisfiable) (hlo : 0 ≤ lo)
    (hlohi : lo ≤ hi) (hhi : hi ≤ len) (fuel : ℕ) (ctx : SliceCtx) (hstop : ctx.stop = hi)
    (hs : 0 ≤ ctx.start) (hdvd : ctx.start < hi → (conf.size : ℤ) ∣ ctx.start)
    (hfit : ctx.start < hi → conf.lastSlice hi + conf.size ≤ maxOffT)
    (hetag : ctx.etag = [] ∨ etag = some ctx.etag) (hfuel : (hi - ctx.start).toNat < fuel) :
    LoopExact conf lo hi ctx.start (sliceLoop conf up range fuel ctx) := by
  have hpos := conf.size_pos
  induction fuel generalizing ctx with
  | zero => omega
  | succ fuel ih =>
    rcases lt_or_ge ctx.start hi with hlt | hge
    · have hle := le_lastSlice (hdvd hlt) hlt
      have hsum : ctx.start + conf.size ≤ maxOffT := by
        have := hfit hlt
        omega
      rw [sliceLoop_step hup hs (by omega) (by omega) hsum hetag]
      have hrest := ih
        { ctx with range := (ctx.start, ctx.start + conf.size - 1),
                   start := min (ctx.start + conf.size) len, active := true,
                   etag := etag.getD ctx.etag } hstop (by simp only; omega)
        (fun hnext => by
          simp only at hnext ⊢
          rw [min_eq_left (by omega)]
          exact Int.dvd_add (hdvd hlt) (Int.dvd_refl _))
        (fun _ => hfit hlt) (etag_kept ctx hetag) (by simp only; omega)
      refine ⟨hrest.ending, ?_, ?_, ?_⟩
      · intro p hp
        rcases mem_cons.mp hp with rfl | hp
        · exact ⟨⟨hs, hdvd hlt, rfl⟩, hlt, (fitsOffT_iff (by omega)).mpr hsum⟩
        · exact hrest.asked p hp
      · have hsplit := range_split (a := ctx.start) (b := min (ctx.start + conf.size) len)
          (by omega) hs hlohi hlo
        rw [SliceRun.cons, hrest.delivered, body_eq hrange hs (Int.min_le_right _ _) hlo hne]
        exact hsplit
      · intro x hx
        rcases mem_append.mp hx with hx | hx
        · simp only [mem_cons, not_mem_nil, or_false] at hx
          rcases hx with rfl | rfl | rfl | rfl <;> rw [fitsOffT_iff (by omega)] <;> omega
        · exact hrest.sums x hx
    · rw [sliceLoop, if_pos (by omega)]
      refine ⟨rfl, fun p hp => (by cases hp), ?_, fun x hx => (by cases hx)⟩
      have hzero : (hi - max ctx.start lo).toNat = 0 := by omega
      rw [hzero, range'_zero]

variable (conf) in
/-- A last slice that does not fit is asked for. -/
theorem sliceLoop_overflow (hup : Answers len etag up) (range : RangeOutcome) {hi : ℤ}
    (hhi : hi ≤ len) (fuel : ℕ) (ctx : SliceCtx) (hstop : ctx.stop = hi) (hs : 0 ≤ ctx.start)
    (hlt : ctx.start < hi) (hdvd : (conf.size : ℤ) ∣ ctx.start)
    (hbad : maxOffT < conf.lastSlice hi + conf.size)
    (hetag : ctx.etag = [] ∨ etag = some ctx.etag) (hfuel : (hi - ctx.start).toNat < fuel) :
    ∃ x ∈ (sliceLoop conf up range fuel ctx).sums, ¬ FitsOffT x := by
  have hpos := conf.size_pos
  induction fuel generalizing ctx with
  | zero => omega
  | succ fuel ih =>
    by_cases hsum : ctx.start + conf.size ≤ maxOffT
    · -- The slice fits, so it is not the last one.
      have hle := le_lastSlice hdvd hlt
      have hlast := lastSlice_lt conf hi
      have hgap := dvd_gap hdvd (Int.dvd_mul_right (conf.size : ℤ) ((hi - 1) / conf.size))
        (by rw [← SliceConf.lastSlice]; omega)
      rw [← SliceConf.lastSlice] at hgap
      rw [sliceLoop_step hup hs (by omega) (by omega) hsum hetag]
      obtain ⟨x, hx, hnot⟩ := ih
        { ctx with range := (ctx.start, ctx.start + conf.size - 1),
                   start := min (ctx.start + conf.size) len, active := true,
                   etag := etag.getD ctx.etag } hstop (by simp only; omega)
        (by simp only; omega)
        (by
          simp only
          rw [min_eq_left (by omega)]
          exact Int.dvd_add hdvd (Int.dvd_refl _))
        (etag_kept ctx hetag) (by simp only; omega)
      exact ⟨x, mem_append_right _ hx, hnot⟩
    · refine ⟨ctx.start + conf.size, ?_, by rw [fitsOffT_iff (by omega)]; omega⟩
      rw [sliceLoop, if_neg (by omega)]
      by_cases hstatus : (up (conf.ask ctx.start).1).status ≠ 206
      · rw [if_pos hstatus]
        simp [SliceConf.ask]
      · rw [if_neg hstatus]
        cases sliceAccept conf { ctx with range := (conf.ask ctx.start).1, active := false }
            (up (conf.ask ctx.start).1) with
        | error e => simp [SliceConf.ask]
        | ok t => simp [SliceRun.cons, SliceConf.ask]

/-! ### The first slice -/

variable (conf) in
theorem first_le (req : SliceRequest) : conf.first req ≤ sliceGetStart req :=
  Nat.mul_div_le _ _

/-- The context behind the first answer. -/
def SliceConf.afterFirst (conf : SliceConf) (req : SliceRequest) (len : ℕ)
    (etag : Option (List UInt8)) : SliceCtx where
  start := min ((conf.first req : ℤ) + conf.size) len
  range := (conf.first req, conf.first req + conf.size - 1)
  etag := etag.getD []
  active := true

/-- **The first slice**: when it fits, its answer is accepted. -/
theorem sliceServe_first (hup : Answers len etag up) (hlt : conf.first req < len)
    (hfit : conf.first req + conf.size ≤ maxOffT) (fuel : ℕ) :
    sliceServe conf req up fuel
      = if rangeHeaderFilter conf.maxRanges req len = .notSatisfiable then
          ⟨[(conf.first req, conf.first req + conf.size - 1)], [],
            [conf.first req + conf.size, conf.first req + conf.size - 1,
              min ((conf.first req : ℤ) + conf.size) len, conf.first req + conf.size],
            .notSatisfiable⟩
        else
          (sliceLoop conf up (rangeHeaderFilter conf.maxRanges req len) fuel
            (sliceServed conf (conf.afterFirst req len etag) len
              (rangeHeaderFilter conf.maxRanges req len)).1).cons
            (conf.first req, conf.first req + conf.size - 1)
            ((rangeHeaderFilter conf.maxRanges req len).body (conf.first req)
              (min ((conf.first req : ℤ) + conf.size) len))
            ([(conf.first req : ℤ) + conf.size, conf.first req + conf.size - 1,
              min ((conf.first req : ℤ) + conf.size) len, conf.first req + conf.size] ++
              (sliceServed conf (conf.afterFirst req len etag) len
                (rangeHeaderFilter conf.maxRanges req len)).2) := by
  have hpos := conf.size_pos
  have hs : (0 : ℤ) ≤ conf.first req := Int.natCast_nonneg _
  have hfit' : (conf.first req : ℤ) + conf.size ≤ maxOffT := by omega
  have hlt' : (conf.first req : ℤ) < len := by omega
  have hstatus := (hup _ (conf.first req + conf.size - 1) hs (by omega) hlt').1
  have hvar : sliceRangeVariable conf req
      = ({ start := conf.first req, range := (conf.first req, conf.first req + conf.size - 1) },
        [(conf.first req : ℤ) + conf.size, conf.first req + conf.size - 1]) := by
    have hask := ask_eq conf hs hfit'
    rw [SliceConf.first] at hask
    simp only [sliceRangeVariable, SliceConf.first, hask]
  rw [sliceServe, hvar]
  simp only [if_neg (not_not.mpr hstatus)]
  rw [sliceAccept_eq hup _ hs hlt' hfit' rfl (Or.inl rfl)]
  rfl

/-- What the range filter says of a response that is not refused. -/
theorem served_bounds {lo hi : ℤ}
    (hrange : (rangeHeaderFilter conf.maxRanges req len).served len = (lo, hi)) :
    0 ≤ lo ∧ lo ≤ hi ∧ hi ≤ len := by
  cases h : rangeHeaderFilter conf.maxRanges req len with
  | passed =>
    simp only [h, RangeOutcome.served, Prod.mk.injEq] at hrange
    omega
  | part start stop =>
    obtain ⟨h1, h2, h3⟩ := rangeHeaderFilter_part h
    simp only [h, RangeOutcome.served, Prod.mk.injEq] at hrange
    omega
  | notSatisfiable =>
    simp only [h, RangeOutcome.served, Prod.mk.injEq] at hrange
    omega

/-- **Behind the first answer**: the next slice is the next of the served range. -/
theorem sliceServed_spec (hmax : len ≤ maxOffT) {lo hi : ℤ}
    (hrange : (rangeHeaderFilter conf.maxRanges req len).served len = (lo, hi))
    (hne : rangeHeaderFilter conf.maxRanges req len ≠ .notSatisfiable) (ctx : SliceCtx)
    (hstart : ctx.start = min ((conf.first req : ℤ) + conf.size) len)
    (hjump : ∀ start stop, rangeHeaderFilter conf.maxRanges req len = .part start stop → ctx.start +
      conf.size ≤ maxOffT)
    {t : SliceCtx × List ℤ}
    (ht : t = sliceServed conf ctx len (rangeHeaderFilter conf.maxRanges req len)) :
    t.1.stop = hi ∧ t.1.etag = ctx.etag ∧ ctx.start ≤ t.1.start ∧
      (ctx.start < hi → t.1.start < hi) ∧ (t.1.start < hi → (conf.size : ℤ) ∣ t.1.start) ∧
      max t.1.start lo = max ctx.start lo ∧ ∀ x ∈ t.2, FitsOffT x := by
  have hpos := conf.size_pos
  have hdvd : (conf.size : ℤ) ∣ (conf.first req : ℤ) + conf.size := by
    refine Int.dvd_add ?_ (Int.dvd_refl _)
    rw [SliceConf.first]
    exact_mod_cast Nat.dvd_mul_right conf.size _
  have hdvdStart : ctx.start < len → (conf.size : ℤ) ∣ ctx.start := by
    intro hlt
    have heq : ctx.start = (conf.first req : ℤ) + conf.size := by omega
    rw [heq]
    exact hdvd
  obtain ⟨hlo, hlohi, hhi⟩ := served_bounds hrange
  cases h : rangeHeaderFilter conf.maxRanges req len with
  | passed =>
    simp only [h, RangeOutcome.served, Prod.mk.injEq] at hrange
    obtain ⟨rfl, rfl⟩ := hrange
    rw [ht, h]
    exact ⟨rfl, rfl, Int.le_refl _, fun hlt => hlt, hdvdStart, rfl, fun x hx => (by cases hx)⟩
  | part start stop =>
    simp only [h, RangeOutcome.served, Prod.mk.injEq] at hrange
    obtain ⟨rfl, rfl⟩ := hrange
    have hfit := hjump _ _ h
    have hnonempty := (rangeHeaderFilter_part h).2.1
    rw [ht, h]
    simp only [sliceServed, offT_eq ((fitsOffT_iff (by omega)).mpr hfit)]
    have hlen : start + (stop - start) = stop := by omega
    rw [hlen, offT_eq ((fitsOffT_iff (by omega)).mpr (by omega))]
    have hz : (0 : ℤ) < conf.size := by omega
    have hlow := Int.mul_ediv_self_le (x := start) (Int.ne_of_gt hz)
    have hhigh := Int.lt_mul_ediv_self_add (x := start) hz
    have hsums : ∀ x ∈ [ctx.start + (conf.size : ℤ), stop], FitsOffT x := by
      intro x hx
      simp only [mem_cons, not_mem_nil, or_false] at hx
      rcases hx with rfl | rfl <;> rw [fitsOffT_iff (by omega)] <;> omega
    split
    · -- The served range starts behind the next slice.
      refine ⟨rfl, trivial, ?_, ?_, ?_, ?_, hsums⟩
      · omega
      · intro hlt
        omega
      · exact fun _ => Int.dvd_mul_right _ _
      · omega
    · exact ⟨rfl, trivial, Int.le_refl _, fun hlt => hlt, fun hlt => hdvdStart (by omega), rfl,
        hsums⟩
  | notSatisfiable => exact absurd h hne

/-- **What makes slices fit**: the range filter may look at the client's range, or the first
slice is the first of the response; and the first slice, the one the filter tests for after
it, and the last one end before the largest `off_t`. -/
structure SliceFits (conf : SliceConf) (req : SliceRequest) (len : ℕ) : Prop where
  ranges : conf.maxRanges ≠ 0 ∨ conf.first req = 0
  first : conf.first req + conf.size ≤ maxOffT
  next : ∀ lo hi, rangeHeaderFilter conf.maxRanges req len = .part lo hi →
    min ((conf.first req : ℤ) + conf.size) len + conf.size ≤ maxOffT
  last : min ((conf.first req : ℤ) + conf.size) len
      < ((rangeHeaderFilter conf.maxRanges req len).served len).2 →
    conf.lastSlice ((rangeHeaderFilter conf.maxRanges req len).served len).2 + conf.size ≤ maxOffT

/-- **Slices are exact**: the ranges asked for are slices; the bytes passed on are those of
the served range, each once and in order; the request ends, and no subrequest starts behind
the served range; every sum fits; and an answer to a range asked for that has another range
is rejected. -/
structure SliceExact (conf : SliceConf) (req : SliceRequest) (len : ℕ) (r : SliceRun) : Prop where
  aligned : ∀ p ∈ r.asked, IsSlice conf p
  delivered : r.delivered
    = List.range' ((rangeHeaderFilter conf.maxRanges req len).served len).1.toNat
        (((rangeHeaderFilter conf.maxRanges req len).served len).2
          - ((rangeHeaderFilter conf.maxRanges req len).served len).1).toNat
  ended : r.ending = if rangeHeaderFilter conf.maxRanges req len = .notSatisfiable
    then .notSatisfiable else .served
  stops : ∀ p ∈ r.asked.tail, p.1 < ((rangeHeaderFilter conf.maxRanges req len).served len).2
  sums : ∀ x ∈ r.sums, FitsOffT x
  rejects : ∀ p ∈ r.asked, ∀ ctx resp cr l sum, ctx.start = p.1 →
    sliceCheck ctx resp = .ok (cr, l, sum) →
    cr.start ≠ p.1 ∨ cr.stop ≠ min (p.1 + conf.size) l →
    sliceAccept conf ctx resp = .error .unexpectedRange

/-- An answer with another range is rejected when the slice fits. -/
theorem sliceAccept_rejects {s : ℤ} (hs : FitsOffT (s + conf.size)) {ctx : SliceCtx}
    {resp : SliceResponse} {cr : ContentRange} {l sum : ℤ} (hstart : ctx.start = s)
    (hcheck : sliceCheck ctx resp = .ok (cr, l, sum))
    (hother : cr.start ≠ s ∨ cr.stop ≠ min (s + conf.size) l) :
    sliceAccept conf ctx resp = .error .unexpectedRange := by
  rw [sliceAccept, hcheck]
  simp only
  rw [if_pos]
  by_cases hcr : cr.start = s
  · rw [hcr, offT_eq hs]
    exact Or.inr (hother.resolve_left fun h => h hcr)
  · rw [hstart]
    exact Or.inl hcr

theorem isSlice_first (req : SliceRequest) :
    IsSlice conf ((conf.first req : ℤ), (conf.first req : ℤ) + conf.size - 1) := by
  exact ⟨Int.natCast_nonneg _, Int.natCast_dvd_natCast.mpr (Nat.dvd_mul_right _ _), rfl⟩

/-- **Slices are exact when they fit.** -/
theorem SliceFits.exact (h : SliceFits conf req len) (hmax : len ≤ maxOffT)
    (hup : Answers len etag up) (hlt : conf.first req < len) {fuel : ℕ} (hfuel : len < fuel) :
    SliceExact conf req len (sliceServe conf req up fuel) := by
  have hpos := conf.size_pos
  have hfit := h.first
  have hfirstSums : ∀ x ∈ [(conf.first req : ℤ) + conf.size, conf.first req + conf.size - 1,
      min ((conf.first req : ℤ) + conf.size) len, conf.first req + conf.size], FitsOffT x := by
    intro x hx
    simp only [mem_cons, not_mem_nil, or_false] at hx
    rcases hx with rfl | rfl | rfl | rfl <;> rw [fitsOffT_iff (by omega)] <;> omega
  have hfits : FitsOffT ((conf.first req : ℤ) + conf.size) := hfirstSums _ (by simp)
  rw [sliceServe_first hup hlt hfit]
  split
  · rename_i hnot
    have hserved : (rangeHeaderFilter conf.maxRanges req len).served len = (0, 0) := by
      rw [hnot]
      rfl
    refine ⟨?_, ?_, ?_, fun p hp => (by cases hp), hfirstSums, ?_⟩
    · intro p hp
      rw [mem_singleton.mp hp]
      exact isSlice_first req
    · rw [hserved]
      rfl
    · rw [if_pos hnot]
    · intro p hp ctx resp cr l sum hstart hcheck hother
      rw [mem_singleton.mp hp] at hstart hother
      exact sliceAccept_rejects hfits hstart hcheck hother
  · rename_i hne
    cases hserved : (rangeHeaderFilter conf.maxRanges req len).served len with
    | mk lo hi =>
      obtain ⟨hlo, hlohi, hhi⟩ := served_bounds hserved
      obtain ⟨hstop, htag, hle, hlast, hdvd, hcut, hsums⟩ := sliceServed_spec hmax hserved hne
        (conf.afterFirst req len etag) rfl h.next rfl
      have hstart : (conf.afterFirst req len etag).start
          = min ((conf.first req : ℤ) + conf.size) len := rfl
      have hfitLast := h.last
      rw [hserved] at hfitLast
      have hloop := sliceLoop_exact hup hmax hserved hne hlo hlohi hhi fuel _ hstop (by omega)
        hdvd (fun hnext => hfitLast (by omega)) (by
          rw [htag]
          exact etag_kept { start := 0, range := (0, 0) } (Or.inl rfl)) (by omega)
      -- The first slice starts at or before the served range.
      have hbefore : (conf.first req : ℤ) ≤ lo := by
        cases hr : rangeHeaderFilter conf.maxRanges req len with
        | passed =>
          rw [hr, RangeOutcome.served, Prod.mk.injEq] at hserved
          rcases h.ranges with hm | hzero
          · have := rangeHeaderFilter_passed hm hr
            have := first_le conf req
            omega
          · omega
        | part start stop =>
          rw [hr, RangeOutcome.served, Prod.mk.injEq] at hserved
          have := (rangeHeaderFilter_part hr).1
          have := first_le conf req
          omega
        | notSatisfiable => exact absurd hr hne
      refine ⟨?_, ?_, ?_, ?_, ?_, ?_⟩
      · intro p hp
        rcases mem_cons.mp hp with rfl | hp
        · exact isSlice_first req
        · exact (hloop.asked p hp).1
      · have hsplit := range_split (a := (conf.first req : ℤ))
          (b := min ((conf.first req : ℤ) + conf.size) len) (by omega) (Int.natCast_nonneg _)
          hlohi hlo
        rw [max_eq_right hbefore] at hsplit
        rw [hserved, SliceRun.cons, hloop.delivered, hcut,
          body_eq hserved (Int.natCast_nonneg _) (Int.min_le_right _ _) hlo hne,
          max_eq_right hbefore]
        exact hsplit
      · rw [if_neg hne]
        exact hloop.ending
      · intro p hp
        rw [hserved]
        exact (hloop.asked p hp).2.1
      · intro x hx
        rcases mem_append.mp hx with hx | hx
        · rcases mem_append.mp hx with hx | hx
          · exact hfirstSums x hx
          · exact hsums x hx
        · exact hloop.sums x hx
      · intro p hp ctx resp cr l sum hs hcheck hother
        rcases mem_cons.mp hp with rfl | hp
        · exact sliceAccept_rejects hfits hs hcheck hother
        · exact sliceAccept_rejects (hloop.asked p hp).2.2 hs hcheck hother

/-- The sum of the first slice is always formed. -/
theorem sum_first (req : SliceRequest) (fuel : ℕ) :
    (conf.first req : ℤ) + conf.size ∈ (sliceServe conf req up fuel).sums := by
  have hvar : (conf.first req : ℤ) + conf.size ∈ (sliceRangeVariable conf req).2 := by
    simp [sliceRangeVariable, SliceConf.ask, SliceConf.first]
  rw [sliceServe]
  by_cases hstatus : (up (sliceRangeVariable conf req).1.range).status ≠ 206
  · rw [if_pos hstatus]
    exact hvar
  · rw [if_neg hstatus]
    cases sliceAccept conf (sliceRangeVariable conf req).1
        (up (sliceRangeVariable conf req).1.range) with
    | error e => exact hvar
    | ok t =>
      obtain ⟨ctx, cr, l, sums⟩ := t
      simp only
      split
      · exact mem_append_left _ hvar
      · simp only [SliceRun.cons, mem_append]
        exact Or.inl (Or.inl (Or.inl hvar))

/-- **Slices that are exact fit.** -/
theorem SliceExact.fits {fuel : ℕ} (h : SliceExact conf req len (sliceServe conf req up fuel))
    (hmax : len ≤ maxOffT) (hup : Answers len etag up) (hlt : conf.first req < len)
    (hfuel : len < fuel) : SliceFits conf req len := by
  have hpos := conf.size_pos
  have hfirst : conf.first req + conf.size ≤ maxOffT := by
    have := (fitsOffT_iff (by omega)).mp (h.sums _ (sum_first req fuel))
    omega
  have hserve := sliceServe_first hup hlt hfirst fuel
  have hstart : (conf.afterFirst req len etag).start
      = min ((conf.first req : ℤ) + conf.size) len := rfl
  have hnext : ∀ lo hi, rangeHeaderFilter conf.maxRanges req len = .part lo hi →
      min ((conf.first req : ℤ) + conf.size) len + conf.size ≤ maxOffT := by
    intro lo hi hpart
    have hsum : min ((conf.first req : ℤ) + conf.size) len + conf.size
        ∈ (sliceServe conf req up fuel).sums := by
      rw [hserve, hpart, if_neg (by simp)]
      simp [SliceRun.cons, sliceServed, hstart]
    exact (fitsOffT_iff (by omega)).mp (h.sums _ hsum)
  have hlast : min ((conf.first req : ℤ) + conf.size) len
      < ((rangeHeaderFilter conf.maxRanges req len).served len).2 →
      conf.lastSlice ((rangeHeaderFilter conf.maxRanges req len).served len).2 + conf.size
        ≤ maxOffT := by
    intro hmore
    by_contra hbad
    cases hserved : (rangeHeaderFilter conf.maxRanges req len).served len with
    | mk lo hi =>
      have hne : rangeHeaderFilter conf.maxRanges req len ≠ .notSatisfiable := by
        intro hnot
        rw [hnot] at hmore
        simp only [RangeOutcome.served] at hmore
        omega
      rw [hserved] at hmore hbad
      simp only at hmore hbad
      obtain ⟨hlo, hlohi, hhi⟩ := served_bounds hserved
      obtain ⟨hstop, htag, hle, hlt', hdvd, -, -⟩ := sliceServed_spec hmax hserved hne
        (conf.afterFirst req len etag) rfl hnext rfl
      obtain ⟨x, hx, hnot⟩ := sliceLoop_overflow conf hup
        (rangeHeaderFilter conf.maxRanges req len) hhi fuel _ hstop (by omega)
        (hlt' hmore) (hdvd (hlt' hmore)) (by omega) (by
          rw [htag]
          exact etag_kept { start := 0, range := (0, 0) } (Or.inl rfl)) (by omega)
      refine hnot (h.sums x ?_)
      rw [hserve, if_neg hne]
      exact mem_append_right _ hx
  refine ⟨?_, hfirst, hnext, hlast⟩
  by_contra hnone
  rw [not_or, not_not] at hnone
  obtain ⟨hzero, hfirstNe⟩ := hnone
  -- All of the response is announced, and the first slice is not its first.
  have hpassed : rangeHeaderFilter conf.maxRanges req len = .passed := by
    rw [rangeHeaderFilter, if_pos hzero]
  have hserved : (rangeHeaderFilter conf.maxRanges req len).served len = (0, (len : ℤ)) := by
    rw [hpassed]
    rfl
  have hne : rangeHeaderFilter conf.maxRanges req len ≠ .notSatisfiable := by
    rw [hpassed]
    simp
  obtain ⟨hstop, htag, hle, hlt', hdvd, hcut, -⟩ := sliceServed_spec hmax hserved hne
    (conf.afterFirst req len etag) rfl hnext rfl
  rw [hserved] at hlast
  have hloop := sliceLoop_exact hup hmax hserved hne (Int.le_refl 0) (Int.natCast_nonneg len)
    (Int.le_refl _) fuel _ hstop (by omega) hdvd (fun hn => hlast (by omega)) (by
      rw [htag]
      exact etag_kept { start := 0, range := (0, 0) } (Or.inl rfl)) (by omega)
  have hdelivered := congrArg List.length h.delivered
  rw [hserve, if_neg hne, SliceRun.cons, hserved] at hdelivered
  simp only [hloop.delivered, hcut, length_append, length_range',
    body_eq hserved (Int.natCast_nonneg _) (Int.min_le_right _ _) (Int.le_refl 0) hne] at hdelivered
  omega

/-- **Slices make up the served range**, and no sum leaves `off_t`, exactly when they fit. -/
theorem slice_exact {req : SliceRequest} (hmax : len ≤ maxOffT) (hup : Answers len etag up)
    (hlt : conf.first req < len) {fuel : ℕ} (hfuel : len < fuel) :
    SliceExact conf req len (sliceServe conf req up fuel) ↔ SliceFits conf req len :=
  ⟨fun h => h.fits hmax hup hlt hfuel, fun h => h.exact hmax hup hlt hfuel⟩

end Exact

/-! ### An upstream -/

/-- `%O` of `ngx_sprintf`, for a number that is not negative. -/
def sprintfOff (n : ℕ) : List UInt8 :=
  if n < 10 then [byte '0' + n.toUInt8] else sprintfOff (n / 10) ++ [byte '0' + (n % 10).toUInt8]

theorem digit_spec {d : ℕ} (hd : d < 10) :
    isDigit (byte '0' + d.toUInt8) = true ∧ (byte '0' + d.toUInt8 - byte '0').toNat = d := by
  have hall : ∀ d < 10, isDigit (byte '0' + d.toUInt8) = true ∧
      (byte '0' + d.toUInt8 - byte '0').toNat = d := by decide
  exact hall d hd

/-- **A number is read back.** -/
theorem parseOff_sprintfOff {n : ℕ} (hn : n ≤ maxOffT) (rest : List UInt8) :
    parseOff 0 (sprintfOff n ++ rest) = parseOff n rest := by
  have hmax : maxOffT = 9223372036854775807 := rfl
  induction n using Nat.strongRecOn generalizing rest with
  | _ n ih =>
    rw [sprintfOff]
    split
    · rename_i hlt
      obtain ⟨hdigit, hvalue⟩ := digit_spec hlt
      rw [singleton_append, parseOff, if_pos hdigit, hvalue, if_neg (by omega)]
      congr 1
      omega
    · rename_i hge
      obtain ⟨hdigit, hvalue⟩ := digit_spec (Nat.mod_lt n (by omega : 0 < 10))
      rw [append_assoc, singleton_append, ih (n / 10) (by omega) (by omega), parseOff,
        if_pos hdigit, hvalue, if_neg (by omega)]
      congr 1
      omega

/-- A printed number begins with a digit. -/
theorem startsDigit_sprintfOff (n : ℕ) (rest : List UInt8) :
    startsDigit (sprintfOff n ++ rest) = true := by
  induction n using Nat.strongRecOn generalizing rest with
  | _ n ih =>
    rw [sprintfOff]
    split
    · rename_i hlt
      rw [startsDigit, singleton_append, head?_cons, map_some,
        getD_some]
      exact (digit_spec hlt).1
    · rw [append_assoc]
      exact ih (n / 10) (by omega) _

/-- Before a digit no spaces are skipped. -/
theorem skipSpaces_digit {p : List UInt8} (h : startsDigit p = true) : skipSpaces p = p := by
  cases p with
  | nil => rfl
  | cons c cs =>
    have hc : (c == byte ' ') = false := by
      by_contra hblank
      rw [Bool.not_eq_false, beq_iff_eq] at hblank
      rw [hblank] at h
      cases h
    rw [skipSpaces, dropWhile_cons_of_neg (by simp [hc])]

/-- A printed number is read back. -/
theorem parseNumber_sprintfOff {n : ℕ} (hn : n ≤ maxOffT) {c : UInt8} (hc : isDigit c = false)
    (rest : List UInt8) :
    parseNumber (skipSpaces (sprintfOff n ++ c :: rest)) = some (n, c :: rest) := by
  rw [skipSpaces_digit (startsDigit_sprintfOff n _), parseNumber,
    if_pos (startsDigit_sprintfOff n _), parseOff_sprintfOff hn, parseOff, if_neg (by simp [hc])]

/-- `Content-Range` of the bytes `start .. last` of `len`. -/
def contentRangeText (start last len : ℕ) : List UInt8 :=
  bytesBlank ++ (sprintfOff start ++ byte '-' :: (sprintfOff last ++ byte '/' :: sprintfOff len))

/-- It is read back. -/
theorem sliceParse_contentRangeText {start last len : ℕ} (hstart : start ≤ maxOffT)
    (hlast : last + 1 ≤ len) (hlen : len ≤ maxOffT) :
    sliceParseContentRange (contentRangeText start last len)
      = some (⟨start, (last : ℤ) + 1, some (len : ℤ)⟩, (last : ℤ) + 1) := by
  have hblank : bytesBlank.length = 6 := by decide +kernel
  have hend : parseNumber (skipSpaces (sprintfOff len)) = some (len, []) := by
    have hdigit : startsDigit (sprintfOff len) = true := by
      simpa using startsDigit_sprintfOff len []
    have hread := parseOff_sprintfOff hlen []
    rw [append_nil] at hread
    rw [skipSpaces_digit hdigit, parseNumber, if_pos hdigit, hread, parseOff]
  have hstar : (skipSpaces (sprintfOff len)).head? ≠ some (byte '*') := by
    have hdigit : startsDigit (sprintfOff len) = true := by
      simpa using startsDigit_sprintfOff len []
    rw [skipSpaces_digit hdigit]
    intro hhead
    rw [startsDigit, hhead] at hdigit
    cases hdigit
  have hlong : ¬ ((contentRangeText start last len).length < 7 ∨
      (contentRangeText start last len).take 6 ≠ bytesBlank) := by
    rintro (hshort | htake)
    · simp only [contentRangeText, length_append, length_cons] at hshort
      omega
    · rw [contentRangeText, ← hblank, take_left] at htake
      exact htake rfl
  have hdrop : (contentRangeText start last len).drop 6
      = sprintfOff start ++ byte '-' :: (sprintfOff last ++ byte '/' :: sprintfOff len) := by
    rw [contentRangeText, ← hblank, drop_left]
  have hdash : ∀ rest, expectByte (byte '-') (skipSpaces (byte '-' :: rest)) = some rest :=
    fun _ => rfl
  have hslash : ∀ rest, expectByte (byte '/') (skipSpaces (byte '/' :: rest)) = some rest :=
    fun _ => rfl
  have hfit : offT ((last : ℤ) + 1) = last + 1 :=
    offT_eq ((fitsOffT_iff (by omega)).mpr (by omega))
  rw [sliceParseContentRange, if_neg hlong, hdrop, parseNumber_sprintfOff hstart rfl]
  simp only [bind_eq_bind, bind_some, hdash]
  rw [parseNumber_sprintfOff (by omega) rfl]
  simp only [bind_some, hslash]
  rw [parseComplete, if_neg hstar, hend]
  simp [skipSpaces, hfit]

/-- An upstream with a response of length `len`. -/
def honestUpstream (len : ℕ) (etag : Option (List UInt8)) (ask : ℤ × ℤ) : SliceResponse :=
  ⟨206, etag, some (contentRangeText ask.1.toNat (min (ask.2 + 1) len - 1).toNat len)⟩

/-- The honest upstream answers what it is asked for. -/
theorem honestUpstream_answers {len : ℕ} (hlen : len ≤ maxOffT) (etag : Option (List UInt8)) :
    Answers len etag (honestUpstream len etag) := by
  intro a b ha hab halen
  refine ⟨rfl, rfl, _, rfl, ?_⟩
  rw [sliceParse_contentRangeText (by simp only; omega) (by simp only; omega) hlen]
  simp only
  have h1 : ((a.toNat : ℕ) : ℤ) = a := by omega
  have h2 : (((min (b + 1) (len : ℤ) - 1).toNat : ℕ) : ℤ) + 1 = min (b + 1) len := by omega
  rw [h1, h2]

/-- Slices of two bytes. -/
def smallSlices : SliceConf := ⟨2, 1, Nat.two_pos, by decide⟩

/-- `Range: bytes=1-3`. -/
def smallRange : SliceRequest := ⟨some "bytes=1-3".toUTF8.toList, none⟩

theorem smallRange_part : rangeHeaderFilter 1 smallRange 5 = .part 1 4 := by decide +kernel

/-- Three bytes of five, in two slices. -/
theorem slice_exact_small :
    SliceExact smallSlices smallRange 5
      (sliceServe smallSlices smallRange (honestUpstream 5 none) 6) := by
  have hfirst : smallSlices.first smallRange = 0 := by decide +kernel
  refine (slice_exact (by decide) (honestUpstream_answers (by decide) none) (by omega)
    (by decide)).mpr ⟨Or.inl (by decide), by decide +kernel, fun lo hi _ => ?_, fun _ => ?_⟩
  · rw [hfirst]
    decide
  · have hpart : rangeHeaderFilter smallSlices.maxRanges smallRange (5 : ℕ) = .part 1 4 :=
      smallRange_part
    rw [hpart]
    decide

/-- Slices of a megabyte. -/
def largeSlices : SliceConf := ⟨1048576, 1, by decide, by decide⟩

/-- `Range: bytes=9223372036854775800-`. -/
def farRange : SliceRequest := ⟨some "bytes=9223372036854775800-".toUTF8.toList, none⟩

/-- **The last slice of the largest response is refused**, although the upstream has answered
the range it was asked for: the end of the slice is past the largest `off_t`. -/
theorem slice_refused :
    Answers maxOffT none (honestUpstream maxOffT none) ∧
      largeSlices.first farRange < maxOffT ∧
      (sliceServe largeSlices farRange (honestUpstream maxOffT none) (maxOffT + 1)).ending
        = .failed .unexpectedRange ∧
      ∃ x ∈ (sliceServe largeSlices farRange (honestUpstream maxOffT none) (maxOffT + 1)).sums,
        ¬ FitsOffT x := by
  have hanswers := honestUpstream_answers (Nat.le_refl maxOffT) none
  have hfirst : largeSlices.first farRange = 9223372036853727232 := by decide +kernel
  refine ⟨hanswers, by rw [hfirst]; decide, ?_, _, sum_first farRange _, ?_⟩
  · have hvar : sliceRangeVariable largeSlices farRange
        = ({ start := 9223372036853727232, range := (9223372036853727232, 9223372036854775807) },
          [9223372036854775808, -9223372036854775809]) := by decide +kernel
    obtain ⟨hstatus, htag, text, htext, hparse⟩ :=
      hanswers 9223372036853727232 9223372036854775807 (by decide) (by decide) (by decide)
    have hrefuse : sliceAccept largeSlices
        { start := 9223372036853727232, range := (9223372036853727232, 9223372036854775807) }
        (honestUpstream maxOffT none (9223372036853727232, 9223372036854775807))
          = .error .unexpectedRange := by
      rw [sliceAccept, sliceCheck, if_neg (by simp), htext, bind_some, hparse]
      decide
    rw [sliceServe, hvar]
    simp only [if_neg (not_not.mpr hstatus), hrefuse]
  · rw [hfirst, fitsOffT_iff (by decide)]
    decide

end Hengine
