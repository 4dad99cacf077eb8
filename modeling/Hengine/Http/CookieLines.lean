import Mathlib.Algebra.Group.Nat.Even
import Mathlib.Data.List.DropRight
import Hengine.Http.Bytes

/-!
# Cookies by name

The model of `ngx_http_parse_multi_header_lines` in `ngx_http_parse.c`, with `ngx_strncasecmp`. A pointer
into a header value is the text from there on; a `NUL` stands behind the value.

A cookie begins at the start of a line, or behind a `;` or `,` and spaces. The loop looks for the name at
the start of each; where the name stands without a `=` it has already taken the character behind it when
it looks for the next separator, so a separator that ends such a cookie is passed, and with it the cookie
that follows.
-/

namespace Hengine.CookieLines

open List Option

/-- A separator. -/
def sep (ch : UInt8) : Bool := ch == byte ';' || ch == byte ','

/-- A space. -/
def space (ch : UInt8) : Bool := ch == byte ' '

/-- `ngx_strncasecmp`, as a test for equality. -/
@[grind =]
def strncasecmpEq : ℕ → List UInt8 → List UInt8 → Bool
  | n + 1, c1 :: s1, c2 :: s2 =>
    if tolower c1 = tolower c2 then
      if tolower c1 ≠ 0 then strncasecmpEq n s1 s2 else true
    else false
  | _, _, _ => true

/-- The code behind `skip`: the next start. -/
def skip (start : List UInt8) : List UInt8 := (start.dropWhile (!sep ·)).tail.dropWhile space

/-- The loop over one line. `wanted` is whether `value` is not `NULL`; the result is where the value
begins, and the value. -/
@[grind =]
def lineLoop (name : List UInt8) (wanted : Bool) :
    ℕ → List UInt8 → Option (Option (List UInt8 × List UInt8))
  | 0, _ => none
  | fuel + 1, start =>
    if start.isEmpty then none
    else if strncasecmpEq name.length (start ++ [0]) name then
      let start := (start.drop name.length).dropWhile space
      if wanted then
        match start with
        | [] => none
        | ch :: start =>
          if ch = byte '=' then
            let start := start.dropWhile space
            some (some (start, start.takeWhile (· ≠ byte ';')))
          else lineLoop name wanted fuel (skip start)
      else if start = [] ∨ start[0]? = some (byte ',') then some none
      else lineLoop name wanted fuel (skip start)
    else lineLoop name wanted fuel (skip start)

/-- `ngx_http_parse_multi_header_lines`, from the line `i` on: the line, where the value begins in it,
and the value. `none` is `NGX_DECLINED`. -/
@[grind =]
def parseMultiHeaderLines (name : List UInt8) (wanted : Bool) :
    ℕ → List (List UInt8) → Option (ℕ × Option (List UInt8 × List UInt8))
  | _, [] => none
  | i, h :: headers =>
    if h.length < name.length then parseMultiHeaderLines name wanted (i + 1) headers
    else
      match lineLoop name wanted h.length h with
      | some value => some (i, value)
      | none => parseMultiHeaderLines name wanted (i + 1) headers

/-! ### What it is for -/

/-- The name of a cookie, which can stand in a list of cookies. -/
structure Name where
  bytes : List UInt8
  clean : ∀ c ∈ bytes, c ≠ 0 ∧ sep c = false

/-- The cookies that begin in what follows, at once or (`false`) behind the next separator. -/
@[grind =]
def startsFrom : Bool → List UInt8 → List (List UInt8)
  | _, [] => []
  | true, c :: s => if space c then startsFrom true s else (c :: s) :: startsFrom (sep c) s
  | false, c :: s => startsFrom (sep c) s

/-- The cookies of a line, each with all that is behind it. -/
def cookies : List UInt8 → List (List UInt8)
  | [] => []
  | c :: s => (c :: s) :: startsFrom (sep c) s

/-- A cookie begins with the name, in any case. -/
def named (name : Name) (s : List UInt8) : Bool :=
  (s.take name.bytes.length).map tolower = name.bytes.map tolower

/-- What stands behind the name and spaces. -/
def behind (name : Name) (s : List UInt8) : List UInt8 := (s.drop name.bytes.length).dropWhile space

/-- A cookie of that name, with a value. -/
def assigned (name : Name) (s : List UInt8) : Bool :=
  named name s && (behind name s).head? == some (byte '=')

/-- The name alone. -/
def bare (name : Name) (s : List UInt8) : Bool := named name s && (behind name s).head?.all sep

/-- Where the value of a cookie begins. -/
def valueAt (name : Name) (s : List UInt8) : List UInt8 := (behind name s).tail.dropWhile space

/-- The first cookie of that name, from the line `i` on: its value ends at a separator. -/
def lookup (name : Name) : ℕ → List (List UInt8) → Option (ℕ × Option (List UInt8 × List UInt8))
  | _, [] => none
  | i, h :: headers =>
    match (cookies h).find? (assigned name) with
    | some s => some (i, some (valueAt name s, (valueAt name s).takeWhile (!sep ·)))
    | none => lookup name (i + 1) headers

/-- The first cookie of that name stands behind an even number of bare names, and there is no comma in
its value up to the next semicolon. -/
def Plain (name : Name) : List (List UInt8) → Prop
  | [] => True
  | h :: headers =>
    match (cookies h).find? (assigned name) with
    | some s =>
      Even (((cookies h).takeWhile (!assigned name ·)).rtakeWhile (bare name)).length ∧
        byte ',' ∉ (valueAt name s).takeWhile (· ≠ byte ';')
    | none => Plain name headers

/-! ### The cookies of a line -/

theorem startsFrom_true (s : List UInt8) : startsFrom true s = cookies (s.dropWhile space) := by
  induction s with
  | nil => rfl
  | cons c s ih =>
    rw [startsFrom]
    split_ifs with hc
    · rw [ih, dropWhile_cons_of_pos hc]
    · rw [dropWhile_cons_of_neg hc, cookies]

/-- Before a cookie, the cookies begin behind the spaces. -/
theorem startsFrom_false (s : List UInt8) : startsFrom false s = cookies (skip s) := by
  induction s with
  | nil => rfl
  | cons c s ih =>
    rw [startsFrom, skip]
    cases hc : sep c with
    | true =>
      rw [startsFrom_true, dropWhile_cons_of_neg (by simp [hc])]
      rfl
    | false => rw [ih, dropWhile_cons_of_pos (by simp [hc]), skip]

theorem cookies_cons (c : UInt8) (s : List UInt8) :
    cookies (c :: s) = (c :: s) :: cookies (skip (c :: s)) := by
  rw [← startsFrom_false, startsFrom, cookies]

/-- Skipping consumes at least a byte. -/
theorem length_skip_lt (c : UInt8) (s : List UInt8) : (skip (c :: s)).length ≤ s.length := by
  have hdrop := ((c :: s).dropWhile_suffix (!sep ·)).length_le
  have hspace := (((c :: s).dropWhile (!sep ·)).tail.dropWhile_suffix space).length_le
  rw [length_tail] at hspace
  rw [length_cons] at hdrop
  rw [skip]
  omega

theorem skip_append {a : List UInt8} (h : ∀ c ∈ a, sep c = false) (b : List UInt8) :
    skip (a ++ b) = skip b := by
  rw [skip, dropWhile_append_of_pos fun c hc => by simp [h c hc], skip]

theorem sep_of_space {c : UInt8} (h : space c = true) : sep c = false := by
  rw [space, beq_iff_eq] at h
  subst h
  decide

theorem skip_dropWhile (s : List UInt8) : skip (s.dropWhile space) = skip s := by
  conv_rhs => rw [← takeWhile_append_dropWhile (p := space) (l := s)]
  exact (skip_append (fun c hc => sep_of_space (mem_takeWhile_imp hc)) _).symm

/-- A cookie lies in its line. -/
theorem length_cookies_le : ∀ (n : ℕ) (l : List UInt8), l.length ≤ n →
    ∀ s ∈ cookies l, s.length ≤ l.length := by
  intro n
  induction n with
  | zero =>
    intro l hl s hs
    rw [length_eq_zero_iff.1 (Nat.le_zero.1 hl)] at hs
    cases hs
  | succ n ih =>
    intro l hl s hs
    cases l with
    | nil => cases hs
    | cons c l =>
      rw [cookies_cons] at hs
      have hlt := length_skip_lt c l
      rw [length_cons] at hl
      rcases mem_cons.1 hs with rfl | hs
      · exact le_rfl
      · have := ih _ (by omega) s hs
        rw [length_cons]
        omega

/-- The cookies behind one of the line. -/
theorem cookies_behind {s : List UInt8} {after : List (List UInt8)} : ∀ {before : List (List UInt8)}
    {l : List UInt8}, cookies l = before ++ s :: after → after = cookies (skip s) := by
  intro before
  induction before with
  | nil =>
    intro l h
    cases l with
    | nil => cases h
    | cons c l =>
      rw [cookies_cons, nil_append] at h
      obtain ⟨rfl, rfl⟩ := List.cons.inj h
      rfl
  | cons b before ih =>
    intro l h
    cases l with
    | nil => cases h
    | cons c l =>
      rw [cookies_cons, cons_append] at h
      exact ih (List.cons.inj h).2

/-! ### A name -/

/-- A separator has no case. -/
theorem sep_tolower (c : UInt8) : sep (tolower c) = sep c := by
  rw [tolower]
  split_ifs with hc
  · have hlow : 65 ≤ c.toNat := UInt8.le_iff_toNat_le.1 hc.1
    have hor : 65 ≤ (c ||| 0x20).toNat := by
      rw [UInt8.toNat_or]
      exact hlow.trans Nat.left_le_or
    have hne : ∀ d : UInt8, 65 ≤ d.toNat → sep d = false := by
      intro d hd
      rw [sep, Bool.or_eq_false_iff, beq_eq_false_iff_ne, beq_eq_false_iff_ne]
      constructor <;> rintro rfl <;> exact absurd hd (by decide)
    rw [hne _ hlow, hne _ hor]
  · rfl

/-- Only a zero byte has zero as its small letter. -/
theorem tolower_eq_zero {c : UInt8} : tolower c = 0 ↔ c = 0 := by
  rw [tolower]
  split_ifs with hc
  · have hlow : 65 ≤ c.toNat := UInt8.le_iff_toNat_le.1 hc.1
    refine iff_of_false (fun h => ?_) fun h => ?_
    · have hor : 65 ≤ (c ||| 0x20).toNat := by
        rw [UInt8.toNat_or]
        exact hlow.trans Nat.left_le_or
      rw [h] at hor
      exact absurd hor (by decide)
    · rw [h] at hlow
      exact absurd hlow (by decide)
  · rfl

/-- `ngx_strncasecmp` with a name that has no `NUL`: the name is in the text, before its end. -/
theorem strncasecmpEq_iff : ∀ {w : List UInt8} (s : List UInt8), (∀ c ∈ w, c ≠ 0) →
    strncasecmpEq w.length (s ++ [0]) w = decide ((s.take w.length).map tolower = w.map tolower)
  | [], s, _ => by simp [strncasecmpEq]
  | d :: w, [], h => by
    have hd : tolower d ≠ 0 := mt tolower_eq_zero.1 (h d mem_cons_self)
    have hzero : tolower 0 = 0 := by decide
    simp [strncasecmpEq, hzero, hd.symm]
  | d :: w, c :: s, h => by
    have hd : tolower d ≠ 0 := mt tolower_eq_zero.1 (h d mem_cons_self)
    rw [cons_append, length_cons, strncasecmpEq]
    by_cases heq : tolower c = tolower d
    · rw [if_pos heq, if_pos (by rwa [heq]),
        strncasecmpEq_iff s fun c hc => h c (mem_cons_of_mem d hc)]
      simp [heq]
    · simp [heq]

section

variable (name : Name) {s : List UInt8}

theorem strncasecmpEq_eq (s : List UInt8) :
    strncasecmpEq name.bytes.length (s ++ [0]) name.bytes = named name s :=
  strncasecmpEq_iff s fun c hc => (name.clean c hc).1

/-- A name that matches has no separator in it. -/
theorem take_clean (h : named name s = true) : ∀ c ∈ s.take name.bytes.length, sep c = false := by
  intro c hc
  rw [named, decide_eq_true_eq] at h
  have hmem : tolower c ∈ name.bytes.map tolower := h ▸ mem_map_of_mem hc
  obtain ⟨d, hd, heq⟩ := mem_map.1 hmem
  rw [← sep_tolower, ← heq, sep_tolower]
  exact (name.clean d hd).2

/-- Up to what stands behind the name there is no separator. -/
theorem exists_behind (h : named name s = true) :
    ∃ a, (∀ c ∈ a, sep c = false) ∧ s = a ++ behind name s := by
  refine ⟨s.take name.bytes.length ++ (s.drop name.bytes.length).takeWhile space, ?_, ?_⟩
  · intro c hc
    rcases mem_append.1 hc with hc | hc
    · exact take_clean name h c hc
    · exact sep_of_space (mem_takeWhile_imp hc)
  · rw [behind, append_assoc, takeWhile_append_dropWhile, take_append_drop]

theorem skip_behind (h : named name s = true) : skip s = skip (behind name s) := by
  obtain ⟨a, ha, hs⟩ := exists_behind name h
  conv_lhs => rw [hs]
  exact skip_append ha _

theorem length_le_of_named (h : named name s = true) : name.bytes.length ≤ s.length := by
  rw [named, decide_eq_true_eq] at h
  have hlen := congrArg List.length h
  rw [length_map, length_map, length_take] at hlen
  omega

/-! ### The cookies the loop comes to -/

/-- The loop over the cookies of a line: `k` is whether the next one is passed. -/
@[grind =]
def walk : Bool → List (List UInt8) → Option (List UInt8)
  | _, [] => none
  | true, _ :: ss => walk false ss
  | false, s :: ss => if assigned name s then some s else walk (bare name s) ss

/-- **The loop over one line** finds what the loop over its cookies finds. -/
theorem lineLoop_eq : ∀ (fuel : ℕ) (s : List UInt8), s.length ≤ fuel →
    lineLoop name.bytes true fuel s = (walk name false (cookies s)).map fun c =>
      some (valueAt name c, (valueAt name c).takeWhile (· ≠ byte ';')) := by
  intro fuel
  induction fuel with
  | zero =>
    intro s hs
    rw [length_eq_zero_iff.1 (Nat.le_zero.1 hs)]
    rfl
  | succ fuel ih =>
    intro s hs
    cases s with
    | nil => rfl
    | cons c t =>
      have hskip := length_skip_lt c t
      rw [length_cons] at hs
      rw [lineLoop, isEmpty_cons, if_neg Bool.false_ne_true, strncasecmpEq_eq, cookies_cons,
        walk]
      by_cases hnamed : named name (c :: t) = true
      · rw [if_pos hnamed, if_pos rfl]
        have hback := skip_behind name hnamed
        have hassigned : assigned name (c :: t) =
            ((behind name (c :: t)).head? == some (byte '=')) := by rw [assigned, hnamed, Bool.true_and]
        have hbare : bare name (c :: t) = (behind name (c :: t)).head?.all sep := by
          rw [bare, hnamed, Bool.true_and]
        have hlen : (behind name (c :: t)).length ≤ (c :: t).length :=
          (dropWhile_suffix _).length_le.trans (drop_sublist _ _).length_le
        rw [hassigned, hbare, hback, show ((c :: t).drop name.bytes.length).dropWhile space =
          behind name (c :: t) from rfl]
        cases hb : behind name (c :: t) with
        | nil => rfl
        | cons ch start =>
          rw [hb, length_cons, length_cons] at hlen
          dsimp only
          rw [head?_cons]
          by_cases heq : ch = byte '='
          · rw [if_pos heq, if_pos (by simp [heq]), map_some, valueAt, hb]
            rfl
          · have hnext := length_skip_lt ch start
            rw [if_neg heq, if_neg (by simpa using heq), all_some]
            cases hsep : sep ch with
            | false =>
              have hpass : skip (ch :: start) = skip start :=
                skip_append (a := [ch]) (by simpa using hsep) start
              rw [hpass] at hnext ⊢
              exact ih _ (by omega)
            | true =>
              -- The separator is taken, and the cookie behind it is passed.
              have hpass : skip (ch :: start) = start.dropWhile space := by
                rw [skip, dropWhile_cons_of_neg (by simp [hsep]), tail_cons]
              have hdrop := (start.dropWhile_suffix space).length_le
              rw [hpass, ← skip_dropWhile]
              cases hd : start.dropWhile space with
              | nil => exact ih [] (Nat.zero_le _)
              | cons d u =>
                rw [cookies_cons, walk]
                rw [hd, length_cons] at hdrop
                have := length_skip_lt d u
                exact ih _ (by omega)
      · rw [Bool.not_eq_true] at hnamed
        rw [if_neg (by simp [hnamed]), if_neg (by simp [assigned, hnamed]), bare, hnamed,
          Bool.false_and]
        exact ih _ (by omega)

/-- Whether the cookie behind these is passed. -/
theorem walk_append_flag (rest : List (List UInt8)) : ∀ (before : List (List UInt8)) (k : Bool),
    (∀ s ∈ before, assigned name s = false) →
      walk name k (before ++ rest) = walk name (before.foldl (fun k s => !k && bare name s) k) rest := by
  intro before
  induction before with
  | nil => exact fun _ _ => rfl
  | cons s before ih =>
    intro k h
    have hs : assigned name s ≠ true := by simp [h s mem_cons_self]
    have hbefore : ∀ t ∈ before, assigned name t = false :=
      fun t ht => h t (mem_cons_of_mem s ht)
    cases k with
    | true => exact ih false hbefore
    | false =>
      rw [cons_append, walk, if_neg hs]
      exact ih (bare name s) hbefore

/-- **Bare names** pass each other: it depends on whether their number is odd. -/
theorem foldl_bare (before : List (List UInt8)) :
    before.foldl (fun k s => !k && bare name s) false =
      decide (¬ Even (before.rtakeWhile (bare name)).length) := by
  induction before using List.reverseRecOn with
  | nil => simp
  | append_singleton before s ih =>
    rw [foldl_append, foldl_cons, foldl_nil, ih, rtakeWhile_concat]
    cases hs : bare name s with
    | false => simp
    | true =>
      rw [if_pos rfl, length_append, length_singleton]
      simp only [Nat.even_add_one, Bool.and_true, not_not, decide_not, Bool.not_not]

/-- **The first cookie of that name** is passed behind an odd number of bare names. -/
theorem walk_append {before after : List (List UInt8)} (h : ∀ t ∈ before, assigned name t = false)
    (hs : assigned name s = true) : walk name false (before ++ s :: after) =
      if Even (before.rtakeWhile (bare name)).length then some s else walk name false after := by
  rw [walk_append_flag name _ _ _ h, foldl_bare]
  split_ifs with heven
  · rw [decide_eq_false (not_not.2 heven), walk, if_pos hs]
  · rw [decide_eq_true heven, walk]

/-- What is found is a cookie of that name. -/
theorem walk_mem : ∀ {ss : List (List UInt8)} {k : Bool}, walk name k ss = some s →
    s ∈ ss ∧ assigned name s = true := by
  intro ss
  induction ss with
  | nil =>
    intro k h
    cases k <;> cases h
  | cons t ss ih =>
    intro k h
    cases k with
    | true => exact ⟨mem_cons_of_mem t (ih h).1, (ih h).2⟩
    | false =>
      rw [walk] at h
      split_ifs at h with ht
      · obtain rfl := some_inj.1 h
        exact ⟨mem_cons_self, ht⟩
      · exact ⟨mem_cons_of_mem t (ih h).1, (ih h).2⟩

/-! ### The first cookie -/

/-- The value of a later cookie begins further behind. -/
theorem length_valueAt_lt {t : List UInt8} (hs : assigned name s = true) (ht : assigned name t = true)
    (hmem : t ∈ cookies (skip s)) : (valueAt name t).length < (valueAt name s).length := by
  rw [assigned, Bool.and_eq_true, beq_iff_eq] at hs ht
  obtain ⟨hnamed, hequal⟩ := hs
  -- The value of the later one is behind its `=`.
  have hlater : (valueAt name t).length < t.length := by
    obtain ⟨u, hu⟩ := head?_eq_some_iff.1 ht.2
    have hdrop := (dropWhile_suffix (l := (behind name t).tail) space).length_le
    have hbehind : (behind name t).length ≤ t.length :=
      (dropWhile_suffix _).length_le.trans (drop_sublist _ _).length_le
    rw [hu, length_cons] at hbehind
    rw [hu, tail_cons] at hdrop
    rw [valueAt, hu, tail_cons]
    omega
  have hstart := length_cookies_le _ _ le_rfl t hmem
  -- The separator is behind the value of the earlier one.
  have hvalue : skip s = skip (valueAt name s) := by
    obtain ⟨u, hu⟩ := head?_eq_some_iff.1 hequal
    rw [skip_behind name hnamed, valueAt, hu, tail_cons, skip_dropWhile]
    exact skip_append (a := [byte '=']) (fun c hc => by rw [mem_singleton.mp hc]; decide) u
  have hskip : (skip (valueAt name s)).length ≤ (valueAt name s).length := by
    cases valueAt name s with
    | nil => exact le_rfl
    | cons c u => exact (length_skip_lt c u).trans (Nat.le_succ _)
  rw [hvalue] at hstart
  omega

/-- The line that is found is not before the one the loop begins with. -/
theorem le_of_parse : ∀ {headers : List (List UInt8)} {i : ℕ}
    {r : ℕ × Option (List UInt8 × List UInt8)},
    parseMultiHeaderLines name.bytes true i headers = some r → i ≤ r.1 := by
  intro headers
  induction headers with
  | nil => exact fun h => by cases h
  | cons h headers ih =>
    intro i r hr
    rw [parseMultiHeaderLines] at hr
    split_ifs at hr
    · exact (Nat.le_succ i).trans (ih hr)
    · split at hr
      · obtain rfl := some_inj.1 hr
        exact le_rfl
      · exact (Nat.le_succ i).trans (ih hr)

/-- A line that is too short for the name. -/
theorem parse_cons (i : ℕ) (h : List UInt8) (headers : List (List UInt8)) :
    parseMultiHeaderLines name.bytes true i (h :: headers) =
      match walk name false (cookies h) with
      | some s => some (i, some (valueAt name s, (valueAt name s).takeWhile (· ≠ byte ';')))
      | none => parseMultiHeaderLines name.bytes true (i + 1) headers := by
  rw [parseMultiHeaderLines, lineLoop_eq name _ h le_rfl]
  cases hw : walk name false (cookies h) with
  | none =>
    split_ifs
    · rfl
    · rfl
  | some s =>
    obtain ⟨hmem, hassigned⟩ := walk_mem name hw
    rw [assigned, Bool.and_eq_true] at hassigned
    have hname := length_le_of_named name hassigned.1
    have hline := length_cookies_le _ _ le_rfl s hmem
    rw [if_neg (by omega)]
    rfl

/-- A value that has no comma ends at a separator. -/
theorem takeWhile_eq_iff (v : List UInt8) :
    v.takeWhile (· ≠ byte ';') = v.takeWhile (!sep ·) ↔ byte ',' ∉ v.takeWhile (· ≠ byte ';') := by
  induction v with
  | nil => simp
  | cons c v ih =>
    by_cases hsemi : c = byte ';'
    · have hsep : sep (byte ';') = true := by decide
      simp [hsemi, hsep]
    · by_cases hcomma : c = byte ','
      · have hsep : sep (byte ',') = true := by decide
        have hne : byte ',' ≠ byte ';' := by decide
        simp [hcomma, hsep, hne]
      · have hsep : sep c = false := by simp [sep, hsemi, hcomma]
        rw [takeWhile_cons_of_pos (by simpa using hsemi),
          takeWhile_cons_of_pos (by simp [hsep]), mem_cons, not_or, cons_inj_right, ih,
          and_iff_right (Ne.symm hcomma)]

/-- **When the first cookie of a name is found.** -/
theorem parseMultiHeaderLines_iff (headers : List (List UInt8)) : ∀ i : ℕ,
    parseMultiHeaderLines name.bytes true i headers = lookup name i headers ↔ Plain name headers := by
  induction headers with
  | nil => exact fun i => iff_of_true rfl trivial
  | cons h headers ih =>
    intro i
    rw [parse_cons, lookup, Plain]
    cases hfind : (cookies h).find? (assigned name) with
    | none =>
      have hwalk : walk name false (cookies h) = none := by
        cases hw : walk name false (cookies h) with
        | none => rfl
        | some s =>
          obtain ⟨hmem, hassigned⟩ := walk_mem name hw
          exact absurd hassigned (find?_eq_none.1 hfind s hmem)
      rw [hwalk]
      exact ih (i + 1)
    | some s =>
      obtain ⟨hs, before, after, hline, hbefore⟩ := find?_eq_some_iff_append.1 hfind
      have hfirst : ∀ t ∈ before, assigned name t = false := by simpa using hbefore
      have hbegins : (cookies h).takeWhile (!assigned name ·) = before := by
        rw [hline, takeWhile_append_of_pos (by simpa using hfirst),
          takeWhile_cons_of_neg (by simp [hs]), append_nil]
      rw [hbegins, hline, walk_append name hfirst hs]
      by_cases heven : Even (before.rtakeWhile (bare name)).length
      · have hvalue := takeWhile_eq_iff (valueAt name s)
        rw [if_pos heven]
        refine ⟨fun heq => ⟨heven, hvalue.1 ?_⟩, fun hplain => ?_⟩
        · simp only [some_inj, Prod.mk.injEq, true_and] at heq
          exact heq
        · dsimp only
          rw [hvalue.2 hplain.2]
      · rw [if_neg heven]
        refine iff_of_false (fun heq => ?_) fun hplain => heven hplain.1
        cases hw : walk name false after with
        | none =>
          rw [hw] at heq
          exact absurd (le_of_parse name heq) (by simp)
        | some t =>
          rw [hw] at heq
          obtain ⟨hmem, ht⟩ := walk_mem name hw
          rw [cookies_behind hline] at hmem
          have hlt := length_valueAt_lt name hs ht hmem
          simp only [some_inj, Prod.mk.injEq, true_and] at heq
          rw [heq.1] at hlt
          exact lt_irrefl _ hlt

end

/-- The name `a`. -/
def nameA : Name := ⟨[0x61], fun c hc => by rw [mem_singleton.mp hc]; decide⟩

/-- In `a; a=1` the cookie is not found. -/
theorem bare_hides : parseMultiHeaderLines nameA.bytes true 0 [[0x61, 0x3b, 0x20, 0x61, 0x3d, 0x31]] = none ∧
    lookup nameA 0 [[0x61, 0x3b, 0x20, 0x61, 0x3d, 0x31]] = some (0, some ([0x31], [0x31])) := by
  decide

end Hengine.CookieLines
