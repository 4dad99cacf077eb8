import Hengine.Http.ComplexUri

/-!
# The Normalised URI Is the Reference Path

The loop of `ngx_http_parse_complex_uri` against the reference. What is written so far
is the path of a stack of finished segments and the segment being read; the plain state
says whether that segment is empty, `.`, `..` or another. A slash ends the segment, and
what the loop then does to the write pointer is what the reference does to its stack.
-/

namespace Hengine

open List Option

/-! ### Characters -/

theorem usual_special : usual (byte '/') = false ∧ usual (byte '.') = false ∧
    usual (byte '%') = false ∧ usual (byte '?') = false ∧ usual (byte '#') = false := by
  decide

/-- A character that is written as it stands. -/
structure Ordinary (c : UInt8) : Prop where
  slash : c ≠ byte '/'
  percent : c ≠ byte '%'
  question : c ≠ byte '?'
  number : c ≠ byte '#'

/-- The state behind a character that is written as it stands. -/
def nextPlain (s : PlainState) (c : UInt8) : PlainState :=
  if c = byte '.' then
    match s with
    | .swSlash => .swDot
    | .swDot => .swDotDot
    | _ => .swUsual
  else .swUsual

theorem push_out (f : UriFields) (c : UInt8) : (f.push c).out = f.out ++ [c] := rfl

theorem pushOther_out (f : UriFields) (c : UInt8) : (pushOther f c).out = f.out ++ [c] := by
  rw [pushOther]
  split <;> rfl

variable {stack : List (List UInt8)} {cur : List UInt8} {s : PlainState} {f : UriFields}
  {c : UInt8} {cs : List UInt8}

/-- **An ordinary character** is written, and the state says what the segment now is. -/
theorem plainStep_ordinary (hc : Ordinary c) (m : Bool) (s : PlainState) (f : UriFields) :
    ∃ f', plainStep m s f c = goUri f' (nextPlain s c) ∧ f'.out = f.out ++ [c] := by
  obtain ⟨-, hdot, -⟩ := usual_special
  by_cases hu : usual c = true
  · have hne : c ≠ byte '.' := by
      rintro rfl
      rw [hdot] at hu
      cases hu
    refine ⟨f.push c, ?_, rfl⟩
    cases s <;> simp [plainStep, uriUsual, uriSlash, uriDot, uriDotDot, hu, nextPlain, hne]
  · cases s with
    | swUsual =>
      by_cases hd : c = byte '.'
      · subst hd
        exact ⟨{ f with uriExt := some (f.out.length + 1) }.push (byte '.'), rfl, rfl⟩
      · refine ⟨pushOther f c, ?_, pushOther_out f c⟩
        simp [plainStep, uriUsual, hu, hc.slash, hc.percent, hc.question, hc.number, hd,
          nextPlain]
    | swSlash =>
      by_cases hd : c = byte '.'
      · subst hd
        exact ⟨f.push (byte '.'), rfl, rfl⟩
      · refine ⟨pushOther f c, ?_, pushOther_out f c⟩
        simp [plainStep, uriSlash, hu, hc.slash, hc.percent, hc.question, hc.number, hd,
          nextPlain]
    | swDot =>
      by_cases hd : c = byte '.'
      · subst hd
        exact ⟨f.push (byte '.'), rfl, rfl⟩
      · refine ⟨pushOther f c, ?_, pushOther_out f c⟩
        simp [plainStep, uriDot, hu, hc.slash, hc.percent, hc.question, hc.number, hd,
          nextPlain]
    | swDotDot =>
      refine ⟨pushOther f c, ?_, pushOther_out f c⟩
      simp [plainStep, uriDotDot, hu, hc.slash, hc.percent, hc.question, hc.number, nextPlain]

/-! ### Segments -/

theorem segments_ne_nil (d : List UInt8) : segments d ≠ [] := by
  cases d with
  | nil => simp [segments]
  | cons c cs =>
    rw [segments]
    split
    · simp
    · split <;> simp

/-- A slash separates the segments before it from those behind it. -/
theorem segments_slash (y : List UInt8) (x : List UInt8) :
    segments (x ++ byte '/' :: y) = segments x ++ segments y := by
  induction x with
  | nil => simp [segments]
  | cons c cs ih =>
    rw [cons_append, segments, segments]
    by_cases hc : c = byte '/'
    · rw [if_pos hc, if_pos hc, ih]
      rfl
    · rw [if_neg hc, if_neg hc, ih]
      cases hs : segments cs with
      | nil => exact absurd hs (segments_ne_nil cs)
      | cons s ss => rfl

theorem segments_single {x : List UInt8} (h : byte '/' ∉ x) : segments x = [x] := by
  induction x with
  | nil => rfl
  | cons c cs ih =>
    rw [mem_cons, not_or] at h
    rw [segments, if_neg (Ne.symm h.1), ih h.2]

theorem renderPath_append (xs ys : List (List UInt8)) :
    renderPath (xs ++ ys) = renderPath xs ++ renderPath ys := by
  simp [renderPath]

theorem renderPath_singleton (s : List UInt8) : renderPath [s] = byte '/' :: s := by
  simp [renderPath]

/-- A stack of segments, with no slash in any of them. -/
def SlashFree (segs : List (List UInt8)) : Prop := ∀ s ∈ segs, byte '/' ∉ s

/-! ### The write pointer -/

/-- From inside a segment back to the slash before it. -/
theorem scanBack_segment {pre s post : List UInt8} (hs : byte '/' ∉ s) :
    ∀ j ≤ s.length,
      scanBack (pre ++ byte '/' :: (s ++ post)) (pre.length + j) = (pre.length : ℤ) + 1 := by
  intro j
  induction j with
  | zero =>
    intro _
    have hget : (pre ++ byte '/' :: (s ++ post))[pre.length]? = some (byte '/') := by simp
    cases hp : pre.length with
    | zero =>
      rw [hp] at hget
      simp only [scanBack, hget, if_true]
      rfl
    | succ k =>
      rw [hp] at hget
      simp only [scanBack, hget, if_true]
      omega
  | succ j ih =>
    intro hj
    have hget : (pre ++ byte '/' :: (s ++ post))[pre.length + j + 1]? = s[j]? := by
      rw [getElem?_append_right (by omega)]
      have : pre.length + j + 1 - pre.length = j + 1 := by omega
      rw [this, getElem?_cons_succ, getElem?_append_left (by omega)]
    have hne : s[j]? ≠ some (byte '/') := fun h => hs (mem_of_getElem? h)
    rw [← Nat.add_assoc, scanBack, hget, if_neg hne]
    exact ih (by omega)

/-- **Climbing.** From `..` the write pointer goes back behind the slash before the
segment before it; from a `..` at the root, to the byte before the buffer. -/
theorem climb_dotDot (h : SlashFree stack) :
    climb (renderPath (stack ++ [dotDotSeg]))
      = if stack = [] then -1 else ((renderPath stack.dropLast).length : ℤ) + 1 := by
  rw [renderPath_append, renderPath_singleton]
  by_cases hstack : stack = []
  · subst hstack
    decide
  · rw [if_neg hstack]
    obtain ⟨st, s, rfl⟩ : ∃ st s, stack = st ++ [s] :=
      ⟨stack.dropLast, stack.getLast hstack, (dropLast_append_getLast hstack).symm⟩
    have hs : byte '/' ∉ s := h s (by simp)
    rw [dropLast_concat, renderPath_append, renderPath_singleton, append_assoc,
      cons_append, climb, if_neg]
    · have hlen : (renderPath st ++ byte '/' :: (s ++ byte '/' :: dotDotSeg)).length - 4
          = (renderPath st).length + s.length := by
        simp [dotDotSeg]
        omega
      rw [hlen]
      exact scanBack_segment hs s.length (Nat.le_refl _)
    · simp [dotDotSeg]
      omega

/-! ### Ending a segment -/

/-- What the state says about the segment being read. -/
def StateFor : PlainState → List UInt8 → Prop
  | .swSlash, cur => cur = []
  | .swDot, cur => cur = dotSeg
  | .swDotDot, cur => cur = dotDotSeg
  | .swUsual, cur => cur ≠ [] ∧ cur ≠ dotSeg ∧ cur ≠ dotDotSeg

/-- The state behind an ordinary character fits the longer segment. -/
theorem StateFor.next (h : StateFor s cur) (c : UInt8) :
    StateFor (nextPlain s c) (cur ++ [c]) := by
  by_cases hc : c = byte '.'
  · subst hc
    cases s with
    | swSlash =>
      have hcur : cur = [] := h
      subst hcur
      rfl
    | swDot =>
      have hcur : cur = dotSeg := h
      subst hcur
      rfl
    | swDotDot =>
      have hcur : cur = dotDotSeg := h
      subst hcur
      exact ⟨by simp, by decide, by decide⟩
    | swUsual =>
      obtain ⟨hne, hdot, -⟩ : cur ≠ [] ∧ cur ≠ dotSeg ∧ cur ≠ dotDotSeg := h
      refine ⟨by simp, ?_, ?_⟩
      · intro heq
        have hlen := congrArg List.length heq
        simp [dotSeg] at hlen
        exact hne hlen
      · intro heq
        exact hdot (append_inj_left' heq rfl)
  · have hne : ∀ pre, cur ++ [c] ≠ pre ++ [byte '.'] := fun pre heq =>
      hc (by simpa using append_inj_right' heq rfl)
    simp only [nextPlain, if_neg hc, StateFor]
    exact ⟨by simp, hne [], hne [byte '.']⟩

/-- The stack when a segment has ended with a slash; `none` where it climbs above the
root. -/
def endSegment (m : Bool) (stack : List (List UInt8)) (cur : List UInt8) :
    Option (List (List UInt8)) :=
  if cur = dotSeg then some stack
  else if cur = dotDotSeg then if stack = [] then none else some stack.dropLast
  else if cur = [] ∧ m then some stack
  else some (stack ++ [cur])

/-- The reference ends its segments so. -/
theorem removeDots_cons (m : Bool) (stack : List (List UInt8)) (cur : List UInt8)
    {segs : List (List UInt8)} (h : segs ≠ []) :
    removeDots m stack (cur :: segs)
      = (endSegment m stack cur).bind fun stack' => removeDots m stack' segs := by
  cases segs with
  | nil => exact absurd rfl h
  | cons t rest =>
    rw [removeDots, endSegment]
    by_cases h1 : cur = dotSeg
    · simp [h1]
    · by_cases h2 : cur = dotDotSeg
      · by_cases h3 : stack = []
        · simp [if_neg h1, if_pos h2, if_pos h3]
        · simp only [if_neg h1, if_pos h2, if_neg h3, bind_some]
      · by_cases h3 : cur = [] ∧ m
        · simp only [if_neg h1, if_neg h2, if_pos h3, bind_some]
        · simp only [if_neg h1, if_neg h2, if_neg h3, bind_some]

/-- What the loop has written, and the segment it is in. -/
structure UriInv (s : PlainState) (f : UriFields) (stack : List (List UInt8))
    (cur : List UInt8) : Prop where
  out : f.out = renderPath (stack ++ [cur])
  state : StateFor s cur
  free : SlashFree stack
  cur_free : byte '/' ∉ cur

theorem UriInv.back (h : UriInv s f stack dotSeg) : f.back.out = renderPath (stack ++ [[]]) := by
  simp [UriFields.back, h.out, renderPath, dotSeg]

/-- Going back over `..` and the segment before it. -/
theorem UriInv.up (h : UriInv s f stack dotDotSeg) :
    (stack = [] → climb f.out = -1) ∧
      (stack ≠ [] → ¬ climb f.out < 0 ∧
        f.out.take (climb f.out).toNat = renderPath (stack.dropLast ++ [[]])) := by
  have hclimb := climb_dotDot h.free
  rw [← h.out] at hclimb
  refine ⟨fun hnil => by rw [hclimb, if_pos hnil], ?_⟩
  intro hne
  rw [if_neg hne] at hclimb
  refine ⟨by omega, ?_⟩
  have hnat : (climb f.out).toNat = (renderPath stack.dropLast).length + 1 := by omega
  have hsplit : f.out = renderPath (stack.dropLast ++ [[]])
      ++ (stack.getLast hne ++ byte '/' :: dotDotSeg) := by
    rw [h.out, renderPath_append, renderPath_append, renderPath_singleton, renderPath_singleton]
    conv_lhs => rw [← dropLast_append_getLast hne, renderPath_append, renderPath_singleton]
    simp
  rw [hnat, hsplit]
  refine take_left' ?_
  rw [renderPath_append, renderPath_singleton, length_append]
  rfl

/-- **A slash.** It ends the segment, and the loop does to the path what the reference
does to the stack. -/
theorem plainStep_slash (m : Bool) (h : UriInv s f stack cur) :
    (endSegment m stack cur = none → plainStep m s f (byte '/') = .stop (.invalid (-1))) ∧
      ∀ stack', endSegment m stack cur = some stack' →
        ∃ f', plainStep m s f (byte '/') = goUri f' .swSlash ∧ UriInv .swSlash f' stack' [] := by
  have hinv : ∀ {f' : UriFields} {stack' : List (List UInt8)},
      f'.out = renderPath (stack' ++ [[]]) → SlashFree stack' → UriInv .swSlash f' stack' [] :=
    fun hout hfree => ⟨hout, rfl, hfree, by simp⟩
  have hpush : SlashFree (stack ++ [cur]) := by
    intro t ht
    rw [mem_append, mem_singleton] at ht
    rcases ht with ht | rfl
    · exact h.free t ht
    · exact h.cur_free
  have hslash : ∀ g : UriFields, g.out = f.out →
      (g.push (byte '/')).out = renderPath (stack ++ [cur] ++ [[]]) := by
    intro g hg
    rw [push_out, hg, h.out, renderPath_append (stack ++ [cur]), renderPath_singleton]
  cases s with
  | swUsual =>
    obtain ⟨hne, hdot, hdd⟩ := h.state
    have hend : endSegment m stack cur = some (stack ++ [cur]) := by
      rw [endSegment, if_neg hdot, if_neg hdd, if_neg fun h => hne h.1]
    rw [hend]
    refine ⟨by simp, ?_⟩
    intro stack' hs
    cases hs
    exact ⟨{ f with uriExt := none }.push (byte '/'), rfl,
      hinv (hslash { f with uriExt := none } rfl) hpush⟩
  | swSlash =>
    obtain rfl : cur = [] := h.state
    cases m with
    | true =>
      have hend : endSegment true stack [] = some stack := by
        simp [endSegment, dotSeg, dotDotSeg]
      rw [hend]
      refine ⟨by simp, ?_⟩
      intro stack' hs
      cases hs
      exact ⟨f, rfl, hinv h.out h.free⟩
    | false =>
      have hend : endSegment false stack [] = some (stack ++ [[]]) := by
        simp [endSegment, dotSeg, dotDotSeg]
      rw [hend]
      refine ⟨by simp, ?_⟩
      intro stack' hs
      cases hs
      exact ⟨f.push (byte '/'), rfl, hinv (hslash f rfl) hpush⟩
  | swDot =>
    obtain rfl : cur = dotSeg := h.state
    have hend : endSegment m stack dotSeg = some stack := by simp [endSegment]
    rw [hend]
    refine ⟨by simp, ?_⟩
    intro stack' hs
    cases hs
    exact ⟨f.back, rfl, hinv h.back h.free⟩
  | swDotDot =>
    obtain rfl : cur = dotDotSeg := h.state
    obtain ⟨hroot, hup⟩ := h.up
    have hstep : plainStep m .swDotDot f (byte '/') = uriUp f fun f => goUri f .swSlash := rfl
    have hdd : dotDotSeg ≠ dotSeg := by decide
    by_cases hstack : stack = []
    · have hend : endSegment m stack dotDotSeg = none := by
        rw [endSegment, if_neg hdd, if_pos rfl, if_pos hstack]
      rw [hend]
      refine ⟨fun _ => ?_, by simp⟩
      rw [hstep, uriUp, hroot hstack, if_pos (by decide)]
    · have hend : endSegment m stack dotDotSeg = some stack.dropLast := by
        rw [endSegment, if_neg hdd, if_pos rfl, if_neg hstack]
      rw [hend]
      refine ⟨by simp, ?_⟩
      intro stack' hs
      cases hs
      obtain ⟨hpos, hout⟩ := hup hstack
      refine ⟨{ f with out := f.out.take (climb f.out).toNat }, ?_, hinv hout ?_⟩
      · rw [hstep, uriUp, if_neg hpos]
      · exact fun t ht => h.free t (dropLast_subset stack ht)

/-! ### The end of the path -/

/-- What the loop does to the last segment, at a question mark, a number sign or the end
of the URI. -/
def closeUri (s : PlainState) (f : UriFields) : Option UriFields :=
  match s with
  | .swDot => some f.back
  | .swDotDot =>
    if climb f.out < 0 then none else some { f with out := f.out.take (climb f.out).toNat }
  | _ => some f

/-- **The last segment.** The loop closes the path as the reference does. -/
theorem closeUri_eq (m : Bool) (h : UriInv s f stack cur) :
    (closeUri s f).map UriFields.out = (removeDots m stack [cur]).map renderPath := by
  cases s with
  | swUsual =>
    obtain ⟨-, hdot, hdd⟩ := h.state
    simp [closeUri, removeDots, if_neg hdot, if_neg hdd, h.out]
  | swSlash =>
    obtain rfl : cur = [] := h.state
    simp [closeUri, removeDots, dotSeg, dotDotSeg, h.out]
  | swDot =>
    obtain rfl : cur = dotSeg := h.state
    simp [closeUri, removeDots, h.back]
  | swDotDot =>
    obtain rfl : cur = dotDotSeg := h.state
    obtain ⟨hroot, hup⟩ := h.up
    have hdd : dotDotSeg ≠ dotSeg := by decide
    by_cases hstack : stack = []
    · simp [closeUri, removeDots, hdd, hstack, hroot hstack]
    · obtain ⟨hpos, hout⟩ := hup hstack
      simp [closeUri, removeDots, if_neg hdd, if_neg hstack, if_neg hpos, hout]

/-- The path a scan leaves, if it leaves one. -/
def scannedPath : Scanned UInt8 UriLoop UriExit → Option (List UInt8)
  | .again ⟨f, .plain s⟩ => (closeUri s f).map UriFields.out
  | .again _ => none
  | .stopped (.invalid _) _ => none
  | .stopped (.args f) _ => some f.out
  | .stopped (.done f) _ => some f.out

/-- The path of a return value. -/
def UriResult.path : UriResult → Option (List UInt8)
  | invalidRequest _ => none
  | ok res => some res.uri

/-- The path the parser returns is the one its scan leaves. -/
theorem parseComplexUri_path (m emptyPath plus quoted : Bool) (raw : List UInt8) :
    (parseComplexUri m emptyPath plus quoted raw).path
      = scannedPath (scanFrom (uriStep m) (uriStart emptyPath plus quoted) raw) := by
  rw [parseComplexUri]
  cases scanFrom (uriStep m) (uriStart emptyPath plus quoted) raw with
  | stopped e rest => cases e <;> rfl
  | again l =>
    obtain ⟨f, state⟩ := l
    cases state with
    | swQuoted s => rfl
    | swQuotedSecond s d => rfl
    | plain s =>
      cases s with
      | swUsual => rfl
      | swSlash => rfl
      | swDot => rfl
      | swDotDot =>
        simp only [uriEnd, scannedPath, closeUri]
        split <;> rfl

/-- A question mark or a number sign ends the path. -/
theorem scan_end (hc : c = byte '?' ∨ c = byte '#') (m : Bool) (s : PlainState) (f : UriFields)
    (cs : List UInt8) :
    scannedPath (scanFrom (uriStep m) ⟨f, .plain s⟩ (c :: cs))
      = (closeUri s f).map UriFields.out := by
  have hstop : (∃ f', closeUri s f = some f' ∧
        (uriStep m ⟨f, .plain s⟩ c = .stop (.args f') ∨
          uriStep m ⟨f, .plain s⟩ c = .stop (.done f'))) ∨
      (closeUri s f = none ∧ uriStep m ⟨f, .plain s⟩ c = .stop (.invalid (climb f.out))) := by
    cases s with
    | swUsual =>
      rcases hc with rfl | rfl
      · exact Or.inl ⟨f, rfl, Or.inl rfl⟩
      · exact Or.inl ⟨f, rfl, Or.inr rfl⟩
    | swSlash =>
      rcases hc with rfl | rfl
      · exact Or.inl ⟨f, rfl, Or.inl rfl⟩
      · exact Or.inl ⟨f, rfl, Or.inr rfl⟩
    | swDot =>
      rcases hc with rfl | rfl
      · exact Or.inl ⟨f.back, rfl, Or.inl rfl⟩
      · exact Or.inl ⟨f.back, rfl, Or.inr rfl⟩
    | swDotDot =>
      by_cases hneg : climb f.out < 0
      · refine Or.inr ⟨by simp only [closeUri, if_pos hneg], ?_⟩
        rcases hc with rfl | rfl
        · exact if_pos hneg
        · exact if_pos hneg
      · refine Or.inl ⟨{ f with out := f.out.take (climb f.out).toNat },
          by simp only [closeUri, if_neg hneg], ?_⟩
        rcases hc with rfl | rfl
        · exact Or.inl (if_neg hneg)
        · exact Or.inr (if_neg hneg)
  rcases hstop with ⟨f', hclose, hstep | hstep⟩ | ⟨hclose, hstep⟩
  · rw [scanFrom_stop hstep, hclose]
    rfl
  · rw [scanFrom_stop hstep, hclose]
    rfl
  · rw [scanFrom_stop hstep, hclose]
    rfl

/-! ### Percent signs -/

/-- The value of a hexadecimal digit as the parser finds it, digit or letter. -/
def hexByte (c : UInt8) : UInt8 := if isDigit c then c - byte '0' else fold20 c - byte 'a' + 10

/-- A hexadecimal digit. -/
def isHex (c : UInt8) : Bool := isDigit c || isHexAlpha c

theorem hexPair_eq (h l : UInt8) :
    hexPair h l = if isHex h && isHex l then some (hexByte h * 16 + hexByte l) else none := rfl

/-- The value of a hexadecimal digit, which ends no path. -/
theorem hexByte_range (c : UInt8) :
    (isDigit c = true → (hexByte c).toNat < 10) ∧
      (isDigit c = false → isHexAlpha c = true →
        10 ≤ (hexByte c).toNat ∧ (hexByte c).toNat < 16) ∧
      (isHex c = true → c ≠ byte '?' ∧ c ≠ byte '#') := by
  revert c
  exact forall_byte (by decide +kernel)

theorem shift_four (c : UInt8) : c <<< 4 = c * 16 := by
  apply UInt8.toNat_inj.1
  rw [UInt8.toNat_shiftLeft, UInt8.toNat_mul, Nat.shiftLeft_eq]
  rfl

/-- The value of two digits, as a number. -/
theorem toNat_hexPair {h l : UInt8} (hh : isHex h = true) (hl : isHex l = true) :
    (hexByte h * 16 + hexByte l).toNat = (hexByte h).toNat * 16 + (hexByte l).toNat := by
  have hlt : ∀ c, isHex c = true → (hexByte c).toNat < 16 := by
    intro c hc
    obtain ⟨hdec, halpha, -⟩ := hexByte_range c
    cases hd : isDigit c with
    | true => exact Nat.lt_trans (hdec hd) (by omega)
    | false =>
      rw [isHex, hd, Bool.false_or] at hc
      exact (halpha hd hc).2
  have h1 := hlt h hh
  have h2 := hlt l hl
  rw [UInt8.toNat_add, UInt8.toNat_mul]
  have h16 : (16 : UInt8).toNat = 16 := rfl
  rw [h16]
  omega

/-- **A decoded character.** A `NUL` is refused; a slash ends the segment as a raw one
does; anything else is written. -/
theorem uriQuotedSecond_eq {h l : UInt8} (hh : isHex h = true) (hl : isHex l = true) (m : Bool)
    (s : PlainState) (f : UriFields) :
    let v := hexByte h * 16 + hexByte l
    let next := uriQuotedSecond m s (hexByte h) f l
    (v = 0 → ∃ u, next = .stop (.invalid u)) ∧
      (v = byte '/' → ∃ f', next = plainStep m s f' v ∧ f'.out = f.out) ∧
      (v ≠ 0 → v ≠ byte '/' → ∃ f', next = goUri f' (nextPlain s v) ∧ f'.out = f.out ++ [v]) := by
  intro v next
  have hnat : v.toNat = (hexByte h).toNat * 16 + (hexByte l).toNat := toNat_hexPair hh hl
  obtain ⟨hdec, halpha, -⟩ := hexByte_range l
  have hliteral : ∀ (w : UInt8), w ≠ byte '.' → nextPlain s w = .swUsual :=
    fun w hw => if_neg hw
  cases hd : isDigit l with
  | true =>
    have hlow := hdec hd
    have hv : hexByte h <<< 4 + (l - byte '0') = v := by
      rw [shift_four]
      simp [v, hexByte, hd]
    have hnext : next = if v = byte '%' ∨ v = byte '#' then goUri (f.push v) .swUsual
        else if v = 0 then uriInvalid f else plainStep m s f v := by
      simp only [next, uriQuotedSecond, hd, if_true, hv]
    -- the last digit of `/`, `.` and `?` is a letter
    have hne : ∀ w : UInt8, 10 ≤ w.toNat % 16 → v ≠ w := by
      rintro w hw rfl
      omega
    have hslash : v ≠ byte '/' := hne _ (by decide)
    have hquestion : v ≠ byte '?' := hne _ (by decide)
    have hdot : v ≠ byte '.' := hne _ (by decide)
    refine ⟨?_, fun h => absurd h hslash, ?_⟩
    · intro h0
      rw [hnext, if_neg, if_pos h0]
      · exact ⟨_, rfl⟩
      · rw [h0]
        decide
    · intro h0 _
      by_cases hlit : v = byte '%' ∨ v = byte '#'
      · refine ⟨f.push v, ?_, rfl⟩
        rw [hnext, if_pos hlit, hliteral v hdot]
      · rw [not_or] at hlit
        rw [hnext, if_neg (not_or.mpr hlit), if_neg h0]
        exact plainStep_ordinary ⟨hslash, hlit.1, hquestion, hlit.2⟩ m s f
  | false =>
    have ha : isHexAlpha l = true := by
      rw [isHex, hd, Bool.false_or] at hl
      exact hl
    obtain ⟨hlow, hlow'⟩ := halpha hd ha
    have hv : hexByte h <<< 4 + (fold20 l - byte 'a') + 10 = v := by
      rw [shift_four, UInt8.add_assoc]
      simp [v, hexByte, hd]
    have hnext : next = if v = byte '?' then goUri (f.push v) .swUsual
        else plainStep m s (if v = byte '+' then { f with plusInUri := true } else f) v := by
      simp only [next, uriQuotedSecond, hd, ha, Bool.false_eq_true, if_false, if_true, hv]
    have hne : ∀ w : UInt8, w.toNat % 16 < 10 → v ≠ w := by
      rintro w hw rfl
      omega
    have hpercent : v ≠ byte '%' := hne _ (by decide)
    have hnumber : v ≠ byte '#' := hne _ (by decide)
    have hzero : v ≠ 0 := hne _ (by decide)
    have hflag : (if v = byte '+' then { f with plusInUri := true } else f).out = f.out := by
      split <;> rfl
    refine ⟨fun h => absurd h hzero, ?_, ?_⟩
    · intro hslash
      refine ⟨_, ?_, hflag⟩
      rw [hnext, if_neg]
      rw [hslash]
      decide
    · intro _ hslash
      by_cases hq : v = byte '?'
      · refine ⟨f.push v, ?_, rfl⟩
        rw [hnext, if_pos hq, hliteral v]
        rw [hq]
        decide
      · rw [hnext, if_neg hq]
        obtain ⟨f', hstep, hout⟩ := plainStep_ordinary ⟨hslash, hpercent, hq, hnumber⟩ m s
          (if v = byte '+' then { f with plusInUri := true } else f)
        exact ⟨f', hstep, by rw [hout, hflag]⟩

/-! ### The run -/

/-- What the reference makes of the rest of the path, `none` where it cannot be decoded. -/
def referenceFrom (m : Bool) (stack : List (List UInt8)) (cur : List UInt8)
    (rest : Option (List UInt8)) : Option (List UInt8) :=
  rest.bind fun d => (removeDots m stack (segments (cur ++ d))).map renderPath

/-- An ordinary character goes into the segment. -/
theorem referenceFrom_ordinary (m : Bool) (stack : List (List UInt8)) (cur : List UInt8)
    (v : UInt8) (rest : Option (List UInt8)) :
    referenceFrom m stack cur (rest.map (v :: ·)) = referenceFrom m stack (cur ++ [v]) rest := by
  cases rest with
  | none => rfl
  | some d => simp [referenceFrom]

/-- A slash ends a segment. -/
theorem referenceFrom_slash (m : Bool) (stack : List (List UInt8)) (hcur : byte '/' ∉ cur)
    (rest : Option (List UInt8)) :
    referenceFrom m stack cur (rest.map (byte '/' :: ·))
      = (endSegment m stack cur).bind fun stack' => referenceFrom m stack' [] rest := by
  cases rest with
  | none =>
    cases endSegment m stack cur <;> rfl
  | some d =>
    simp only [referenceFrom, map_some, bind_some, nil_append]
    rw [segments_slash, segments_single hcur, singleton_append,
      removeDots_cons m stack cur (segments_ne_nil d)]
    cases endSegment m stack cur <;> rfl

theorem referenceFrom_end (m : Bool) (stack : List (List UInt8)) (hcur : byte '/' ∉ cur) :
    referenceFrom m stack cur (some []) = (removeDots m stack [cur]).map renderPath := by
  simp [referenceFrom, segments_single hcur]

/-- A character, raw or decoded, once the step for it is known: what is left is the run
from the next state. -/
theorem scan_char {m : Bool} (hinv : UriInv s f stack cur) {v : UInt8}
    {next : Verdict UriLoop UriExit} {rest : Option (List UInt8)}
    (hslash : v = byte '/' → ∃ f', next = plainStep m s f' v ∧ f'.out = f.out)
    (hother : v ≠ byte '/' → ∃ f', next = goUri f' (nextPlain s v) ∧ f'.out = f.out ++ [v])
    (ih : ∀ s' f' stack' cur', UriInv s' f' stack' cur' → scannedPath (scanFrom (uriStep m) ⟨f',
      .plain s'⟩ cs) = referenceFrom m stack' cur' rest)
    {l : UriLoop} (hstep : uriStep m l c = next) :
    scannedPath (scanFrom (uriStep m) l (c :: cs))
      = referenceFrom m stack cur (rest.map (v :: ·)) := by
  by_cases hv : v = byte '/'
  · obtain ⟨f', hnext, hout⟩ := hslash hv
    subst hv
    have hinv' : UriInv s f' stack cur := ⟨by rw [hout, hinv.out], hinv.state, hinv.free, hinv.cur_free⟩
    obtain ⟨hroot, hgo⟩ := plainStep_slash m hinv'
    rw [referenceFrom_slash m stack hinv.cur_free]
    cases hend : endSegment m stack cur with
    | none =>
      rw [scanFrom_stop (by rw [hstep, hnext, hroot hend])]
      rfl
    | some stack' =>
      obtain ⟨f'', hgo', hinv''⟩ := hgo stack' hend
      rw [scanFrom_more (by rw [hstep, hnext, hgo'])]
      exact ih _ _ _ _ hinv''
  · obtain ⟨f', hnext, hout⟩ := hother hv
    rw [referenceFrom_ordinary, scanFrom_more (by rw [hstep, hnext])]
    refine ih _ _ _ _ ⟨?_, hinv.state.next v, hinv.free, ?_⟩
    · rw [hout, hinv.out, renderPath_append, renderPath_append, renderPath_singleton,
        renderPath_singleton, append_assoc, cons_append]
    · rw [mem_append, mem_singleton, not_or]
      exact ⟨hinv.cur_free, fun h => hv h.symm⟩

theorem plainStep_percent (m : Bool) (s : PlainState) (f : UriFields) :
    plainStep m s f (byte '%') = goQuoted f s := by
  cases s <;> rfl

/-- The first digit behind `%` is kept. -/
theorem uriQuoted_hex {h : UInt8} (hh : isHex h = true) (s : PlainState) (f : UriFields) :
    uriQuoted s f h = .more ⟨{ f with quotedUri := true }, .swQuotedSecond s (hexByte h)⟩ := by
  cases hd : isDigit h with
  | true => simp [uriQuoted, hexByte, hd]
  | false =>
    rw [isHex, hd, Bool.false_or] at hh
    simp [uriQuoted, hexByte, hd, hh]

theorem uriQuoted_other {h : UInt8} (hh : isHex h = false) (s : PlainState) (f : UriFields) :
    ∃ u, uriQuoted s f h = .stop (.invalid u) := by
  rw [isHex, Bool.or_eq_false_iff] at hh
  exact ⟨_, by simp only [uriQuoted, hh.1, hh.2, Bool.false_eq_true, if_false]; rfl⟩

/-- No second digit: the path is refused. -/
theorem uriQuotedSecond_other {l : UInt8} (hl : isHex l = false) (m : Bool) (s : PlainState)
    (d : UInt8) (f : UriFields) : ∃ u, uriQuotedSecond m s d f l = .stop (.invalid u) := by
  rw [isHex, Bool.or_eq_false_iff] at hl
  exact ⟨_, by simp only [uriQuotedSecond, hl.1, hl.2, Bool.false_eq_true, if_false]; rfl⟩

theorem rawPath_cons (h1 : c ≠ byte '?') (h2 : c ≠ byte '#') (cs : List UInt8) :
    rawPath (c :: cs) = c :: rawPath cs := by
  simp [rawPath, h1, h2]

theorem rawPath_end (h : c = byte '?' ∨ c = byte '#') (cs : List UInt8) :
    rawPath (c :: cs) = [] := by
  rcases h with rfl | rfl <;> simp [rawPath]

/-- A percent sign without two digits behind it cannot be decoded. -/
theorem percentDecode_bad
    (h : ∀ a b rest, cs = a :: b :: rest → isHex a = false ∨ isHex b = false) :
    percentDecode (byte '%' :: cs) = none := by
  cases cs with
  | nil => rfl
  | cons a cs =>
    cases cs with
    | nil => rfl
    | cons b rest =>
      have hnone : hexPair a b = none := by
        rw [hexPair_eq]
        rcases h a b rest rfl with ha | hb
        · simp [ha]
        · simp [hb]
      rw [percentDecode, if_pos rfl]
      simp only [hnone]

/-- A character other than `%` stands for itself. -/
theorem percentDecode_plain (h : c ≠ byte '%') (cs : List UInt8) :
    percentDecode (c :: cs) = (percentDecode cs).map (c :: ·) := by
  cases cs with
  | nil => simp [percentDecode, h]
  | cons a cs =>
    cases cs with
    | nil => rw [percentDecode, if_neg h]; simp
    | cons b rest => rw [percentDecode, if_neg h]

/-- Two digits are one byte. -/
theorem percentDecode_pair {h l : UInt8} (hh : isHex h = true) (hl : isHex l = true)
    (rest : List UInt8) :
    percentDecode (byte '%' :: h :: l :: rest)
      = if hexByte h * 16 + hexByte l = 0 then none
        else (percentDecode rest).map ((hexByte h * 16 + hexByte l) :: ·) := by
  have hpair : hexPair h l = some (hexByte h * 16 + hexByte l) := by
    rw [hexPair_eq, hh, hl]
    rfl
  rw [percentDecode, if_pos rfl]
  simp only [hpair]

/-- A path that breaks off behind a percent sign has fewer than two digits there. -/
theorem rawPath_second {h : UInt8} (hcs : ∀ l rest, cs = l :: rest → isHex l = false) :
    percentDecode (byte '%' :: h :: rawPath cs) = none := by
  refine percentDecode_bad ?_
  intro a b rest heq
  right
  rw [List.cons.injEq] at heq
  obtain ⟨-, heq⟩ := heq
  cases cs with
  | nil => simp [rawPath] at heq
  | cons l cs =>
    by_cases hend : l = byte '?' ∨ l = byte '#'
    · rw [rawPath_end hend] at heq
      cases heq
    · rw [not_or] at hend
      rw [rawPath_cons hend.1 hend.2, List.cons.injEq] at heq
      rw [← heq.1]
      exact hcs l cs rfl

/-- The same for the first digit. -/
theorem rawPath_first (hcs : ∀ h rest, cs = h :: rest → isHex h = false) :
    percentDecode (byte '%' :: rawPath cs) = none := by
  refine percentDecode_bad ?_
  intro a b rest heq
  left
  cases cs with
  | nil => simp [rawPath] at heq
  | cons h cs =>
    by_cases hend : h = byte '?' ∨ h = byte '#'
    · rw [rawPath_end hend] at heq
      cases heq
    · rw [not_or] at hend
      rw [rawPath_cons hend.1 hend.2, List.cons.injEq] at heq
      rw [← heq.1]
      exact hcs h cs rfl

/-- **A percent sign** in the run over the raw path. -/
theorem scan_percent {m : Bool} (hinv : UriInv s f stack cur) (cs : List UInt8)
    (ih : ∀ rest, rest.length ≤ cs.length → ∀ s' f' stack' cur', UriInv s' f' stack' cur' →
      scannedPath (scanFrom (uriStep m) ⟨f', .plain s'⟩ rest) =
        referenceFrom m stack' cur' (percentDecode (rawPath rest))) :
    scannedPath (scanFrom (uriStep m) ⟨f, .plain s⟩ (byte '%' :: cs))
      = referenceFrom m stack cur (percentDecode (byte '%' :: rawPath cs)) := by
  have hpercent : uriStep m ⟨f, .plain s⟩ (byte '%') = goQuoted f s := plainStep_percent m s f
  rw [scanFrom_more hpercent]
  cases cs with
  | nil => rfl
  | cons h cs =>
    cases hh : isHex h with
    | false =>
      obtain ⟨u, hstop⟩ := uriQuoted_other hh s f
      rw [scanFrom_stop (by exact hstop), rawPath_first]
      · rfl
      · rintro h' rest heq
        cases heq
        exact hh
    | true =>
      obtain ⟨-, -, hnoend⟩ := hexByte_range h
      obtain ⟨h1, h2⟩ := hnoend hh
      rw [scanFrom_more (by exact uriQuoted_hex hh s f), rawPath_cons h1 h2]
      cases cs with
      | nil => rfl
      | cons l cs =>
        cases hl : isHex l with
        | false =>
          obtain ⟨u, hstop⟩ := uriQuotedSecond_other hl m s (hexByte h)
            { f with quotedUri := true }
          rw [scanFrom_stop (by exact hstop), rawPath_second]
          · rfl
          · rintro l' rest heq
            cases heq
            exact hl
        | true =>
          obtain ⟨-, -, hnoend'⟩ := hexByte_range l
          obtain ⟨h3, h4⟩ := hnoend' hl
          obtain ⟨hzero, hslash, hother⟩ := uriQuotedSecond_eq hh hl m s
            { f with quotedUri := true }
          rw [rawPath_cons h3 h4, percentDecode_pair hh hl]
          split
          · rename_i h0
            obtain ⟨u, hstop⟩ := hzero h0
            rw [scanFrom_stop (by exact hstop)]
            rfl
          · rename_i h0
            have hinv' : UriInv s { f with quotedUri := true } stack cur :=
              ⟨hinv.out, hinv.state, hinv.free, hinv.cur_free⟩
            refine scan_char hinv' hslash (hother h0) (ih cs ?_) rfl
            simp only [length_cons]
            omega

/-- **The run over the raw path** is the reference on the decoded path. -/
theorem scan_path (m : Bool) (xs : List UInt8) :
    ∀ (s : PlainState) (f : UriFields) (stack : List (List UInt8)) (cur : List UInt8),
      UriInv s f stack cur →
      scannedPath (scanFrom (uriStep m) ⟨f, .plain s⟩ xs)
        = referenceFrom m stack cur (percentDecode (rawPath xs)) := by
  induction hn : xs.length using Nat.strongRecOn generalizing xs with
  | _ n ih =>
    intro s f stack cur hinv
    cases xs with
    | nil =>
      rw [scanFrom_nil]
      simp only [scannedPath]
      rw [closeUri_eq m hinv]
      exact (referenceFrom_end m stack hinv.cur_free).symm
    | cons c cs =>
      rw [length_cons] at hn
      by_cases hend : c = byte '?' ∨ c = byte '#'
      · rw [scan_end hend, rawPath_end hend, closeUri_eq m hinv]
        exact (referenceFrom_end m stack hinv.cur_free).symm
      · rw [not_or] at hend
        rw [rawPath_cons hend.1 hend.2]
        by_cases hp : c = byte '%'
        · subst hp
          exact scan_percent hinv cs fun rest hrest => ih rest.length (by omega) rest rfl
        · rw [percentDecode_plain hp]
          refine scan_char hinv ?_ ?_ (ih cs.length (by omega) cs rfl) rfl
          · exact fun _ => ⟨f, rfl, rfl⟩
          · exact fun hs => plainStep_ordinary ⟨hs, hp, hend.1, hend.2⟩ m s f

/-- The raw URIs that reach the parser: they start with a slash, or, where the request
line has an empty path, with the question mark of the arguments. -/
def UriStarts (emptyPath : Bool) (raw : List UInt8) : Prop :=
  raw.head? = some (if emptyPath then byte '?' else byte '/')

/-- **The result is the reference.** The parser returns the reference path, and
`NGX_HTTP_PARSE_INVALID_REQUEST` exactly where there is none. -/
theorem parseComplexUri_eq (m emptyPath plus quoted : Bool) {raw : List UInt8}
    (h : UriStarts emptyPath raw) :
    (parseComplexUri m emptyPath plus quoted raw).path = referencePath m emptyPath raw := by
  rw [parseComplexUri_path]
  cases raw with
  | nil => cases h
  | cons c cs =>
    cases emptyPath with
    | true =>
      obtain rfl : c = byte '?' := by simpa [UriStarts] using h
      have hstop : uriStep m (uriStart true plus quoted) (byte '?')
          = .stop (.args (uriStart true plus quoted).fields) := rfl
      rw [scanFrom_stop hstop, referencePath, rawPath_end (Or.inl rfl)]
      rfl
    | false =>
      obtain rfl : c = byte '/' := by simpa [UriStarts] using h
      have hstep : uriStep m (uriStart false plus quoted) (byte '/')
          = goUri ⟨[byte '/'], none, plus, quoted⟩ .swSlash := rfl
      have hinv : UriInv .swSlash ⟨[byte '/'], none, plus, quoted⟩ [] [] :=
        ⟨rfl, rfl, by simp [SlashFree], by simp⟩
      rw [scanFrom_more hstep, scan_path m cs _ _ _ _ hinv, referencePath,
        rawPath_cons (by decide) (by decide), percentDecode_plain (by decide)]
      cases percentDecode (rawPath cs) with
      | none => rfl
      | some d => simp [referenceFrom]

end Hengine
