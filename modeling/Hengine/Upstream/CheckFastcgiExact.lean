import Hengine.Upstream.CheckFastcgi

/-!
# When the Verdict of a FastCGI Check is Right

A response is some records of `stdout` and `stderr` and one that ends the request. What its `stdout` records
hold is header lines, a blank line and a body. The verdict that is asked for is that of the first `Status`
header that has a value, or of 200.

The check gives it while nothing disturbs it (`Undisturbed`): the first read holds the first record and more,
the first record holds the value of the header, and no line before it is taken for that header, as one whose
name is only the beginning of `status` is.
-/

namespace Hengine.CheckFastcgi

open List

open CheckRecv
open CheckHttp (isDigit isAlive whole eventsBytes bytes_whole)

/-! ### Responses -/

/-- A header line: the name, the value behind the colon, and the carriage returns before its end. -/
structure HeaderLine where
  name : List UInt8
  value : List UInt8
  returns : ℕ
  name_ne : name ≠ []
  name_clean : ∀ ch ∈ name, ch ≠ 0x3a ∧ ch ≠ 0x0d ∧ ch ≠ 0x0a ∧ ch ≠ 0
  value_clean : ∀ ch ∈ value, ch ≠ 0x0d ∧ ch ≠ 0x0a ∧ ch ≠ 0

namespace HeaderLine

/-- The end of the line. -/
def ending (h : HeaderLine) : List UInt8 := List.replicate h.returns 0x0d ++ [0x0a]

/-- A line as it is written. -/
def text (h : HeaderLine) : List UInt8 := h.name ++ 0x3a :: (h.value ++ h.ending)

/-- The value behind its spaces. -/
def trimmed (h : HeaderLine) : List UInt8 := h.value.dropWhile (· = 0x20)

/-- **A `Status` header** with a value. -/
def IsStatus (h : HeaderLine) : Prop := h.name.map tolower = status ∧ h.trimmed ≠ []

instance (h : HeaderLine) : Decidable h.IsStatus := inferInstanceAs (Decidable (_ ∧ _))

/-- A header that is taken for it: its name is the beginning of `status`. -/
def Taken (h : HeaderLine) : Prop := h.name.map tolower <+: status ∧ h.trimmed ≠ []

/-- The name begins with a character that a name may have. -/
def Named (h : HeaderLine) : Prop := ∃ ch s, h.name = ch :: s ∧ lowcase ch ≠ 0

end HeaderLine

/-- The text of some header lines. -/
def linesText (lines : List HeaderLine) : List UInt8 := lines.flatMap HeaderLine.text

/-- The types of records of a response. -/
inductive Kind
  | stdout
  | stderr
deriving DecidableEq, Repr

/-- The byte of a type. -/
def Kind.byte : Kind → UInt8
  | .stdout => CheckFastcgi.stdout
  | .stderr => CheckFastcgi.stderr

/-- What a record holds. -/
structure Content where
  content : List UInt8
  padding : List UInt8
  reserved : UInt8
  content_lt : content.length < 2 ^ 16
  padding_lt : padding.length < 2 ^ 8

/-- The header of a record. -/
def Content.header (c : Content) (type : UInt8) : List UInt8 :=
  [1, type, 0, 1, UInt8.ofNat (c.content.length / 256), UInt8.ofNat (c.content.length % 256),
    UInt8.ofNat c.padding.length, c.reserved]

/-- A record as it is written. -/
def Content.bytes (c : Content) (type : UInt8) : List UInt8 := c.header type ++ (c.content ++ c.padding)

/-- **A FastCGI response**: its records, and what their `stdout` holds. -/
structure Response where
  records : List (Kind × Content)
  last : Content
  headers : List HeaderLine
  carriage : Bool
  body : List UInt8

namespace Response

/-- The blank line. -/
def blank (r : Response) : List UInt8 := if r.carriage then [0x0d, 0x0a] else [0x0a]

/-- What the `stdout` of the response says. -/
def out (r : Response) : List UInt8 := linesText r.headers ++ (r.blank ++ r.body)

/-- The records hold it. -/
def Holds (r : Response) : Prop :=
  (r.records.filter (·.1 = .stdout)).flatMap (·.2.content) = r.out

/-- The response as it is written. -/
def bytes (r : Response) : List UInt8 :=
  r.records.flatMap (fun c => c.2.bytes c.1.byte) ++ r.last.bytes endRequest

end Response

/-! ### The verdict that is asked for -/

/-- The code that a value begins with. -/
def codeOf : List UInt8 → Option ℕ
  | a :: b :: c :: _ =>
    if 0x31 ≤ a ∧ a ≤ 0x39 ∧ isDigit b ∧ isDigit c then
      some ((a - 0x30).toNat * 100 + (b - 0x30).toNat * 10 + (c - 0x30).toNat)
    else none
  | _ => none

/-- The verdict on a code. No `status_alive` means that the code does not matter. -/
def rcOf (alive : UInt64) : Option ℕ → Rc
  | none => .error
  | some code => if alive = 0 ∨ isAlive alive code then .ok else .error

/-- The `Status` header of a response. -/
def Response.status (r : Response) : Option HeaderLine := r.headers.find? fun h => h.IsStatus

/-- **The verdict on a response**: that of its `Status` header, or of 200. -/
def Response.expected (r : Response) (alive : UInt64) : Rc :=
  rcOf alive <|
    match r.status with
    | none => some 200
    | some h => codeOf h.trimmed

/-! ### The comparison -/

/-- The comparison of names is that of small letters. -/
theorem strncasecmpEq_append : ∀ {name w : List UInt8}, (∀ ch ∈ name, ch ≠ 0) →
    (CookieLines.strncasecmpEq name.length name (w ++ [0]) = true ↔ name.map tolower <+: w.map tolower)
  | [], w, _ => by simp [CookieLines.strncasecmpEq]
  | ch :: name, [], h => by
    have hch : tolower ch ≠ 0 := mt CookieLines.tolower_eq_zero.1 (h ch mem_cons_self)
    have hzero : tolower 0 = 0 := by decide
    simp [CookieLines.strncasecmpEq, hzero, hch]
  | ch :: name, d :: w, h => by
    have hch : tolower ch ≠ 0 := mt CookieLines.tolower_eq_zero.1 (h ch mem_cons_self)
    rw [length_cons, cons_append, CookieLines.strncasecmpEq, map_cons, map_cons,
      cons_prefix_cons]
    by_cases heq : tolower ch = tolower d
    · rw [if_pos heq, if_pos hch,
        strncasecmpEq_append fun c hc => h c (mem_cons_of_mem ch hc)]
      exact (and_iff_right heq).symm
    · rw [if_neg heq]
      exact iff_of_false Bool.false_ne_true fun hboth => heq hboth.1

/-- **The names that are taken for `Status`**: the beginnings of it. -/
theorem isStatus_iff {name : List UInt8} (h : ∀ ch ∈ name, ch ≠ 0) :
    isStatus name = true ↔ name.map tolower <+: status := by
  have hlower : status.map tolower = status := by decide
  rw [isStatus, strncasecmpEq_append h, hlower]

/-! ### Reading on -/

/-- A stop stays one, whatever follows. -/
theorem readLines_append {w : List UInt8} (more : List UInt8) :
    ∀ {l : Line}, readLines l w ≠ .ok → readLines l (w ++ more) = readLines l w := by
  induction w with
  | nil => exact fun h => absurd rfl h
  | cons ch w ih =>
    intro l h
    rw [cons_append, readLines, readLines]
    rw [readLines] at h
    cases hstep : lineStep l ch with
    | more l' =>
      rw [hstep] at h
      exact ih h
    | stop exit =>
      rw [hstep] at h
      cases exit with
      | ok => exact ih h
      | _ => rfl

variable {l : Line} {alive : UInt64} {ch : UInt8}

theorem readLines_beginning {w w' : List UInt8} (h : readLines l w = .ok) (hbegins : w' <+: w) :
    readLines l w' = .ok := by
  by_contra hne
  obtain ⟨more, rfl⟩ := hbegins
  rw [readLines_append more hne] at h
  exact hne h

theorem readLines_more {l l' : Line} (h : lineStep l ch = .more l') (w : List UInt8) :
    readLines l (ch :: w) = readLines l' w := by
  rw [readLines, h]

theorem readLines_ok (h : lineStep l ch = .stop .ok) (w : List UInt8) :
    readLines l (ch :: w) = readLines {} w := by
  rw [readLines, h]

theorem readLines_stop {exit : LineExit} (h : lineStep l ch = .stop exit) (hne : exit ≠ .ok)
    (w : List UInt8) : readLines l (ch :: w) = exit := by
  rw [readLines, h]
  cases exit with
  | ok => exact absurd rfl hne
  | _ => rfl

/-! ### A header line -/

/-- A line begins. -/
structure Fresh (l : Line) : Prop where
  state : l.state = .start
  find : l.find = false
  code : l.code = 0
  count : l.count = 0

theorem fresh_init : Fresh {} := ⟨rfl, rfl, rfl, rfl⟩

/-- The name up to the colon. -/
theorem readLines_name {s : List UInt8} (h : ∀ ch ∈ s, ch ≠ 0x3a ∧ ch ≠ 0x0d ∧ ch ≠ 0x0a ∧ ch ≠ 0)
    (w : List UInt8) : ∀ (name : List UInt8) (find : Bool) (code count : ℕ),
      readLines ⟨.name, find, some name, code, count⟩ (s ++ w) =
        readLines ⟨.name, find, some (name ++ s), code, count⟩ w := by
  induction s with
  | nil => exact fun name _ _ _ => by rw [append_nil, nil_append]
  | cons ch s ih =>
    intro name find code count
    obtain ⟨hcolon, hcr, hlf, hzero⟩ := h ch mem_cons_self
    have hstep : lineStep ⟨.name, find, some name, code, count⟩ ch =
        .more ⟨.name, find, some (name ++ [ch]), code, count⟩ := by
      rw [lineStep]
      simp only [hcolon, hcr, hlf, hzero, if_false, ite_self]
      rfl
    rw [cons_append, readLines_more hstep, ih fun c hc => h c (mem_cons_of_mem ch hc),
      append_assoc]
    rfl

/-- A line up to the colon behind its name. -/
theorem readLines_colon (hl : Fresh l) (h : HeaderLine) (hnamed : h.Named) (w : List UInt8) :
    ∃ name, readLines l (h.name ++ 0x3a :: w) =
      readLines ⟨.spaceBeforeValue, isStatus h.name, some name, 0, 0⟩ w := by
  obtain ⟨ch, s, hname, hch⟩ := hnamed
  have hclean := h.name_clean
  rw [hname] at hclean
  obtain ⟨hcolon, hcr, hlf, hzero⟩ := hclean ch mem_cons_self
  obtain ⟨state, find, name, code, count⟩ := l
  obtain ⟨rfl, rfl, rfl, rfl⟩ := hl
  have hstart : lineStep ⟨.start, false, name, 0, 0⟩ ch = .more ⟨.name, false, some [ch], 0, 0⟩ := by
    rw [lineStep]
    simp [hcr, hlf, hch]
  have hlow : lowcase 0x3a = 0 := by decide
  have hend : lineStep ⟨.name, false, some (ch :: s), 0, 0⟩ 0x3a =
      .more ⟨.spaceBeforeValue, isStatus (ch :: s), some (ch :: s ++ [0x3a]), 0, 0⟩ := by
    rw [lineStep]
    simp only [hlow, ne_eq, not_true_eq_false, if_false, if_true, Bool.false_or]
    rfl
  refine ⟨ch :: s ++ [0x3a], ?_⟩
  rw [hname, cons_append, readLines_more hstart,
    readLines_name (fun c hc => hclean c (mem_cons_of_mem ch hc))]
  exact readLines_more hend w

/-- A value is read, or is about to be, in a line that is not taken for `Status`. -/
structure InValue (l : Line) : Prop where
  state : l.state = .spaceBeforeValue ∨ l.state = .value ∨ l.state = .spaceAfterValue
  find : l.find = false
  code : l.code = 0
  count : l.count = 0

/-- A byte of a value keeps the parser in it. -/
theorem InValue.step (hl : InValue l) (h : ch ≠ 0x0d ∧ ch ≠ 0x0a ∧ ch ≠ 0) :
    ∃ l', lineStep l ch = .more l' ∧ InValue l' := by
  obtain ⟨state, find, name, code, count⟩ := l
  obtain ⟨hstate, rfl, rfl, rfl⟩ := hl
  obtain ⟨hcr, hlf, hzero⟩ := h
  by_cases hspace : ch = 0x20
  · rcases hstate with rfl | rfl | rfl
    · exact ⟨⟨.spaceBeforeValue, false, _, 0, 0⟩, by rw [lineStep]; exact if_pos hspace, .inl rfl, rfl, rfl, rfl⟩
    · exact ⟨⟨.spaceAfterValue, false, _, 0, 0⟩, by rw [lineStep]; exact if_pos hspace,
        .inr (.inr rfl), rfl, rfl, rfl⟩
    · exact ⟨⟨.spaceAfterValue, false, _, 0, 0⟩, by rw [lineStep]; exact if_pos hspace,
        .inr (.inr rfl), rfl, rfl, rfl⟩
  · refine ⟨⟨.value, false, name.map (· ++ [ch]), 0, 0⟩, ?_, .inr (.inl rfl), rfl, rfl, rfl⟩
    rcases hstate with rfl | rfl | rfl <;>
      · rw [lineStep]
        simp only [hspace, hcr, hlf, hzero, if_false, Bool.false_eq_true]
        rfl

/-- **A value** is read up to its end. -/
theorem InValue.read {v : List UInt8} (h : ∀ ch ∈ v, ch ≠ 0x0d ∧ ch ≠ 0x0a ∧ ch ≠ 0) (w : List UInt8) :
    ∀ {l : Line}, InValue l → ∃ l', InValue l' ∧ readLines l (v ++ w) = readLines l' w := by
  induction v with
  | nil => exact fun {l} hl => ⟨l, hl, rfl⟩
  | cons ch v ih =>
    intro l hl
    obtain ⟨l₁, hstep, hl₁⟩ := hl.step (h ch mem_cons_self)
    obtain ⟨l', hl', hread⟩ := ih (fun c hc => h c (mem_cons_of_mem ch hc)) hl₁
    exact ⟨l', hl', by rw [cons_append, readLines_more hstep, hread]⟩

/-- A line that is almost done ends with its line feed. -/
theorem readLines_almostDone (w : List UInt8) : ∀ (n : ℕ) (l : Line), l.state = .almostDone →
    readLines l (List.replicate n 0x0d ++ 0x0a :: w) = readLines {} w
  | 0, l, hl => readLines_ok (by rw [lineStep, hl]; rfl) w
  | n + 1, l, hl => by
    have hstep : lineStep l 0x0d = l.go .almostDone 0x0d := by
      rw [lineStep, hl]
      rfl
    rw [replicate_succ, cons_append, readLines_more hstep]
    exact readLines_almostDone w n _ rfl

/-- The end of a line that is not taken for `Status`. -/
theorem InValue.ending (hl : InValue l) (n : ℕ) (w : List UInt8) :
    ∃ l', Fresh l' ∧ readLines l (List.replicate n 0x0d ++ 0x0a :: w) = readLines l' w := by
  obtain ⟨state, find, name, code, count⟩ := l
  obtain ⟨hstate, rfl, rfl, rfl⟩ := hl
  cases n with
  | zero =>
    rcases hstate with rfl | rfl | rfl
    · exact ⟨{}, fresh_init, readLines_ok rfl w⟩
    · exact ⟨{}, fresh_init, readLines_ok rfl w⟩
    · have hstep : lineStep ⟨.spaceAfterValue, false, name, 0, 0⟩ 0x0a =
          .more ⟨.start, false, name.map (· ++ [0x0a]), 0, 0⟩ := rfl
      exact ⟨_, ⟨rfl, rfl, rfl, rfl⟩, readLines_more hstep w⟩
  | succ n =>
    refine ⟨{}, fresh_init, ?_⟩
    have hstep : lineStep ⟨state, false, name, 0, 0⟩ 0x0d =
        .more ⟨.almostDone, false, name.map (· ++ [0x0d]), 0, 0⟩ := by
      rcases hstate with rfl | rfl | rfl <;> rfl
    rw [replicate_succ, cons_append, readLines_more hstep]
    exact readLines_almostDone w n _ rfl

/-- Spaces before a value are passed. -/
theorem readLines_spaces (find : Bool) (w : List UInt8) : ∀ {v : List UInt8}, (∀ ch ∈ v, ch = 0x20) →
    ∀ name, ∃ name', readLines ⟨.spaceBeforeValue, find, name, 0, 0⟩ (v ++ w) =
      readLines ⟨.spaceBeforeValue, find, name', 0, 0⟩ w
  | [], _, name => ⟨name, rfl⟩
  | ch :: v, h, name => by
    obtain rfl := h ch mem_cons_self
    obtain ⟨name', hread⟩ := readLines_spaces find w (fun c hc => h c (mem_cons_of_mem _ hc))
      (name.map (· ++ [0x20]))
    exact ⟨name', (readLines_more rfl _).trans hread⟩

/-- **A header line that is not taken for `Status`** is passed. -/
theorem readLines_line (hl : Fresh l) (h : HeaderLine) (hnamed : h.Named) (hnot : ¬ h.Taken)
    (w : List UInt8) : ∃ l', Fresh l' ∧ readLines l (h.text ++ w) = readLines l' w := by
  have htext : h.text ++ w = h.name ++ 0x3a :: (h.value ++ (List.replicate h.returns 0x0d ++ 0x0a :: w)) := by
    simp [HeaderLine.text, HeaderLine.ending]
  obtain ⟨name, hcolon⟩ := readLines_colon hl h hnamed
    (h.value ++ (List.replicate h.returns 0x0d ++ 0x0a :: w))
  rw [htext, hcolon]
  cases hfind : isStatus h.name with
  | false =>
    obtain ⟨l₁, hl₁, hread⟩ := InValue.read h.value_clean
      (List.replicate h.returns 0x0d ++ 0x0a :: w)
      (l := ⟨.spaceBeforeValue, false, some name, 0, 0⟩) ⟨.inl rfl, rfl, rfl, rfl⟩
    obtain ⟨l', hl', hend⟩ := hl₁.ending h.returns w
    exact ⟨l', hl', hread.trans hend⟩
  | true =>
    -- the name is taken, so there is no value
    have hbegins := (isStatus_iff fun ch hch => (h.name_clean ch hch).2.2.2).mp hfind
    have hblank : h.trimmed = [] := by_contra fun hne => hnot ⟨hbegins, hne⟩
    have hspaces : ∀ ch ∈ h.value, ch = 0x20 := by
      simpa [HeaderLine.trimmed, dropWhile_eq_nil_iff] using hblank
    obtain ⟨name', hread⟩ := readLines_spaces true (List.replicate h.returns 0x0d ++ 0x0a :: w) hspaces
      (some name)
    refine ⟨{}, fresh_init, hread.trans ?_⟩
    cases h.returns with
    | zero => exact readLines_ok rfl w
    | succ n =>
      have hstep : lineStep ⟨.spaceBeforeValue, true, name', 0, 0⟩ 0x0d =
          .more ⟨.almostDone, true, name'.map (· ++ [0x0d]), 0, 0⟩ := rfl
      rw [replicate_succ, cons_append, readLines_more hstep]
      exact readLines_almostDone w n _ rfl

/-- Header lines without a `Status` are read one after the other. -/
theorem readLines_lines (w : List UInt8) : ∀ {lines : List HeaderLine} {l : Line}, Fresh l →
    (∀ h ∈ lines, h.Named ∧ ¬ h.Taken) → ∃ l', Fresh l' ∧ readLines l (linesText lines ++ w) =
      readLines l' w
  | [], l, hl, _ => ⟨l, hl, rfl⟩
  | h :: lines, l, hl, hpassed => by
    obtain ⟨hnamed, hnot⟩ := hpassed h mem_cons_self
    obtain ⟨l₁, hl₁, hread⟩ := readLines_line hl h hnamed hnot (linesText lines ++ w)
    obtain ⟨l', hl', hrest⟩ := readLines_lines w hl₁ fun x hx => hpassed x (mem_cons_of_mem h hx)
    refine ⟨l', hl', ?_⟩
    rw [linesText, flatMap_cons, append_assoc]
    exact hread.trans hrest

/-! ### The `Status` header -/

/-- The part of a value up to the character that decides: the first that is not right, or the third. -/
def wanted : List UInt8 → List UInt8
  | [] => []
  | a :: v =>
    if a < 0x31 ∨ 0x39 < a then [a]
    else
      a :: match v with
        | [] => []
        | b :: v => if isDigit b then b :: v.take 1 else [b]

theorem wanted_cons (a : UInt8) (v : List UInt8) : wanted (a :: v) =
    if a < 0x31 ∨ 0x39 < a then [a]
    else
      a :: match v with
        | [] => []
        | b :: v => if isDigit b then b :: v.take 1 else [b] := rfl

/-- How a value decides. -/
def codeExit : Option ℕ → LineExit
  | none => .error
  | some code => .done code

/-- The verdict of a code is that of the code alone. -/
theorem rc_codeExit (alive : UInt64) (code : Option ℕ) : (codeExit code).rc alive = rcOf alive code := by
  cases code with
  | none => rfl
  | some code =>
    show (if alive = 0 then Rc.ok else if isAlive alive code then .ok else .error) = if _ then _ else _
    by_cases hzero : alive = 0
    · rw [if_pos hzero, if_pos (.inl hzero)]
    · rw [if_neg hzero]
      exact if_congr (by rw [or_iff_right hzero]) rfl rfl

/-- What ends a header line is no digit. -/
theorem not_isDigit_ending (h : HeaderLine) : ∃ ch e, h.ending = ch :: e ∧ isDigit ch = false := by
  rw [HeaderLine.ending]
  cases h.returns with
  | zero => exact ⟨0x0a, [], rfl, by decide⟩
  | succ n => exact ⟨0x0d, _, rfl, by decide⟩

/-- A byte of the status: a digit, or an error. -/
theorem lineStep_value (name : Option (List UInt8)) (code count : ℕ) (ch : UInt8) :
    lineStep ⟨.value, true, name, code, count⟩ ch =
      if isDigit ch then
        if count + 1 = 3 then .stop (.done (code * 10 + (ch - 0x30).toNat))
        else .more ⟨.value, true, name.map (· ++ [ch]), code * 10 + (ch - 0x30).toNat, count + 1⟩
      else .stop .error := rfl

/-- A status line without a digit where one is due is an error. -/
theorem readLines_noDigit (h : isDigit ch = false) (name : Option (List UInt8)) (code count : ℕ)
    (w : List UInt8) : readLines ⟨.value, true, name, code, count⟩ (ch :: w) = .error :=
  have hstep : lineStep ⟨.value, true, name, code, count⟩ ch = .stop .error := by
    rw [lineStep_value, h]
    rfl
  readLines_stop hstep nofun w

/-- **A value is read** up to the character that decides. -/
theorem readLines_value {v e : List UInt8} {a x : UInt8} (name : Option (List UInt8))
    (ha : a ≠ 0x20 ∧ a ≠ 0x0d ∧ a ≠ 0x0a ∧ a ≠ 0) (hx : isDigit x = false) (w : List UInt8) :
    readLines ⟨.spaceBeforeValue, true, name, 0, 0⟩ (wanted (a :: v ++ x :: e) ++ w) =
      codeExit (codeOf (a :: v)) := by
  obtain ⟨hspace, hcr, hlf, hzero⟩ := ha
  rw [cons_append, wanted_cons]
  by_cases hfirst : a < 0x31 ∨ 0x39 < a
  · have hstep : lineStep ⟨.spaceBeforeValue, true, name, 0, 0⟩ a = .stop .error := by
      rw [lineStep]
      simp [hspace, hcr, hlf, hzero, hfirst]
    have hcode : codeOf (a :: v) = none := by
      rcases v with _ | ⟨b, _ | ⟨c, v⟩⟩
      · rfl
      · rfl
      · exact if_neg fun h => hfirst.elim (UInt8.not_lt.mpr h.1) (UInt8.not_lt.mpr h.2.1)
    rw [if_pos hfirst, singleton_append, readLines_stop hstep nofun, hcode]
    rfl
  · have hstep : lineStep ⟨.spaceBeforeValue, true, name, 0, 0⟩ a =
        .more ⟨.value, true, name.map (· ++ [a]), 0 * 10 + (a - 0x30).toNat, 1⟩ := by
      rw [lineStep]
      simp only [hspace, hcr, hlf, hzero, if_false, if_true, hfirst, ne_eq, not_true_eq_false]
      rfl
    rw [if_neg hfirst, cons_append, readLines_more hstep]
    rw [not_or, UInt8.not_lt, UInt8.not_lt] at hfirst
    cases v with
    | nil =>
      rw [nil_append]
      show readLines _ ((if isDigit x then x :: e.take 1 else [x]) ++ w) = _
      rw [hx]
      exact readLines_noDigit hx _ _ _ w
    | cons b v =>
      show readLines _ ((if isDigit b then b :: (v ++ x :: e).take 1 else [b]) ++ w) = _
      cases hb : isDigit b with
      | false =>
        have hcode : codeOf (a :: b :: v) = none := by
          rcases v with _ | ⟨c, v⟩
          · rfl
          · exact if_neg fun h => by rw [hb] at h; exact absurd h.2.2.1 Bool.false_ne_true
        rw [hcode]
        exact readLines_noDigit hb _ _ _ w
      | true =>
        have hstep' : lineStep ⟨.value, true, name.map (· ++ [a]), 0 * 10 + (a - 0x30).toNat, 1⟩ b =
            .more ⟨.value, true, (name.map (· ++ [a])).map (· ++ [b]),
              (0 * 10 + (a - 0x30).toNat) * 10 + (b - 0x30).toNat, 2⟩ := by
          rw [lineStep_value, hb]
          rfl
        show readLines _ (b :: ((v ++ x :: e).take 1 ++ w)) = _
        rw [readLines_more hstep']
        cases v with
        | nil => exact readLines_noDigit hx _ _ _ w
        | cons c v =>
          show readLines _ (c :: w) = _
          cases hc : isDigit c with
          | false =>
            have hcode : codeOf (a :: b :: c :: v) = none :=
              if_neg fun h => by rw [hc] at h; exact absurd h.2.2.2 Bool.false_ne_true
            rw [hcode]
            exact readLines_noDigit hc _ _ _ w
          | true =>
            have hcode : codeOf (a :: b :: c :: v) = some
                ((a - 0x30).toNat * 100 + (b - 0x30).toNat * 10 + (c - 0x30).toNat) :=
              if_pos ⟨hfirst.1, hfirst.2, hb, hc⟩
            have hstop : lineStep ⟨.value, true, (name.map (· ++ [a])).map (· ++ [b]),
                (0 * 10 + (a - 0x30).toNat) * 10 + (b - 0x30).toNat, 2⟩ c = .stop (.done
                  (((0 * 10 + (a - 0x30).toNat) * 10 + (b - 0x30).toNat) * 10 + (c - 0x30).toNat)) := by
              rw [lineStep_value, hc]
              rfl
            rw [hcode, readLines_stop hstop nofun]
            show LineExit.done _ = LineExit.done _
            congr 1
            omega

namespace HeaderLine

/-- The line up to the character of the value that decides. -/
def upToCode (h : HeaderLine) : List UInt8 :=
  h.name ++ 0x3a :: (h.value.takeWhile (· = 0x20) ++ wanted (h.trimmed ++ h.ending))

theorem IsStatus.taken {h : HeaderLine} (hstatus : h.IsStatus) : h.Taken :=
  ⟨hstatus.1 ▸ prefix_refl _, hstatus.2⟩

/-- The name of a `Status` header begins with a letter. -/
theorem IsStatus.named {h : HeaderLine} (hstatus : h.IsStatus) : h.Named := by
  cases hname : h.name with
  | nil => exact absurd hname h.name_ne
  | cons ch s =>
    refine ⟨ch, s, hname, ?_⟩
    have hlower : tolower ch = 0x73 := by
      have heq := hstatus.1
      rw [hname] at heq
      exact (List.cons.inj heq).1
    rw [tolower] at hlower
    split at hlower
    next hupper =>
      have hlow : 65 ≤ ch.toNat := UInt8.le_iff_toNat_le.mp hupper.1
      have hhigh : ch.toNat ≤ 90 := UInt8.le_iff_toNat_le.mp hupper.2
      have hall : ∀ n < 26, (n + 65) ||| 32 = 115 → n = 18 := by decide
      have hn : ch.toNat - 65 = 18 := by
        refine hall _ (by omega) ?_
        rw [Nat.sub_add_cancel hlow]
        exact congrArg UInt8.toNat hlower
      obtain rfl : ch = 0x53 := UInt8.toNat_inj.mp (show ch.toNat = 83 by omega)
      decide
    next =>
      rw [hlower]
      decide

end HeaderLine

/-- What decides is the beginning of the value. -/
theorem wanted_begins (w : List UInt8) : wanted w <+: w := by
  rcases w with _ | ⟨a, _ | ⟨b, w⟩⟩
  · exact prefix_refl _
  · rw [wanted_cons]
    split <;> exact prefix_refl _
  · rw [wanted_cons]
    split
    · exact ⟨b :: w, rfl⟩
    · rw [cons_prefix_cons]
      refine ⟨rfl, ?_⟩
      show (if isDigit b then b :: w.take 1 else [b]) <+: b :: w
      split
      · exact (prefix_cons_inj b).mpr ( take_prefix 1 w)
      · exact ⟨w, rfl⟩

/-- A header line begins with its part up to the code. -/
theorem upToCode_begins (h : HeaderLine) : h.upToCode <+: h.text := by
  have hvalue : h.value = h.value.takeWhile (· = 0x20) ++ h.trimmed := takeWhile_append_dropWhile.symm
  rw [HeaderLine.text, HeaderLine.upToCode, prefix_append_right_inj, prefix_cons_inj]
  nth_rewrite 2 [hvalue]
  rw [append_assoc, prefix_append_right_inj]
  exact wanted_begins _

/-- **The `Status` header** decides. -/
theorem readLines_status (hl : Fresh l) (h : HeaderLine) (hstatus : h.IsStatus) (w : List UInt8) :
    readLines l (h.upToCode ++ w) = codeExit (codeOf h.trimmed) := by
  have hfind : isStatus h.name = true :=
    (isStatus_iff fun ch hch => (h.name_clean ch hch).2.2.2).mpr hstatus.taken.1
  obtain ⟨name, hcolon⟩ := readLines_colon hl h hstatus.named
    (h.value.takeWhile (· = 0x20) ++ (wanted (h.trimmed ++ h.ending) ++ w))
  obtain ⟨name', hspaces⟩ := readLines_spaces true (wanted (h.trimmed ++ h.ending) ++ w)
    (v := h.value.takeWhile (· = 0x20)) (fun ch hch => by simpa using mem_takeWhile_imp hch) (some name)
  obtain ⟨x, e, hending, hx⟩ := not_isDigit_ending h
  rw [HeaderLine.upToCode, append_assoc, cons_append, append_assoc, hcolon, hfind, hspaces,
    hending]
  cases htrimmed : h.trimmed with
  | nil => exact absurd htrimmed hstatus.2
  | cons a v =>
    refine readLines_value name' ?_ hx w
    have hmem : a ∈ h.value :=
      (dropWhile_sublist _).subset (htrimmed ▸ mem_cons_self : a ∈ h.trimmed)
    obtain ⟨hcr, hlf, hzero⟩ := h.value_clean a hmem
    refine ⟨fun heq => ?_, hcr, hlf, hzero⟩
    have hhead := head?_dropWhile_not (fun ch : UInt8 => decide (ch = 0x20)) h.value
    rw [show h.value.dropWhile (fun ch => decide (ch = 0x20)) = a :: v from htrimmed] at hhead
    simp [heq] at hhead

/-! ### The content of the first record -/

/-- The lines that begin in the first `n` bytes are passed. -/
def PassedWithin (lines : List HeaderLine) (n : ℕ) : Prop :=
  ∀ before h after, lines = before ++ h :: after → (linesText before).length < n → h.Named ∧ ¬ h.Taken

/-- **The first record settles the check**: it holds the `Status` header up to the character that decides, and
the lines before it are passed; or there is no such header, the lines of the record are passed, what it has of
the body gives nothing when it is read as lines, and 200 is a code of `status_alive`. -/
inductive Settles (alive : UInt64) (r : Response) (content : List UInt8) : Prop
  | status (before : List HeaderLine) (h : HeaderLine) (after : List HeaderLine)
      (headers : r.headers = before ++ h :: after) (passed : ∀ x ∈ before, x.Named ∧ ¬ x.Taken)
      (isStatus : h.IsStatus) (long : (linesText before ++ h.upToCode).length ≤ content.length)
  | default (none : r.status = none) (passed : PassedWithin r.headers content.length)
      (body : readLines {} (content.drop (linesText r.headers ++ r.blank).length) = .ok)
      (alive : rcOf alive (some 200) = .ok)

theorem linesText_cons (h : HeaderLine) (lines : List HeaderLine) :
    linesText (h :: lines) = h.text ++ linesText lines := flatMap_cons

theorem linesText_append (lines lines' : List HeaderLine) :
    linesText (lines ++ lines') = linesText lines ++ linesText lines' := flatMap_append

/-- The beginning of some lines that are passed. -/
theorem readLines_within (w : List UInt8) : ∀ {lines : List HeaderLine} {l : Line} {content : List UInt8},
    Fresh l → content <+: linesText lines ++ w → PassedWithin lines content.length →
      (readLines l content = .ok ∧ content.length ≤ (linesText lines).length) ∨
        ∃ l' content', Fresh l' ∧ content = linesText lines ++ content' ∧
          readLines l content = readLines l' content'
  | [], l, content, hl, _, _ => .inr ⟨l, content, hl, rfl, rfl⟩
  | h :: lines, l, content, hl, hbegins, hpassed => by
    rw [linesText_cons, append_assoc] at hbegins
    rcases Nat.eq_zero_or_pos content.length with hzero | hpos
    · rw [length_eq_zero_iff.mp hzero]
      exact .inl ⟨rfl, Nat.zero_le _⟩
    · obtain ⟨hnamed, hnot⟩ := hpassed [] h lines rfl hpos
      by_cases hshort : content.length ≤ h.text.length
      · -- the content ends in this line
        have hline : content <+: h.text :=
          prefix_of_prefix_length_le hbegins (prefix_append _ _) hshort
        obtain ⟨l', _, hread⟩ := readLines_line hl h hnamed hnot []
        rw [append_nil] at hread
        refine .inl ⟨readLines_beginning hread hline, ?_⟩
        rw [linesText_cons, length_append]
        omega
      · obtain ⟨content', rfl⟩ : h.text <+: content :=
          prefix_of_prefix_length_le (prefix_append _ _) hbegins (by omega)
        rw [prefix_append_right_inj] at hbegins
        obtain ⟨l₁, hl₁, hread⟩ := readLines_line hl h hnamed hnot content'
        have hpassed' : PassedWithin lines content'.length := by
          intro before x after hlines hlen
          refine hpassed (h :: before) x after (by rw [hlines]; rfl) ?_
          rw [linesText_cons, length_append, length_append]
          omega
        rw [hread, linesText_cons]
        rcases readLines_within w hl₁ hbegins hpassed' with ⟨hok, hlen⟩ | ⟨l', rest, hl', rfl, hrest⟩
        · refine .inl ⟨hok, ?_⟩
          rw [length_append, length_append]
          omega
        · exact .inr ⟨l', rest, hl', (append_assoc _ _ _).symm, hrest⟩

/-- The blank line, and what follows it. -/
theorem readLines_blank (hl : Fresh l) (r : Response) {content : List UInt8}
    (hbegins : content <+: r.blank ++ r.body)
    (hbody : readLines {} (content.drop r.blank.length) = .ok) : readLines l content = .ok := by
  obtain ⟨state, find, name, code, count⟩ := l
  obtain ⟨rfl, rfl, rfl, rfl⟩ := hl
  cases content with
  | nil => rfl
  | cons ch content =>
    cases hcarriage : r.carriage with
    | false =>
      have hblank : r.blank = [0x0a] := by rw [Response.blank, hcarriage]; rfl
      rw [hblank] at hbegins hbody
      obtain ⟨rfl, -⟩ := cons_prefix_cons.mp hbegins
      rw [readLines_ok rfl]
      exact hbody
    | true =>
      have hblank : r.blank = [0x0d, 0x0a] := by rw [Response.blank, hcarriage]; rfl
      rw [hblank] at hbegins hbody
      obtain ⟨rfl, htail⟩ := cons_prefix_cons.mp hbegins
      have hstep : lineStep ⟨.start, false, name, 0, 0⟩ 0x0d =
          .more ⟨.headerAlmostDone, false, name.map (· ++ [0x0d]), 0, 0⟩ := rfl
      rw [readLines_more hstep]
      cases content with
      | nil => rfl
      | cons ch content =>
        obtain ⟨rfl, -⟩ := cons_prefix_cons.mp htail
        rw [readLines_ok rfl]
        exact hbody

/-- The first header that is a `Status` is the one that counts. -/
theorem status_eq {r : Response} {before after : List HeaderLine} {h : HeaderLine}
    (headers : r.headers = before ++ h :: after) (hpassed : ∀ x ∈ before, x.Named ∧ ¬ x.Taken)
    (hstatus : h.IsStatus) : r.status = some h := by
  rw [Response.status, headers, find?_append, find?_eq_none.mpr, Option.none_or,
    find?_cons_of_pos]
  · exact decide_eq_true hstatus
  · intro x hx
    rw [decide_eq_true_eq]
    exact fun hx' => (hpassed x hx).2 hx'.taken

/-- **What the first record leads to** is what is asked for. -/
theorem readLines_settles {r : Response} {content : List UInt8} (hbegins : content <+: r.out)
    (hsettles : Settles alive r content) : (readLines {} content).rc alive = r.expected alive := by
  cases hsettles with
  | status before h after headers passed isStatus long =>
    have hdecided : linesText before ++ h.upToCode <+: content := by
      refine prefix_of_prefix_length_le ?_ hbegins long
      rw [Response.out, headers, linesText_append, linesText_cons, append_assoc,
        prefix_append_right_inj, append_assoc]
      exact (upToCode_begins h).trans (prefix_append _ _)
    obtain ⟨rest, rfl⟩ := hdecided
    obtain ⟨l, hl, hread⟩ := readLines_lines (h.upToCode ++ rest) fresh_init passed
    rw [append_assoc, hread, readLines_status hl h isStatus, rc_codeExit, Response.expected,
      status_eq headers passed isStatus]
  | default none passed body halive =>
    have hok : readLines {} content = .ok := by
      rcases readLines_within (r.blank ++ r.body) fresh_init hbegins passed with
        ⟨hok, -⟩ | ⟨l', rest, hl', rfl, hrest⟩
      · exact hok
      · rw [hrest]
        rw [Response.out, prefix_append_right_inj] at hbegins
        refine readLines_blank hl' r hbegins ?_
        rwa [length_append, drop_append, drop_eq_nil_of_le (Nat.le_add_right _ _),
          Nat.add_sub_cancel_left] at body
    rw [hok, Response.expected, none]
    exact halive.symm

/-! ### A run -/

/-- The header of a record is read. -/
theorem scan_header (c : Content) (k : Kind) (data : List UInt8) :
    ∃ padding, scanFrom recordStep {} (c.header k.byte ++ data) =
      .stopped (.done ⟨.data, k.byte, c.content.length, padding⟩) (c.reserved :: data) := by
  have hlen := c.content_lt
  have hlength : (UInt8.ofNat (c.content.length / 256)).toNat <<< 8 |||
      (UInt8.ofNat (c.content.length % 256)).toNat = c.content.length := by
    rw [UInt8.toNat_ofNat', UInt8.toNat_ofNat', Nat.mod_eq_of_lt (by omega), Nat.mod_eq_of_lt (by omega),
      ← Nat.shiftLeft_add_eq_or_of_lt (by omega), Nat.shiftLeft_eq]
    omega
  have hversion : recordStep {} 1 = .more ⟨.type, 0, 0, 0⟩ := rfl
  have htype : recordStep ⟨.type, 0, 0, 0⟩ k.byte = .more ⟨.requestIdHi, k.byte, 0, 0⟩ := by
    cases k <;> rfl
  have hhi : recordStep ⟨.requestIdHi, k.byte, 0, 0⟩ 0 = .more ⟨.requestIdLo, k.byte, 0, 0⟩ := rfl
  have hlo : recordStep ⟨.requestIdLo, k.byte, 0, 0⟩ 1 = .more ⟨.contentLengthHi, k.byte, 0, 0⟩ := rfl
  refine ⟨(UInt8.ofNat c.padding.length).toNat, ?_⟩
  rw [Content.header]
  simp only [cons_append, nil_append]
  rw [scanFrom_more hversion, scanFrom_more htype, scanFrom_more hhi, scanFrom_more hlo, scanFrom_more rfl,
    scanFrom_more rfl, scanFrom_more rfl, scanFrom_stop rfl]
  dsimp only
  rw [hlength]

/-- A call that brings the first record and more settles the check by its content. -/
theorem handler_first {ctx : Ctx Header} (hdata : ctx.recv.data = []) (hpos : ctx.recv.pos = 0)
    (hkept : ctx.kept = {}) (e : Event) (c : Content) (k : Kind) {behind : List UInt8}
    (hbytes : e.bytes = c.header k.byte ++ (c.content ++ behind)) :
    ∃ padding, (recvHandler (fastcgiParse alive) ctx e).2 =
      judge alive ⟨.data, k.byte, c.content.length, padding⟩ (c.content ++ behind) := by
  have hrecv : (recvLoop ctx.recv e).data = e.bytes := by rw [recvLoop_data, hdata, nil_append]
  have hzero : (recvLoop ctx.recv e).pos = 0 := by rw [recvLoop_pos, hpos, ite_self]
  obtain ⟨padding, hscan⟩ := scan_header c k (c.content ++ behind)
  rw [← hbytes, ← hrecv] at hscan
  refine ⟨padding, ?_⟩
  have hmore : (recvLoop ctx.recv e).pos < (recvLoop ctx.recv e).data.length := by
    rw [hzero, hrecv, hbytes]
    exact Nat.succ_pos _
  rw [recvHandler, fastcgiParse, if_pos hmore]
  dsimp only
  rw [hkept, hzero, drop_zero, hscan]
  rfl

/-- The bytes of the first read that brings any. -/
def firstRead (es : List Event) : List UInt8 := ((es.map Event.bytes).find? (· ≠ [])).getD []

/-- The first read that brings bytes. -/
theorem firstRead_cons (e : Event) (es : List Event) :
    firstRead (e :: es) = if e.bytes = [] then firstRead es else e.bytes := by
  rw [firstRead, map_cons, find?_cons]
  by_cases hempty : e.bytes = []
  · rw [if_pos hempty, decide_eq_false (not_not.mpr hempty)]
    rfl
  · rw [if_neg hempty, decide_eq_true hempty]
    rfl

/-- Reads that bring nothing leave the check as it is. -/
theorem run_first : ∀ (es : List Event) (ctx : Ctx Header), ctx.recv.data = [] →
    ctx.recv.pos = 0 → ctx.kept = {} → ∀ {c : Content} {k : Kind} {behind : List UInt8},
      firstRead es = c.header k.byte ++ (c.content ++ behind) →
      (∀ padding, judge alive ⟨.data, k.byte, c.content.length, padding⟩ (c.content ++
        behind) ≠ .again) →
      ∃ padding, run (fastcgiParse alive) ctx es =
        judge alive ⟨.data, k.byte, c.content.length, padding⟩ (c.content ++ behind)
  | [], ctx, _, _, _, c, k, behind, hfirst, _ => absurd hfirst nofun
  | e :: es, ctx, hdata, hpos, hkept, c, k, behind, hfirst, hagain => by
    rw [run]
    by_cases hempty : e.bytes = []
    · have hrecv : (recvLoop ctx.recv e).data = [] := by rw [recvLoop_data, hdata, hempty]; rfl
      have hzero : (recvLoop ctx.recv e).pos = 0 := by rw [recvLoop_pos, hpos, ite_self]
      have hnone : ¬ (recvLoop ctx.recv e).pos < (recvLoop ctx.recv e).data.length := by
        rw [hzero, hrecv]
        exact Nat.lt_irrefl _
      have hcall : recvHandler (fastcgiParse alive) ctx e =
          ({ ctx with recv := recvLoop ctx.recv e }, .again) := by
        rw [recvHandler, fastcgiParse, if_neg hnone]
      rw [hcall]
      have hfirst' : firstRead es = c.header k.byte ++ (c.content ++ behind) := by
        rw [← hfirst, firstRead_cons, if_pos hempty]
      exact run_first es ⟨recvLoop ctx.recv e, ctx.kept⟩ hrecv hzero hkept hfirst' hagain
    · have hbytes : e.bytes = c.header k.byte ++ (c.content ++ behind) := by
        rw [← hfirst, firstRead_cons, if_neg hempty]
      obtain ⟨padding, hcall⟩ : ∃ padding, (recvHandler (fastcgiParse alive) ctx e).2 =
          judge alive ⟨.data, k.byte, c.content.length, padding⟩ (c.content ++ behind) :=
        handler_first hdata hpos hkept e c k hbytes
      refine ⟨padding, ?_⟩
      have hne := hagain padding
      generalize recvHandler (fastcgiParse alive) ctx e = result at hcall
      obtain ⟨ctx', rc⟩ := result
      obtain rfl : rc = _ := hcall
      generalize judge alive ⟨.data, k.byte, c.content.length, padding⟩ (c.content ++ behind) = rc at hne
      cases rc with
      | again => exact absurd rfl hne
      | _ => rfl

/-- **Nothing disturbs the check**: the first record is one of `stdout` and not empty, the first read brings it
and more, and it settles the check. -/
def Undisturbed (alive : UInt64) (r : Response) (es : List Event) : Prop :=
  ∃ c more, r.records = (.stdout, c) :: more ∧ c.content ≠ [] ∧
    8 + c.content.length < (firstRead es).length ∧ Settles alive r c.content

/-- A record of the standard output is judged by its lines. -/
theorem judge_stdout {content behind : List UInt8} (padding : ℕ) (hcontent : content ≠ [])
    (hbehind : behind ≠ []) :
    judge alive ⟨.data, Kind.stdout.byte, content.length, padding⟩ (content ++ behind) =
      (readLines {} content).rc alive := by
  have hpos := length_pos_iff.mpr hcontent
  have hmore := length_pos_iff.mpr hbehind
  have htype : ¬ (Kind.stdout.byte ≠ stdout ∧ Kind.stdout.byte ≠ stderr) := by decide
  have herror : ¬ Kind.stdout.byte = stderr := by decide
  rw [judge]
  dsimp only
  rw [if_neg htype, if_neg (by omega), if_neg herror, if_pos (by rw [length_append]; omega),
    take_left]

theorem rc_ne_again (alive : UInt64) (exit : LineExit) : exit.rc alive ≠ .again := by
  cases exit with
  | done code =>
    rw [LineExit.rc]
    split
    · exact nofun
    · split <;> exact nofun
  | _ => exact nofun

/-- A first read that holds the first record and more. -/
theorem run_long {size : ℕ} (room : 0 < size) {es : List Event} {c : Content} {behind : List UInt8}
    (hcontent : c.content ≠ []) (hbehind : behind ≠ [])
    (hfirst : firstRead es = c.header Kind.stdout.byte ++ (c.content ++ behind)) :
    run (fastcgiParse alive) (initCtx size room) es = (readLines {} c.content).rc alive := by
  have hjudge : ∀ padding, judge alive ⟨.data, Kind.stdout.byte, c.content.length, padding⟩
      (c.content ++ behind) = (readLines {} c.content).rc alive :=
    fun padding => judge_stdout padding hcontent hbehind
  obtain ⟨padding, hrun⟩ : ∃ padding, run (fastcgiParse alive) (initCtx size room) es =
      judge alive ⟨.data, Kind.stdout.byte, c.content.length, padding⟩ (c.content ++ behind) := by
    refine run_first es _ rfl rfl rfl hfirst fun padding => ?_
    rw [hjudge]
    exact rc_ne_again _ _
  rw [hrun, hjudge]

/-- The bytes of the first read are the first ones of all. -/
theorem firstRead_begins : ∀ es : List Event, firstRead es <+: eventsBytes es
  | [] => prefix_refl _
  | e :: es => by
    rw [CheckHttp.eventsBytes_cons, firstRead_cons]
    by_cases hempty : e.bytes = []
    · rw [if_pos hempty, hempty, nil_append]
      exact firstRead_begins es
    · rw [if_neg hempty]
      exact prefix_append _ _

/-- **When the verdict is right**: in every run that nothing disturbs it is the one that the `Status` header
asks for, or 200 without one, as it is in one read of the whole response. -/
theorem run_eq_expected (alive : UInt64) {size : ℕ} (room : 0 < size) (r : Response) (hholds : r.Holds)
    (es : List Event) (hes : eventsBytes es = r.bytes) (h : Undisturbed alive r es) :
    run (fastcgiParse alive) (initCtx size room) es = r.expected alive ∧
      run (fastcgiParse alive) (initCtx size room) [whole r.bytes] = r.expected alive := by
  obtain ⟨c, more, hrecords, hcontent, hlong, hsettles⟩ := h
  -- what stands behind the first record
  obtain ⟨behind, hbehind, hbytes⟩ : ∃ behind, behind ≠ [] ∧
      r.bytes = c.header Kind.stdout.byte ++ (c.content ++ behind) := by
    refine ⟨c.padding ++ (more.flatMap (fun c => c.2.bytes c.1.byte) ++ r.last.bytes endRequest), ?_, ?_⟩
    · simp [Content.bytes, Content.header]
    · rw [Response.bytes, hrecords, flatMap_cons, Content.bytes]
      simp
  have hbegins : c.content <+: r.out := by
    rw [← hholds, hrecords, filter_cons_of_pos (by rfl), flatMap_cons]
    exact prefix_append _ _
  have hexpected := readLines_settles hbegins hsettles
  rw [← hexpected]
  constructor
  · have hread : c.header Kind.stdout.byte ++ c.content <+: firstRead es := by
      refine prefix_of_prefix_length_le ?_ (hes ▸ firstRead_begins es) ?_
      · rw [hbytes, ← append_assoc]
        exact prefix_append _ _
      · rw [length_append]
        exact (show 8 + c.content.length ≤ _ by omega)
    obtain ⟨rest, hrest⟩ := hread
    have hne : rest ≠ [] := by
      rintro rfl
      rw [← hrest, append_nil, length_append] at hlong
      exact absurd hlong (Nat.lt_irrefl _)
    exact run_long room hcontent hne (by rw [← hrest, append_assoc])
  · refine run_long room hcontent hbehind ?_
    have hne : r.bytes ≠ [] := by
      rw [hbytes]
      exact nofun
    rw [← hbytes, firstRead_cons, bytes_whole, if_neg hne]

/-- The line `Status: 200`. -/
def status200 : HeaderLine where
  name := status
  value := [0x20, 0x32, 0x30, 0x30]
  returns := 1
  name_ne := nofun
  name_clean := by simp [status]
  value_clean := by simp

/-- A response that says no more. -/
def response200 : Response where
  records := [(.stdout, ⟨status200.text ++ [0x0d, 0x0a], [], 0, by decide, by decide⟩)]
  last := ⟨[0, 0, 0, 0, 0, 0, 0, 0], [], 0, by decide, by decide⟩
  headers := [status200]
  carriage := true
  body := []

/-- It is right in two reads. -/
theorem run_eq_expected_200 : run (fastcgiParse 4) (initCtx 2048 (by decide))
      [whole (response200.bytes.take 30), whole (response200.bytes.drop 30)] = .ok ∧
    response200.expected 4 = .ok := by
  have hexpected : response200.expected 4 = .ok := by decide
  refine ⟨?_, hexpected⟩
  have hright := run_eq_expected 4 (by decide : 0 < 2048) response200 rfl
    [whole (response200.bytes.take 30), whole (response200.bytes.drop 30)] (by decide)
    ⟨_, [], rfl, by decide, by decide, .status [] status200 [] rfl (by simp) (by decide) (by decide)⟩
  exact hright.1.trans hexpected

/-- **A read that ends behind the first byte** of a record turns the peer down: the next call takes that byte
for the type. -/
theorem run_cut (alive : UInt64) {size : ℕ} (room : 0 < size) (rest : List UInt8) :
    run (fastcgiParse alive) (initCtx size room) [whole [1], whole rest] = .error := by
  have hfirst : ∃ b : RecvBuf, b.data = [1] ∧ b.pos = 0 ∧
      recvHandler (fastcgiParse alive) (initCtx size room) (whole [1]) = (⟨b, ⟨.type, 0, 0, 0⟩⟩, .again) := by
    have hdata : (recvLoop (initCtx size room).recv (whole [1])).data = [1] := by
      rw [recvLoop_data, bytes_whole]
      rfl
    have hpos : (recvLoop (initCtx size room).recv (whole [1])).pos = 0 := by
      rw [recvLoop_pos]
      exact ite_self 0
    have hmore : (recvLoop (initCtx size room).recv (whole [1])).pos <
        (recvLoop (initCtx size room).recv (whole [1])).data.length := by
      rw [hpos, hdata]
      exact Nat.zero_lt_one
    refine ⟨_, hdata, hpos, ?_⟩
    have hscan : scanFrom recordStep (initCtx size room).kept ((recvLoop (initCtx size room).recv
        (whole [1])).data.drop (recvLoop (initCtx size room).recv (whole [1])).pos) =
          .again ⟨.type, 0, 0, 0⟩ := by
      rw [hpos, hdata]
      rfl
    rw [recvHandler, fastcgiParse, if_pos hmore]
    dsimp only
    rw [hscan]
  obtain ⟨b, hdata, hpos, hcall⟩ := hfirst
  have hdata' : (recvLoop b (whole rest)).data = 1 :: rest := by
    rw [recvLoop_data, bytes_whole, hdata]
    rfl
  have hpos' : (recvLoop b (whole rest)).pos = 0 := by rw [recvLoop_pos, hpos, ite_self]
  have hscan : scanFrom recordStep ⟨.type, 0, 0, 0⟩
      ((recvLoop b (whole rest)).data.drop (recvLoop b (whole rest)).pos) =
        .stopped .error (1 :: rest) := by
    rw [hpos', drop_zero, hdata']
    exact scanFrom_stop rfl rest
  have hsecond : (recvHandler (fastcgiParse alive) ⟨b, ⟨.type, 0, 0, 0⟩⟩ (whole rest)).2 = .error := by
    rw [recvHandler, fastcgiParse, if_pos (by rw [hpos', hdata']; exact Nat.succ_pos _)]
    dsimp only
    rw [hscan]
  rw [run, hcall]
  show run (fastcgiParse alive) ⟨b, ⟨.type, 0, 0, 0⟩⟩ [whole rest] = .error
  rw [run]
  generalize recvHandler (fastcgiParse alive) ⟨b, ⟨.type, 0, 0, 0⟩⟩ (whole rest) = result at hsecond
  obtain ⟨ctx, rc⟩ := result
  obtain rfl : rc = .error := hsecond
  rfl

/-- **A response in two reads**, the first of one byte: a peer that is up goes down. -/
theorem cut_header_refuses : ¬ ∀ (alive : UInt64) (size : ℕ) (room : 0 < size) (r : Response), r.Holds →
    ∀ es : List Event, eventsBytes es = r.bytes →
      run (fastcgiParse alive) (initCtx size room) es = r.expected alive ∧
        run (fastcgiParse alive) (initCtx size room) [whole r.bytes] = r.expected alive := by
  intro hall
  have hright := (hall 4 2048 (by decide) response200 rfl
    [whole [1], whole response200.bytes.tail] (by decide)).1
  rw [run_cut] at hright
  exact absurd hright (by decide)

end Hengine.CheckFastcgi
