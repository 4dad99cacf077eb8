import Hengine.Http.HeaderLine
import Hengine.Lib.Tables

/-!
# Soundness of the Header Line Parser

What a header returned by `ngx_http_parse_header_line` is worth. The invariant of the
loop splits the memory read so far into the parts of the line: what came before it, the
name, the separator, the value, and the spaces after it. `header_end` moves back to the
last of the value's words each time a space is seen, so it is the split between value
and trailing spaces that the invariant carries.

The hash skips the bytes that a name may not have: it is the hash of the lower-cased
name when `invalid_header` is 0, and of the accepted bytes of the name in general.
-/

namespace Hengine

open List

/-! ### Names and their hash -/

/-- The bytes a header name may have: letters, digits, `-`, and `_` when allowed. -/
def nameByte (allowUnderscores : Bool) (c : UInt8) : Bool :=
  isAlpha c || isDigit c || c == byte '-' || (allowUnderscores && c == byte '_')

/-- `ngx_hash_key_lc`: `ngx_hash` over the lower-cased bytes. -/
def hashKeyLc (name : List UInt8) : UInt64 :=
  name.foldl (fun key c => ngxHash key (tolower c)) 0

/-- The hash the parser computes: over the accepted bytes of the name. -/
def acceptedHash (allowUnderscores : Bool) (name : List UInt8) : UInt64 :=
  hashKeyLc (name.filter (nameByte allowUnderscores))

/-- The table `lowcase[]` against its purpose. -/
theorem lowcase_table (c : UInt8) :
    (lowcase c ≠ 0 → nameByte false c = true ∧ lowcase c = tolower c) ∧
      (lowcase c = 0 → nameByte false c = false) := by
  have hc := getD_byte_of_all lowcaseTable
    (p := fun low c => nameByte false c == (low != 0) && (low == 0 || low == tolower c))
    (by decide +kernel) (by decide +kernel) c 0
  obtain ⟨hname, hlow⟩ := Bool.and_eq_true_iff.1 hc
  have hname : nameByte false c = (lowcase c != 0) := eq_of_beq hname
  refine ⟨fun hne => ⟨by rw [hname]; exact bne_iff_ne.2 hne, ?_⟩, fun heq => ?_⟩
  · rcases Bool.or_eq_true_iff.1 hlow with hzero | hlow
    · exact absurd (eq_of_beq hzero) hne
    · exact eq_of_beq hlow
  · rw [hname, heq]
    rfl

theorem nameByte_eq (allowUnderscores : Bool) (c : UInt8) :
    nameByte allowUnderscores c = (nameByte false c || (allowUnderscores && c == byte '_')) := by
  simp [nameByte]

variable {allowUnderscores : Bool} {c : UInt8}

theorem nameByte_of_lowcase (h : lowcase c ≠ 0) (allowUnderscores : Bool) :
    nameByte allowUnderscores c = true ∧ lowcase c = tolower c := by
  obtain ⟨hname, hlow⟩ := (lowcase_table c).1 h
  exact ⟨by rw [nameByte_eq, hname, Bool.true_or], hlow⟩

theorem nameByte_underscore (h : allowUnderscores = true) :
    nameByte allowUnderscores (byte '_') = true ∧ byte '_' = tolower (byte '_') := by
  rw [h]
  decide

/-- A byte without a lower case, and no allowed underscore, is no byte of a name. -/
theorem nameByte_forbidden (h : ¬ lowcase c ≠ 0)
    (hus : ¬ (c = byte '_' ∧ allowUnderscores = true)) : nameByte allowUnderscores c = false := by
  rw [nameByte_eq, (lowcase_table c).2 (not_not.mp h), Bool.false_or, Bool.and_eq_false_iff]
  by_cases hc : c = byte '_'
  · exact Or.inl (Bool.eq_false_iff.mpr fun ha => hus ⟨hc, ha⟩)
  · exact Or.inr (beq_eq_false_iff_ne.mpr hc)

/-- The hash goes on with the lower case of a byte. -/
theorem acceptedHash_accept {name : List UInt8} (h : nameByte allowUnderscores c = true) :
    acceptedHash allowUnderscores (name ++ [c])
      = ngxHash (acceptedHash allowUnderscores name) (tolower c) := by
  simp [acceptedHash, hashKeyLc, filter_append, h]

theorem acceptedHash_skip {name : List UInt8} (h : nameByte allowUnderscores c = false) :
    acceptedHash allowUnderscores (name ++ [c]) = acceptedHash allowUnderscores name := by
  simp [acceptedHash, filter_append, h]

/-! ### The parts of a line -/

/-- The name, with what the loop knows about it: `pre` is the memory before the line. -/
structure NamePart (allowUnderscores : Bool) (f : HeaderFields) (hash : UInt64)
    (pre name : List UInt8) : Prop where
  start : f.headerNameStart = some pre.length
  nonempty : name ≠ []
  hash_eq : hash = acceptedHash allowUnderscores name
  valid : f.invalidHeader = false → ∀ c ∈ name, nameByte allowUnderscores c = true

/-- The value bytes read: no control character, and no space at either end. -/
structure ValuePart (val : List UInt8) : Prop where
  clean : ∀ c ∈ val, c ≠ cr ∧ c ≠ lf ∧ c ≠ 0
  noLeading : val.head? ≠ some (byte ' ')
  noTrailing : val.getLast? ≠ some (byte ' ')

/-- A line whose name and value are known: `base` is the memory before the value. -/
structure LineParts (allowUnderscores : Bool) (f : HeaderFields) (hash : UInt64)
    (pre name base val : List UInt8) : Prop where
  named : NamePart allowUnderscores f hash pre name
  nameEnd : f.headerNameEnd = some (pre ++ name).length
  before : pre ++ name <+: base
  start : f.headerStart = some base.length
  ended : f.headerEnd = some (base ++ val).length
  value : ValuePart val

theorem ValuePart.nil : ValuePart [] := by
  refine ⟨?_, by simp, by simp⟩
  intro c hc
  simp at hc

/-- A value grows by a byte that is no space and no control character. -/
theorem ValuePart.snoc {val : List UInt8} (h : ValuePart val) (sp : List UInt8)
    (hne : val ≠ [] ∨ sp = []) (hsp : ∀ d ∈ sp, d = byte ' ') (hc : c ≠ cr ∧ c ≠ lf ∧ c ≠ 0)
    (hspace : c ≠ byte ' ') : ValuePart (val ++ sp ++ [c]) := by
  refine ⟨?_, ?_, ?_⟩
  · intro d hd
    simp only [mem_append, mem_singleton] at hd
    rcases hd with (hd | hd) | rfl
    · exact h.clean d hd
    · rw [hsp d hd]
      decide
    · exact hc
  · cases val with
    | nil =>
      rcases hne with hne | rfl
      · exact absurd rfl hne
      · simpa using hspace
    | cons d ds => simpa using h.noLeading
  · simpa using hspace

/-- The invariant of the loop: which parts of the line have been read. -/
def HeaderInv (allowUnderscores : Bool) (seen : List UInt8) (s : HeaderLoop) : Prop :=
  match s.state with
  | .swStart | .swIgnoreLine | .swHeaderAlmostDone => True
  | .swName =>
    ∃ pre name, seen = pre ++ name ∧ NamePart allowUnderscores s.fields s.hash pre name
  | .swSpaceBeforeValue =>
    ∃ pre name, pre ++ name <+: seen ∧ NamePart allowUnderscores s.fields s.hash pre name ∧
      s.fields.headerNameEnd = some (pre ++ name).length
  | .swValue =>
    ∃ pre name base val, seen = base ++ val ∧ val ≠ [] ∧ pre ++ name <+: base ∧
      NamePart allowUnderscores s.fields s.hash pre name ∧
      s.fields.headerNameEnd = some (pre ++ name).length ∧
      s.fields.headerStart = some base.length ∧ ValuePart val
  | .swSpaceAfterValue =>
    ∃ pre name base val sp, seen = base ++ val ++ sp ∧ val ≠ [] ∧ (∀ c ∈ sp, c = byte ' ') ∧
      LineParts allowUnderscores s.fields s.hash pre name base val
  | .swAlmostDone =>
    ∃ pre name base val, base ++ val <+: seen ∧
      LineParts allowUnderscores s.fields s.hash pre name base val

/-! ### One byte -/

section Step

variable {allowUnderscores : Bool} {seen : List UInt8} {s s' : HeaderLoop} {ch : UInt8}

variable {f : HeaderFields} {hash : UInt64}

/-- The first byte of a name is taken. -/
theorem NamePart.firstAccept {c : UInt8} (hstart : f.headerNameStart = some seen.length)
    (hc : nameByte allowUnderscores ch = true) (hlow : c = tolower ch) :
    NamePart allowUnderscores f (ngxHash 0 c) seen [ch] := by
  refine ⟨hstart, by simp, ?_, ?_⟩
  · rw [← nil_append [ch], acceptedHash_accept hc, hlow]
    rfl
  · intro _ d hd
    rw [mem_singleton] at hd
    rw [hd, hc]

/-- A first byte that is not allowed makes the header invalid. -/
theorem NamePart.firstSkip (hstart : f.headerNameStart = some seen.length)
    (hinvalid : f.invalidHeader = true) (hc : nameByte allowUnderscores ch = false) :
    NamePart allowUnderscores f 0 seen [ch] := by
  refine ⟨hstart, by simp, ?_, ?_⟩
  · rw [← nil_append [ch], acceptedHash_skip hc]
    rfl
  · intro hf
    rw [hinvalid] at hf
    cases hf

/-- One more byte of the name, and of its small letters. -/
theorem NamePart.accept {pre name : List UInt8} {c : UInt8} {i : ℕ}
    (h : NamePart allowUnderscores f hash pre name) (hc : nameByte allowUnderscores ch = true)
    (hlow : c = tolower ch) :
    NamePart allowUnderscores { f with lowcaseHeader := f.lowcaseHeader.set i c }
      (ngxHash hash c) pre (name ++ [ch]) := by
  refine ⟨h.start, by simp, ?_, ?_⟩
  · rw [acceptedHash_accept hc, ← h.hash_eq, hlow]
  · intro hf d hd
    rw [mem_append, mem_singleton] at hd
    rcases hd with hd | rfl
    · exact h.valid hf d hd
    · exact hc

/-- So does a later one. -/
theorem NamePart.skip {pre name : List UInt8} (h : NamePart allowUnderscores f hash pre name)
    (hc : nameByte allowUnderscores ch = false) :
    NamePart allowUnderscores { f with invalidHeader := true } hash pre (name ++ [ch]) := by
  refine ⟨h.start, by simp, ?_, ?_⟩
  · rw [acceptedHash_skip hc, ← h.hash_eq]
  · intro hf
    cases hf

/-- `sw_start`. -/
theorem headerStart_inv (h : headerStart allowUnderscores seen.length s ch = .more s') :
    HeaderInv allowUnderscores (seen ++ [ch]) s' := by
  simp only [headerStart, startName] at h
  split at h
  · cases h
    trivial
  split at h
  · cases h
  split at h
  · rename_i hlow
    cases h
    obtain ⟨hname, hlc⟩ := nameByte_of_lowcase hlow allowUnderscores
    exact ⟨seen, [ch], rfl, NamePart.firstAccept rfl hname hlc⟩
  rename_i hlow
  split at h
  · rename_i hus
    split at h
    · rename_i hallow
      cases h
      subst hus
      obtain ⟨hname, hlc⟩ := nameByte_underscore hallow
      exact ⟨seen, [byte '_'], rfl, NamePart.firstAccept rfl hname hlc⟩
    · rename_i hallow
      cases h
      exact ⟨seen, [ch], rfl,
        NamePart.firstSkip rfl rfl (nameByte_forbidden hlow fun hh => hallow hh.2)⟩
  · rename_i hus
    split at h
    · cases h
    · cases h
      exact ⟨seen, [ch], rfl,
        NamePart.firstSkip rfl rfl (nameByte_forbidden hlow fun hh => hus hh.1)⟩

/-- `sw_name`. -/
theorem headerName_inv (hs : s.state = .swName) (hinv : HeaderInv allowUnderscores seen s)
    (h : headerName allowUnderscores seen s ch = .more s') :
    HeaderInv allowUnderscores (seen ++ [ch]) s' := by
  simp only [HeaderInv, hs] at hinv
  obtain ⟨pre, name, rfl, hname⟩ := hinv
  have hgrow : pre ++ name ++ [ch] = pre ++ (name ++ [ch]) := append_assoc _ _ _
  simp only [headerName] at h
  split at h
  · rename_i hlow
    cases h
    obtain ⟨hok, hlc⟩ := nameByte_of_lowcase hlow allowUnderscores
    simp only [HeaderInv, pushName, hs]
    exact ⟨pre, name ++ [ch], hgrow, hname.accept hok hlc⟩
  rename_i hlow
  split at h
  · rename_i hus
    split at h
    · rename_i hallow
      cases h
      subst hus
      obtain ⟨hok, hlc⟩ := nameByte_underscore hallow
      simp only [HeaderInv, pushName, hs]
      exact ⟨pre, name ++ [byte '_'], hgrow, hname.accept hok hlc⟩
    · rename_i hallow
      cases h
      simp only [HeaderInv, markInvalid, hs]
      exact ⟨pre, name ++ [ch], hgrow,
        hname.skip (nameByte_forbidden hlow fun hh => hallow hh.2)⟩
  rename_i hus
  split at h
  · -- the colon
    cases h
    exact ⟨pre, name, prefix_append _ _,
      ⟨hname.start, hname.nonempty, hname.hash_eq, hname.valid⟩, rfl⟩
  split at h
  · -- the end of a line without a colon
    cases h
    refine ⟨pre, name, pre ++ name, [], by simp, ?_⟩
    exact ⟨⟨hname.start, hname.nonempty, hname.hash_eq, hname.valid⟩, rfl, prefix_rfl,
      rfl, by simp [emptyValue], ValuePart.nil⟩
  split at h
  · cases h
  split at h
  · cases h
    trivial
  split at h
  · cases h
  · cases h
    simp only [HeaderInv, markInvalid, hs]
    exact ⟨pre, name ++ [ch], hgrow, hname.skip (nameByte_forbidden hlow fun hh => hus hh.1)⟩

/-- `sw_space_before_value`. -/
theorem spaceBeforeValue_inv (hs : s.state = .swSpaceBeforeValue)
    (hinv : HeaderInv allowUnderscores seen s)
    (h : spaceBeforeValue seen.length s ch = .more s') :
    HeaderInv allowUnderscores (seen ++ [ch]) s' := by
  simp only [HeaderInv, hs] at hinv
  obtain ⟨pre, name, hpre, hname, hend⟩ := hinv
  simp only [spaceBeforeValue] at h
  split at h
  · cases h
    simp only [HeaderInv, hs]
    exact ⟨pre, name, hpre.trans (prefix_append _ _), hname, hend⟩
  rename_i hspace
  split at h
  · cases h
    refine ⟨pre, name, seen, [], by simp, ?_⟩
    exact ⟨⟨hname.start, hname.nonempty, hname.hash_eq, hname.valid⟩, hend, hpre, rfl,
      by simp [emptyValue], ValuePart.nil⟩
  rename_i hcr
  split at h
  · cases h
  rename_i hlf
  split at h
  · cases h
  · rename_i hnul
    cases h
    refine ⟨pre, name, seen, [ch], rfl, by simp, hpre,
      ⟨hname.start, hname.nonempty, hname.hash_eq, hname.valid⟩, hend, rfl, ?_⟩
    exact ValuePart.nil.snoc [] (Or.inr rfl) (by simp) ⟨hcr, hlf, hnul⟩ hspace

/-- `sw_value`. -/
theorem headerValue_inv (hs : s.state = .swValue) (hinv : HeaderInv allowUnderscores seen s)
    (h : headerValue seen.length s ch = .more s') :
    HeaderInv allowUnderscores (seen ++ [ch]) s' := by
  simp only [HeaderInv, hs] at hinv
  obtain ⟨pre, name, base, val, rfl, hne, hpre, hname, hend, hstart, hval⟩ := hinv
  have hparts : LineParts allowUnderscores
      { s.fields with headerEnd := some (base ++ val).length } s.hash pre name base val :=
    ⟨⟨hname.start, hname.nonempty, hname.hash_eq, hname.valid⟩, hend, hpre, hstart, rfl, hval⟩
  simp only [headerValue] at h
  split at h
  · rename_i hspace
    cases h
    exact ⟨pre, name, base, val, [ch], rfl, hne, by simpa using hspace, hparts⟩
  rename_i hspace
  split at h
  · cases h
    exact ⟨pre, name, base, val, prefix_append _ _, hparts⟩
  rename_i hcr
  split at h
  · cases h
  rename_i hlf
  split at h
  · cases h
  · rename_i hnul
    cases h
    simp only [HeaderInv, hs]
    refine ⟨pre, name, base, val ++ [ch], append_assoc _ _ _, by simp, hpre, hname, hend,
      hstart, ?_⟩
    simpa using hval.snoc [] (Or.inr rfl) (by simp) ⟨hcr, hlf, hnul⟩ hspace

/-- `sw_space_after_value`. -/
theorem spaceAfterValue_inv (hs : s.state = .swSpaceAfterValue)
    (hinv : HeaderInv allowUnderscores seen s)
    (h : spaceAfterValue seen.length s ch = .more s') :
    HeaderInv allowUnderscores (seen ++ [ch]) s' := by
  simp only [HeaderInv, hs] at hinv
  obtain ⟨pre, name, base, val, sp, rfl, hne, hsp, hparts⟩ := hinv
  simp only [spaceAfterValue] at h
  split at h
  · rename_i hspace
    cases h
    simp only [HeaderInv, hs]
    refine ⟨pre, name, base, val, sp ++ [ch], append_assoc _ _ _, hne, ?_, hparts⟩
    intro c hc
    rw [mem_append, mem_singleton] at hc
    rcases hc with hc | rfl
    · exact hsp c hc
    · exact hspace
  rename_i hspace
  split at h
  · cases h
    exact ⟨pre, name, base, val, by simp, hparts⟩
  rename_i hcr
  split at h
  · cases h
  rename_i hlf
  split at h
  · cases h
  · -- the value goes on: the spaces were inside it
    rename_i hnul
    cases h
    exact ⟨pre, name, base, val ++ sp ++ [ch], by simp, by simp, hparts.before, hparts.named,
      hparts.nameEnd, hparts.start,
      hparts.value.snoc _ (Or.inl hne) hsp ⟨hcr, hlf, hnul⟩ hspace⟩

/-- `sw_almost_done`. -/
theorem headerAlmostDone_inv (hs : s.state = .swAlmostDone)
    (hinv : HeaderInv allowUnderscores seen s) (h : headerAlmostDone s ch = .more s') :
    HeaderInv allowUnderscores (seen ++ [ch]) s' := by
  simp only [HeaderInv, hs] at hinv
  obtain ⟨pre, name, base, val, hpre, hparts⟩ := hinv
  simp only [headerAlmostDone] at h
  split at h
  · cases h
  split at h
  · cases h
    simp only [HeaderInv, hs]
    exact ⟨pre, name, base, val, hpre.trans (prefix_append _ _), hparts⟩
  · cases h

/-- **One byte keeps the invariant.** -/
theorem headerStep_inv (hinv : HeaderInv allowUnderscores seen s)
    (h : headerStep allowUnderscores seen s ch = .more s') :
    HeaderInv allowUnderscores (seen ++ [ch]) s' := by
  cases hs : s.state with
  | swStart =>
    simp only [headerStep, hs] at h
    exact headerStart_inv h
  | swName =>
    simp only [headerStep, hs] at h
    exact headerName_inv hs hinv h
  | swSpaceBeforeValue =>
    simp only [headerStep, hs] at h
    exact spaceBeforeValue_inv hs hinv h
  | swValue =>
    simp only [headerStep, hs] at h
    exact headerValue_inv hs hinv h
  | swSpaceAfterValue =>
    simp only [headerStep, hs] at h
    exact spaceAfterValue_inv hs hinv h
  | swIgnoreLine =>
    simp only [headerStep, hs] at h
    cases h
    split <;> simp [HeaderInv, hs]
  | swAlmostDone =>
    simp only [headerStep, hs] at h
    exact headerAlmostDone_inv hs hinv h
  | swHeaderAlmostDone =>
    simp only [headerStep, hs] at h
    split at h <;> cases h

/-- **The end of a line.** Where the parser returns a header its parts are known. -/
theorem headerStep_done {i : ℕ} (hinv : HeaderInv allowUnderscores seen s)
    (h : headerStep allowUnderscores seen s ch = .stop (.done f hash i)) :
    ∃ pre name base val, base ++ val <+: seen ∧
      LineParts allowUnderscores f hash pre name base val := by
  cases hs : s.state with
  | swStart =>
    simp only [headerStep, hs, headerStart, startName] at h
    split at h
    · cases h
    split at h
    · cases h
    split at h
    · cases h
    split at h
    · split at h <;> cases h
    split at h <;> cases h
  | swName =>
    simp only [HeaderInv, hs] at hinv
    obtain ⟨pre, name, rfl, hname⟩ := hinv
    simp only [headerStep, hs, headerName] at h
    split at h
    · cases h
    split at h
    · split at h <;> cases h
    split at h
    · cases h
    split at h
    · cases h
    split at h
    · cases h
      refine ⟨pre, name, pre ++ name, [], by simp, ?_⟩
      exact ⟨⟨hname.start, hname.nonempty, hname.hash_eq, hname.valid⟩, rfl, prefix_rfl,
        rfl, by simp [emptyValue], ValuePart.nil⟩
    split at h
    · cases h
    split at h <;> cases h
  | swSpaceBeforeValue =>
    simp only [HeaderInv, hs] at hinv
    obtain ⟨pre, name, hpre, hname, hend⟩ := hinv
    simp only [headerStep, hs, spaceBeforeValue] at h
    split at h
    · cases h
    split at h
    · cases h
    split at h
    · cases h
      refine ⟨pre, name, seen, [], by simp, ?_⟩
      exact ⟨⟨hname.start, hname.nonempty, hname.hash_eq, hname.valid⟩, hend, hpre, rfl,
        by simp [emptyValue], ValuePart.nil⟩
    split at h <;> cases h
  | swValue =>
    simp only [HeaderInv, hs] at hinv
    obtain ⟨pre, name, base, val, rfl, hne, hpre, hname, hend, hstart, hval⟩ := hinv
    simp only [headerStep, hs, headerValue] at h
    split at h
    · cases h
    split at h
    · cases h
    split at h
    · cases h
      refine ⟨pre, name, base, val, prefix_rfl, ?_⟩
      exact ⟨⟨hname.start, hname.nonempty, hname.hash_eq, hname.valid⟩, hend, hpre, hstart,
        rfl, hval⟩
    split at h <;> cases h
  | swSpaceAfterValue =>
    simp only [HeaderInv, hs] at hinv
    obtain ⟨pre, name, base, val, sp, rfl, hne, hsp, hparts⟩ := hinv
    simp only [headerStep, hs, spaceAfterValue] at h
    split at h
    · cases h
    split at h
    · cases h
    split at h
    · cases h
      exact ⟨pre, name, base, val, prefix_append _ _, hparts⟩
    split at h <;> cases h
  | swIgnoreLine =>
    simp only [headerStep, hs] at h
    cases h
  | swAlmostDone =>
    simp only [HeaderInv, hs] at hinv
    obtain ⟨pre, name, base, val, hpre, hparts⟩ := hinv
    simp only [headerStep, hs, headerAlmostDone] at h
    split at h
    · cases h
      exact ⟨pre, name, base, val, hpre, hparts⟩
    split at h <;> cases h
  | swHeaderAlmostDone =>
    simp only [headerStep, hs] at h
    split at h <;> cases h

end Step

/-! ### Returned headers -/

/-- The name of a returned header, `header_name_start .. header_name_end`. -/
def nameOf (mem : List UInt8) (h : HeaderRequest) : List UInt8 :=
  between mem h.headerNameStart h.headerNameEnd

/-- The value of a returned header, `header_start .. header_end`. -/
def valueOf (mem : List UInt8) (h : HeaderRequest) : List UInt8 :=
  between mem h.headerStart h.headerEnd

/-- What a returned header is worth, over the memory it points into. -/
structure HeaderSound (allowUnderscores : Bool) (mem : List UInt8) (h : HeaderRequest) :
    Prop where
  placed : ∃ ns ne vs ve, h.headerNameStart = some ns ∧ h.headerNameEnd = some ne ∧
    h.headerStart = some vs ∧ h.headerEnd = some ve ∧
    ns < ne ∧ ne ≤ vs ∧ vs ≤ ve ∧ ve < mem.length
  clean : ∀ c ∈ valueOf mem h, c ≠ cr ∧ c ≠ lf ∧ c ≠ 0
  noLeading : (valueOf mem h).head? ≠ some (byte ' ')
  noTrailing : (valueOf mem h).getLast? ≠ some (byte ' ')
  hash_accepted : h.headerHash = hashKeyLc ((nameOf mem h).filter (nameByte allowUnderscores))
  hash_valid : h.invalidHeader = false → h.headerHash = hashKeyLc (nameOf mem h)
  valid : h.invalidHeader = false → ∀ c ∈ nameOf mem h, nameByte allowUnderscores c = true

/-- The parts of a line make a sound header. -/
theorem LineParts.sound {f : HeaderFields} {hash : UInt64} {i : ℕ}
    {pre name base val mem : List UInt8} (h : LineParts allowUnderscores f hash pre name base val)
    (hmem : base ++ val <+: mem) (hlt : (base ++ val).length < mem.length) :
    HeaderSound allowUnderscores mem
      { f with state := .swStart, headerHash := hash, lowcaseIndex := i } := by
  have hn : between mem f.headerNameStart f.headerNameEnd = name := by
    obtain ⟨post, rfl⟩ := hmem
    obtain ⟨mid, rfl⟩ := h.before
    rw [h.named.start, h.nameEnd, append_assoc _ val post, append_assoc _ mid]
    exact between_part pre name _
  have hv : between mem f.headerStart f.headerEnd = val := by
    obtain ⟨post, rfl⟩ := hmem
    rw [h.start, h.ended]
    exact between_part base val post
  have hlen := length_pos_of_ne_nil h.named.nonempty
  have hpre := h.before.length_le
  rw [length_append] at hpre hlt
  constructor
  · refine ⟨pre.length, (pre ++ name).length, base.length, (base ++ val).length, h.named.start,
      h.nameEnd, h.start, h.ended, ?_, ?_, ?_, ?_⟩
    · rw [length_append]
      omega
    · rw [length_append]
      omega
    · rw [length_append]
      omega
    · rw [length_append]
      omega
  · rw [valueOf, hv]
    exact h.value.clean
  · rw [valueOf, hv]
    exact h.value.noLeading
  · rw [valueOf, hv]
    exact h.value.noTrailing
  · rw [nameOf, hn]
    exact h.named.hash_eq
  · intro hinvalid
    have hall : name.filter (nameByte allowUnderscores) = name :=
      filter_eq_self.mpr (h.named.valid hinvalid)
    rw [nameOf, hn, ← hall]
    exact h.named.hash_eq
  · rw [nameOf, hn]
    exact h.named.valid

/-- A header returned by a call from the start of a line is sound, and the next call
starts at the start of a line of the same memory. -/
theorem parseHeaderLine_sound {r r' : HeaderRequest} {b b' : Buf} (hr : r.state = .swStart)
    (h : parseHeaderLine allowUnderscores r b = (.ok, r', b')) :
    HeaderSound allowUnderscores (b.before ++ b.rest) r' ∧ r'.state = .swStart ∧
      b'.before ++ b'.rest = b.before ++ b.rest := by
  rw [parseHeaderLine, Resumable.call] at h
  split at h
  · cases h
  · cases h
  · rename_i fields hash i rest hcall
    cases h
    split at hcall
    · cases hcall
    rename_i e rest' hscan
    cases hcall
    have hinit : HeaderInv allowUnderscores b.before
        ((headerScanner allowUnderscores).saved r) := by
      simp [HeaderInv, headerScanner, headerSaved, hr]
    obtain ⟨read, s, c, cs, hin, hrest, hinv, hstop⟩ :=
      (scan_invariant (fun _ _ _ _ => headerStep_inv) b.rest b.before _ hinit).2 _ _ hscan
    obtain ⟨pre, name, base, val, hpre, hparts⟩ := headerStep_done hinv hstop
    refine ⟨?_, rfl, ?_⟩
    · refine hparts.sound (hpre.trans ?_) ?_
      · rw [hin, ← append_assoc]
        exact prefix_append _ _
      · have := hpre.length_le
        rw [hin, hrest]
        simp only [length_append, length_cons] at this ⊢
        omega
    · simp [Buf.advance]
  · cases h

/-- Every header of a run that starts at the start of a line is sound. -/
theorem headerLines_all_sound (allowUnderscores : Bool) (r : HeaderRequest) (b : Buf)
    (hr : r.state = .swStart) :
    ∀ h ∈ (headerLines allowUnderscores r b).1,
      HeaderSound allowUnderscores (b.before ++ b.rest) h := by
  induction r, b using headerLines.induct allowUnderscores with
  | case1 r b hok out ih =>
    have hpart : parseHeaderLine allowUnderscores r b = (.ok, out.2.1, out.2.2) :=
      Prod.ext hok rfl
    obtain ⟨hsound, hstart, hmem⟩ := parseHeaderLine_sound hr hpart
    rw [headerLines_ok hpart]
    intro h hh
    rcases mem_cons.mp hh with rfl | hh
    · exact hsound
    · rw [← hmem]
      exact ih hstart h hh
  | case2 r b hne =>
    rw [headerLines_not_ok hne]
    intro h hh
    simp at hh

/-- **Header lines: fragmentation independence and soundness.** However the bytes are
cut into reads, the headers, the final code and the fields are those of one buffer with
all the bytes, and every header returned is sound. -/
theorem headerLines_sound (allowUnderscores : Bool) (f : HeaderFields) (hash : UInt64) (i : ℕ)
    (b : Buf) (x : List UInt8) (xs : List (List UInt8)) :
    let r : HeaderRequest := { f with state := .swStart, headerHash := hash, lowcaseIndex := i }
    let cut := headerPieces allowUnderscores r b x xs
    let one := headerLines allowUnderscores r (b.append (x ++ xs.flatten))
    cut.1 = one.1 ∧ cut.2.1 = one.2.1 ∧
      cut.2.2.1.toHeaderFields = one.2.2.1.toHeaderFields ∧
      ∀ h ∈ cut.1, HeaderSound allowUnderscores (b.before ++ b.rest ++ x ++ xs.flatten) h := by
  intro r cut one
  have hobs : observed cut = observed one := observed_headerPieces allowUnderscores xs r b x
  simp only [observed, Prod.mk.injEq] at hobs
  obtain ⟨hheaders, hcode, hfields⟩ := hobs
  refine ⟨hheaders, hcode, hfields, ?_⟩
  have hmem : b.before ++ b.rest ++ x ++ xs.flatten
      = (b.append (x ++ xs.flatten)).before ++ (b.append (x ++ xs.flatten)).rest := by
    simp [Buf.append]
  rw [hheaders, hmem]
  exact headerLines_all_sound allowUnderscores r _ rfl

/-- The line `a!b: c`, and the end of the header. -/
def invalidNameLine : List UInt8 :=
  ['a', '!', 'b', ':', ' ', 'c'].map byte ++ [cr, lf]

/-- A byte that may not stand in a name is skipped by the hash: the header `a!b` is
returned, flagged, with the hash of `ab`. -/
theorem headerHash_invalid_name :
    (parseHeaderLine false {} ⟨[], invalidNameLine⟩).1 = .ok ∧
      nameOf invalidNameLine (parseHeaderLine false {} ⟨[], invalidNameLine⟩).2.1
        = ['a', '!', 'b'].map byte ∧
      (parseHeaderLine false {} ⟨[], invalidNameLine⟩).2.1.headerHash
        = hashKeyLc (['a', 'b'].map byte) ∧
      (parseHeaderLine false {} ⟨[], invalidNameLine⟩).2.1.headerHash
        ≠ hashKeyLc (nameOf invalidNameLine
            (parseHeaderLine false {} ⟨[], invalidNameLine⟩).2.1) := by
  decide

end Hengine
