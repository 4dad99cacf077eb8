import Hengine.Upstream.StickyCookie
import Mathlib.Data.List.TakeWhile

/-!
# Whose Cookie the Session-Sticky Balancer Reads

The cookies of a header line are what stands between its semicolons; a cookie has the name before
its first equals sign and the value after it, without the blanks around them. The balancer does not
split a line: it takes the first occurrence of the configured name as a substring, in the first line
where a space or an equals sign follows that occurrence, and scans from there. The occurrence may be
the end of a longer name or a part of a value, and a line with the cookie is passed over when a
longer name that starts like it stands before it.
-/

namespace Hengine.StickyCookie

open List Option

/-- What can stand before a cookie: nothing or a part of the line that ends with a semicolon, and
blanks. -/
def Starts (before : List UInt8) : Prop :=
  ∃ pre b, before = pre ++ b ∧ Blank b ∧ (pre = [] ∨ pre.getLast? = some (byte ';'))

/-- A cookie of exactly this name stands in the line, with a value from `v` to `p`. -/
def IsCookie (name : CookieName) (line : List UInt8) (v p : ℕ) : Prop :=
  ∃ before text value, line = before ++ (name.bytes ++ text) ∧ Starts before ∧
    Assigns text value ∧ v + value.length = line.length ∧
    p = v + (value.takeWhile (· ≠ byte ';')).length

/-- A cookie of exactly this name stands in the line, with a value that is not empty. -/
def HasCookie (name : CookieName) (line : List UInt8) : Prop :=
  ∃ v p, v < p ∧ IsCookie name line v p

/-- **What is asked of the search**: it takes a cookie of exactly the configured name only, and it
takes one if there is one with a value. -/
def Exact (name : CookieName) (lines : List (List UInt8)) : Prop :=
  (∀ i r, locate name.bytes lines = some (i, r) → IsCookie name (lines.getD i []) r.v r.p) ∧
    ((∃ line ∈ lines, HasCookie name line) → locate name.bytes lines ≠ none)

/-- The first occurrence of the name in a line is at `p`, before any zero byte, and a space or an equals
sign follows it. -/
structure Stops (name : CookieName) (line : List UInt8) (p : ℕ) : Prop where
  occurs : name.bytes <+: line.drop p
  first : ∀ q < p, ¬ name.bytes <+: line.drop q
  zero : ∀ c ∈ line.take p, c ≠ 0
  next : (line.drop (p + name.bytes.length)).head? = some (byte ' ') ∨
    (line.drop (p + name.bytes.length)).head? = some (byte '=')

/-- The first line in which the first occurrence of the name is followed by a space or an equals
sign, and where that occurrence is. -/
def FirstLine (name : CookieName) (lines : List (List UInt8)) (line : List UInt8) (p : ℕ) : Prop :=
  ∃ l₁ l₂, lines = l₁ ++ line :: l₂ ∧ (∀ l ∈ l₁, ∀ q, ¬ Stops name l q) ∧ Stops name line p

/-- The condition: if a value is assigned to what stands at the first occurrence in that first line,
then a cookie starts there; and if some line has a cookie of that name with a value, then there is
such a line, and a value is assigned there. -/
def RightOccurrence (name : CookieName) (lines : List (List UInt8)) : Prop :=
  (∀ line p value, FirstLine name lines line p → value ≠ [] →
      Assigns (line.drop (p + name.bytes.length)) value → Starts (line.take p)) ∧
    ((∃ l ∈ lines, HasCookie name l) → ∃ line p value, FirstLine name lines line p ∧ value ≠ [] ∧
      Assigns (line.drop (p + name.bytes.length)) value)

variable {name : CookieName} {lines : List (List UInt8)} {line : List UInt8} {p : ℕ}

/-! ### The line the search stops at -/

/-- Either no line is hit, or the search is decided in the first line that is. -/
theorem locate_cases (name : CookieName) (lines : List (List UInt8)) :
    (∀ l ∈ lines, hitAt name.bytes l = none) ∧ locate name.bytes lines = none ∨
      ∃ l₁ line l₂ p, lines = l₁ ++ line :: l₂ ∧ (∀ l ∈ l₁, hitAt name.bytes l = none) ∧
        hitAt name.bytes line = some p ∧
        locate name.bytes lines = (scanAt line p).map fun r => (l₁.length, r) := by
  cases hfind : lines.findIdx? fun line => (hitAt name.bytes line).isSome with
  | none =>
    refine Or.inl ⟨fun l hl => ?_, by rw [locate, hfind]; rfl⟩
    simpa using findIdx?_eq_none_iff.mp hfind l hl
  | some i =>
    obtain ⟨hi, hit, hbefore⟩ := findIdx?_eq_some_iff_getElem.mp hfind
    obtain ⟨p, hp⟩ := isSome_iff_exists.mp hit
    refine Or.inr ⟨lines.take i, lines[i], lines.drop (i + 1), p, ?_, fun l hl => ?_, hp, ?_⟩
    · rw [← drop_eq_getElem_cons, take_append_drop]
    · obtain ⟨j, hj, rfl⟩ := getElem_of_mem hl
      rw [length_take] at hj
      have hnot := hbefore j (by omega)
      rw [getElem_take]
      simpa using hnot
    · rw [locate, hfind, length_take, Nat.min_eq_left (Nat.le_of_lt hi)]
      have hget : lines.getD i [] = lines[i] := by
        rw [getD_eq_getElem?_getD, getElem?_eq_getElem hi, getD_some]
      rw [bind_some, hget, hp, bind_some]

/-- **The code stops** at the first occurrence of the name, if the right byte follows it. -/
theorem hitAt_eq_some_iff : hitAt name.bytes line = some p ↔ Stops name line p := by
  have hnext : (line.getD (p + name.bytes.length) 0 == byte ' ' ||
      line.getD (p + name.bytes.length) 0 == byte '=') = true ↔
      (line.drop (p + name.bytes.length)).head? = some (byte ' ') ∨
        (line.drop (p + name.bytes.length)).head? = some (byte '=') := by
    rw [getD_eq_getElem?_getD, ← head?_drop, Bool.or_eq_true, beq_iff_eq, beq_iff_eq]
    cases (line.drop (p + name.bytes.length)).head? with
    | none => decide
    | some c => simp
  rw [hitAt, filter_eq_some_iff, hnext]
  constructor
  · rintro ⟨hfind, hbyte⟩
    obtain ⟨hocc, hfirst, hzero⟩ := strnstr_spec name.ne hfind
    exact ⟨hocc, hfirst, hzero, hbyte⟩
  · rintro ⟨hocc, hfirst, hzero, hbyte⟩
    refine ⟨strnstr_eq_some name.ne (fun c hc => ?_) hocc hfirst, hbyte⟩
    rw [take_add_one, mem_append] at hc
    rcases hc with hc | hc
    · exact hzero c hc
    · -- The byte at the occurrence is the first one of the name.
      rw [← head?_drop] at hc
      obtain ⟨rest, hrest⟩ := hocc
      rw [← hrest, head?_append_of_ne_nil _ name.ne] at hc
      exact (name.token c (mem_of_mem_head? (by simpa using hc))).2.2.2

theorem hitAt_eq_none_iff : hitAt name.bytes line = none ↔ ∀ q, ¬ Stops name line q := by
  simp only [eq_none_iff_forall_ne_some, ne_eq, hitAt_eq_some_iff]

/-- A hit splits the line at the name. -/
theorem hitAt_split (h : hitAt name.bytes line = some p) :
    line = line.take p ++ (name.bytes ++ line.drop (p + name.bytes.length)) ∧
      ((line.drop (p + name.bytes.length)).head? = some (byte ' ') ∨
        (line.drop (p + name.bytes.length)).head? = some (byte '=')) := by
  obtain ⟨⟨rest, hrest⟩, -, -, hnext⟩ := hitAt_eq_some_iff.mp h
  refine ⟨?_, hnext⟩
  rw [← drop_drop, ← hrest, drop_left, hrest, take_append_drop]

/-- **The scanner at a hit** succeeds exactly when a value is assigned there. -/
theorem scanAt_isSome (h : hitAt name.bytes line = some p) :
    (∃ r, scanAt line p = some r) ↔
      ∃ value, value ≠ [] ∧ Assigns (line.drop (p + name.bytes.length)) value := by
  obtain ⟨hsplit, hhead⟩ := hitAt_split h
  have hdrop : line.drop p = name.bytes ++ line.drop (p + name.bytes.length) := by
    obtain ⟨rest, hrest⟩ := (hitAt_eq_some_iff.mp h).occurs
    rw [← drop_drop, ← hrest, drop_left]
  rw [← scan_key_isSome (p + name.bytes.length) hhead, scanAt, hdrop, scan_name]
  constructor
  · rintro ⟨r, hr⟩
    obtain ⟨q, hq, -⟩ := map_eq_some_iff.mp hr
    exact ⟨q, hq⟩
  · rintro ⟨q, hq⟩
    exact ⟨_, by rw [hq]; rfl⟩

/-- A value ends at its semicolon. -/
theorem value_split (value : List UInt8) :
    (∀ c ∈ value.takeWhile (· ≠ byte ';'), c ≠ byte ';') ∧
      (value.dropWhile (· ≠ byte ';') = [] ∨
        (value.dropWhile (· ≠ byte ';')).head? = some (byte ';')) := by
  refine ⟨fun c hc => by simpa using mem_takeWhile_imp hc, ?_⟩
  have hhead := head?_dropWhile_not (· ≠ byte ';') value
  cases hdrop : value.dropWhile (· ≠ byte ';') with
  | nil => exact Or.inl rfl
  | cons c rest =>
    rw [hdrop] at hhead
    simp only [head?_cons, decide_not, Bool.not_eq_false', decide_eq_true_eq] at hhead
    exact Or.inr (by rw [hhead]; rfl)

/-- What the scanner says of an assignment: where the value starts and ends. -/
theorem scanAt_spec {r : Located} (h : hitAt name.bytes line = some p)
    (hr : scanAt line p = some r) :
    ∃ value, Assigns (line.drop (p + name.bytes.length)) value ∧
      r.v + value.length = line.length ∧
      r.p = r.v + (value.takeWhile (· ≠ byte ';')).length := by
  obtain ⟨hsplit, -⟩ := hitAt_split h
  obtain ⟨value, hne, hassign⟩ := (scanAt_isSome h).mp ⟨r, hr⟩
  obtain ⟨b₁, b₂, h₁, h₂, htext, hvalue⟩ := hassign
  refine ⟨value, ⟨b₁, b₂, h₁, h₂, htext, hvalue⟩, ?_⟩
  have hdrop : line.drop p = name.bytes ++ (b₁ ++ byte '=' :: (b₂ ++ value)) := by
    obtain ⟨rest, hrest⟩ := (hitAt_eq_some_iff.mp h).occurs
    rw [← htext, ← drop_drop, ← hrest, drop_left]
  have hlen := congrArg List.length hdrop
  simp only [length_drop, length_append, length_cons] at hlen
  obtain ⟨hin, hpost⟩ := value_split value
  have hwhole := takeWhile_append_dropWhile (p := (· ≠ byte ';')) (l := value)
  have hscan := scanValue_eq (p + name.bytes.length + b₁.length + 1 + b₂.length) hin
    (by rw [hwhole]; exact hne) hpost
  rw [hwhole] at hscan
  rw [scanAt, hdrop, scan_name, scan_key _ h₁, scan_preValue _ h₂ hne hvalue, hscan] at hr
  obtain rfl := Option.some.inj hr
  refine ⟨?_, rfl⟩
  simp only
  have hpos := length_pos_of_ne_nil name.ne
  omega

/-! ### Where a cookie starts -/

/-- A list is split at the last place of a byte in one way. -/
theorem split_last_unique {a b a' b' : List UInt8} {c : UInt8} (h : a ++ c :: b = a' ++ c :: b')
    (hb : c ∉ b) (hb' : c ∉ b') : a = a' ∧ b = b' := by
  rcases append_eq_append_iff.mp h with ⟨m, hm, hm'⟩ | ⟨m, hm, hm'⟩
  · cases m with
    | nil => simp_all
    | cons d m =>
      rw [cons_append, List.cons.injEq] at hm'
      exact absurd (hm'.2 ▸ mem_append_right m mem_cons_self) hb
  · cases m with
    | nil => simp_all
    | cons d m =>
      rw [cons_append, List.cons.injEq] at hm'
      exact absurd (hm'.2 ▸ mem_append_right m mem_cons_self) hb'

/-- A list that ends with blanks after something else is split there in one way. -/
theorem split_blank_unique {a b a' b' : List UInt8} (h : a ++ b = a' ++ b') (hb : Blank b)
    (hb' : Blank b') (ha : ∀ c ∈ a.getLast?, isSpace c = false)
    (ha' : ∀ c ∈ a'.getLast?, isSpace c = false) : a = a' := by
  rcases append_eq_append_iff.mp h with ⟨m, rfl, rfl⟩ | ⟨m, rfl, rfl⟩
  · rcases eq_nil_or_concat' m with rfl | ⟨m, c, rfl⟩
    · simp
    · have hc := ha' c (by simp)
      rw [hb c (by simp)] at hc
      cases hc
  · rcases eq_nil_or_concat' m with rfl | ⟨m, c, rfl⟩
    · simp
    · have hc := ha c (by simp)
      rw [hb' c (by simp)] at hc
      cases hc

theorem CookieName.getLast (name : CookieName) (before : List UInt8) :
    ∀ c ∈ (before ++ name.bytes).getLast?, isSpace c = false := by
  intro c hc
  rw [getLast?_append_of_ne_nil _ name.ne] at hc
  exact (name.token c (mem_of_getLast? hc)).1

/-- **The value tells where the name starts.** -/
theorem before_unique {before before' text text' value value' : List UInt8}
    (h : before ++ (name.bytes ++ text) = before' ++ (name.bytes ++ text'))
    (ht : Assigns text value) (ht' : Assigns text' value') (hlen : value.length = value'.length) :
    before = before' := by
  obtain ⟨b₁, b₂, h₁, h₂, rfl, -⟩ := ht
  obtain ⟨b₁', b₂', h₁', h₂', rfl, -⟩ := ht'
  have hassoc : (before ++ name.bytes ++ b₁ ++ byte '=' :: b₂) ++ value =
      (before' ++ name.bytes ++ b₁' ++ byte '=' :: b₂') ++ value' := by simpa using h
  obtain ⟨hfront, -⟩ := append_inj' hassoc hlen
  have hnot : ∀ {b : List UInt8}, Blank b → byte '=' ∉ b := by
    intro b hb hmem
    have hspace := hb _ hmem
    rw [isSpace_equal] at hspace
    cases hspace
  obtain ⟨hname, -⟩ := split_last_unique hfront (hnot h₂) (hnot h₂')
  have hsame := split_blank_unique hname h₁ h₁' (name.getLast before) (name.getLast before')
  exact append_cancel_right hsame

/-! ### The condition -/

/-- There is one first line at most. -/
theorem FirstLine.unique {line' : List UInt8} {p' : ℕ} (h : FirstLine name lines line p)
    (h' : FirstLine name lines line' p') : line = line' ∧ p = p' := by
  obtain ⟨l₁, l₂, rfl, hbefore, hp⟩ := h
  obtain ⟨l₁', l₂', heq, hbefore', hp'⟩ := h'
  have hline : line = line' := by
    rcases append_eq_append_iff.mp heq with ⟨m, hm, hm'⟩ | ⟨m, hm, hm'⟩
    · cases m with
      | nil => exact (List.cons.inj hm').1
      | cons l m =>
        obtain ⟨rfl, -⟩ := List.cons.inj hm'
        exact absurd hp (hbefore' line (by rw [hm]; simp) p)
    · cases m with
      | nil => exact (List.cons.inj hm').1.symm
      | cons l m =>
        obtain ⟨rfl, -⟩ := List.cons.inj hm'
        exact absurd hp' (hbefore line' (by rw [hm]; simp) p')
  subst hline
  rw [← hitAt_eq_some_iff] at hp hp'
  exact ⟨rfl, Option.some.inj (hp.symm.trans hp')⟩

/-- What the condition says about the first line. -/
theorem rightOccurrence_of_firstLine (h : FirstLine name lines line p) :
    RightOccurrence name lines ↔
      ((∃ value, value ≠ [] ∧ Assigns (line.drop (p + name.bytes.length)) value) →
        Starts (line.take p)) ∧
      ((∃ l ∈ lines, HasCookie name l) →
        ∃ value, value ≠ [] ∧ Assigns (line.drop (p + name.bytes.length)) value) := by
  constructor
  · rintro ⟨hstarts, hfound⟩
    refine ⟨fun ⟨value, hne, hassign⟩ => hstarts line p value h hne hassign, fun hcookie => ?_⟩
    obtain ⟨line', p', value, h', hne, hassign⟩ := hfound hcookie
    obtain ⟨rfl, rfl⟩ := h.unique h'
    exact ⟨value, hne, hassign⟩
  · rintro ⟨hstarts, hfound⟩
    refine ⟨fun line' p' value h' hne hassign => ?_, fun hcookie => ?_⟩
    · obtain ⟨rfl, rfl⟩ := h.unique h'
      exact hstarts ⟨value, hne, hassign⟩
    · obtain ⟨value, hne, hassign⟩ := hfound hcookie
      exact ⟨line, p, value, h, hne, hassign⟩

/-- **What is taken is a cookie** if it stands where one can begin. -/
theorem isCookie_iff {r : Located} (h : hitAt name.bytes line = some p)
    (hr : scanAt line p = some r) : IsCookie name line r.v r.p ↔ Starts (line.take p) := by
  obtain ⟨value, hassign, hv, hp⟩ := scanAt_spec h hr
  obtain ⟨hsplit, -⟩ := hitAt_split h
  constructor
  · rintro ⟨before, text, value', hline, hstarts, hassign', hv', -⟩
    have hlen : value.length = value'.length := by omega
    rw [before_unique (hsplit.symm.trans hline) hassign hassign' hlen]
    exact hstarts
  · intro hstarts
    exact ⟨_, _, value, hsplit, hstarts, hassign, hv, hp⟩

/-- A cookie begins behind a blank or a semicolon. -/
theorem Starts.getLast {before : List UInt8} (h : Starts before) :
    ∀ c ∈ before.getLast?, isSpace c = true ∨ c = byte ';' := by
  obtain ⟨pre, b, rfl, hb, hpre⟩ := h
  intro c hc
  rcases eq_nil_or_concat' b with rfl | ⟨b, d, rfl⟩
  · rw [append_nil] at hc
    rcases hpre with rfl | hpre
    · cases hc
    · rw [hpre] at hc
      exact Or.inr (Option.some.inj hc).symm
  · have hd : d = c := by simpa using hc
    exact Or.inl (hd ▸ hb d (by simp))

set_option maxRecDepth 10000 in
/-- The name `route`, which is the default. -/
def route : CookieName where
  bytes := str "route"
  ne := by decide
  token := by decide

end Hengine.StickyCookie
