import Mathlib.Data.List.Basic
import Mathlib.Data.List.Count

/-!
# Splitting a String

The model of `comm_split_string` and of the key and value parsing on top of it in
`ngx_comm_string.c`. The loop reads one field a turn; where the text ends in the separator, an
empty field is added after the loop, but only if it leaves **one slot more** of the output free
(`index < out_len - 1`). So a text that ends in the separator and has exactly as many fields as
there are slots loses its last field, and the three slots of the key and value parsing, which are
there to see a second `=`, do not see one at the end.
-/

namespace Hengine.SplitString

open List

/-! ### The code -/

/-- The inner loop, from `pos` on: the field so far and `last_emtpy`; then the field, what is
left, and the flag. -/
def fieldLoop (terminate : UInt8) (field : List UInt8) (lastEmpty : Bool) :
    List UInt8 → List UInt8 × List UInt8 × Bool
  | [] => (field, [], lastEmpty)
  | c :: pos =>
    if c = terminate then (field, pos, true)
    else fieldLoop terminate (field ++ [c]) false pos

/-- The outer loop, with the number of slots that are free: the fields, and the flag. -/
def splitLoop (terminate : UInt8) : ℕ → Bool → List UInt8 → List (List UInt8) × Bool
  | _, lastEmpty, [] => ([], lastEmpty)
  | 0, lastEmpty, _ :: _ => ([], lastEmpty)
  | slots + 1, lastEmpty, c :: pos =>
    let (field, rest, flag) := fieldLoop terminate [] lastEmpty (c :: pos)
    let (fields, flag) := splitLoop terminate slots flag rest
    (field :: fields, flag)

/-- `comm_split_string`: the fields written; their number is returned. -/
def commSplitString (outLen : ℕ) (input : List UInt8) (terminate : UInt8) : List (List UInt8) :=
  let r := splitLoop terminate outLen false input
  if r.2 && r.1.length + 1 < outLen then r.1 ++ [[]] else r.1

/-- `ngx_strncmp` over two texts of one length, as a test for equality: it ends at a null byte. -/
def strncmpEq : List UInt8 → List UInt8 → Bool
  | a :: as, b :: bs => if a = b then a = 0 || strncmpEq as bs else false
  | _, _ => true

/-- `ngx_comm_strcmp`, as a test for equality. -/
def commStrcmpEq (v1 v2 : List UInt8) : Bool := v1.length = v2.length && strncmpEq v1 v2

/-- `MAX_LINE_KEY_NUM`. -/
def maxLineKeyNum : ℕ := 128

/-- The loop of `ngx_comm_parse_string_value` over the items; `61` is `=`. -/
def valueLoop (key : List UInt8) : List (List UInt8) → Option (List UInt8)
  | [] => none
  | item :: items =>
    match commSplitString 3 item 61 with
    | [k, v] => if commStrcmpEq k key then some v else valueLoop key items
    | _ => none

/-- `ngx_comm_parse_string_value`. -/
def parseStringValue (line key : List UInt8) (terminate : UInt8) : Option (List UInt8) :=
  let arr := commSplitString maxLineKeyNum line terminate
  if arr.length = maxLineKeyNum then none else valueLoop key arr

/-! ### What splitting is for -/

/-- The fields of a text; the empty text has none. -/
def fields (terminate : UInt8) (text : List UInt8) : List (List UInt8) :=
  if text = [] then [] else text.splitOn terminate

/-- The text ends in the separator. -/
def EndsWith (text : List UInt8) (terminate : UInt8) : Prop := text.getLast? = some terminate

instance (text : List UInt8) (terminate : UInt8) : Decidable (EndsWith text terminate) :=
  inferInstanceAs (Decidable (_ = _))

/-- The fields that the loop finds: an empty one at the end is not among them. -/
def found (terminate : UInt8) (text : List UInt8) : List (List UInt8) :=
  if text = [] ∨ EndsWith text terminate then (text.splitOn terminate).dropLast
  else text.splitOn terminate

/-! ### The loops -/

variable {terminate : UInt8}

/-- A field up to its separator. -/
theorem fieldLoop_cut {x : List UInt8} (rest : List UInt8) (hx : terminate ∉ x) :
    ∀ (field : List UInt8) (lastEmpty : Bool),
      fieldLoop terminate field lastEmpty (x ++ terminate :: rest) = (field ++ x, rest, true) := by
  induction x with
  | nil => simp [fieldLoop]
  | cons c x ih =>
    intro field lastEmpty
    have hc : c ≠ terminate := fun h => hx (h ▸ mem_cons_self)
    rw [cons_append, fieldLoop, if_neg hc, ih (fun h => hx (mem_cons_of_mem c h)),
      append_assoc, singleton_append]

/-- The rest of the text, where no separator is left. -/
theorem fieldLoop_all {x : List UInt8} (hx : terminate ∉ x) :
    ∀ (field : List UInt8) (lastEmpty : Bool), fieldLoop terminate field lastEmpty x =
      (field ++ x, [], if x = [] then lastEmpty else false) := by
  induction x with
  | nil => simp [fieldLoop]
  | cons c x ih =>
    intro field lastEmpty
    have hc : c ≠ terminate := fun h => hx (h ▸ mem_cons_self)
    rw [fieldLoop, if_neg hc, ih (fun h => hx (mem_cons_of_mem c h))]
    simp

/-- A text has no terminator or is cut at its first one. -/
theorem cut (terminate : UInt8) (text : List UInt8) :
    terminate ∉ text ∨ ∃ x rest, terminate ∉ x ∧ text = x ++ terminate :: rest := by
  by_cases h : terminate ∈ text
  · obtain ⟨x, rest, rfl, hx⟩ := eq_append_cons_of_mem h
    exact .inr ⟨x, rest, hx, rfl⟩
  · exact .inl h

theorem endsWith_append (terminate : UInt8) (x rest : List UInt8) :
    EndsWith (x ++ terminate :: rest) terminate ↔ rest = [] ∨ EndsWith rest terminate := by
  cases rest <;> simp [EndsWith, getLast?_cons]

/-- The fields behind a first one. -/
theorem found_append {x : List UInt8} (hx : terminate ∉ x) (rest : List UInt8) :
    found terminate (x ++ terminate :: rest) = x :: found terminate rest := by
  have hne : rest.splitOn terminate ≠ [] := splitOn_ne_nil terminate rest
  have hend := endsWith_append terminate x rest
  rw [found, found, splitOn_append_cons_self_of_not_mem hx]
  by_cases h : rest = [] ∨ EndsWith rest terminate
  · rw [if_pos (.inr (hend.mpr h)), if_pos h, dropLast_cons_of_ne_nil hne]
  · rw [if_neg (by simpa [hend] using h), if_neg h]

/-- A text without a terminator is one piece. -/
theorem found_single {x : List UInt8} (hx : terminate ∉ x) :
    found terminate x = if x = [] then [] else [x] := by
  have hend : ¬ EndsWith x terminate := fun h => hx (mem_of_getLast? h)
  rw [found, splitOn_eq_singleton hx]
  by_cases hnil : x = [] <;> simp [hnil, hend]

/-- **The loop** fills the slots with the fields it finds; where it does not need all of them, the
flag says whether the text ends in the separator. -/
theorem splitLoop_spec (terminate : UInt8) : ∀ (slots : ℕ) (lastEmpty : Bool) (text : List UInt8),
    (splitLoop terminate slots lastEmpty text).1 = (found terminate text).take slots ∧
      ((found terminate text).length < slots → (splitLoop terminate slots lastEmpty text).2 =
        if text = [] then lastEmpty else decide (EndsWith text terminate))
  | slots, lastEmpty, [] => by cases slots <;> simp [splitLoop, found]
  | 0, lastEmpty, c :: pos => by simp [splitLoop]
  | slots + 1, lastEmpty, c :: pos => by
    rw [splitLoop]
    obtain hx | ⟨x, rest, hx, htext⟩ := cut terminate (c :: pos)
    · have hend : ¬ EndsWith (c :: pos) terminate := fun h => hx (mem_of_getLast? h)
      rw [fieldLoop_all hx, found_single hx]
      cases slots <;> simp [splitLoop, hend]
    · obtain ⟨hfields, hflag⟩ := splitLoop_spec terminate slots true rest
      rw [htext, fieldLoop_cut rest hx, found_append hx]
      refine ⟨by simp [hfields], fun hlen => ?_⟩
      have hlen' : (found terminate rest).length < slots := by simpa using hlen
      have hlast := hflag hlen'
      rw [if_neg (by simp)]
      by_cases hrest : rest = []
      · simpa [hrest, EndsWith] using hlast
      · simpa [hrest, endsWith_append] using hlast

/-- **What is found** are all fields, but for the empty one behind a last separator. -/
theorem fields_eq (terminate : UInt8) (text : List UInt8) :
    fields terminate text =
      if EndsWith text terminate then found terminate text ++ [[]] else found terminate text := by
  by_cases hnil : text = []
  · simp [fields, found, hnil, EndsWith]
  by_cases hend : EndsWith text terminate
  · obtain ⟨x, rfl⟩ : ∃ x, text = x ++ [terminate] := getLast?_eq_some_iff.mp hend
    rw [if_pos hend, fields, if_neg hnil, found, if_pos (.inr hend),
      splitOn_append_cons_self, splitOn_nil, dropLast_concat]
  · rw [if_neg hend, fields, if_neg hnil, found, if_neg (by simp [hnil, hend])]

/-- The call, by what the loop finds. -/
theorem commSplitString_eq (outLen : ℕ) (text : List UInt8) (terminate : UInt8) :
    commSplitString outLen text terminate =
      if EndsWith text terminate ∧ (found terminate text).length + 1 < outLen then
        found terminate text ++ [[]]
      else (found terminate text).take outLen := by
  obtain ⟨hfields, hflag⟩ := splitLoop_spec terminate outLen false text
  rw [commSplitString, hfields]
  by_cases hlen : (found terminate text).length + 1 < outLen
  · have htake : (found terminate text).take outLen = found terminate text :=
      take_of_length_le (by omega)
    rw [hflag (by omega), htake]
    by_cases hnil : text = []
    · simp [hnil, EndsWith]
    · simp [hnil, hlen]
  · have hfull : ¬ ((found terminate text).take outLen).length + 1 < outLen := by
      rw [length_take]
      omega
    rw [if_neg fun h => hfull (of_decide_eq_true (Bool.and_eq_true_iff.mp h).2),
      if_neg fun h => hlen h.2]

/-- **When a field is lost**: the text ends in the separator, and its fields fill the slots. -/
theorem commSplitString_iff (outLen : ℕ) (text : List UInt8) (terminate : UInt8) :
    commSplitString outLen text terminate = (fields terminate text).take outLen ↔
      ¬ (EndsWith text terminate ∧ (fields terminate text).length = outLen) := by
  rw [commSplitString_eq, fields_eq]
  by_cases hend : EndsWith text terminate
  · rw [if_pos hend]
    obtain hlt | heq | hgt := Nat.lt_trichotomy ((found terminate text).length + 1) outLen
    · rw [if_pos ⟨hend, hlt⟩, take_of_length_le (by simp; omega)]
      simp [hend, Nat.ne_of_lt hlt]
    · subst heq
      rw [if_neg (by simp), take_of_length_le (Nat.le_succ _),
        take_of_length_le (by simp)]
      simp [hend]
    · rw [if_neg fun h => by omega, take_append_of_le_length (by omega)]
      simp [hend, Nat.ne_of_gt hgt]
  · simp [hend]

/-! ### Key and value -/

theorem length_splitOn (terminate : UInt8) (text : List UInt8) :
    (text.splitOn terminate).length = text.count terminate + 1 := by
  induction text with
  | nil => simp
  | cons c text ih =>
    rw [splitOn_cons_eq_if_modifyHead, count_cons]
    split_ifs <;> simp [ih]

/-- The number of fields of an item, in three slots: a second separator at the end is not seen. -/
theorem length_three (item : List UInt8) (sep : UInt8) :
    (commSplitString 3 item sep).length = 2 ↔
      item.count sep = 1 ∨ item.count sep = 2 ∧ EndsWith item sep := by
  have hlen : (found sep item).length =
      if item = [] ∨ EndsWith item sep then item.count sep else item.count sep + 1 := by
    rw [found]
    split_ifs <;> simp [length_splitOn]
  rw [commSplitString_eq]
  by_cases hnil : item = []
  · simp [hnil, EndsWith, found]
  by_cases hend : EndsWith item sep
  · have hpos : 0 < item.count sep := count_pos_iff.mpr (mem_of_getLast? hend)
    simp only [hnil, hend, false_or, true_and, if_true, and_true] at hlen ⊢
    split_ifs <;> simp [hlen] <;> omega
  · simp only [hnil, hend, false_and, if_false, and_false, or_false] at hlen ⊢
    simp only [length_take, hlen]
    omega

theorem strncmpEq_self : ∀ v : List UInt8, strncmpEq v v = true
  | [] => rfl
  | c :: v => by simp [strncmpEq, strncmpEq_self v]

/-- A line of one item is accepted, for the key that it names, when the item splits in two. -/
theorem parse_single {line : List UInt8} (h : terminate ∉ line) :
    (∃ key value, parseStringValue line key terminate = some value) ↔
      (commSplitString 3 line 61).length = 2 := by
  have hend : ¬ EndsWith line terminate := fun h' => h (mem_of_getLast? h')
  have harr : commSplitString maxLineKeyNum line terminate = if line = [] then [] else [line] := by
    rw [commSplitString_eq, if_neg fun h' => hend h'.1, found_single h]
    split_ifs <;> rfl
  by_cases hnil : line = []
  · subst hnil
    simp [parseStringValue, valueLoop, maxLineKeyNum, commSplitString, splitLoop]
  · rw [if_neg hnil] at harr
    have hparse : ∀ key, parseStringValue line key terminate = valueLoop key [line] := by
      intro key
      rw [parseStringValue, harr]
      exact if_neg (by simp [maxLineKeyNum])
    simp only [hparse, valueLoop]
    constructor
    · rintro ⟨key, value, hvalue⟩
      split at hvalue
      · rename_i hsplit
        rw [hsplit]
        rfl
      · cases hvalue
    · intro hlen
      obtain ⟨k, v, hsplit⟩ := length_eq_two.mp hlen
      exact ⟨k, v, by simp [hsplit, commStrcmpEq, strncmpEq_self]⟩

/-- **Splitting, exactly.** The first fields are written, as many as there are slots, unless the
text ends in the separator and has as many fields as there are slots; and an item is accepted
as key and value just when it has one `=`, unless it has two and ends in one. -/
theorem splits_iff (outLen : ℕ) (text line : List UInt8) (sep terminate : UInt8)
    (h : terminate ∉ line) :
    (commSplitString outLen text sep = (fields sep text).take outLen ∧
        ((∃ key value, parseStringValue line key terminate = some value) ↔ line.count 61 = 1)) ↔
      ¬ (EndsWith text sep ∧ (fields sep text).length = outLen) ∧
        ¬ (line.count 61 = 2 ∧ EndsWith line 61) := by
  rw [commSplitString_iff, parse_single h, length_three]
  refine and_congr_right fun _ => ⟨fun hiff ⟨htwo, hend⟩ => ?_, fun hno => ?_⟩
  · have hone := hiff.mp (.inr ⟨htwo, hend⟩)
    omega
  · exact ⟨fun h' => h'.resolve_right hno, .inl⟩

/-- Four pieces are split off, and an item of one `=` has a value. -/
theorem splits_four :
    commSplitString 4 [97, 44, 98, 44] 44 = (fields 44 [97, 44, 98, 44]).take 4 ∧
      ((∃ key value, parseStringValue [97, 61, 98] key 44 = some value) ↔
        [97, 61, 98].count 61 = 1) :=
  (splits_iff 4 [97, 44, 98, 44] [97, 61, 98] 44 44 (by decide)).mpr (by decide)

/-- A field behind the last terminator is lost, and an item of two `=` has a value. -/
theorem lost_field :
    ¬ (commSplitString 2 [97, 44] 44 = (fields 44 [97, 44]).take 2) ∧
      ¬ ((∃ key value, parseStringValue [97, 61, 61] key 44 = some value) ↔
        [97, 61, 61].count 61 = 1) :=
  ⟨by decide, fun h => absurd (h.mp ⟨[97], [], by decide⟩) (by decide)⟩

end Hengine.SplitString
