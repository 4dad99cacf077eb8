import Mathlib.Data.List.Infix

/-!
# Longest Suffixes in a Set of Words

The states of an automaton that looks for several words at once are the words `N` of a set that
is closed under prefixes. After some text it is in the longest suffix of the text that is in the
set. To find the state after one more letter it does not look at the text again: it looks at its
own state, then at the longest proper suffix of this state in the set, and so on.
-/

namespace Hengine

open List

variable {α : Type*} {N : List α → Prop} {u w s r f : List α} {c : α}

/-- `s` is the longest suffix of `u` in the set. -/
def LongestSuffix (N : List α → Prop) (u s : List α) : Prop :=
  s <:+ u ∧ N s ∧ ∀ r, r <:+ u → N r → r.length ≤ s.length

/-- The words of the set are closed under prefixes. -/
def PrefixClosed (N : List α → Prop) : Prop := ∀ u c, N (u ++ [c]) → N u

theorem LongestSuffix.self (hu : N u) : LongestSuffix N u u :=
  ⟨suffix_refl u, hu, fun _ hr _ => hr.length_le⟩

theorem LongestSuffix.suffix (hs : LongestSuffix N u s) (hr : r <:+ u) (hN : N r) : r <:+ s :=
  suffix_of_suffix_length_le hr hs.1 (hs.2.2 r hr hN)

/-- A suffix of a longer word is empty or ends with its last letter. -/
theorem suffix_snoc_cases (h : r <:+ u ++ [c]) : r = [] ∨ ∃ q, r = q ++ [c] ∧ q <:+ u := by
  rcases eq_nil_or_concat r with rfl | ⟨q, d, rfl⟩
  · exact Or.inl rfl
  · right
    obtain ⟨a, ha⟩ := h
    rw [concat_eq_append] at ha ⊢
    rw [← append_assoc] at ha
    obtain ⟨hu, hd⟩ := append_inj' ha rfl
    cases hd
    exact ⟨q, rfl, a, hu⟩

/-- Words with the same suffixes in the set have the same longest one. -/
theorem LongestSuffix.congr (h : ∀ q, N q → (q <:+ u ↔ q <:+ w)) :
    LongestSuffix N u r ↔ LongestSuffix N w r := by
  constructor
  · rintro ⟨hr, hN, hmax⟩
    exact ⟨(h r hN).mp hr, hN, fun q hq hNq => hmax q ((h q hNq).mpr hq) hNq⟩
  · rintro ⟨hr, hN, hmax⟩
    exact ⟨(h r hN).mpr hr, hN, fun q hq hNq => hmax q ((h q hNq).mp hq) hNq⟩

/-- **One more letter**: what has been read matters only as far as the state goes. -/
theorem LongestSuffix.snoc (hN : PrefixClosed N) (hs : LongestSuffix N u s) :
    LongestSuffix N (u ++ [c]) r ↔ LongestSuffix N (s ++ [c]) r := by
  refine LongestSuffix.congr fun q hq => ?_
  constructor
  · intro h
    rcases suffix_snoc_cases h with rfl | ⟨q, rfl, hqu⟩
    · exact nil_suffix
    · exact suffix_append_self_iff.mpr (hs.suffix hqu (hN q c hq))
  · intro h
    exact h.trans (suffix_append_self_iff.mpr hs.1)

/-- **No successor**: the state after one more letter is then the one that is found from the
longest proper suffix. -/
theorem LongestSuffix.fall {a : α} (hN : PrefixClosed N) (hnone : ¬ N ((a :: w) ++ [c]))
    (hf : LongestSuffix N w f) :
    LongestSuffix N ((a :: w) ++ [c]) r ↔ LongestSuffix N (f ++ [c]) r := by
  rw [← hf.snoc hN]
  refine LongestSuffix.congr fun q hq => ?_
  constructor
  · intro h
    rcases suffix_cons_iff.mp h with rfl | h
    · exact absurd hq hnone
    · exact h
  · intro h
    exact h.trans (suffix_cons a _)

/-- Where a letter is no word, its longest suffix is empty. -/
theorem LongestSuffix.nil (hnil : N []) (hnone : ¬ N [c]) : LongestSuffix N [c] [] := by
  refine ⟨nil_suffix, hnil, fun r hr hNr => ?_⟩
  rcases suffix_cons_iff.mp hr with rfl | hr
  · exact absurd hNr hnone
  · exact hr.length_le

end Hengine
