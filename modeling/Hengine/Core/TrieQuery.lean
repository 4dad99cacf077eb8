import Hengine.Core.TrieClue

/-!
# Searching for Keywords

A search goes through a text once. It ends at the first node with a key that it comes to, and it
does not look for keywords that are suffixes of other nodes. So a keyword within another one is
missed, and a search that falls back to the node of such a keyword may find that this node has no
children at all. This cannot happen if, whenever a keyword is a suffix of a node, some keyword is
a prefix of that node: then the search has ended before.
-/

namespace Hengine

open List Function Option

namespace Trie

variable {V : Type} {ks : List (Keyword V)} {t : Trie V} {p w x : TrieNode} {c : UInt8}

/-! ### Keys and values -/

/-- The node of a keyword. -/
def IsWord (ks : List (Keyword V)) (p : TrieNode) : Prop := ∃ k ∈ ks, k.word = p

theorem length_word (k : Keyword V) : k.word.length = k.str.length := by
  rw [Keyword.word, TrieMode.read]
  split
  · exact length_reverse
  · rfl

/-- **The nodes with a key** are those of keywords, unless the length has no place in the field. -/
theorem key_fill (ks : List (Keyword V)) (p : TrieNode) :
    (fill ks).key p ≠ 0 ↔ IsWord ks p ∧ p.length % 2 ^ 31 ≠ 0 := by
  refine fill_induction (P := fun ks t => t.key p ≠ 0 ↔ IsWord ks p ∧ p.length % 2 ^ 31 ≠ 0)
    ?_ ?_ ks
  · simp [create, IsWord]
  · intro ks k t ih
    have hword : IsWord (ks ++ [k]) p ↔ IsWord ks p ∨ k.word = p := by
      simp [IsWord, or_and_right, exists_or]
    rw [(add_spec t k).2.2.2.1, hword]
    by_cases hp : k.word = p
    · subst hp
      rw [update_self, length_word]
      simp
    · rw [update_of_ne (Ne.symm hp), ih]
      simp [hp]

/-- The value of a keyword is one that has been stored for it. -/
theorem value_fill (ks : List (Keyword V)) (p : TrieNode) (hp : IsWord ks p) :
    ∃ k ∈ ks, k.word = p ∧ (fill ks).value p = some k.value := by
  refine fill_induction
    (P := fun ks t => IsWord ks p → ∃ k ∈ ks, k.word = p ∧ t.value p = some k.value) ?_ ?_ ks hp
  · rintro ⟨k, hk, -⟩
    cases hk
  · rintro ks k t ih ⟨k', hk', hword⟩
    rw [(add_spec t k).2.2.2.2.2]
    by_cases hp : k.word = p
    · exact ⟨k, by simp, hp, by rw [hp, update_self]⟩
    · have hk' : k' ∈ ks := by
        rcases mem_append.mp hk' with hk' | hk'
        · exact hk'
        · rw [mem_singleton.mp hk'] at hword
          exact absurd hword hp
      obtain ⟨k₁, hk₁, hword₁, hvalue⟩ := ih ⟨k', hk', hword⟩
      exact ⟨k₁, by simp [hk₁], hword₁, by rw [update_of_ne (Ne.symm hp), hvalue]⟩

/-- Keywords that are inserted forwards, and at which a search ends. -/
def Plain (ks : List (Keyword V)) : Prop := ∀ k ∈ ks, k.mode = ⟨false, false⟩

theorem Plain.word_eq (h : Plain ks) {k : Keyword V} (hk : k ∈ ks) : k.word = k.str := by
  rw [Keyword.word, h k hk]
  rfl

/-- No node of plain keywords is greedy. -/
theorem greedy_fill (h : Plain ks) (p : TrieNode) : (fill ks).greedy p = false := by
  refine fill_induction (P := fun ks t => Plain ks → t.greedy p = false) (fun _ => rfl) ?_ ks h
  intro ks k t ih hplain
  have hk : k.mode.continues = false := by rw [hplain k (by simp)]
  rw [(add_spec t k).2.2.2.2.1, hk]
  exact ih fun k' hk' => hplain k' (by simp [hk'])

theorem buildClue_eq {junk : ℕ → TrieNode} {fuel : ℕ} {t' : Trie V}
    (h : t.buildClue junk fuel = some t') : t' = { t with searchClue := t'.searchClue } := by
  rw [buildClue, bind_eq_bind, bind_eq_some_iff] at h
  obtain ⟨s, -, hs⟩ := h
  cases hs
  rfl

/-! ### What a search should do -/

/-- A keyword whose node has a key occurs in the text. -/
def Occurs (ks : List (Keyword V)) (text : List UInt8) : Prop :=
  ∃ w, IsWord ks w ∧ w.length % 2 ^ 31 ≠ 0 ∧ w <:+: text

/-- The condition: if a keyword is a suffix of a prefix of a keyword, then some keyword is a prefix
of that prefix. Keywords must not be empty, or so long that their length does not fit. -/
def NoOverlap (ks : List (Keyword V)) : Prop :=
  ∀ k ∈ ks, ∀ u, u <+: k.str → (∃ k' ∈ ks, k'.str <:+ u) →
    ∃ k' ∈ ks, k'.str.length % 2 ^ 31 ≠ 0 ∧ k'.str <+: u

/-- Each search comes to an end without following a null pointer, and finds the value of a keyword
that occurs in the text, exactly if there is one. -/
def Exact (ks : List (Keyword V)) (t : Trie V) : Prop :=
  ∀ text, ∃ fuel r, t.query fuel text ⟨false, false⟩ = some r ∧
    (∀ v, r.1 = some v → ∃ k ∈ ks, k.value = v ∧ k.str <:+: text) ∧
    (r.1 = none → ∀ k ∈ ks, ¬ k.str <:+: text)

/-- A node that is a prefix of a keyword and ends with one starts with one that has a key. -/
theorem NoOverlap.start (h : NoOverlap ks) (hplain : Plain ks) (hp : (fill ks).Has p)
    (hw : IsWord ks w) (hsuffix : w <:+ p) :
    ∃ v, IsWord ks v ∧ v.length % 2 ^ 31 ≠ 0 ∧ v <+: p := by
  obtain ⟨k', hk', rfl⟩ := hw
  rw [hplain.word_eq hk'] at hsuffix
  have hkey : ∃ k ∈ ks, p <+: k.str := by
    rcases (has_fill ks p).mp hp with rfl | ⟨k, hk, hpre⟩
    · exact ⟨k', hk', nil_prefix⟩
    · exact ⟨k, hk, hplain.word_eq hk ▸ hpre⟩
  obtain ⟨k, hk, hpre⟩ := hkey
  obtain ⟨k₁, hk₁, hlen, hpre₁⟩ := h k hk p hpre ⟨k', hk', hsuffix⟩
  rw [← hplain.word_eq hk₁] at hlen hpre₁
  exact ⟨k₁.word, ⟨k₁, hk₁, rfl⟩, hlen, hpre₁⟩

theorem has_word (hw : IsWord ks w) : (fill ks).Has w := by
  obtain ⟨k, hk, rfl⟩ := hw
  exact (has_fill ks k.word).mpr (Or.inr ⟨k, hk, prefix_refl _⟩)

/-- **A node without children** is a keyword, or the root. -/
theorem isWord_of_leaf (hp : (fill ks).Has p) (hne : p ≠ []) (hleaf : (fill ks).next p = none) :
    IsWord ks p := by
  obtain ⟨k, hk, hpre⟩ := ((has_fill ks p).mp hp).resolve_left hne
  obtain ⟨r, hr⟩ := hpre
  cases r with
  | nil => exact ⟨k, hk, by rw [← hr, append_nil]⟩
  | cons c r =>
    have hchild : (fill ks).child p c = true :=
      (child_fill ks p c).mpr ⟨k, hk, r, by rw [← hr, append_assoc]; rfl⟩
    rw [(arrays_fill ks p).mp hleaf c] at hchild
    cases hchild

/-! ### The search -/

/-- **One byte more**: the search goes to the longest suffix, as long as the nodes that it falls
back to have children. -/
theorem advance_spec (hnext : t.next = (fill ks).next)
    (hclue : ∀ x, (fill ks).Has x → (fill ks).ClueRight t.searchClue x) :
    ∀ {fuel : ℕ} {p : TrieNode}, (fill ks).Has p → p.length < fuel →
      (∀ s, s <:+ p → (fill ks).Has s → t.next s ≠ none) →
      ∃ r, t.advance c fuel p = some r ∧ LongestSuffix (fill ks).Has (p ++ [c]) r := by
  intro fuel
  induction fuel with
  | zero =>
    intro p _ hfuel
    omega
  | succ fuel ih =>
    intro p hp hfuel harr
    obtain ⟨array, harray⟩ := ne_none_iff_exists'.mp (harr p (suffix_refl p) hp)
    have hchild : (fill ks).child p c = array c := by
      rw [child, ← hnext, harray]
    rw [advance, harray]
    simp only [bind_eq_bind, bind_some]
    by_cases hc : array c = true
    · exact ⟨p ++ [c], if_pos hc, .self (has_snoc.mpr ⟨hp, hchild.trans hc⟩)⟩
    · have hnone : ¬ (fill ks).Has (p ++ [c]) := fun h => hc (hchild ▸ (has_snoc.mp h).2)
      rw [if_neg hc]
      cases p with
      | nil => exact ⟨[], if_pos rfl, .nil (fill ks).has_nil hnone⟩
      | cons a w =>
        obtain ⟨f, hf, hlong⟩ := hclue (a :: w) hp
        have hlen := hlong.1.length_le
        rw [length_cons] at hfuel
        obtain ⟨r, hrun, hr⟩ := ih hlong.2.1 (by omega) fun s hs hhas =>
          harr s ((hs.trans hlong.1).trans (suffix_cons a w)) hhas
        refine ⟨r, ?_, (LongestSuffix.fall (fill ks).has_closed hnone hlong).mpr hr⟩
        rw [if_neg (by simp), hf]
        exact hrun

theorem infix_snoc {u : List UInt8} (h : w <:+: u ++ [c]) : w <:+: u ∨ w <:+ u ++ [c] :=
  (infix_concat_iff.mp h).symm

/-- **A step of the search** before anything has been found: it falls back to nodes with children
only, and if the next node has no key, then nothing ends there. -/
theorem NoOverlap.step (h : NoOverlap ks) (hplain : Plain ks) (hnext : t.next = (fill ks).next)
    (hclue : ∀ x, (fill ks).Has x → (fill ks).ClueRight t.searchClue x) {fuel : ℕ}
    (hroot : t.next [] ≠ none) {u : List UInt8} (hp : LongestSuffix (fill ks).Has u p)
    (hfuel : p.length < fuel) (hu : ¬ Occurs ks u) :
    ∃ r, t.advance c fuel p = some r ∧ LongestSuffix (fill ks).Has (u ++ [c]) r ∧
      (¬ (IsWord ks r ∧ r.length % 2 ^ 31 ≠ 0) → ¬ Occurs ks (u ++ [c])) := by
  have harr : ∀ s, s <:+ p → (fill ks).Has s → t.next s ≠ none := by
    intro s hs hhas hleaf
    have hne : s ≠ [] := by
      rintro rfl
      exact hroot hleaf
    obtain ⟨v, hv, hlen, hpre⟩ := h.start hplain hhas
      (isWord_of_leaf hhas hne (hnext ▸ hleaf)) (suffix_refl s)
    exact hu ⟨v, hv, hlen, hpre.isInfix.trans (hs.trans hp.1).isInfix⟩
  obtain ⟨r, hrun, hr⟩ := advance_spec (c := c) hnext hclue hp.2.1 hfuel harr
  have hr : LongestSuffix (fill ks).Has (u ++ [c]) r := (hp.snoc (fill ks).has_closed).mpr hr
  refine ⟨r, hrun, hr, fun hkey => ?_⟩
  rintro ⟨w, hw, hlen, hin⟩
  rcases infix_snoc hin with hin | hend
  · exact hu ⟨w, hw, hlen, hin⟩
  · -- The keyword is a suffix of the node, so another one is a prefix of it.
    obtain ⟨v, hv, hvlen, hpre⟩ := h.start hplain hr.2.1 hw (hr.suffix hend (has_word hw))
    rcases suffix_snoc_cases hr.1 with rfl | ⟨q, rfl, hq⟩
    · rw [prefix_nil.mp hpre] at hvlen
      exact hvlen rfl
    · rcases prefix_concat_iff.mp hpre with rfl | hpre
      · exact hkey ⟨hv, hvlen⟩
      · exact hu ⟨v, hv, hvlen, hpre.isInfix.trans hq.isInfix⟩

/-- **The loop over the text**, from where nothing has been found. -/
theorem NoOverlap.run (h : NoOverlap ks) (hplain : Plain ks)
    (ht : t = { fill ks with searchClue := t.searchClue })
    (hclue : ∀ x, (fill ks).Has x → (fill ks).ClueRight t.searchClue x)
    (hroot : t.next [] ≠ none) {fuel : ℕ} (hfuel : ∀ x, (fill ks).Has x → x.length < fuel) :
    ∀ {str : List (ℕ × UInt8)} {u : List UInt8} {p : TrieNode},
      LongestSuffix (fill ks).Has u p → ¬ Occurs ks u →
      ∃ r, t.queryLoop fuel str p none none = some r ∧
        (∀ v, r.1 = some v → ∃ k ∈ ks, k.value = v ∧ k.str <:+: u ++ str.map (·.2)) ∧
        (r.1 = none → ¬ Occurs ks (u ++ str.map (·.2))) := by
  have hnext : t.next = (fill ks).next := by rw [ht]
  have hkey : t.key = (fill ks).key := by rw [ht]
  have hgreedy : t.greedy = (fill ks).greedy := by rw [ht]
  have hvalue : t.value = (fill ks).value := by rw [ht]
  intro str
  induction str with
  | nil =>
    intro u p _ hu
    refine ⟨(none, none), rfl, fun v hv => (by cases hv), fun _ => ?_⟩
    rwa [map_nil, append_nil]
  | cons head str ih =>
    intro u p hp hu
    obtain ⟨pos, c⟩ := head
    obtain ⟨r, hrun, hr, hstep⟩ :=
      h.step (c := c) hplain hnext hclue hroot hp (hfuel p hp.2.1) hu
    have htext : u ++ (((pos, c) :: str).map (·.2)) = (u ++ [c]) ++ str.map (·.2) := by
      rw [map_cons, append_assoc]
      rfl
    rw [queryLoop, hrun, htext]
    simp only [bind_eq_bind, bind_some, hkey, hgreedy, greedy_fill hplain,
      Bool.false_eq_true, if_false]
    by_cases hfound : (fill ks).key r ≠ 0
    · rw [if_pos hfound, hvalue]
      obtain ⟨k, hk, hword, hval⟩ := value_fill ks r ((key_fill ks r).mp hfound).1
      refine ⟨_, rfl, fun v hv => ⟨k, hk, ?_, ?_⟩, fun hnone => ?_⟩
      · rw [hval] at hv
        exact Option.some.inj hv
      · rw [← hplain.word_eq hk, hword]
        exact hr.1.isInfix.trans (prefix_append ..).isInfix
      · rw [hval] at hnone
        cases hnone
    · rw [if_neg hfound]
      exact ih hr (hstep fun hword => hfound ((key_fill ks r).mpr hword))

theorem positions_forward (text : List UInt8) :
    (positions ⟨false, false⟩ text).map (·.2) = text := by
  have : positions ⟨false, false⟩ text = (List.range text.length).zip text := rfl
  rw [this]
  exact map_snd_zip (by rw [length_range])

/-- **The condition is enough.** -/
theorem NoOverlap.exact (h : NoOverlap ks) (hplain : Plain ks)
    (ht : t = { fill ks with searchClue := t.searchClue })
    (hclue : ∀ x, (fill ks).Has x → (fill ks).ClueRight t.searchClue x) : Exact ks t := by
  intro text
  -- A keyword starts with one that has a key, so it is enough to look for these.
  have hall : ¬ Occurs ks text → ∀ k ∈ ks, ¬ k.str <:+: text := by
    intro hnone k hk hin
    have hword : IsWord ks k.word := ⟨k, hk, rfl⟩
    obtain ⟨v, hv, hlen, hpre⟩ := h.start hplain (has_word hword) hword (suffix_refl _)
    rw [hplain.word_eq hk] at hpre
    exact hnone ⟨v, hv, hlen, hpre.isInfix.trans hin⟩
  have hempty : ¬ Occurs ks [] := by
    rintro ⟨w, -, hlen, hin⟩
    rw [infix_nil.mp hin] at hlen
    exact hlen rfl
  by_cases hroot : t.next [] = none
  · refine ⟨0, (none, none), by rw [query, if_pos hroot], fun v hv => (by cases hv), fun _ => ?_⟩
    refine hall ?_
    -- Without any node there is no keyword with a key.
    rintro ⟨w, hw, hlen, -⟩
    have hchild := (arrays_fill ks []).mp (by rw [ht] at hroot; exact hroot)
    cases w with
    | nil => exact hlen rfl
    | cons a w =>
      have := has_word hw [] a (prefix_append [a] w)
      rw [hchild a] at this
      cases this
  · obtain ⟨n, hn⟩ := length_bound (nodes ks)
    have hrun := @NoOverlap.run _ _ _ h hplain ht hclue hroot n (fun x hx => hn x (mem_nodes hx))
      (positions ⟨false, false⟩ text) [] [] (.self (fill ks).has_nil) hempty
    obtain ⟨r, hrun, hsome, hnone⟩ := hrun
    rw [nil_append, positions_forward] at hsome hnone
    exact ⟨n, r, by rw [query, if_neg hroot]; exact hrun, hsome, fun hr => hall (hnone hr)⟩

/-- An advance to a child of the node goes nowhere else. -/
theorem advance_child {fuel : ℕ} (h : t.child p c = true) :
    t.advance c (fuel + 1) p = some (p ++ [c]) := by
  rw [child] at h
  cases harray : t.next p with
  | none =>
    rw [harray] at h
    cases h
  | some array =>
    rw [harray] at h
    rw [advance, harray]
    exact if_pos h

/-- The loop goes down where there is a child without a keyword. -/
theorem queryLoop_child {fuel pos : ℕ} (h : t.child p c = true) (hk : t.key (p ++ [c]) = 0)
    (str : List (ℕ × UInt8)) (value : Option V) (versionPos : Option ℕ) :
    t.queryLoop (fuel + 1) ((pos, c) :: str) p value versionPos =
      t.queryLoop (fuel + 1) str (p ++ [c]) value versionPos := by
  rw [queryLoop, advance_child h, bind_eq_bind, bind_some, hk, if_neg (by simp)]

/-- Along a node without a key on its way, a search goes down without finding anything. -/
theorem queryLoop_prefix_none (ht : t = { fill ks with searchClue := t.searchClue }) {fuel : ℕ} :
    ∀ {str : List (ℕ × UInt8)} {p : TrieNode}, (fill ks).Has (p ++ str.map (·.2)) →
      (∀ q, q <+: p ++ str.map (·.2) → (fill ks).key q = 0) →
      ∀ r, t.queryLoop fuel str p none none = some r → r.1 = none := by
  have hnext : t.next = (fill ks).next := by rw [ht]
  have hkey : t.key = (fill ks).key := by rw [ht]
  intro str
  induction str with
  | nil =>
    intro p _ _ r hr
    cases hr
    rfl
  | cons head str ih =>
    intro p hhas hzero r hr
    obtain ⟨pos, c⟩ := head
    have htext : p ++ (((pos, c) :: str).map (·.2)) = (p ++ [c]) ++ str.map (·.2) := by
      rw [map_cons, append_assoc]
      rfl
    rw [htext] at hhas hzero
    have hchild : (fill ks).child p c = true := hhas p c (prefix_append ..)
    have hk : (fill ks).key (p ++ [c]) = 0 := hzero _ (prefix_append ..)
    -- There is a child, and the search takes it.
    cases fuel with
    | zero => cases hr
    | succ fuel =>
      have hchild : t.child p c = true := by
        rw [child, hnext]
        exact hchild
      rw [queryLoop_child hchild (by rw [hkey, hk])] at hr
      exact ih hhas hzero r hr

/-- **The condition is necessary**: otherwise a keyword in a node that the search goes down to is
missed. -/
theorem Exact.noOverlap (h : Exact ks t) (hplain : Plain ks)
    (ht : t = { fill ks with searchClue := t.searchClue }) : NoOverlap ks := by
  intro k hk u hu hsuffix
  obtain ⟨k', hk', hk'u⟩ := hsuffix
  by_contra hno
  obtain ⟨fuel, r, hrun, -, hnone⟩ := h u
  refine hnone ?_ k' hk' hk'u.isInfix
  have hhas : (fill ks).Has u :=
    (has_fill ks u).mpr (Or.inr ⟨k, hk, by rw [hplain.word_eq hk]; exact hu⟩)
  have hzero : ∀ q, q <+: u → (fill ks).key q = 0 := by
    intro q hq
    by_contra hkey
    obtain ⟨⟨k₁, hk₁, rfl⟩, hlen⟩ := (key_fill ks q).mp hkey
    rw [hplain.word_eq hk₁] at hlen hq
    exact hno ⟨k₁, hk₁, hlen, hq⟩
  rw [query] at hrun
  split at hrun
  · cases hrun
    rfl
  · have htext : [] ++ (positions ⟨false, false⟩ u).map (·.2) = u := positions_forward u
    exact queryLoop_prefix_none ht (htext.symm ▸ hhas) (htext.symm ▸ hzero) r hrun

/-- The searches in a trie of keywords, once its links have been made, are exact. -/
def Searches (ks : List (Keyword V)) (junk : ℕ → TrieNode) : Prop :=
  ∃ t, (∃ fuel, (fill ks).buildClue junk fuel = some t) ∧ Exact ks t

end Trie

/-- **Searches find a keyword exactly if there is one**, and follow no null pointer, if the queue
loses no node with children and no keyword hides in another one; the latter is also necessary. -/
theorem trie_query_exact {V : Type} (ks : List (Trie.Keyword V)) (hplain : Trie.Plain ks)
    (junk : ℕ → TrieNode) :
    ((Trie.fill ks).Lossless → (Trie.Searches ks junk ↔ Trie.NoOverlap ks)) ∧
      (Trie.Searches ks junk → Trie.NoOverlap ks) := by
  have hneed : Trie.Searches ks junk → Trie.NoOverlap ks := by
    rintro ⟨t, ⟨fuel, hbuild⟩, hexact⟩
    exact hexact.noOverlap hplain (Trie.buildClue_eq hbuild)
  refine ⟨fun hloss => ⟨hneed, fun h => ?_⟩, hneed⟩
  obtain ⟨t, ⟨fuel, hbuild⟩, hclue⟩ := Trie.linked_of_lossless hloss junk
  exact ⟨t, ⟨fuel, hbuild⟩, h.exact hplain (Trie.buildClue_eq hbuild) hclue⟩

namespace Trie

/-- The keywords `abc` and `bcd`, neither of which hides in the other. -/
def apart : List (Keyword ℕ) :=
  [⟨[97, 98, 99], ⟨false, false⟩, 1⟩, ⟨[98, 99, 100], ⟨false, false⟩, 2⟩]

example : NoOverlap apart := by
  intro k hk u hu ⟨k', hk', hsuffix⟩
  have hlength : ∀ k ∈ apart, k.str.length = 3 := by decide
  have hwhole : k'.str = u := hsuffix.eq_of_length_le (by
    rw [hlength k' hk', ← hlength k hk]
    exact hu.length_le)
  exact ⟨k', hk', by rw [hlength k' hk']; decide, hwhole ▸ prefix_rfl⟩

/-- A search in `abbcd` goes down to `ab` and falls back twice before it finds `bcd`. -/
example : (((fill apart).buildClue (fun _ => []) 10).bind
    (·.query 10 [97, 98, 98, 99, 100] ⟨false, false⟩)).map (·.1) = some (some 2) := by
  decide +kernel

/-- The keywords `abce` and `bc`, one of which hides in the other. -/
def hidden : List (Keyword Unit) :=
  [⟨[97, 98, 99, 101], ⟨false, false⟩, ()⟩, ⟨[98, 99], ⟨false, false⟩, ()⟩]

theorem hidden_plain : Plain hidden := by
  intro k hk
  rcases mem_cons.mp hk with rfl | hk
  · rfl
  · rw [mem_singleton.mp hk]

/-- These keywords overlap. -/
theorem hidden_overlap : ¬ NoOverlap hidden := by
  intro h
  obtain ⟨k, hk, -, hpre⟩ := h _ (mem_cons_self ..) [97, 98, 99] ⟨[101], rfl⟩
    ⟨_, mem_cons_of_mem _ (mem_cons_self ..), [97], rfl⟩
  rcases mem_cons.mp hk with rfl | hk
  · exact absurd hpre.length_le (by decide)
  · rw [mem_singleton.mp hk] at hpre
    exact absurd (cons_prefix_cons.mp hpre).1 (by decide)

end Trie

/-- The theorem at two keywords. -/
theorem trie_query_exact_hidden :
    ((Trie.fill Trie.hidden).Lossless →
        (Trie.Searches Trie.hidden (fun _ => []) ↔ Trie.NoOverlap Trie.hidden)) ∧
      (Trie.Searches Trie.hidden (fun _ => []) → Trie.NoOverlap Trie.hidden) :=
  trie_query_exact Trie.hidden Trie.hidden_plain fun _ => []

/-- **Searches for `abce` and `bc`** are not exact. With the links made, a search in `abcd` goes
down to `abc`, falls back to `bc` and reads the array of children of this node, which is not
there. -/
theorem trie_query_misses :
    ¬ Trie.Searches Trie.hidden (fun _ => []) ∧
      ∃ t, (Trie.fill Trie.hidden).buildClue (fun _ => []) 10 = some t ∧
        ∀ fuel, t.query fuel [97, 98, 99, 100] ⟨false, false⟩ = none := by
  constructor
  · rintro ⟨t, ⟨fuel, hbuild⟩, hexact⟩
    exact Trie.hidden_overlap (hexact.noOverlap Trie.hidden_plain (Trie.buildClue_eq hbuild))
  · have hclue : ((Trie.fill Trie.hidden).buildClue (fun _ => []) 10).bind
        (·.searchClue [97, 98, 99]) = some [98, 99] := by decide +kernel
    obtain ⟨t, hbuild, hclue⟩ := bind_eq_some_iff.mp hclue
    refine ⟨t, hbuild, fun fuel => ?_⟩
    have ht := Trie.buildClue_eq hbuild
    have hchild : ∀ p c, t.child p c = (Trie.fill Trie.hidden).child p c := by
      intro p c
      rw [ht]
      rfl
    have hkey : ∀ p, t.key p = (Trie.fill Trie.hidden).key p := by
      intro p
      rw [ht]
    have hroot : t.next [] ≠ none := by
      rw [ht]
      exact show (Trie.fill Trie.hidden).next [] ≠ none by decide
    have hleaf : t.next [98, 99] = none := by
      rw [ht]
      exact show (Trie.fill Trie.hidden).next [98, 99] = none by decide
    rw [Trie.query, if_neg hroot]
    cases fuel with
    | zero => rfl
    | succ fuel =>
      have hread : Trie.positions ⟨false, false⟩ [97, 98, 99, 100] =
          [(0, 97), (1, 98), (2, 99), (3, 100)] := rfl
      rw [hread, Trie.queryLoop_child (by rw [hchild]; decide)
          (by rw [hkey]; decide),
        Trie.queryLoop_child (by rw [hchild]; decide) (by rw [hkey]; decide),
        Trie.queryLoop_child (by rw [hchild]; decide) (by rw [hkey]; decide)]
      have hfall : t.advance 100 (fuel + 1) [97, 98, 99] = none := by
        cases harray : t.next [97, 98, 99] with
        | none => rw [Trie.advance, harray]; rfl
        | some array =>
          have hno : array 100 = false := by
            have := hchild [97, 98, 99] 100
            rw [Trie.child, harray] at this
            exact this.trans (by decide)
          rw [Trie.advance, harray, bind_eq_bind, bind_some, hno,
            if_neg (by simp), if_neg (by simp), hclue, bind_eq_bind, bind_some]
          cases fuel with
          | zero => rfl
          | succ fuel => rw [Trie.advance, hleaf]; rfl
      rw [Trie.queryLoop]
      exact show (t.advance 100 (fuel + 1) [97, 98, 99]).bind _ = none by rw [hfall]; rfl

end Hengine
