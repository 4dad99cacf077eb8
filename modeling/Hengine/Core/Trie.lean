import Mathlib.Data.List.Infix
import Mathlib.Algebra.Group.Nat.Defs

/-!
# The Keyword Trie

The model of `ngx_trie.c`. Keywords are inserted into a trie; then each node gets a link to the
node of the longest proper suffix of its own string; then texts are searched for keywords in one
pass. A node has an array of children, which is only there if it has a child.

Nodes are made by insertions only, each for one place in the array of its parent, and are never
moved. A node is therefore named by the bytes that lead to it from the root, and a pointer to a
node is such a name. A result is `none` where the program would follow a null pointer, or if the
fuel is not enough. Memory does not run out.
-/

namespace Hengine

open List Function

/-- A node, by the bytes that lead to it. The root is the empty one. -/
abbrev TrieNode := List UInt8

/-- `ngx_trie_t` with the fields of its nodes. `next p` is the array of children of `p`, which says
for each byte whether there is a child. -/
structure Trie (V : Type) where
  next : TrieNode → Option (UInt8 → Bool)
  searchClue : TrieNode → Option TrieNode
  key : TrieNode → ℕ
  greedy : TrieNode → Bool
  value : TrieNode → Option V

/-- The bits of a mode, `NGX_TRIE_REVERSE` and `NGX_TRIE_CONTINUE`. -/
structure TrieMode where
  reverse : Bool
  continues : Bool
deriving DecidableEq

/-- The bytes of a string in the order in which they are read. -/
def TrieMode.read (mode : TrieMode) (str : List UInt8) : List UInt8 :=
  if mode.reverse then str.reverse else str

/-- All values of a byte, as the loop over an array goes through them. -/
def trieBytes : List UInt8 := (List.range 256).map UInt8.ofNat

/-- `NGX_TRIE_MAX_QUEUE_SIZE`. -/
def trieMaxQueueSize : ℕ := 300

namespace Trie

variable {V : Type}

/-- `ngx_trie_create`. -/
def create : Trie V :=
  { next := fun _ => none, searchClue := fun _ => none, key := fun _ => 0,
    greedy := fun _ => false, value := fun _ => none }

/-- `p->next[index]`, if the array is there. -/
def child (t : Trie V) (p : TrieNode) (index : UInt8) : Bool :=
  match t.next p with
  | none => false
  | some array => array index

/-! ### `ngx_trie_insert` -/

/-- A child of `p`, and the array for it if there is none. -/
def addChild (t : Trie V) (p : TrieNode) (index : UInt8) : Trie V :=
  let array := (t.next p).getD fun _ => false
  { t with next := update t.next p (some (update array index true)) }

/-- The loop over the bytes of a string. -/
@[grind =]
def insertLoop (t : Trie V) (p : TrieNode) : List UInt8 → Trie V × TrieNode
  | [] => (t, p)
  | index :: str => (t.addChild p index).insertLoop (p ++ [index]) str

/-- `ngx_trie_insert`. The field `key` has 31 bits. -/
def insert (t : Trie V) (str : List UInt8) (mode : TrieMode) : Trie V × TrieNode :=
  let (t, p) := t.insertLoop [] (mode.read str)
  ({ t with
    key := update t.key p (str.length % 2 ^ 31)
    greedy := if mode.continues then update t.greedy p true else t.greedy }, p)

/-- The caller of an insertion stores a value in the node. -/
def setValue (t : Trie V) (p : TrieNode) (value : V) : Trie V :=
  { t with value := update t.value p (some value) }

/-! ### `ngx_trie_build_clue` -/

/-- The links so far, and the queue. -/
structure ClueState where
  clue : TrieNode → Option TrieNode
  q : ℕ → TrieNode
  head : ℕ
  tail : ℕ

/-- The loop that looks for a node with a child for `index` among the links from `p` on. -/
@[grind =]
def findClue (t : Trie V) (clue : TrieNode → Option TrieNode) (index : UInt8) :
    ℕ → Option TrieNode → Option TrieNode
  | 0, _ => none
  | _ + 1, none => some []
  | fuel + 1, some p =>
    if t.child p index then some (p ++ [index]) else findClue t clue index fuel (clue p)

/-- The link of a child of `p`. -/
def childClue (t : Trie V) (clue : TrieNode → Option TrieNode) (fuel : ℕ) (p : TrieNode)
    (index : UInt8) : Option TrieNode :=
  if p = [] then some [] else t.findClue clue index fuel (clue p)

/-- The body of the loop over the children of `p`. -/
def visitChild (t : Trie V) (fuel : ℕ) (p : TrieNode) (s : ClueState) (index : UInt8) :
    Option ClueState :=
  if t.child p index then do
    let clue ← t.childClue s.clue fuel p index
    some
      { clue := update s.clue (p ++ [index]) (some clue)
        q := update s.q s.head (p ++ [index])
        head := (s.head + 1) % trieMaxQueueSize
        tail := s.tail }
  else some s

/-- The loop over the queue. -/
@[grind =]
def clueLoop (t : Trie V) (inner : ℕ) : ℕ → ClueState → Option ClueState
  | 0, _ => none
  | fuel + 1, s =>
    if s.head = s.tail then some s
    else
      let p := s.q s.tail
      let s := { s with tail := (s.tail + 1) % trieMaxQueueSize }
      if t.next p = none then clueLoop t inner fuel s
      else do
        let s ← trieBytes.foldlM (t.visitChild inner p) s
        clueLoop t inner fuel s

/-- `ngx_trie_build_clue`. What is in the array of the queue before is not known. -/
def buildClue (t : Trie V) (junk : ℕ → TrieNode) (fuel : ℕ) : Option (Trie V) := do
  let s ← t.clueLoop fuel fuel
    { clue := update t.searchClue [] none, q := update junk 0 [], head := 1,
      tail := 0 }
  some { t with searchClue := s.clue }

/-! ### `ngx_trie_query` -/

/-- The loop that follows links to a node with a child for `index`, and the child, or the root. -/
@[grind =]
def advance (t : Trie V) (index : UInt8) : ℕ → TrieNode → Option TrieNode
  | 0, _ => none
  | fuel + 1, p => do
    let array ← t.next p
    if array index then some (p ++ [index])
    else if p = [] then some []
    else do
      let p ← t.searchClue p
      advance t index fuel p

/-- The loop over the bytes of a text, with their positions: the value found so far, and what
`version_pos` points to. -/
@[grind =]
def queryLoop (t : Trie V) (fuel : ℕ) : List (ℕ × UInt8) → TrieNode → Option V → Option ℕ →
    Option (Option V × Option ℕ)
  | [], _, value, versionPos => some (value, versionPos)
  | (pos, index) :: str, p, value, versionPos => do
    let p ← t.advance index fuel p
    if t.key p ≠ 0 then
      if t.greedy p then queryLoop t fuel str [] (t.value p) (some (pos + t.key p))
      else some (t.value p, some (pos + t.key p))
    else queryLoop t fuel str p value versionPos

/-- The bytes of a text with their positions, in the order in which they are read. -/
def positions (mode : TrieMode) (str : List UInt8) : List (ℕ × UInt8) :=
  let numbered := (List.range str.length).zip str
  if mode.reverse then numbered.reverse else numbered

/-- `ngx_trie_query`. -/
def query (t : Trie V) (fuel : ℕ) (str : List UInt8) (mode : TrieMode) :
    Option (Option V × Option ℕ) :=
  if t.next [] = none then some (none, none)
  else t.queryLoop fuel (positions mode str) [] none none

/-! ### What insertions do -/

variable {t : Trie V} {p : TrieNode}

/-- What children there are after one has been added. -/
theorem child_addChild (t : Trie V) (p q : TrieNode) (index c : UInt8) :
    (t.addChild p index).child q c = true ↔ t.child q c = true ∨ q = p ∧ c = index := by
  simp only [addChild, child]
  by_cases hq : q = p
  · subst hq
    rw [update_self]
    cases hnext : t.next q with
    | none => by_cases hc : c = index <;> simp [hc]
    | some array => by_cases hc : c = index <;> simp [hc]
  · rw [update_of_ne hq]
    simp [hq]

/-- The array of a node is there exactly if the node has a child. -/
def Arrays (t : Trie V) : Prop := ∀ p, t.next p = none ↔ ∀ c, t.child p c = false

/-- A node with children has an array of them. -/
theorem Arrays.addChild (h : t.Arrays) (p : TrieNode) (index : UInt8) :
    (t.addChild p index).Arrays := by
  intro q
  have hchild := child_addChild t p q index
  by_cases hq : q = p
  · subst hq
    have hnext : (t.addChild q index).next q ≠ none := by simp [Trie.addChild]
    refine ⟨fun hnone => absurd hnone hnext, fun hall => ?_⟩
    have := (hchild index).mpr (Or.inr ⟨rfl, rfl⟩)
    rw [hall] at this
    cases this
  · have hnext : (t.addChild p index).next q = t.next q := by simp [Trie.addChild, hq]
    rw [hnext, h q]
    refine forall_congr' fun c => ?_
    have := hchild c
    simp only [hq, false_and, or_false] at this
    rw [← Bool.not_eq_true, ← Bool.not_eq_true, this]

/-- **The loop of an insertion** makes the nodes on the way of a string. -/
theorem insertLoop_spec : ∀ (str : List UInt8) (t : Trie V) (p : TrieNode),
    (t.insertLoop p str).2 = p ++ str ∧
      (∀ q c, (t.insertLoop p str).1.child q c = true ↔
        t.child q c = true ∨ ∃ r, q = p ++ r ∧ r ++ [c] <+: str) ∧
      (t.Arrays → (t.insertLoop p str).1.Arrays) ∧
      (t.insertLoop p str).1.searchClue = t.searchClue ∧ (t.insertLoop p str).1.key = t.key ∧
      (t.insertLoop p str).1.greedy = t.greedy ∧ (t.insertLoop p str).1.value = t.value := by
  intro str
  induction str with
  | nil =>
    intro t p
    refine ⟨(append_nil p).symm, fun q c => ?_, fun h => h, rfl, rfl, rfl, rfl⟩
    simp [insertLoop]
  | cons index str ih =>
    intro t p
    obtain ⟨hnode, hchild, harr, hclue, hkey, hgreedy, hvalue⟩ :=
      ih (t.addChild p index) (p ++ [index])
    refine ⟨?_, fun q c => ?_, fun h => harr (h.addChild p index), hclue, hkey, hgreedy, hvalue⟩
    · rw [insertLoop, hnode, append_assoc]
      rfl
    · rw [insertLoop, hchild, child_addChild, or_assoc]
      refine or_congr_right ?_
      constructor
      · rintro (⟨rfl, rfl⟩ | ⟨r, rfl, hr⟩)
        · exact ⟨[], (append_nil q).symm, ⟨str, rfl⟩⟩
        · refine ⟨index :: r, by rw [append_assoc]; rfl, ?_⟩
          exact cons_prefix_cons.mpr ⟨rfl, hr⟩
      · rintro ⟨r, rfl, hr⟩
        cases r with
        | nil =>
          obtain ⟨rfl, -⟩ := cons_prefix_cons.mp hr
          exact Or.inl ⟨append_nil p, rfl⟩
        | cons d r =>
          obtain ⟨rfl, hrest⟩ := cons_prefix_cons.mp hr
          exact Or.inr ⟨r, by rw [append_assoc]; rfl, hrest⟩

/-! ### A trie of keywords -/

/-- A keyword as it is inserted, and the value that is then stored in its node. -/
structure Keyword (V : Type) where
  str : List UInt8
  mode : TrieMode
  value : V

/-- The bytes of a keyword from the root on. -/
def Keyword.word (k : Keyword V) : TrieNode := k.mode.read k.str

/-- An insertion with its value. -/
def add (t : Trie V) (k : Keyword V) : Trie V :=
  let (t, p) := t.insert k.str k.mode
  t.setValue p k.value

/-- A new trie with some keywords. -/
def fill (ks : List (Keyword V)) : Trie V := ks.foldl add create

/-- One keyword more. -/
theorem add_spec (t : Trie V) (k : Keyword V) :
    (∀ q c, (t.add k).child q c = true ↔ t.child q c = true ∨ q ++ [c] <+: k.word) ∧
      (t.Arrays → (t.add k).Arrays) ∧ (t.add k).searchClue = t.searchClue ∧
      (t.add k).key = update t.key k.word (k.str.length % 2 ^ 31) ∧
      (t.add k).greedy = (if k.mode.continues then update t.greedy k.word true
        else t.greedy) ∧
      (t.add k).value = update t.value k.word (some k.value) := by
  obtain ⟨hnode, hchild, harr, hclue, hkey, hgreedy, hvalue⟩ := insertLoop_spec k.word t []
  have hnode : (t.insertLoop [] k.word).2 = k.word := hnode
  refine ⟨fun q c => (hchild q c).trans ?_, harr, hclue, ?_, ?_, ?_⟩
  · refine or_congr_right ?_
    constructor
    · rintro ⟨r, rfl, hr⟩
      exact hr
    · exact fun hr => ⟨q, rfl, hr⟩
  · simp only [add, setValue, insert]
    rw [← Keyword.word, hkey, hnode]
  · simp only [add, setValue, insert]
    rw [← Keyword.word, hgreedy, hnode]
  · simp only [add, setValue, insert]
    rw [← Keyword.word, hvalue, hnode]

/-- Induction over the keywords that a trie is filled with. -/
theorem fill_induction {P : List (Keyword V) → Trie V → Prop} (hnil : P [] create)
    (hadd : ∀ ks k t, P ks t → P (ks ++ [k]) (t.add k)) (ks : List (Keyword V)) :
    P ks (fill ks) := by
  induction ks using List.reverseRecOn with
  | nil => exact hnil
  | append_singleton ks k ih =>
    rw [fill, foldl_append]
    exact hadd ks k _ ih

/-- **The nodes** are the prefixes of the keywords. -/
theorem child_fill (ks : List (Keyword V)) (q : TrieNode) (c : UInt8) :
    (fill ks).child q c = true ↔ ∃ k ∈ ks, q ++ [c] <+: k.word := by
  refine fill_induction (P := fun ks t => t.child q c = true ↔ ∃ k ∈ ks, q ++ [c] <+: k.word)
    ?_ ?_ ks
  · simp [child, create]
  · intro ks k t ih
    rw [(add_spec t k).1, ih]
    simp [or_and_right, exists_or]

theorem arrays_fill (ks : List (Keyword V)) : (fill ks).Arrays := by
  refine fill_induction (P := fun _ t => t.Arrays) ?_ ?_ ks
  · simp [Arrays, child, create]
  · exact fun ks k t ih => (add_spec t k).2.1 ih

theorem searchClue_fill (ks : List (Keyword V)) (p : TrieNode) : (fill ks).searchClue p = none := by
  refine fill_induction (P := fun _ t => t.searchClue p = none) rfl ?_ ks
  intro ks k t ih
  rw [(add_spec t k).2.2.1, ih]

end Trie

end Hengine
