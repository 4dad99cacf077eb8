import Mathlib.Data.List.Nodup
import Mathlib.Data.List.Perm.Subperm
import Hengine.Core.Trie
import Hengine.Lib.Queue
import Hengine.Lib.SuffixLinks

/-!
# The Links of the Keyword Trie

The links are made in a breadth-first traversal, with a queue of 300 places that nobody checks.
If the queue overflows, 300 nodes are lost from it at once. For lost nodes without children that
does not matter. If a lost node has children, these never get a link; otherwise each node gets the
right one.
-/

namespace Hengine

open List Function Option

namespace Trie

variable {V : Type} {t : Trie V} {p w x : TrieNode} {c : UInt8}

/-! ### Nodes -/

/-- The node is there: each byte of its name leads to a child. -/
def Has (t : Trie V) (p : TrieNode) : Prop := ∀ q c, q ++ [c] <+: p → t.child q c = true

theorem has_nil (t : Trie V) : t.Has [] := by
  intro q c h
  simpa using h.length_le

/-- A node is in the trie when it is a child of one that is. -/
theorem has_snoc : t.Has (p ++ [c]) ↔ t.Has p ∧ t.child p c = true := by
  constructor
  · intro h
    exact ⟨fun q d hq => h q d (hq.trans (prefix_append ..)), h p c (prefix_refl _)⟩
  · rintro ⟨hp, hc⟩ q d hq
    rcases prefix_concat_iff.mp hq with heq | hq
    · obtain ⟨rfl, hd⟩ := append_inj' heq rfl
      cases hd
      exact hc
    · exact hp q d hq

theorem has_closed (t : Trie V) : PrefixClosed t.Has := fun _ _ h => (has_snoc.mp h).1

/-- **The nodes of a filled trie** are the beginnings of its words. -/
theorem has_fill (ks : List (Keyword V)) (p : TrieNode) :
    (fill ks).Has p ↔ p = [] ∨ ∃ k ∈ ks, p <+: k.word := by
  rcases eq_nil_or_concat p with rfl | ⟨q, c, rfl⟩
  · simp [has_nil]
  · rw [concat_eq_append, has_snoc, child_fill]
    constructor
    · rintro ⟨-, h⟩
      exact Or.inr h
    · rintro (h | ⟨k, hk, hp⟩)
      · simp at h
      · refine ⟨fun r d hr => ?_, k, hk, hp⟩
        exact (child_fill ks r d).mpr ⟨k, hk, (hr.trans (prefix_append ..)).trans hp⟩

/-- The link of a node is right: it is the longest proper suffix of the node that is there. The
root has none. -/
def ClueRight (t : Trie V) (clue : TrieNode → Option TrieNode) : TrieNode → Prop
  | [] => clue [] = none
  | a :: w => ∃ s, clue (a :: w) = some s ∧ LongestSuffix t.Has w s

theorem ClueRight.congr {clue clue' : TrieNode → Option TrieNode} (h : t.ClueRight clue x)
    (hx : clue' x = clue x) : t.ClueRight clue' x := by
  cases x with
  | nil => exact hx.trans h
  | cons a w =>
    obtain ⟨s, hs, hlong⟩ := h
    exact ⟨s, hx.trans hs, hlong⟩

variable {clue : TrieNode → Option TrieNode} {ks : List (Keyword V)}

theorem ClueRight.ne_none (h : t.ClueRight clue x) (hx : x ≠ []) : clue x ≠ none := by
  cases x with
  | nil => exact absurd rfl hx
  | cons a w =>
    obtain ⟨s, hs, -⟩ := h
    rw [hs]
    exact some_ne_none s

/-! ### The traversal -/

/-- The children of a node, in the order of the loop. -/
def children (t : Trie V) (p : TrieNode) : List TrieNode :=
  (trieBytes.filter (t.child p)).map fun c => p ++ [c]

/-- How many entries a queue loses that has no room for them. -/
def overrun (queue : List TrieNode) : ℕ := queue.length / trieMaxQueueSize * trieMaxQueueSize

/-- `t.Lost queue x`: in a breadth-first traversal that goes on with `queue` and whose queue has
300 places, the node `x` is lost. -/
inductive Lost (t : Trie V) : List TrieNode → TrieNode → Prop
  | now {p x : TrieNode} {queue : List TrieNode} :
      x ∈ (queue ++ t.children p).take (overrun (queue ++ t.children p)) → Lost t (p :: queue) x
  | later {p x : TrieNode} {queue : List TrieNode} :
      Lost t ((queue ++ t.children p).drop (overrun (queue ++ t.children p))) x →
        Lost t (p :: queue) x

/-- The condition: the nodes that are lost have no children. -/
def Lossless (t : Trie V) : Prop := ∀ x, t.Lost [[]] x → t.next x = none

theorem mem_trieBytes (c : UInt8) : c ∈ trieBytes := by
  refine mem_map.mpr ⟨c.toNat, mem_range.mpr c.toNat_lt, ?_⟩
  exact UInt8.ofNat_toNat

/-- No byte is listed twice. -/
theorem nodup_trieBytes : trieBytes.Nodup := by
  refine (nodup_map_iff_inj_on nodup_range).mpr fun a ha b hb hab => ?_
  have hmod := congrArg UInt8.toNat hab
  rw [UInt8.toNat_ofNat', UInt8.toNat_ofNat', Nat.mod_eq_of_lt (mem_range.mp ha),
    Nat.mod_eq_of_lt (mem_range.mp hb)] at hmod
  exact hmod

theorem mem_children : x ∈ t.children p ↔ ∃ c, t.child p c = true ∧ x = p ++ [c] := by
  simp only [children, List.mem_map, List.mem_filter, mem_trieBytes, true_and, eq_comm]

theorem nodup_children : (t.children p).Nodup := by
  refine (nodup_trieBytes.filter _).map fun a b hab => ?_
  simpa using hab

/-! ### The links of the children of a node -/

/-- **The inner loop** finds the longest suffix. -/
theorem findClue_spec : ∀ {fuel : ℕ} {w : TrieNode},
    t.Has w → w.length + 1 < fuel → (∀ x, t.Has x → x.length ≤ w.length → t.ClueRight clue x) →
    ∃ r, t.findClue clue c fuel (some w) = some r ∧ LongestSuffix t.Has (w ++ [c]) r := by
  intro fuel
  induction fuel with
  | zero =>
    intro w _ hfuel
    omega
  | succ fuel ih =>
    intro w hw hfuel hright
    rw [findClue]
    by_cases hc : t.child w c = true
    · exact ⟨w ++ [c], if_pos hc, .self (has_snoc.mpr ⟨hw, hc⟩)⟩
    · have hnone : ¬ t.Has (w ++ [c]) := fun h => hc (has_snoc.mp h).2
      rw [if_neg hc]
      cases w with
      | nil =>
        have hclue : clue [] = none := hright [] t.has_nil (Nat.le_refl _)
        obtain ⟨k, rfl⟩ : ∃ k, fuel = k + 1 := ⟨fuel - 1, by simp at hfuel; omega⟩
        exact ⟨[], by rw [hclue, findClue], .nil t.has_nil hnone⟩
      | cons a w =>
        obtain ⟨f, hclue, hf⟩ := hright (a :: w) hw (Nat.le_refl _)
        have hlen := hf.1.length_le
        rw [length_cons] at hfuel
        obtain ⟨r, hrun, hr⟩ := ih hf.2.1 (by omega) fun x hx hle =>
          hright x hx (by rw [length_cons]; omega)
        exact ⟨r, by rw [hclue]; exact hrun, (LongestSuffix.fall t.has_closed hnone hf).mpr hr⟩

/-- The link that a child gets. -/
theorem childClue_spec {fuel : ℕ} (hp : t.Has p) (hfuel : p.length < fuel)
    (hright : ∀ x, t.Has x → x.length ≤ p.length → t.ClueRight clue x) :
    ∃ r, t.childClue clue fuel p c = some r ∧
      t.ClueRight (update clue (p ++ [c]) (some r)) (p ++ [c]) := by
  cases p with
  | nil =>
    refine ⟨[], if_pos rfl, [], update_self .., nil_suffix, t.has_nil, ?_⟩
    exact fun r hr _ => hr.length_le
  | cons a w =>
    obtain ⟨s, hclue, hs⟩ := hright (a :: w) hp (Nat.le_refl _)
    have hlen := hs.1.length_le
    rw [length_cons] at hfuel
    have hbelow : ∀ x, t.Has x → x.length ≤ s.length → t.ClueRight clue x := by
      intro x hx hle
      exact hright x hx (by rw [length_cons]; omega)
    obtain ⟨r, hrun, hr⟩ := findClue_spec (c := c) hs.2.1
      (show s.length + 1 < fuel by omega) hbelow
    refine ⟨r, by rw [childClue, if_neg (by simp), hclue]; exact hrun, r,
      update_self .., ?_⟩
    exact (hs.snoc t.has_closed).mpr hr

/-- The loop over the children of a node gives links to them only. -/
theorem visit_clue {fuel : ℕ} : ∀ {bs : List UInt8} {s s' : ClueState},
    bs.foldlM (t.visitChild fuel p) s = some s' →
    (∀ c ∈ bs, t.child p c = true → x ≠ p ++ [c]) → s'.clue x = s.clue x := by
  intro bs
  induction bs with
  | nil =>
    intro s s' hfold _
    cases hfold
    rfl
  | cons b bs ih =>
    intro s s' hfold hx
    rw [foldlM_cons, bind_eq_bind, bind_eq_some_iff] at hfold
    obtain ⟨s₁, hvisit, hfold⟩ := hfold
    rw [ih hfold fun c hc => hx c (mem_cons_of_mem _ hc)]
    by_cases hb : t.child p b = true
    · rw [visitChild, if_pos hb, bind_eq_bind, bind_eq_some_iff] at hvisit
      obtain ⟨r, -, hs₁⟩ := hvisit
      cases hs₁
      exact update_of_ne (hx b (mem_cons_self ..) hb) ..
    · rw [visitChild, if_neg hb] at hvisit
      cases hvisit
      rfl

/-- It puts the children into the queue. -/
theorem visit_queue {fuel : ℕ} : ∀ {bs : List UInt8} {s s' : ClueState} {R : List TrieNode},
    bs.foldlM (t.visitChild fuel p) s = some s' →
    QueueRep trieMaxQueueSize s.q s.head s.tail R →
    QueueRep trieMaxQueueSize s'.q s'.head s'.tail
      (R ++ (bs.filter (t.child p)).map fun c => p ++ [c]) := by
  intro bs
  induction bs with
  | nil =>
    intro s s' R hfold hrep
    cases hfold
    simpa using hrep
  | cons b bs ih =>
    intro s s' R hfold hrep
    rw [foldlM_cons, bind_eq_bind, bind_eq_some_iff] at hfold
    obtain ⟨s₁, hvisit, hfold⟩ := hfold
    by_cases hb : t.child p b = true
    · rw [visitChild, if_pos hb, bind_eq_bind, bind_eq_some_iff] at hvisit
      obtain ⟨r, -, hs₁⟩ := hvisit
      cases hs₁
      have hrep' := ih hfold (hrep.push (p ++ [b]))
      rw [filter_cons_of_pos hb, map_cons]
      rwa [append_assoc] at hrep'
    · rw [visitChild, if_neg hb] at hvisit
      cases hvisit
      rw [filter_cons_of_neg hb]
      exact ih hfold hrep

/-- If the links so far are right, the children get the right ones. -/
theorem visit_right {fuel : ℕ} (hp : t.Has p) (hfuel : p.length < fuel) :
    ∀ {bs : List UInt8} {s : ClueState},
      (∀ x, t.Has x → x.length ≤ p.length → t.ClueRight s.clue x) →
      ∃ s', bs.foldlM (t.visitChild fuel p) s = some s' ∧
        ∀ c ∈ bs, t.child p c = true → t.ClueRight s'.clue (p ++ [c]) := by
  intro bs
  induction bs with
  | nil =>
    intro s _
    exact ⟨s, rfl, by simp⟩
  | cons b bs ih =>
    intro s hright
    by_cases hb : t.child p b = true
    · obtain ⟨r, hrun, hr⟩ := childClue_spec (c := b) hp hfuel hright
      have hvisit : t.visitChild fuel p s b = some
          { clue := update s.clue (p ++ [b]) (some r)
            q := update s.q s.head (p ++ [b])
            head := (s.head + 1) % trieMaxQueueSize, tail := s.tail } := by
        rw [visitChild, if_pos hb, hrun]
        rfl
      have hright' : ∀ x, t.Has x → x.length ≤ p.length →
          t.ClueRight (update s.clue (p ++ [b]) (some r)) x := by
        intro x hx hle
        refine (hright x hx hle).congr (update_of_ne ?_ ..)
        rintro rfl
        rw [length_append, length_singleton] at hle
        omega
      obtain ⟨s', hfold, hs'⟩ := ih (s := ⟨_, _, _, _⟩) hright'
      refine ⟨s', ?_, fun c hc hchild => ?_⟩
      · rw [foldlM_cons, hvisit]
        exact hfold
      · by_cases hcbs : c ∈ bs
        · exact hs' c hcbs hchild
        · -- The link of the first child stays.
          obtain rfl : c = b := (mem_cons.mp hc).resolve_right hcbs
          refine hr.congr (visit_clue hfold fun d hd _ heq => hcbs ?_)
          obtain rfl : c = d := by simpa using heq
          exact hd
    · have hvisit : t.visitChild fuel p s b = some s := if_neg hb
      obtain ⟨s', hfold, hs'⟩ := ih hright
      refine ⟨s', by rw [foldlM_cons, hvisit]; exact hfold, fun c hc hchild => ?_⟩
      rcases mem_cons.mp hc with rfl | hc
      · exact absurd hchild hb
      · exact hs' c hc hchild

/-! ### The loop over the queue -/

variable {s s' : ClueState} {done lost R : List TrieNode} {inner fuel : ℕ}

/-- The state of the traversal: the nodes that have been taken from the queue, those that have been
lost from it, and those that are in it. -/
structure Base (t : Trie V) (s : ClueState) (done lost R : List TrieNode) : Prop where
  rep : QueueRep trieMaxQueueSize s.q s.head s.tail R
  room : R.length < trieMaxQueueSize
  nodup : (done ++ lost ++ R).Nodup
  has : ∀ x ∈ done ++ lost ++ R, t.Has x
  root : [] ∈ done ++ lost ++ R
  parent : ∀ x ∈ done ++ lost ++ R, x ≠ [] → x.dropLast ∈ done
  child : ∀ p ∈ done, ∀ c, t.child p c = true → p ++ [c] ∈ done ++ lost ++ R
  unset : ∀ x, s.clue x ≠ none → x ∈ done ++ lost ++ R

/-- A turn of the loop. -/
theorem clueLoop_succ (harr : t.Arrays) (hne : s.head ≠ s.tail) :
    t.clueLoop inner (fuel + 1) s =
      (trieBytes.foldlM (t.visitChild inner (s.q s.tail))
        { s with tail := (s.tail + 1) % trieMaxQueueSize }).bind (t.clueLoop inner fuel) := by
  rw [clueLoop, if_neg hne]
  by_cases hnext : t.next (s.q s.tail) = none
  · -- Without an array there are no children, and nothing happens.
    have hstay : ∀ (bs : List UInt8) (s₁ : ClueState),
        bs.foldlM (t.visitChild inner (s.q s.tail)) s₁ = some s₁ := by
      intro bs
      induction bs with
      | nil => exact fun _ => rfl
      | cons b bs ih =>
        intro s₁
        have hb : t.visitChild inner (s.q s.tail) s₁ b = some s₁ := by
          rw [visitChild, if_neg]
          rw [(harr _).mp hnext b]
          simp
        rw [foldlM_cons, hb]
        exact ih s₁
    rw [hstay]
    simp [hnext]
  · simp [hnext]

/-- Taking a node off the queue and adding its children loses the first of those that do not fit. -/
theorem perm_step (done lost R ch : List TrieNode) (p : TrieNode) (n : ℕ) :
    ((done ++ [p]) ++ (lost ++ (R ++ ch).take n) ++ (R ++ ch).drop n).Perm
      ((done ++ lost ++ p :: R) ++ ch) := by
  have hleft : (done ++ [p]) ++ (lost ++ (R ++ ch).take n) ++ (R ++ ch).drop n =
      done ++ (p :: (lost ++ (R ++ ch))) := by
    rw [append_assoc, append_assoc, append_assoc, take_append_drop]
    rfl
  have hright : (done ++ lost ++ p :: R) ++ ch = done ++ (lost ++ p :: (R ++ ch)) := by
    rw [append_assoc, append_assoc, cons_append]
  rw [hleft, hright]
  exact List.Perm.append_left done perm_middle.symm

/-- **One node** is taken from the queue. -/
theorem Base.step (h : Base t s done lost (p :: R))
    (hfold : trieBytes.foldlM (t.visitChild inner p)
      { s with tail := (s.tail + 1) % trieMaxQueueSize } = some s') :
    Base t s' (done ++ [p]) (lost ++ (R ++ t.children p).take (overrun (R ++ t.children p)))
      ((R ++ t.children p).drop (overrun (R ++ t.children p))) := by
  have hperm := perm_step done lost R (t.children p) p (overrun (R ++ t.children p))
  have hmem : ∀ x, x ∈ (done ++ [p]) ++ (lost ++ (R ++ t.children p).take
      (overrun (R ++ t.children p))) ++ (R ++ t.children p).drop (overrun (R ++ t.children p)) ↔
      x ∈ done ++ lost ++ p :: R ∨ x ∈ t.children p := by
    intro x
    rw [hperm.mem_iff, mem_append]
  have hpmem : p ∈ done ++ lost ++ p :: R := by simp
  -- The node has not been taken before, and so its children are new.
  have hpdone : p ∉ done := by
    intro hp
    have := h.nodup
    rw [append_assoc, nodup_append] at this
    exact this.2.2 p hp p (by simp) rfl
  have hnew : ∀ x ∈ t.children p, x ∉ done ++ lost ++ p :: R := by
    intro x hx hold
    obtain ⟨c, -, rfl⟩ := mem_children.mp hx
    have := h.parent _ hold (by simp)
    rw [dropLast_concat] at this
    exact hpdone this
  have hpop := (h.rep.pop (by have := h.room; rw [length_cons] at this; omega)).2
  have hrep := visit_queue hfold hpop
  refine ⟨hrep.wrap, hrep.length_wrap, ?_, fun x hx => ?_, ?_, fun x hx hne => ?_,
    fun q hq c hc => ?_, fun x hx => ?_⟩
  · rw [hperm.nodup_iff, nodup_append]
    exact ⟨h.nodup, nodup_children, fun x hx y hy hxy => hnew y hy (hxy ▸ hx)⟩
  · rcases (hmem x).mp hx with hx | hx
    · exact h.has x hx
    · obtain ⟨c, hc, rfl⟩ := mem_children.mp hx
      exact has_snoc.mpr ⟨h.has p hpmem, hc⟩
  · exact (hmem []).mpr (Or.inl h.root)
  · rcases (hmem x).mp hx with hx | hx
    · exact mem_append_left _ (h.parent x hx hne)
    · obtain ⟨c, -, rfl⟩ := mem_children.mp hx
      rw [dropLast_concat]
      exact mem_append_right _ (mem_singleton_self p)
  · refine (hmem _).mpr ?_
    rcases mem_append.mp hq with hq | hq
    · exact Or.inl (h.child q hq c hc)
    · obtain rfl := mem_singleton.mp hq
      exact Or.inr (mem_children.mpr ⟨c, hc, rfl⟩)
  · refine (hmem x).mpr ?_
    by_cases hch : x ∈ t.children p
    · exact Or.inr hch
    · left
      refine h.unset x ?_
      rwa [visit_clue hfold fun c _ hc heq => hch (mem_children.mpr ⟨c, hc, heq⟩)] at hx

/-- **A lost node** never gives links to its children. -/
theorem Base.lost_unset (harr : t.Arrays) : ∀ {fuel : ℕ} {s : ClueState}
    {done lost R : List TrieNode}, Base t s done lost R → t.clueLoop inner fuel s = some s' →
    ∀ x, x ∈ lost ∨ t.Lost R x → t.Has x ∧ ∀ c, t.child x c = true → s'.clue (x ++ [c]) = none := by
  intro fuel
  induction fuel with
  | zero =>
    intro s done lost R _ hrun
    cases hrun
  | succ fuel ih =>
    intro s done lost R h hrun x hx
    by_cases hend : s.head = s.tail
    · obtain rfl : R = [] := (h.rep.empty_iff h.room).mp hend
      have hx : x ∈ lost := by
        rcases hx with hx | hx
        · exact hx
        · cases hx
      rw [clueLoop, if_pos hend] at hrun
      cases hrun
      refine ⟨h.has x (by simp [hx]), fun c _ => ?_⟩
      -- The parent of such a child has not been taken, so the child has not been seen.
      by_contra hset
      have hdone := h.parent _ (h.unset _ hset) (by simp)
      rw [dropLast_concat] at hdone
      have hnodup := h.nodup
      rw [append_nil, nodup_append] at hnodup
      exact hnodup.2.2 x hdone x hx rfl
    · rw [clueLoop_succ harr hend, bind_eq_some_iff] at hrun
      obtain ⟨s₁, hfold, hrun⟩ := hrun
      cases R with
      | nil => exact absurd ((h.rep.empty_iff h.room).mpr rfl) hend
      | cons p R =>
        have hroom := h.room
        rw [length_cons] at hroom
        rw [(h.rep.pop (by omega)).1] at hfold
        refine ih (h.step hfold) hrun x ?_
        rcases hx with hx | hx
        · exact Or.inl (mem_append_left _ hx)
        · cases hx with
          | now hx => exact Or.inl (mem_append_right _ hx)
          | later hx => exact Or.inr hx

/-! ### Without a loss that matters -/

/-- The state of a traversal in which no node with children has been lost: all links so far are
right, and the queue goes from one level to the next. -/
structure Good (t : Trie V) (s : ClueState) (done lost R : List TrieNode) : Prop
    extends Base t s done lost R where
  leaf : ∀ x ∈ lost, ∀ c, t.child x c = false
  right : ∀ x ∈ done ++ lost ++ R, t.ClueRight s.clue x
  sorted : R.Pairwise fun x y => x.length ≤ y.length
  band : ∀ x ∈ R, ∀ y ∈ R, y.length ≤ x.length + 1

/-- **All nodes of the levels so far** have been seen. -/
theorem Good.seen (h : Good t s done lost R) {d : ℕ} (hd : ∀ y ∈ R, d ≤ y.length) :
    ∀ x, t.Has x → x.length ≤ d → x ∈ done ++ lost ++ R := by
  intro x
  induction x using List.reverseRecOn with
  | nil => exact fun _ _ => h.root
  | append_singleton x c ih =>
    intro hx hle
    rw [length_append, length_singleton] at hle
    obtain ⟨hx, hc⟩ := has_snoc.mp hx
    rcases mem_append.mp (ih hx (by omega)) with hseen | hqueue
    · rcases mem_append.mp hseen with hdone | hlost
      · exact h.child x hdone c hc
      · rw [h.leaf x hlost c] at hc
        cases hc
    · have := hd x hqueue
      omega

/-- **One node** of such a traversal. -/
theorem Good.step (h : Good t s done lost (p :: R)) (hinner : p.length < inner)
    (hloss : ∀ x ∈ (R ++ t.children p).take (overrun (R ++ t.children p)), ∀ c,
      t.child x c = false) :
    ∃ s', trieBytes.foldlM (t.visitChild inner p)
        { s with tail := (s.tail + 1) % trieMaxQueueSize } = some s' ∧
      Good t s' (done ++ [p]) (lost ++ (R ++ t.children p).take (overrun (R ++ t.children p)))
        ((R ++ t.children p).drop (overrun (R ++ t.children p))) := by
  have hsorted := pairwise_cons.mp h.sorted
  have hp : t.Has p := h.has p (by simp)
  have hlow : ∀ y ∈ p :: R, p.length ≤ y.length := by
    intro y hy
    rcases mem_cons.mp hy with rfl | hy
    · exact Nat.le_refl _
    · exact hsorted.1 y hy
  have hright : ∀ x, t.Has x → x.length ≤ p.length → t.ClueRight s.clue x := fun x hx hle =>
    h.right x (h.seen hlow x hx hle)
  obtain ⟨s', hfold, hs'⟩ : ∃ s', trieBytes.foldlM (t.visitChild inner p)
      { s with tail := (s.tail + 1) % trieMaxQueueSize } = some s' ∧
        ∀ c ∈ trieBytes, t.child p c = true → t.ClueRight s'.clue (p ++ [c]) :=
    visit_right hp hinner hright
  have hchildren : ∀ x ∈ t.children p, x.length = p.length + 1 := by
    intro x hx
    obtain ⟨c, -, rfl⟩ := mem_children.mp hx
    rw [length_append, length_singleton]
  have hqueue : ∀ x ∈ R ++ t.children p, p.length ≤ x.length ∧ x.length ≤ p.length + 1 := by
    intro x hx
    rcases mem_append.mp hx with hx | hx
    · exact ⟨hsorted.1 x hx, h.band p (by simp) x (by simp [hx])⟩
    · rw [hchildren x hx]
      omega
  refine ⟨s', hfold, h.toBase.step hfold, fun x hx => ?_, fun x hx => ?_, ?_, fun x hx y hy => ?_⟩
  · rcases mem_append.mp hx with hx | hx
    · exact h.leaf x hx
    · exact hloss x hx
  · have hperm := perm_step done lost R (t.children p) p (overrun (R ++ t.children p))
    by_cases hch : x ∈ t.children p
    · obtain ⟨c, hc, rfl⟩ := mem_children.mp hch
      exact hs' c (mem_trieBytes c) hc
    · have hold : x ∈ done ++ lost ++ p :: R :=
        (mem_append.mp (hperm.mem_iff.mp hx)).resolve_right hch
      have hclue := visit_clue hfold fun c _ hc heq => hch (mem_children.mpr ⟨c, hc, heq⟩)
      exact (h.right x hold).congr hclue
  · refine List.Pairwise.sublist (drop_sublist ..) (pairwise_append.mpr ⟨hsorted.2, ?_, ?_⟩)
    · refine pairwise_of_forall_mem_list fun x hx y hy => ?_
      rw [hchildren x hx, hchildren y hy]
    · intro x hx y hy
      rw [hchildren y hy]
      exact (hqueue x (mem_append_left _ hx)).2
  · have hx := hqueue x (mem_of_mem_drop hx)
    have hy := hqueue y (mem_of_mem_drop hy)
    omega

/-- **The whole traversal**, as long as the fuel is enough for all nodes. -/
theorem Good.run (harr : t.Arrays) {all : List TrieNode} (hall : ∀ x, t.Has x → x ∈ all)
    (hinner : ∀ x, t.Has x → x.length < inner) : ∀ {fuel : ℕ} {s : ClueState}
    {done lost R : List TrieNode}, Good t s done lost R → all.length < fuel + done.length →
    (∀ x, t.Lost R x → t.next x = none) →
    ∃ s', t.clueLoop inner fuel s = some s' ∧ ∀ x, t.Has x → t.ClueRight s'.clue x := by
  intro fuel
  induction fuel with
  | zero =>
    intro s done lost R h hfuel _
    have hnodup : done.Nodup := (nodup_append.mp (nodup_append.mp h.nodup).1).1
    have hsub : done ⊆ all := fun x hx => hall x (h.has x (by simp [hx]))
    have := (hnodup.subperm hsub).length_le
    omega
  | succ fuel ih =>
    intro s done lost R h hfuel hloss
    cases R with
    | nil =>
      have hend := (h.rep.empty_iff h.room).mpr rfl
      refine ⟨s, by rw [clueLoop, if_pos hend], fun x hx => ?_⟩
      exact h.right x (h.seen (d := x.length) (by simp) x hx (Nat.le_refl _))
    | cons p R =>
      have hne : s.head ≠ s.tail := by
        intro hend
        exact absurd ((h.rep.empty_iff h.room).mp hend) (by simp)
      have hroom := h.room
      rw [length_cons] at hroom
      obtain ⟨s₁, hfold, hgood⟩ := h.step (hinner p (h.has p (by simp))) fun x hx =>
        (harr x).mp (hloss x (.now hx))
      obtain ⟨s', hrun, hs'⟩ := ih hgood
        (by rw [length_append, length_singleton]; omega)
        fun x hx => hloss x (.later hx)
      refine ⟨s', ?_, hs'⟩
      rw [clueLoop_succ harr hne, (h.rep.pop (by omega)).1, hfold]
      exact hrun

/-- The state before the first turn. -/
theorem good_start (hclue : ∀ x, clue x = none) (junk : ℕ → TrieNode) :
    Good t
      { clue := update clue [] none, q := update junk 0 [], head := 1, tail := 0 }
      [] [] [[]] := by
  have hnone : ∀ x, update clue [] none x = none := by
    intro x
    by_cases hx : x = []
    · rw [hx, update_self]
    · rw [update_of_ne hx, hclue]
  refine ⟨⟨⟨show 0 < 300 by decide, rfl, fun j hj _ => ?_⟩, show 1 < 300 by decide, by simp, ?_,
      by simp, ?_, by simp, ?_⟩,
    by simp, ?_, by simp, by simp⟩
  · obtain rfl : j = 0 := by simpa using hj
    rfl
  · intro x hx
    obtain rfl : x = [] := by simpa using hx
    exact t.has_nil
  · intro x hx hne
    exact absurd (by simpa using hx) hne
  · intro x hx
    exact absurd (hnone x) hx
  · intro x hx
    obtain rfl : x = [] := by simpa using hx
    exact hnone []

/-- All nodes of a trie of keywords. -/
def nodes (ks : List (Keyword V)) : List TrieNode := [] :: ks.flatMap fun k => k.word.inits

theorem mem_nodes (h : (fill ks).Has x) : x ∈ nodes ks := by
  rcases (has_fill ks x).mp h with rfl | ⟨k, hk, hx⟩
  · exact mem_cons_self ..
  · exact mem_cons_of_mem _ (mem_flatMap.mpr ⟨k, hk, (mem_inits _ _).mpr hx⟩)

/-- Some length exceeds all of finitely many words. -/
theorem length_bound (ws : List TrieNode) : ∃ n, ∀ x ∈ ws, x.length < n := by
  induction ws with
  | nil => exact ⟨0, by simp⟩
  | cons w ws ih =>
    obtain ⟨n, hn⟩ := ih
    refine ⟨max n (w.length + 1), fun x hx => ?_⟩
    rcases mem_cons.mp hx with rfl | hx
    · omega
    · have := hn x hx
      omega

/-- The links that `ngx_trie_build_clue` makes are right, if it comes to an end at all. -/
def Linked (ks : List (Keyword V)) (junk : ℕ → TrieNode) (t : Trie V) : Prop :=
  (∃ fuel, (fill ks).buildClue junk fuel = some t) ∧
    ∀ x, (fill ks).Has x → (fill ks).ClueRight t.searchClue x

/-- Without a loss that matters all links are made. -/
theorem linked_of_lossless (h : (fill ks).Lossless) (junk : ℕ → TrieNode) :
    ∃ t, Linked ks junk t := by
  obtain ⟨n, hn⟩ := length_bound (nodes ks)
  have hdeep : ∀ x, (fill ks).Has x → x.length < n + (nodes ks).length + 1 := by
    intro x hx
    have := hn x (mem_nodes hx)
    omega
  obtain ⟨s, hrun, hs⟩ := Good.run (arrays_fill ks) (fun x hx => mem_nodes hx) hdeep
    (good_start (searchClue_fill ks) junk)
    (show (nodes ks).length < n + (nodes ks).length + 1 + 0 by omega) h
  refine ⟨{ fill ks with searchClue := s.clue }, ⟨n + (nodes ks).length + 1, ?_⟩, hs⟩
  rw [buildClue, hrun]
  rfl

/-- And only then. -/
theorem lossless_of_linked {junk : ℕ → TrieNode} {t : Trie V} (h : Linked ks junk t) :
    (fill ks).Lossless := by
  obtain ⟨⟨fuel, hbuild⟩, hright⟩ := h
  intro x hx
  rw [buildClue, bind_eq_bind, bind_eq_some_iff] at hbuild
  obtain ⟨s, hrun, ht⟩ := hbuild
  cases ht
  obtain ⟨hhas, hunset⟩ := (good_start (searchClue_fill ks) junk).toBase.lost_unset
    (arrays_fill ks) hrun x (Or.inr hx)
  refine (arrays_fill ks x).mpr fun c => ?_
  by_contra hc
  have hc : (fill ks).child x c = true := by simpa using hc
  exact (hright (x ++ [c]) (has_snoc.mpr ⟨hhas, hc⟩)).ne_none (by simp) (hunset c hc)

end Trie

/-- **The links of the keyword trie**: after any insertions all nodes get the right links, exactly
if the queue of the traversal loses no node with children. -/
theorem trie_clue_exact {V : Type} (ks : List (Trie.Keyword V)) (junk : ℕ → TrieNode) :
    (∃ t, Trie.Linked ks junk t) ↔ (Trie.fill ks).Lossless := by
  constructor
  · rintro ⟨t, ht⟩
    exact Trie.lossless_of_linked ht
  · exact fun h => Trie.linked_of_lossless h junk

/-! ### A queue that overflows -/

namespace Trie

/-- All keywords of two bytes. -/
def twoBytes : List (Keyword Unit) :=
  trieBytes.flatMap fun a => trieBytes.map fun c => ⟨[a, c], ⟨false, false⟩, ()⟩

/-- All words of two bytes are in this trie. -/
theorem child_twoBytes {p : TrieNode} (hp : p.length < 2) (c : UInt8) :
    (fill twoBytes).child p c = true := by
  refine (child_fill _ p c).mpr ?_
  have hmem : ∀ a d, ⟨[a, d], ⟨false, false⟩, ()⟩ ∈ twoBytes := fun a d =>
    mem_flatMap.mpr ⟨a, mem_trieBytes a, mem_map.mpr ⟨d, mem_trieBytes d, rfl⟩⟩
  cases p with
  | nil => exact ⟨_, hmem c 0, ⟨[0], rfl⟩⟩
  | cons a p =>
    obtain rfl : p = [] := by
      rw [length_cons] at hp
      exact length_eq_zero_iff.mp (by omega)
    exact ⟨_, hmem a c, prefix_refl _⟩

theorem children_twoBytes {p : TrieNode} (hp : p.length < 2) :
    (fill twoBytes).children p = trieBytes.map fun c => p ++ [c] := by
  rw [children, filter_eq_self.mpr fun c _ => child_twoBytes hp c]

/-- After the node of the first byte there are 511 nodes in the queue, and the node of the second
byte is lost. -/
theorem lost_twoBytes : (fill twoBytes).Lost [[]] [1] := by
  have hbytes : trieBytes = 0 :: 1 :: trieBytes.drop 2 := by decide +kernel
  have hlen : trieBytes.length = 256 := by rw [trieBytes, length_map, length_range]
  have hroot : [] ++ (fill twoBytes).children [] =
      [0] :: [1] :: (trieBytes.drop 2).map fun c => [c] := by
    rw [children_twoBytes (by decide), hbytes]
    rfl
  have hsmall : overrun ([] ++ (fill twoBytes).children []) = 0 := by
    rw [overrun, nil_append, children_twoBytes (by decide), length_map, hlen]
    rfl
  refine .later ?_
  rw [hsmall, drop_zero, hroot]
  refine .now ?_
  have hbig : overrun (([1] :: (trieBytes.drop 2).map fun c => [c]) ++
      (fill twoBytes).children [0]) = 300 := by
    rw [overrun, children_twoBytes (by decide), length_append, length_cons,
      length_map, length_map, length_drop, hlen]
    rfl
  rw [hbig]
  exact mem_cons_self ..

end Trie

/-- **With all keywords of two bytes** some node does not get its link. -/
theorem trie_clue_lost : ¬ ∃ t, Trie.Linked Trie.twoBytes (fun _ => []) t := by
  rintro ⟨t, ht⟩
  have hleaf := Trie.lossless_of_linked ht [1] Trie.lost_twoBytes
  have hnone := (Trie.arrays_fill Trie.twoBytes [1]).mp hleaf 0
  rw [Trie.child_twoBytes (by decide)] at hnone
  cases hnone

end Hengine
