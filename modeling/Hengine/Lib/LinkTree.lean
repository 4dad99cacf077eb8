import Mathlib.Data.List.Induction
import Mathlib.Order.Basic

/-!
# Trees of Linked Nodes

Nodes are numbers, and a node has at most one link under each label. A word of labels leads from
the root to a node, or nowhere. In a tree different words lead to different nodes, and each node
links back to its parent. This module says where words lead after a leaf has been added or taken
away.
-/

namespace Hengine

open List Function

variable {β : Type*} {next : β → ℕ → Option ℕ} {parent : ℕ → Option ℕ} {root x y n : ℕ}
  {b : β} {p q : List β}

/-- Where a word leads from the node `x`. -/
@[grind =]
def follow (next : β → ℕ → Option ℕ) (x : ℕ) : List β → Option ℕ
  | [] => some x
  | b :: p => (next b x).bind fun y => follow next y p

@[simp] theorem follow_nil (next : β → ℕ → Option ℕ) (x : ℕ) : follow next x [] = some x := rfl

/-- A path of two parts is followed part by part. -/
theorem follow_append (next : β → ℕ → Option ℕ) (x : ℕ) (p q : List β) :
    follow next x (p ++ q) = (follow next x p).bind fun y => follow next y q := by
  induction p generalizing x with
  | nil => rfl
  | cons b p ih =>
    simp only [cons_append, follow]
    cases next b x with
    | none => rfl
    | some y => exact ih y

/-- One more step of a path. -/
theorem follow_snoc (next : β → ℕ → Option ℕ) (x : ℕ) (p : List β) (b : β) :
    follow next x (p ++ [b]) = (follow next x p).bind (next b) := by
  rw [follow_append]
  congr 1
  funext y
  simp only [follow]
  cases next b y with
  | none => rfl
  | some z => rfl

/-- A tree: links back lead to the parents, and no node is reached in two ways. -/
structure IsTree (next : β → ℕ → Option ℕ) (parent : ℕ → Option ℕ) (root : ℕ) : Prop where
  back : ∀ p b x y, follow next root p = some x → next b x = some y → parent y = some x
  inj : ∀ p q x, follow next root p = some x → follow next root q = some x → p = q

/-- A child has one label. -/
theorem IsTree.label_inj (h : IsTree next parent root) (hp : follow next root p = some x)
    {c : β} (hb : next b x = some y) (hc : next c x = some y) : b = c := by
  have hword : ∀ d, next d x = some y → follow next root (p ++ [d]) = some y := by
    intro d hd
    rw [follow_snoc, hp]
    exact hd
  have := h.inj _ _ y (hword b hb) (hword c hc)
  simpa using this

section
variable [DecidableEq β]

/-! ### A leaf more -/

/-- The node `n`, without links, becomes the child of `x` under the label `b`. -/
def grow (next : β → ℕ → Option ℕ) (b : β) (x n : ℕ) : β → ℕ → Option ℕ :=
  fun c y => if y = n then none else if c = b ∧ y = x then some n else next c y

/-- **A leaf more**: one more word leads somewhere. -/
theorem follow_grow (h : IsTree next parent root) (hp : follow next root p = some x)
    (hb : next b x = none) (hn : ∀ q, follow next root q ≠ some n) (q : List β) :
    follow (grow next b x n) root q =
      if q = p ++ [b] then some n else follow next root q := by
  induction q using List.reverseRecOn with
  | nil => simp
  | append_singleton q c ih =>
    rw [follow_snoc, follow_snoc, ih]
    by_cases hq : q = p ++ [b]
    · -- Beyond the new leaf there is nothing, and there was nothing before.
      have hnone : follow next root q = none := by
        rw [hq, follow_snoc, hp]
        exact hb
      rw [if_pos hq, hnone]
      have hne : q ++ [c] ≠ p ++ [b] := by
        rw [hq]
        intro heq
        have := congrArg List.length heq
        simp at this
      rw [if_neg hne]
      simp [grow]
    · rw [if_neg hq]
      cases hfq : follow next root q with
      | none =>
        rw [if_neg ?_]
        · rfl
        · intro heq
          obtain ⟨rfl, -⟩ := append_inj' heq rfl
          rw [hp] at hfq
          cases hfq
      | some y =>
        have hyn : y ≠ n := fun heq => hn q (heq ▸ hfq)
        simp only [Option.bind_some, grow, if_neg hyn]
        by_cases hcy : c = b ∧ y = x
        · obtain ⟨rfl, rfl⟩ := hcy
          have hqp := h.inj q p y hfq hp
          rw [if_pos ⟨rfl, rfl⟩, if_pos (by rw [hqp])]
        · rw [if_neg hcy, if_neg ?_]
          intro heq
          obtain ⟨rfl, hc⟩ := append_inj' heq rfl
          rw [hp] at hfq
          cases hfq
          exact hcy ⟨by simpa using hc, rfl⟩

/-- A tree with a leaf more is a tree. -/
theorem IsTree.grow (h : IsTree next parent root) (hp : follow next root p = some x)
    (hb : next b x = none) (hn : ∀ q, follow next root q ≠ some n) :
    IsTree (grow next b x n) (update parent n (some x)) root := by
  have hfollow := follow_grow h hp hb hn
  constructor
  · intro q c y z hq hz
    rw [hfollow] at hq
    by_cases hyn : y = n
    · simp [Hengine.grow, hyn] at hz
    · rw [Hengine.grow, if_neg hyn] at hz
      have hold : follow next root q = some y := by
        split at hq
        · cases hq
          exact absurd rfl hyn
        · exact hq
      split at hz
      · next hc =>
          cases hz
          rw [update_self, hc.2]
      · have hzn : z ≠ n := by
          rintro rfl
          refine hn (q ++ [c]) ?_
          rw [follow_snoc, hold]
          exact hz
        rw [update_of_ne hzn]
        exact h.back q c y z hold hz
  · intro q r y hq hr
    rw [hfollow] at hq hr
    split at hq
    · next hqp =>
        split at hr
        · next hrp => rw [hqp, hrp]
        · cases hq
          exact absurd hr (hn r)
    · split at hr
      · cases hr
        exact absurd hq (hn q)
      · exact h.inj q r y hq hr

/-! ### A leaf less -/

/-- The link of `x` under the label `b` is taken away. -/
def prune (next : β → ℕ → Option ℕ) (b : β) (x : ℕ) : β → ℕ → Option ℕ :=
  fun c y => if c = b ∧ y = x then none else next c y

/-- **A leaf less**: one word leads nowhere any more. -/
theorem follow_prune (h : IsTree next parent root) (hp : follow next root p = some x)
    (hb : next b x = some y) (hleaf : ∀ c, next c y = none) (q : List β) :
    follow (prune next b x) root q = if q = p ++ [b] then none else follow next root q := by
  have hword : follow next root (p ++ [b]) = some y := by
    rw [follow_snoc, hp]
    exact hb
  induction q using List.reverseRecOn with
  | nil => simp
  | append_singleton q c ih =>
    rw [follow_snoc, follow_snoc, ih]
    by_cases hq : q = p ++ [b]
    · have hne : q ++ [c] ≠ p ++ [b] := by
        rw [hq]
        intro heq
        have := congrArg List.length heq
        simp at this
      rw [if_pos hq, if_neg hne, hq, hword]
      exact (hleaf c).symm
    · rw [if_neg hq]
      cases hfq : follow next root q with
      | none => simp
      | some z =>
        simp only [Option.bind_some, prune]
        by_cases hcz : c = b ∧ z = x
        · obtain ⟨rfl, rfl⟩ := hcz
          have hqp := h.inj q p z hfq hp
          rw [if_pos ⟨rfl, rfl⟩, if_pos (by rw [hqp])]
        · rw [if_neg hcz, if_neg ?_]
          intro heq
          obtain ⟨rfl, hc⟩ := append_inj' heq rfl
          rw [hp] at hfq
          cases hfq
          exact hcz ⟨by simpa using hc, rfl⟩

/-- A tree with a leaf less is a tree. -/
theorem IsTree.prune (h : IsTree next parent root) (hp : follow next root p = some x)
    (hb : next b x = some y) (hleaf : ∀ c, next c y = none) :
    IsTree (prune next b x) parent root := by
  have hfollow := follow_prune h hp hb hleaf
  have hold : ∀ q z, follow (Hengine.prune next b x) root q = some z →
      follow next root q = some z := by
    intro q z hq
    rw [hfollow] at hq
    split at hq
    · cases hq
    · exact hq
  constructor
  · intro q c z w hq hw
    rw [Hengine.prune] at hw
    split at hw
    · cases hw
    · exact h.back q c z w (hold q z hq) hw
  · intro q r z hq hr
    exact h.inj q r z (hold q z hq) (hold r z hr)

end

end Hengine
