import Hengine.Core.RadixTree

/-!
# What the Operations on a Radix Tree Do

Seen from outside, a tree gives a value to some words of bits: those that lead to a node with a
value. This module says what each operation does to these values, whatever the cursor is that
takes it through a key. A deletion does the wrong thing at a node without children that has no
value, and at a root without children.
-/

namespace Hengine

open List Option Function

namespace RadixTree

variable {κ : Type} {C : BitCursor κ} {c : κ} {t t' : RadixTree} {W fuel x y : ℕ} {p q : List Bool}
  {b : Bool}

/-- `Word C c p`: from the cursor `c` on, the loop goes through the bits `p` of the key. -/
inductive Word (C : BitCursor κ) : κ → List Bool → Prop
  | stop {c : κ} : C.maskBit c = false → Word C c []
  | last {c : κ} : C.maskBit c = true → C.advance c = none → Word C c [C.keyBit c]
  | step {c c' : κ} {p : List Bool} : C.maskBit c = true → C.advance c = some c' → Word C c' p →
      Word C c (C.keyBit c :: p)

/-- The node that a word leads to. -/
def node (t : RadixTree) (p : List Bool) : Option ℕ := follow t.next t.root p

/-- The value of a word; there is none where it leads to no node. -/
def val (t : RadixTree) (p : List Bool) : ℕ := (t.node p).elim radixNoValue t.value

/-- The nodes are a tree of some depth, and none of them is free. -/
structure Wf (W : ℕ) (t : RadixTree) : Prop where
  tree : IsTree t.next t.parent t.root
  root : t.parent t.root = none
  deep : ∀ p x, t.node p = some x → p.length ≤ W
  live : ∀ p x, t.node p = some x → x < t.fresh ∧ x ∉ t.free
  free_nodup : t.free.Nodup
  free_lt : ∀ x ∈ t.free, x < t.fresh

theorem node_nil (t : RadixTree) : t.node [] = some t.root := rfl

theorem node_snoc (t : RadixTree) (p : List Bool) (b : Bool) :
    t.node (p ++ [b]) = (t.node p).bind (t.next b) :=
  follow_snoc ..

/-- A new value at the end of a word. -/
theorem val_update_value (h : t.Wf W) (hp : t.node p = some x) (v : ℕ) (q : List Bool) :
    val { t with value := update t.value x v } q = if q = p then v else t.val q := by
  have hnode : ∀ r, node { t with value := update t.value x v } r = t.node r := fun _ => rfl
  simp only [val, hnode]
  by_cases hq : q = p
  · rw [if_pos hq, hq, hp]
    simp
  · rw [if_neg hq]
    cases hnq : t.node q with
    | none => rfl
    | some y =>
      have hyx : y ≠ x := by
        rintro rfl
        exact hq (h.tree.inj q p y hnq hp)
      simp [hyx]

theorem Wf.update_value (h : t.Wf W) (v : ℕ → ℕ) : Wf W { t with value := v } :=
  ⟨h.tree, h.root, h.deep, h.live, h.free_nodup, h.free_lt⟩

/-! ### New nodes -/

/-- A node from the free list, or one that has never been used. -/
theorem alloc_spec (h : t.Wf W) :
    ∃ n free fresh, t.alloc = (n, { t with free := free, fresh := fresh }) ∧
      (∀ q, t.node q ≠ some n) ∧ n < fresh ∧ n ∉ free ∧ t.fresh ≤ fresh ∧ free ⊆ t.free ∧
      free.Nodup := by
  rw [alloc]
  split
  · next n free hfree =>
      have hnd := h.free_nodup
      rw [hfree] at hnd
      obtain ⟨hn, hnd⟩ := nodup_cons.mp hnd
      have hmem : n ∈ t.free := hfree ▸ mem_cons_self ..
      refine ⟨n, free, t.fresh, rfl, fun q hq => (h.live q n hq).2 hmem, h.free_lt n hmem, hn,
        Nat.le_refl _, ?_, hnd⟩
      rw [hfree]
      exact subset_cons_self ..
  · next hfree =>
      refine ⟨t.fresh, [], t.fresh + 1, by rw [hfree], fun q hq => ?_, Nat.lt_succ_self _,
        not_mem_nil, Nat.le_succ _, nil_subset _, nodup_nil⟩
      have := (h.live q _ hq).1
      omega

/-- **A new node** under a node that had none there. -/
theorem addChild_spec (h : t.Wf W) (hp : t.node p = some x) (hb : t.next b x = none)
    (hlen : p.length < W) :
    ∃ n t', t.addChild b x = (n, t') ∧ t'.Wf W ∧ t'.root = t.root ∧
      (∀ q, t'.node q = if q = p ++ [b] then some n else t.node q) ∧
      (∀ q, t'.val q = t.val q) ∧ ∀ c, t'.next c n = none := by
  obtain ⟨n, free, fresh, halloc, hn, hnf, hnfree, hfresh, hsub, hnd⟩ := alloc_spec h
  have hnode : ∀ q, follow (grow t.next b x n) t.root q =
      if q = p ++ [b] then some n else t.node q := follow_grow h.tree hp hb hn
  have hnew : t.node (p ++ [b]) = none := by
    rw [node_snoc, hp]
    exact hb
  have hroot : t.root ≠ n := by
    intro heq
    exact hn [] (heq ▸ rfl)
  have hadd : t.addChild b x = (n, { t with
      next := grow t.next b x n, parent := update t.parent n (some x),
      value := update t.value n radixNoValue, free := free, fresh := fresh }) := by
    rw [addChild, halloc]
  refine ⟨n, _, hadd, ⟨h.tree.grow hp hb hn, ?_, ?_, ?_, hnd, ?_⟩, rfl, hnode, ?_,
    fun c => by simp [grow]⟩
  · exact (update_of_ne hroot ..).trans h.root
  · intro q y hq
    rw [node, hnode] at hq
    split at hq
    · next heq =>
        rw [heq, length_append, length_singleton]
        exact hlen
    · exact h.deep q y hq
  · intro q y hq
    rw [node, hnode] at hq
    split at hq
    · cases hq
      exact ⟨hnf, hnfree⟩
    · obtain ⟨hlt, hfree⟩ := h.live q y hq
      exact ⟨Nat.lt_of_lt_of_le hlt hfresh, fun hmem => hfree (hsub hmem)⟩
  · intro y hy
    exact Nat.lt_of_lt_of_le (h.free_lt y (hsub hy)) hfresh
  · intro q
    simp only [val, node, hnode]
    by_cases hq : q = p ++ [b]
    · rw [if_pos hq, hq]
      have : follow t.next t.root (p ++ [b]) = none := hnew
      simp [this]
    · rw [if_neg hq]
      cases hnq : t.node q with
      | none =>
        have : follow t.next t.root q = none := hnq
        simp [this]
      | some y =>
        have hyn : y ≠ n := fun heq => hn q (heq ▸ hnq)
        have : follow t.next t.root q = some y := hnq
        simp [this, hyn]

/-- **The second loop** makes the nodes of a word, and gives none of them a value. -/
theorem extend_spec (hw : Word C c p) : ∀ {t : RadixTree} {x fuel : ℕ} {q : List Bool},
    p.length < fuel → t.Wf W → t.node q = some x → q.length + p.length ≤ W →
    (∀ b r, p = b :: r → t.next b x = none) →
    ∃ t' y, extend C fuel c t x = some (t', y) ∧ t'.Wf W ∧ t'.root = t.root ∧
      t'.node (q ++ p) = some y ∧ ∀ r, t'.val r = t.val r := by
  induction hw with
  | @stop c hmask =>
    intro t x fuel q hfuel ht hq hlen hnone
    obtain ⟨k, rfl⟩ : ∃ k, fuel = k + 1 := ⟨fuel - 1, by omega⟩
    refine ⟨t, x, ?_, ht, rfl, by rw [append_nil]; exact hq, fun _ => rfl⟩
    rw [extend, hmask]
    rfl
  | @last c hmask hadv =>
    intro t x fuel q hfuel ht hq hlen hnone
    obtain ⟨k, rfl⟩ : ∃ k, fuel = k + 1 := ⟨fuel - 1, by omega⟩
    simp only [length_singleton] at hlen
    obtain ⟨n, t', hadd, hwf, hroot, hnode, hval, -⟩ :=
      addChild_spec ht hq (hnone _ _ rfl) (by omega)
    refine ⟨t', n, ?_, hwf, hroot, by rw [hnode, if_pos rfl], hval⟩
    rw [extend, if_pos hmask, hadd]
    simp only [hadv]
  | @step c c' p hmask hadv _ ih =>
    intro t x fuel q hfuel ht hq hlen hnone
    obtain ⟨k, rfl⟩ : ∃ k, fuel = k + 1 := ⟨fuel - 1, by omega⟩
    simp only [length_cons] at hlen hfuel
    obtain ⟨n, t₁, hadd, hwf, hroot, hnode, hval, hleaf⟩ :=
      addChild_spec ht hq (hnone _ _ rfl) (by omega)
    obtain ⟨t', y, hrun, hwf', hroot', hnode', hval'⟩ := ih (t := t₁) (x := n)
      (q := q ++ [C.keyBit c]) (show p.length < k by omega) hwf (by rw [hnode, if_pos rfl])
      (by rw [length_append, length_singleton]; omega) fun b r _ => hleaf b
    refine ⟨t', y, ?_, hwf', hroot'.trans hroot, ?_, fun r => (hval' r).trans (hval r)⟩
    · rw [extend, if_pos hmask, hadd]
      simp only [hadv]
      exact hrun
    · rw [append_assoc] at hnode'
      exact hnode'

/-! ### Insertion -/

/-- **The first loop** goes as far as there are nodes. -/
theorem descend_spec (hw : Word C c p) : ∀ {x fuel : ℕ}, p.length < fuel →
    (∃ y, follow t.next x p = some y ∧ t.descend C fuel c x = some (y, none)) ∨
      ∃ p₁ b p₂ y c', p = p₁ ++ b :: p₂ ∧ follow t.next x p₁ = some y ∧ t.next b y = none ∧
        Word C c' (b :: p₂) ∧ t.descend C fuel c x = some (y, some c') := by
  induction hw with
  | @stop c hmask =>
    intro x fuel hfuel
    obtain ⟨k, rfl⟩ : ∃ k, fuel = k + 1 := ⟨fuel - 1, by omega⟩
    refine Or.inl ⟨x, rfl, ?_⟩
    rw [descend, hmask]
    rfl
  | @last c hmask hadv =>
    intro x fuel hfuel
    obtain ⟨k, rfl⟩ : ∃ k, fuel = k + 1 := ⟨fuel - 1, by omega⟩
    rw [descend, if_pos hmask]
    cases hn : t.next (C.keyBit c) x with
    | none => exact Or.inr ⟨[], _, [], x, c, rfl, rfl, hn, .last hmask hadv, rfl⟩
    | some n =>
      refine Or.inl ⟨n, ?_, by simp only [hadv]⟩
      simp [follow, hn]
  | @step c c' p hmask hadv hw ih =>
    intro x fuel hfuel
    obtain ⟨k, rfl⟩ : ∃ k, fuel = k + 1 := ⟨fuel - 1, by omega⟩
    simp only [length_cons] at hfuel
    rw [descend, if_pos hmask]
    cases hn : t.next (C.keyBit c) x with
    | none => exact Or.inr ⟨[], _, p, x, c, rfl, rfl, hn, .step hmask hadv hw, rfl⟩
    | some n =>
      simp only [hadv]
      rcases ih (x := n) (show p.length < k by omega) with
        ⟨y, hy, hrun⟩ | ⟨p₁, b, p₂, y, c'', hp, hy, hb, hw', hrun⟩
      · exact Or.inl ⟨y, by simp [follow, hn, hy], hrun⟩
      · refine Or.inr ⟨C.keyBit c :: p₁, b, p₂, y, c'', by rw [hp]; rfl, ?_, hb, hw', hrun⟩
        simp [follow, hn, hy]

/-- **An insertion** finds its word taken, or gives it the value. -/
theorem insert_spec (h : t.Wf W) (hw : Word C c p) (hlen : p.length ≤ W) (hfuel : W < fuel)
    (v : ℕ) :
    (t.val p ≠ radixNoValue ∧ t.insert C fuel c v = some (t, .busy)) ∨
      t.val p = radixNoValue ∧ ∃ t', t.insert C fuel c v = some (t', .ok) ∧ t'.Wf W ∧
        ∀ q, t'.val q = if q = p then v else t.val q := by
  rcases descend_spec (t := t) hw (x := t.root) (show p.length < fuel by omega) with
    ⟨y, hy, hrun⟩ | ⟨p₁, b, p₂, y, c', hp, hy, hb, hw', hrun⟩
  · have hval : t.val p = t.value y := by
      have hnode : t.node p = some y := hy
      simp [val, hnode]
    simp only [insert, hrun, bind_eq_bind, bind_some, hval]
    by_cases hv : t.value y = radixNoValue
    · refine Or.inr ⟨hv, _, if_neg (not_not.mpr hv), h.update_value _, fun q => ?_⟩
      rw [val_update_value h hy]
    · exact Or.inl ⟨hv, if_pos hv⟩
  · obtain ⟨t', y', hext, hwf, hroot, hnode, hval⟩ := extend_spec hw' (t := t) (x := y) (q := p₁)
      (show (b :: p₂).length < fuel by
        have := congrArg List.length hp
        rw [length_append] at this
        omega) h hy
      (by
        have := congrArg List.length hp
        rw [length_append] at this
        omega)
      (by
        rintro b' r hbr
        cases hbr
        exact hb)
    rw [← hp] at hnode
    have hnone : t.node p = none := by
      rw [hp, node, follow_append, hy]
      simp [follow, hb]
    refine Or.inr ⟨by simp [val, hnone], { t' with value := update t'.value y' v }, ?_,
      hwf.update_value _, fun q => ?_⟩
    · simp [insert, hrun, hext]
    · rw [val_update_value hwf hnode, hval]

/-! ### Deletion -/

/-- The loop of a deletion finds the node of its word. -/
theorem lookup_spec (hw : Word C c p) : ∀ {o : Option ℕ} {fuel : ℕ}, p.length < fuel →
    t.lookup C fuel c o = some (o.bind fun x => follow t.next x p) := by
  induction hw with
  | @stop c hmask =>
    intro o fuel hfuel
    obtain ⟨k, rfl⟩ : ∃ k, fuel = k + 1 := ⟨fuel - 1, by omega⟩
    cases o with
    | none => rfl
    | some x =>
      rw [lookup, hmask]
      rfl
  | @last c hmask hadv =>
    intro o fuel hfuel
    obtain ⟨k, rfl⟩ : ∃ k, fuel = k + 1 := ⟨fuel - 1, by omega⟩
    cases o with
    | none => rfl
    | some x =>
      rw [lookup, if_pos hmask]
      simp only [hadv, bind_some]
      congr 1
      simp only [follow]
      cases t.next (C.keyBit c) x with
      | none => rfl
      | some y => rfl
  | @step c c' p hmask hadv _ ih =>
    intro o fuel hfuel
    obtain ⟨k, rfl⟩ : ∃ k, fuel = k + 1 := ⟨fuel - 1, by omega⟩
    simp only [length_cons] at hfuel
    cases o with
    | none => rfl
    | some x =>
      rw [lookup, if_pos hmask]
      simp only [hadv, bind_some]
      exact ih (show p.length < k by omega)

/-- A node without children has no next node on either side. -/
theorem not_hasChild : t.hasChild x = false ↔ ∀ b, t.next b x = none := by
  rw [hasChild, Bool.or_eq_false_iff, isSome_eq_false_iff, isNone_iff_eq_none,
    isSome_eq_false_iff, isNone_iff_eq_none]
  constructor
  · rintro ⟨htrue, hfalse⟩ b
    cases b with
    | true => exact htrue
    | false => exact hfalse
  · intro h
    exact ⟨h true, h false⟩

/-- **The loop that takes out a node** and such ancestors as have become useless: only its own
word loses a value. -/
theorem unlink_spec : ∀ {p : List Bool} {t : RadixTree} {y fuel : ℕ}, p ≠ [] → p.length < fuel →
    t.Wf W → t.node p = some y → t.hasChild y = false →
    ∃ t', unlink fuel t y = some t' ∧ t'.Wf W ∧ t'.root = t.root ∧
      (∀ q, t'.val q = if q = p then radixNoValue else t.val q) := by
  intro p
  induction p using List.reverseRecOn with
  | nil =>
    intro t y fuel hne
    exact absurd rfl hne
  | append_singleton p b ih =>
    intro t y fuel _ hfuel h hy hleaf
    obtain ⟨k, rfl⟩ : ∃ k, fuel = k + 1 := ⟨fuel - 1, by omega⟩
    rw [length_append, length_singleton] at hfuel
    have hchildren := not_hasChild.mp hleaf
    obtain ⟨x, hx, hxy⟩ : ∃ x, t.node p = some x ∧ t.next b x = some y := by
      rw [node_snoc, bind_eq_some_iff] at hy
      exact hy
    have hparent : t.parent y = some x := h.tree.back p b x y hx hxy
    -- The test tells which child of its parent the node is.
    have hside : (t.next true x == some y) = b := by
      cases b with
      | true => simp [hxy]
      | false =>
        by_contra hc
        have htrue : t.next true x = some y := by simpa using hc
        have := h.tree.label_inj hx htrue hxy
        cases this
    have hnode : ∀ q, follow (prune t.next b x) t.root q =
        if q = p ++ [b] then none else t.node q := follow_prune h.tree hx hxy hchildren
    -- The tree without the node.
    have hlive := h.live _ _ hy
    have hwf : Wf W { t with next := prune t.next b x, free := y :: t.free } := by
      refine ⟨h.tree.prune hx hxy hchildren, h.root, ?_, ?_, ?_, ?_⟩
      · intro q z hq
        rw [node, hnode] at hq
        split at hq
        · cases hq
        · exact h.deep q z hq
      · intro q z hq
        rw [node, hnode] at hq
        split at hq
        · cases hq
        · next hqp =>
            obtain ⟨hlt, hfree⟩ := h.live q z hq
            refine ⟨hlt, fun hmem => ?_⟩
            rcases mem_cons.mp hmem with rfl | hmem
            · exact hqp (h.tree.inj q _ z hq hy)
            · exact hfree hmem
      · exact nodup_cons.mpr ⟨hlive.2, h.free_nodup⟩
      · intro z hz
        rcases mem_cons.mp hz with rfl | hz
        · exact hlive.1
        · exact h.free_lt z hz
    have hval : ∀ q, val { t with next := prune t.next b x, free := y :: t.free } q =
        if q = p ++ [b] then radixNoValue else t.val q := by
      intro q
      simp only [val, node, hnode]
      by_cases hq : q = p ++ [b]
      · rw [if_pos hq, if_pos hq]
        rfl
      · rw [if_neg hq, if_neg hq]
    have hx' : node { t with next := prune t.next b x, free := y :: t.free } p = some x := by
      rw [node, hnode, if_neg ?_]
      · exact hx
      · intro heq
        have := congrArg List.length heq
        simp at this
    simp only [unlink, hparent, bind_eq_bind, bind_some, hside]
    split
    · exact ⟨_, rfl, hwf, rfl, hval⟩
    · next hchild =>
        split
        · exact ⟨_, rfl, hwf, rfl, hval⟩
        · next hvalue =>
            split
            · exact ⟨_, rfl, hwf, rfl, hval⟩
            · next hroot =>
                have hvalue : t.value x = radixNoValue := not_not.mp hvalue
                have hne : p ≠ [] := by
                  rintro rfl
                  rw [node_nil] at hx
                  cases hx
                  exact hroot h.root
                obtain ⟨t', hrun, hwf', hr', hval'⟩ := ih hne (show p.length < k by omega) hwf hx'
                  (by simpa using hchild)
                refine ⟨t', hrun, hwf', hr', fun q => ?_⟩
                rw [hval', hval]
                by_cases hq : q = p
                · -- The parent had no value of its own.
                  have hvp : t.val p = radixNoValue := by simp [val, hx, hvalue]
                  rw [if_pos hq, hq, hvp, ite_self]
                · rw [if_neg hq]

/-- The word leads to a node from which a deletion goes wrong: it has no children, and no value or
no parent. -/
def Stray (t : RadixTree) (p : List Bool) : Prop :=
  ∃ x, t.node p = some x ∧ t.hasChild x = false ∧ (t.val p = radixNoValue ∨ p = [])

/-- **A deletion** takes the value of its word away, or finds none and changes nothing. -/
theorem delete_spec (h : t.Wf W) (hw : Word C c p) (hlen : p.length ≤ W) (hfuel : W < fuel)
    (hstray : ¬ t.Stray p) :
    (t.val p = radixNoValue ∧ t.delete C fuel c = some (t, .error)) ∨
      t.val p ≠ radixNoValue ∧ ∃ t', t.delete C fuel c = some (t', .ok) ∧ t'.Wf W ∧
        ∀ q, t'.val q = if q = p then radixNoValue else t.val q := by
  have hlook : t.lookup C fuel c (some t.root) = some (t.node p) :=
    lookup_spec hw (show p.length < fuel by omega)
  cases hx : t.node p with
  | none =>
    refine Or.inl ⟨by simp [val, hx], ?_⟩
    simp [delete, hlook, hx]
  | some x =>
    have hval : t.val p = t.value x := by simp [val, hx]
    simp only [delete, hlook, hx, bind_eq_bind, bind_some]
    by_cases hchild : t.hasChild x = true
    · rw [if_pos hchild]
      by_cases hv : t.value x = radixNoValue
      · exact Or.inl ⟨hval.trans hv, if_neg (not_not.mpr hv)⟩
      · refine Or.inr ⟨hval ▸ hv, _, if_pos hv, h.update_value _, fun q => ?_⟩
        rw [val_update_value h hx]
    · have hchild : t.hasChild x = false := by simpa using hchild
      have hgood : t.val p ≠ radixNoValue ∧ p ≠ [] := by
        constructor
        · exact fun hv => hstray ⟨x, hx, hchild, Or.inl hv⟩
        · exact fun hp => hstray ⟨x, hx, hchild, Or.inr hp⟩
      obtain ⟨t', hrun, hwf, -, hval'⟩ :=
        unlink_spec hgood.2 (show p.length < fuel by omega) h hx hchild
      refine Or.inr ⟨hgood.1, t', ?_, hwf, hval'⟩
      rw [hchild, if_neg (by simp), hrun]
      rfl

/-- **A deletion that goes wrong**: at a root it follows a null pointer, and elsewhere it says that
it has found what is not there. -/
theorem delete_stray (h : t.Wf W) (hw : Word C c p) (hlen : p.length ≤ W) (hfuel : W < fuel)
    (hstray : t.Stray p) :
    t.delete C fuel c = none ∨
      t.val p = radixNoValue ∧ ∃ t', t.delete C fuel c = some (t', .ok) := by
  obtain ⟨x, hx, hchild, hbad⟩ := hstray
  have hlook : t.lookup C fuel c (some t.root) = some (t.node p) :=
    lookup_spec hw (show p.length < fuel by omega)
  simp only [delete, hlook, hx, bind_eq_bind, bind_some, hchild,
    Bool.false_eq_true, if_false]
  by_cases hp : p = []
  · left
    obtain ⟨k, rfl⟩ : ∃ k, fuel = k + 1 := ⟨fuel - 1, by omega⟩
    subst hp
    rw [node_nil] at hx
    cases hx
    simp [unlink, h.root]
  · right
    obtain ⟨t', hrun, -⟩ := unlink_spec hp (show p.length < fuel by omega) h hx hchild
    exact ⟨hbad.resolve_right hp, t', by rw [hrun]; rfl⟩

/-! ### Search -/

/-- The first bits that a cursor goes through, mask or no mask. -/
@[grind =]
def taken (C : BitCursor κ) : ℕ → κ → List Bool
  | 0, _ => []
  | n + 1, c => C.keyBit c :: (C.advance c).elim [] (taken C n)

/-- `v` is the value of the longest word on the way of a search, after the word `q`; or it is
what was there before. -/
def Longest (t : RadixTree) (C : BitCursor κ) (c : κ) (q : List Bool) (old v : ℕ) : Prop :=
  (∃ n, t.val (q ++ taken C n c) = v ∧ v ≠ radixNoValue ∧
      ∀ m, n < m → t.val (q ++ taken C m c) = radixNoValue) ∨
    v = old ∧ ∀ n, t.val (q ++ taken C n c) = radixNoValue

theorem val_of_node_none (h : t.node q = none) (r : List Bool) : t.val (q ++ r) = radixNoValue := by
  have : t.node (q ++ r) = none := by
    rw [node, follow_append]
    have : follow t.next t.root q = none := h
    rw [this]
    rfl
  simp [val, this]

/-- **A search** ends with the value of the longest word on its way. -/
theorem find_spec (h : t.Wf W) (hadv : ∀ c, ∃ c', C.advance c = some c') :
    ∀ (fuel : ℕ) (c : κ) (q : List Bool) (old : ℕ), W + 1 < fuel + q.length →
      q.length ≤ W + 1 →
      (t.node q = none → ∃ v, t.find C fuel c none old = some v ∧ v = old) ∧
        ∀ x, t.node q = some x → ∃ v, t.find C fuel c (some x) old = some v ∧ Longest t C c q old v := by
  intro fuel
  induction fuel with
  | zero =>
    intro c q old hfuel hlen
    omega
  | succ fuel ih =>
    intro c q old hfuel hlen
    refine ⟨fun _ => ⟨old, rfl, rfl⟩, fun x hx => ?_⟩
    have hdeep := h.deep q x hx
    obtain ⟨c', hc'⟩ := hadv c
    have hsnoc : t.node (q ++ [C.keyBit c]) = t.next (C.keyBit c) x := by
      rw [node_snoc, hx]
      rfl
    have hval : t.val q = t.value x := by simp [val, hx]
    simp only [find, hc', bind_eq_bind, bind_some]
    obtain ⟨hnone, hsome⟩ := ih c' (q ++ [C.keyBit c])
      (if t.value x ≠ radixNoValue then t.value x else old)
      (by rw [length_append, length_singleton]; omega)
      (by rw [length_append, length_singleton]; omega)
    -- The bits from here on are one bit and those of the next cursor.
    have htaken : ∀ n, q ++ taken C (n + 1) c = (q ++ [C.keyBit c]) ++ taken C n c' := by
      intro n
      rw [taken, hc', append_assoc]
      rfl
    have hzero : q ++ taken C 0 c = q := append_nil q
    -- If nothing is found further down, it is the value here or what was there before.
    have hhere : (∀ n, t.val (q ++ taken C (n + 1) c) = radixNoValue) →
        Longest t C c q old (if t.value x ≠ radixNoValue then t.value x else old) := by
      intro hrest
      have hlater : ∀ m, 0 < m → t.val (q ++ taken C m c) = radixNoValue := by
        intro m hm
        obtain ⟨k, rfl⟩ : ∃ k, m = k + 1 := ⟨m - 1, by omega⟩
        exact hrest k
      by_cases hv : t.value x = radixNoValue
      · rw [if_neg (not_not.mpr hv)]
        refine Or.inr ⟨rfl, fun n => ?_⟩
        cases n with
        | zero => rw [hzero, hval, hv]
        | succ n => exact hrest n
      · rw [if_pos hv]
        exact Or.inl ⟨0, by rw [hzero, hval], hv, hlater⟩
    cases hn : t.next (C.keyBit c) x with
    | none =>
      rw [hn] at hsnoc
      obtain ⟨v, hrun, rfl⟩ := hnone hsnoc
      refine ⟨_, hrun, hhere fun n => ?_⟩
      rw [htaken]
      exact val_of_node_none hsnoc _
    | some z =>
      rw [hn] at hsnoc
      obtain ⟨v, hrun, hlong⟩ := hsome z hsnoc
      refine ⟨v, hrun, ?_⟩
      rcases hlong with ⟨n, hv, hne, hlater⟩ | ⟨rfl, hall⟩
      · refine Or.inl ⟨n + 1, by rw [htaken, hv], hne, fun m hm => ?_⟩
        obtain ⟨k, rfl⟩ : ∃ k, m = k + 1 := ⟨m - 1, by omega⟩
        rw [htaken]
        exact hlater k (by omega)
      · exact hhere fun n => by rw [htaken]; exact hall n

end RadixTree

end Hengine
