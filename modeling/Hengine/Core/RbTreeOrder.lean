import Hengine.Core.RbTreeExact

/-!
# Red-Black Trees with an Order of the Caller

A caller of `ngx_rbtree_insert` may bring an insert function of its own, which orders nodes with the same
key by something else. Such a tree is one in the order of a number, the rank of a node, that says both. Only
the insert function looks at keys, so all the rest of the tree is what it would be with the ranks as keys
(`setKeys`).
-/

namespace Hengine

namespace RbTree

variable {t t' : RbTree} {rank : ℕ → ℕ} {side : ℕ → ℕ → Bool} {x y fuel : ℕ} {L : List ℕ}

/-! ### An insert function of the caller -/

/-- An insert function of the caller: `side node temp` is the side of `temp` on which `node` goes. -/
@[grind =]
def insertValueBy (side : ℕ → ℕ → Bool) : ℕ → RbTree → ℕ → ℕ → Option RbTree
  | 0, _, _, _ => none
  | fuel + 1, t, temp, node =>
    let p := side node temp
    if t.child p temp = t.sentinel then some (t.link p temp node)
    else insertValueBy side fuel t (t.child p temp) node

/-- `ngx_rbtree_insert` with an insert function of the caller. -/
def insertBy (side : ℕ → ℕ → Bool) (fuel : ℕ) (t : RbTree) (node : ℕ) : Option RbTree :=
  if t.root = t.sentinel then
    let t := t.setParent node 0
    let t := t.setChild false node t.sentinel
    let t := t.setChild true node t.sentinel
    let t := t.setRed node false
    some (t.setRoot node)
  else do
    let t ← insertValueBy side fuel t t.root node
    let t ← insertFixup fuel t node
    some (t.setRed t.root false)

/-! ### Other keys -/

/-- The tree with other keys. -/
def setKeys (t : RbTree) (k : ℕ → ℕ) : RbTree := { t with key := k }

variable {k : ℕ → ℕ}

@[simp] theorem root_setKeys : (t.setKeys k).root = t.root := rfl
@[simp] theorem sentinel_setKeys : (t.setKeys k).sentinel = t.sentinel := rfl
@[simp] theorem child_setKeys : (t.setKeys k).child = t.child := rfl
@[simp] theorem parent_setKeys : (t.setKeys k).parent = t.parent := rfl
@[simp] theorem red_setKeys : (t.setKeys k).red = t.red := rfl
@[simp] theorem key_setKeys : (t.setKeys k).key = k := rfl
theorem setKeys_key : t.setKeys t.key = t := rfl

theorem setKeys_of_key (t : RbTree) (k k' : ℕ → ℕ) :
    RbTree.setKeys { t with key := k' } k = t.setKeys k := rfl

@[simp] theorem setChild_setKeys (d : Bool) (x y : ℕ) :
    (t.setKeys k).setChild d x y = (t.setChild d x y).setKeys k := rfl
@[simp] theorem setParent_setKeys (x y : ℕ) :
    (t.setKeys k).setParent x y = (t.setParent x y).setKeys k := rfl
@[simp] theorem setRed_setKeys (x : ℕ) (c : Bool) :
    (t.setKeys k).setRed x c = (t.setRed x c).setKeys k := rfl
@[simp] theorem setRoot_setKeys (x : ℕ) : (t.setKeys k).setRoot x = (t.setRoot x).setKeys k := rfl

@[simp] theorem adopt_setKeys (x p : ℕ) : (t.setKeys k).adopt x p = (t.adopt x p).setKeys k := by
  by_cases hx : x = t.sentinel <;> simp [adopt, hx]

/-- Hooking does not look at keys. -/
@[simp] theorem hook_setKeys (d : Bool) (x y : ℕ) :
    (t.setKeys k).hook d x y = (t.hook d x y).setKeys k := by
  show (if x = t.root then (t.setRoot y).setKeys k
    else if x = t.child d (t.parent x) then (t.setChild d (t.parent x) y).setKeys k
    else (t.setChild (!d) (t.parent x) y).setKeys k) = (t.hook d x y).setKeys k
  rw [hook]
  split_ifs <;> rfl

@[simp] theorem rotate_setKeys (d : Bool) (x : ℕ) :
    (t.setKeys k).rotate d x = (t.rotate d x).setKeys k := by
  simp [rotate]

@[simp] theorem link_setKeys (p : Bool) (temp node : ℕ) :
    (t.setKeys k).link p temp node = (t.link p temp node).setKeys k := rfl

/-- A turn after an insertion does not look at keys. -/
theorem insertStep_setKeys (d : Bool) (node : ℕ) :
    insertStep d (t.setKeys k) node =
      ((insertStep d t node).1.setKeys k, (insertStep d t node).2) := by
  by_cases hred : t.red (t.child (!d) (t.parent (t.parent node))) = true
  · simp [insertStep, hred]
  · by_cases hside : node = t.child (!d) (t.parent node)
    · simp [insertStep, if_neg hred, if_pos hside]
    · simp [insertStep, if_neg hred, if_neg hside]

/-- Nor does the loop after an insertion. -/
theorem insertFixup_setKeys : ∀ (fuel : ℕ) (t : RbTree) (node : ℕ),
    insertFixup fuel (t.setKeys k) node = (insertFixup fuel t node).map (·.setKeys k)
  | 0, _, _ => rfl
  | fuel + 1, t, node => by
    show (if node ≠ t.root ∧ t.red (t.parent node) then
      insertFixup fuel (insertStep _ (t.setKeys k) node).1 (insertStep _ (t.setKeys k) node).2
      else some (t.setKeys k)) = (insertFixup (fuel + 1) t node).map (·.setKeys k)
    rw [insertStep_setKeys, insertFixup_setKeys fuel, insertFixup]
    split_ifs <;> rfl

/-- The sides of the caller are those of the ranks. -/
def Ranks (side : ℕ → ℕ → Bool) (rank : ℕ → ℕ) : Prop :=
  ∀ x y, side x y = !decide (rank x < rank y)

/-- **An order given by comparisons** goes the way that the ranks as keys go. -/
theorem insertValue_setKeys (h : Ranks side rank) : ∀ (fuel : ℕ) (t : RbTree) (temp node : ℕ),
    insertValue fuel (t.setKeys rank) temp node =
      (insertValueBy side fuel t temp node).map (·.setKeys rank)
  | 0, _, _, _ => rfl
  | fuel + 1, t, temp, node => by
    have hside : (t.setKeys rank).sideOf node temp = side node temp := (h node temp).symm
    rw [insertValue, insertValueBy]
    simp only [hside]
    show (if t.child (side node temp) temp = t.sentinel then
      some ((t.link (side node temp) temp node).setKeys rank)
      else insertValue fuel (t.setKeys rank) (t.child (side node temp) temp) node) = _
    rw [insertValue_setKeys h fuel]
    split_ifs <;> rfl

/-- **An insertion in the order of the ranks** is one with the ranks as keys. -/
theorem insert_setKeys (h : Ranks side rank) (fuel : ℕ) (t : RbTree) (node : ℕ) :
    (t.setKeys rank).insert fuel node = (insertBy side fuel t node).map (·.setKeys rank) := by
  by_cases hempty : t.root = t.sentinel
  · rw [insertBy, if_pos hempty]
    exact if_pos hempty
  · rw [insertBy, if_neg hempty]
    refine (if_neg hempty).trans ?_
    rw [root_setKeys, insertValue_setKeys h]
    cases insertValueBy side fuel t t.root node with
    | none => rfl
    | some t₁ =>
      simp only [Option.map_some, Option.bind_eq_bind, Option.bind_some, insertFixup_setKeys]
      cases insertFixup fuel t₁ node with
      | none => rfl
      | some t₂ => rfl

/-! ### Deletion with other keys -/

theorem min_setKeys : ∀ (fuel node : ℕ), (t.setKeys k).min fuel node = t.min fuel node
  | 0, _ => rfl
  | fuel + 1, node => by
    simp [min, min_setKeys fuel]

theorem substOf_setKeys (fuel node : ℕ) :
    (t.setKeys k).substOf fuel node = t.substOf fuel node := by
  simp [substOf, min_setKeys]

@[simp] theorem replace_setKeys (node subst : ℕ) :
    (t.setKeys k).replace node subst = (t.replace node subst).setKeys k := by
  simp only [replace, child_setKeys, parent_setKeys, red_setKeys, setChild_setKeys, setParent_setKeys,
    setRed_setKeys, hook_setKeys, adopt_setKeys]

@[simp] theorem redSibling_setKeys (d : Bool) (temp : ℕ) :
    (t.setKeys k).redSibling d temp = (t.redSibling d temp).setKeys k := by
  by_cases hred : t.red (t.child (!d) (t.parent temp)) = true <;> simp [redSibling, hred]

@[simp] theorem blackFar_setKeys (d : Bool) (temp : ℕ) :
    (t.setKeys k).blackFar d temp = (t.blackFar d temp).setKeys k := by
  by_cases hred : t.red (t.child (!d) (t.child (!d) (t.parent temp))) = true <;>
    simp [blackFar, hred]

@[simp] theorem lastRotation_setKeys (d : Bool) (temp : ℕ) :
    (t.setKeys k).lastRotation d temp = (t.lastRotation d temp).setKeys k := by
  simp [lastRotation]

/-- Making the sibling black does not look at keys. -/
theorem blackSibling_setKeys (d : Bool) (temp : ℕ) :
    blackSibling (t.setKeys k) d temp =
      ((blackSibling t d temp).1.setKeys k, (blackSibling t d temp).2) := by
  by_cases hred : (!t.red (t.child false (t.child (!d) (t.parent temp))) &&
      !t.red (t.child true (t.child (!d) (t.parent temp)))) = true
  · rw [blackSibling, blackSibling]
    simp only [if_pos hred]
    exact if_pos hred
  · rw [blackSibling, blackSibling]
    simp only [if_neg hred]
    refine (if_neg hred).trans ?_
    simp

theorem deleteStep_setKeys (d : Bool) (temp : ℕ) :
    deleteStep d (t.setKeys k) temp =
      ((deleteStep d t temp).1.setKeys k, (deleteStep d t temp).2) := by
  rw [deleteStep, deleteStep, redSibling_setKeys]
  exact blackSibling_setKeys d temp

/-- Nor does the loop after a deletion. -/
theorem deleteFixup_setKeys : ∀ (fuel : ℕ) (t : RbTree) (temp : ℕ),
    deleteFixup fuel (t.setKeys k) temp = (deleteFixup fuel t temp).map (·.setKeys k)
  | 0, _, _ => rfl
  | fuel + 1, t, temp => by
    show (if temp ≠ t.root ∧ !t.red temp then
      deleteFixup fuel (deleteStep _ (t.setKeys k) temp).1 (deleteStep _ (t.setKeys k) temp).2
      else some ((t.setRed temp false).setKeys k)) = (deleteFixup (fuel + 1) t temp).map (·.setKeys k)
    rw [deleteStep_setKeys, deleteFixup_setKeys fuel, deleteFixup]
    split_ifs <;> rfl

theorem clear_setKeys (x : ℕ) :
    (t.setKeys k).clear x = (t.clear x).setKeys (Function.update k x 0) := rfl

/-- **A deletion with other keys.** -/
theorem delete_setKeys (fuel : ℕ) (t : RbTree) (node : ℕ) :
    (t.setKeys k).delete fuel node =
      (t.delete fuel node).map (·.setKeys (Function.update k node 0)) := by
  simp only [delete, substOf_setKeys]
  cases t.substOf fuel node with
  | none => rfl
  | some p =>
    obtain ⟨subst, temp⟩ := p
    simp only [Option.bind_eq_bind, Option.bind_some]
    by_cases hroot : subst = t.root
    · rw [if_pos hroot]
      exact if_pos hroot
    rw [if_neg hroot]
    refine (if_neg hroot).trans ?_
    have hout (u : RbTree) : (if (t.setKeys k).red subst then some ((u.setKeys k).clear node)
        else deleteFixup fuel ((u.setKeys k).clear node) temp) =
        (if t.red subst then some (u.clear node) else deleteFixup fuel (u.clear node) temp).map
          (·.setKeys (Function.update k node 0)) := by
      rw [red_setKeys, clear_setKeys, deleteFixup_setKeys]
      split_ifs <;> rfl
    by_cases hsame : subst = node
    · simp only [if_pos hsame, hook_setKeys, setParent_setKeys]
      exact hout _
    · simp only [if_neg hsame, hook_setKeys, setParent_setKeys, replace_setKeys]
      exact hout _

/-! ### Insertion and deletion -/

/-- Only the keys of the nodes it holds matter to a tree. -/
theorem Holds.setKeys_congr {r r' : ℕ → ℕ} (h : (t.setKeys r).Holds L) (hr : ∀ x ∈ L, r' x = r x) :
    (t.setKeys r').Holds L := by
  obtain ⟨⟨T, hat, hrb, rfl⟩, hsorted⟩ := h
  refine ⟨⟨T, hat.setKey _, hrb, rfl⟩, hsorted.imp_of_mem fun {u v} hu hv huv => ?_⟩
  show r' u ≤ r' v
  rw [hr u hu, hr v hv]
  exact huv

/-- What a tree holds has a shape that is sorted. -/
theorem Holds.shape (h : (t.setKeys k).Holds L) :
    ∃ T, t.At [] T ∧ RbShape.toList T = L ∧ t.root = t.ptr T ∧ Sorted k L := by
  obtain ⟨⟨T, hat, -, rfl⟩, hsorted⟩ := h
  have hat' : t.At [] T := hat.setKey t.key
  exact ⟨T, hat', rfl, hat'.above, hsorted⟩

/-- An insertion changes no key. -/
theorem insertValueBy_key : ∀ (fuel : ℕ) {t t' : RbTree} {temp node : ℕ},
    insertValueBy side fuel t temp node = some t' → t'.key = t.key
  | 0, _, _, _, _, h => nomatch h
  | fuel + 1, t, t', temp, node, h => by
    simp only [insertValueBy] at h
    split_ifs at h
    · cases h
      rfl
    · exact insertValueBy_key fuel h

/-- An insertion keeps the keys. -/
theorem insertBy_key {node : ℕ} (h : insertBy side fuel t node = some t') : t'.key = t.key := by
  rw [insertBy] at h
  split_ifs at h
  · cases h
    rfl
  · rw [Option.bind_eq_bind, Option.bind_eq_some_iff] at h
    obtain ⟨t₁, hvalue, h⟩ := h
    rw [Option.bind_eq_some_iff] at h
    obtain ⟨t₂, hfixup, h⟩ := h
    cases h
    -- with its own keys a tree is the same tree
    have hkeys := insertFixup_setKeys (k := t₁.key) fuel t₁ node
    rw [setKeys_key, hfixup, Option.map_some, Option.some.injEq] at hkeys
    have hkey₂ : t₂.key = t₁.key := (congrArg RbTree.key hkeys).trans (key_setKeys (t := t₂))
    exact hkey₂.trans (insertValueBy_key fuel hvalue)

/-- **An insertion**: the new node goes behind all nodes of a smaller or the same rank. -/
theorem insertBy_spec (hside : Ranks side rank) (h : (t.setKeys rank).Holds L) (hx : x ∉ L)
    (hxs : x ≠ t.sentinel) (hfuel : L.length + 1 < fuel) :
    ∃ t' L₁ L₂, insertBy side fuel t x = some t' ∧ L = L₁ ++ L₂ ∧
      (t'.setKeys rank).Holds (L₁ ++ x :: L₂) ∧ t'.key = t.key ∧ t'.sentinel = t.sentinel := by
  obtain ⟨t₁, L₁, L₂, hrun, hL, hholds, -, -, hkey, hs⟩ := insert_spec h hx hxs hfuel
  rw [insert_setKeys hside, Option.map_eq_some_iff] at hrun
  obtain ⟨t', hrun', rfl⟩ := hrun
  exact ⟨t', L₁, L₂, hrun', hL, hholds, insertBy_key hrun', hs⟩

/-- **A deletion** takes the node out. -/
theorem delete_by_spec (h : (t.setKeys rank).Holds L) (hx : x ∈ L) (hfuel : L.length + 1 < fuel) :
    ∃ t', t.delete fuel x = some t' ∧ (t'.setKeys rank).Holds (L.erase x) ∧
      t'.key = Function.update t.key x 0 ∧ t'.sentinel = t.sentinel := by
  obtain ⟨t₁, hrun, hholds, hkey, hs⟩ := delete_spec h hx hfuel
  rw [delete_setKeys, Option.map_eq_some_iff] at hrun
  obtain ⟨t', hrun', rfl⟩ := hrun
  have hown := delete_setKeys (k := t.key) fuel t x
  rw [setKeys_key, hrun', Option.map_some, Option.some.injEq] at hown
  have hnd : L.Nodup := h.nodup
  refine ⟨t', hrun', hholds.setKeys_congr fun y hy => ?_, congrArg RbTree.key hown, hs⟩
  have hyx : y ≠ x := fun heq => hnd.not_mem_erase (heq ▸ hy)
  exact (Function.update_of_ne hyx _ _).symm

/-! ### Searching -/

open RbShape

/-- A search below a node: `go x` tells whether `x` is what is searched for, or the side of `x` on which
the search goes on. -/
@[grind =]
def search (go : ℕ → Option Bool) (t : RbTree) : ℕ → ℕ → Option (Option ℕ)
  | 0, _ => none
  | fuel + 1, x =>
    if x = t.sentinel then some none
    else
      match go x with
      | none => some (some x)
      | some d => search go t fuel (t.child d x)

/-- The sides on which a search for the rank `r` goes on. -/
def Seeks (go : ℕ → Option Bool) (rank : ℕ → ℕ) (r : ℕ) : Prop :=
  ∀ x, (go x = none ↔ rank x = r) ∧ (go x = some false → r < rank x) ∧ (go x = some true → rank x < r)

/-- **A search** finds a node of the rank, if there is one. -/
theorem search_spec {go : ℕ → Option Bool} {r : ℕ} (hgo : Seeks go rank r) :
    ∀ {T : RbShape ℕ} {ctx : List (RbFrame ℕ)} {fuel : ℕ}, t.At ctx T → Sorted rank (toList T) →
      (toList T).length < fuel → ∃ res, search go t fuel (t.ptr T) = some res ∧
        (∀ x, res = some x → x ∈ toList T ∧ rank x = r) ∧
        (res = none → ∀ x ∈ toList T, rank x ≠ r) := by
  intro T
  induction T with
  | nil =>
    intro ctx fuel _ _ hfuel
    obtain ⟨fuel, rfl⟩ : ∃ n, fuel = n + 1 := ⟨fuel - 1, by omega⟩
    exact ⟨none, if_pos rfl, nofun, fun _ => nofun⟩
  | node c l x r' ihl ihr =>
    intro ctx fuel h hsorted hfuel
    obtain ⟨fuel, rfl⟩ : ∃ n, fuel = n + 1 := ⟨fuel - 1, by omega⟩
    obtain ⟨hl, hxr, hdis⟩ := List.pairwise_append.mp hsorted
    obtain ⟨hx, hr⟩ := List.pairwise_cons.mp hxr
    simp only [toList, List.length_append, List.length_cons] at hfuel
    obtain ⟨-, hleft, hright, -⟩ := h.links
    have hne : t.ptr (.node c l x r') ≠ t.sentinel := h.ptr_ne_sentinel (by simp)
    have hat := (at_cons (f := ⟨false, c, x, r'⟩)).mpr h
    have hat' : t.At (⟨true, c, x, l⟩ :: ctx) r' := (at_cons (f := ⟨true, c, x, l⟩)).mpr h
    obtain ⟨hfound, hlow, hhigh⟩ := hgo x
    rw [search, if_neg hne]
    show ∃ res, (match go x with
      | none => some (some x)
      | some d => search go t fuel (t.child d x)) = some res ∧ _
    cases hside : go x with
    | none =>
      refine ⟨some x, rfl, fun y hy => ?_, nofun⟩
      cases hy
      exact ⟨List.mem_append_right _ List.mem_cons_self, hfound.mp hside⟩
    | some d =>
      cases d with
      | false =>
        obtain ⟨res, hrun, hsome, hnone⟩ := @ihl _ fuel hat hl (by omega)
        refine ⟨res, by dsimp only; rwa [hleft], fun y hy => ?_, fun hres y hy => ?_⟩
        · exact ⟨List.mem_append_left _ (hsome y hy).1, (hsome y hy).2⟩
        · have hlt := hlow hside
          rcases List.mem_append.mp hy with hy | hy
          · exact hnone hres y hy
          · rcases List.mem_cons.mp hy with rfl | hy
            · omega
            · have := hx y hy
              omega
      | true =>
        obtain ⟨res, hrun, hsome, hnone⟩ := @ihr _ fuel hat' hr (by omega)
        refine ⟨res, by dsimp only; rwa [hright], fun y hy => ?_, fun hres y hy => ?_⟩
        · exact ⟨List.mem_append_right _ (List.mem_cons_of_mem _ (hsome y hy).1), (hsome y hy).2⟩
        · have hlt := hhigh hside
          rcases List.mem_append.mp hy with hy | hy
          · have := hdis y hy x List.mem_cons_self
            omega
          · rcases List.mem_cons.mp hy with rfl | hy
            · omega
            · exact hnone hres y hy

end RbTree

end Hengine
