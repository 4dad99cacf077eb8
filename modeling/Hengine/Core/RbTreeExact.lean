import Hengine.Core.RbTreeDelete
import Hengine.Lib.Machine

/-!
# The Red-Black Tree over Whole Runs

In every run of insertions and deletions the tree is a red-black tree that holds the nodes inserted
and not deleted, in the order of their keys, and `ngx_rbtree_next` enumerates them in this order.
Nodes with the same key stay in the order in which they were inserted. So the keys to the right of
a node are not smaller, and those to the left are not greater: a rotation may well put a node to
the left of one with the same key.
-/

namespace Hengine

namespace RbTree

open RbShape

variable {t t' : RbTree} {c : Bool} {x : ℕ} {T l r : RbShape ℕ} {ctx : List (RbFrame ℕ)}

/-! ### The enumeration -/

/-- **Up to the first ancestor on the right.** -/
theorem climb_spec : ∀ {fuel : ℕ} {ctx : List (RbFrame ℕ)} {T : RbShape ℕ}, T ≠ .nil →
    ctx.length < fuel → t.At ctx T → t.climb fuel (t.ptr T) = some (after ctx).head? := by
  intro fuel ctx
  induction ctx generalizing fuel with
  | nil =>
    intro T hT hfuel h
    obtain ⟨fuel, rfl⟩ : ∃ k, fuel = k + 1 := ⟨fuel - 1, by omega⟩
    rw [climb, if_pos ((h.eq_root hT).mpr rfl)]
    rfl
  | cons f ctx ih =>
    intro T hT hfuel h
    obtain ⟨fuel, rfl⟩ : ∃ k, fuel = k + 1 := ⟨fuel - 1, by omega⟩
    have hne : t.ptr T ≠ t.root := fun heq => by cases (h.eq_root hT).mp heq
    have hp : t.parent (t.ptr T) = f.x := h.up hT
    have hside := h.side (Or.inl hT)
    rw [climb, if_neg hne, hp, after]
    cases hf : f.side with
    | false =>
      have hleft : t.ptr T = t.child false f.x := by simpa [hf] using hside
      rw [if_pos hleft]
      rfl
    | true =>
      have hright : t.ptr T ≠ t.child false f.x := by simpa [hf] using hside
      rw [List.length_cons] at hfuel
      have hup := ih fork_ne_nil (show ctx.length < fuel by omega) (at_cons.mp h)
      rw [ptr_fork] at hup
      rw [if_neg hright, hup]
      rfl

/-- **The next node.** -/
theorem next_spec {fuel : ℕ} (h : t.At ctx (.node c l x r))
    (hfuel : (toList r).length + ctx.length < fuel) :
    t.next fuel x = some (toList r ++ after ctx).head? := by
  have hright : t.child true x = t.ptr r := h.links.2.2.1
  rw [next, hright]
  by_cases hr : r = .nil
  · subst hr
    rw [ptr_nil, if_neg (not_not.mpr rfl)]
    exact climb_spec (T := .node c l x .nil) (fun hc => by cases hc) (by omega) h
  · have hdown : t.At (⟨true, c, x, l⟩ :: ctx) r := at_cons.mpr h
    obtain ⟨ctx', cs, s, U, rfl, hleft, hmin⟩ :=
      min_spec hr (show (toList r).length < fuel by omega) hdown
    rw [if_pos (hdown.ptr_ne_sentinel hr), hmin, toList_plug, before_left hleft]
    simp [toList]

/-- The next node, in the order of the whole tree. -/
theorem next_order {fuel : ℕ} {L₁ L₂ : List ℕ} (h : t.At [] T) (hfuel : (toList T).length < fuel)
    (hL : toList T = L₁ ++ x :: L₂) : t.next fuel x = some L₂.head? := by
  have hnd : (toList T).Nodup := by simpa [ctxList] using h.nodup
  obtain ⟨ctx, c, l, r, rfl⟩ := exists_plug (show x ∈ toList T by rw [hL]; simp)
  have hlen : (toList r).length + ctx.length < fuel := by
    have h₁ := length_le_ctxList ctx
    have h₂ := (toList_plug_perm ctx (.node c l x r)).length_eq
    rw [toList, List.length_append, List.length_append, List.length_cons] at h₂
    omega
  -- The node is in the list once, so what follows it is known.
  have hsplit : toList (plug ctx (.node c l x r)) =
      (before ctx ++ toList l) ++ x :: (toList r ++ after ctx) := by
    rw [toList_plug, toList]
    simp
  rw [hsplit, List.nodup_append, List.nodup_cons] at hnd
  have hnot : x ∉ before ctx ++ toList l := fun hmem =>
    hnd.2.2 x hmem x (List.mem_cons_self ..) rfl
  obtain ⟨-, -, hrest⟩ :=
    (List.append_cons_inj_of_notMem hnot hnd.2.1.1).mp (hsplit.symm.trans hL)
  rw [next_spec (at_root.mpr h) hlen, hrest]

/-- **The nodes from some node on.** -/
theorem iterate_spec {fuel : ℕ} (h : t.At [] T) (hfuel : (toList T).length < fuel) :
    ∀ {L₂ : List ℕ} {n : ℕ} {L₁ : List ℕ} {x : ℕ}, toList T = L₁ ++ x :: L₂ → L₂.length + 1 < n →
      t.iterate fuel n (some x) = some (x :: L₂) := by
  intro L₂
  induction L₂ with
  | nil =>
    intro n L₁ x hL hn
    obtain ⟨n, rfl⟩ : ∃ k, n = k + 2 := ⟨n - 2, by simp at hn; omega⟩
    rw [iterate, next_order h hfuel hL]
    rfl
  | cons y L₂ ih =>
    intro n L₁ x hL hn
    obtain ⟨n, rfl⟩ : ∃ k, n = k + 1 := ⟨n - 1, by omega⟩
    have hsplit : toList T = (L₁ ++ [x]) ++ y :: L₂ := by rw [hL]; simp
    have hrest := ih hsplit (show L₂.length + 1 < n by rw [List.length_cons] at hn; omega)
    rw [iterate, next_order h hfuel hL]
    simp [List.head?_cons, hrest]

/-- **All nodes** are enumerated, in the order of the tree. -/
theorem walk_spec {fuel : ℕ} (h : t.At [] T) (hfuel : (toList T).length + 1 < fuel) :
    t.walk fuel = some (toList T) := by
  have hroot : t.root = t.ptr T := h.above
  by_cases hT : T = .nil
  · subst hT
    rw [ptr_nil] at hroot
    rw [walk, if_pos hroot]
    rfl
  · have hne : t.root ≠ t.sentinel := by
      rw [hroot]
      exact h.ptr_ne_sentinel hT
    obtain ⟨ctx, c, s, r, rfl, hleft, hmin⟩ :=
      min_spec hT (show (toList T).length < fuel by omega) h
    have hfirst : toList (plug ctx (.node c .nil s r)) = [] ++ s :: (toList r ++ after ctx) := by
      rw [toList_plug, before_left hleft]
      simp [toList]
    have hlen := congrArg List.length hfirst
    rw [List.length_append, List.length_cons, List.length_nil] at hlen
    have hall := iterate_spec h (show _ < fuel by omega) (n := fuel) hfirst (by omega)
    rw [walk, if_neg hne, hroot, hmin, hfirst, List.nil_append]
    simp [hall]

/-! ### Fuel -/

/-- More fuel does not change a result. -/
theorem insertValue_mono : ∀ {fuel fuel' temp : ℕ}, fuel ≤ fuel' →
    insertValue fuel t temp x = some t' → insertValue fuel' t temp x = some t' := by
  intro fuel
  induction fuel with
  | zero =>
    intro fuel' temp _ h
    cases h
  | succ fuel ih =>
    intro fuel' temp hle h
    obtain ⟨k, rfl⟩ : ∃ k, fuel' = k + 1 := ⟨fuel' - 1, by omega⟩
    simp only [insertValue] at h ⊢
    split at h
    · next hc => rwa [if_pos hc]
    · next hc =>
        rw [if_neg hc]
        exact ih (by omega) h

/-- More turns change nothing. -/
theorem insertFixup_mono : ∀ {fuel fuel' : ℕ} {t : RbTree} {node : ℕ}, fuel ≤ fuel' →
    insertFixup fuel t node = some t' → insertFixup fuel' t node = some t' := by
  intro fuel
  induction fuel with
  | zero =>
    intro fuel' t node _ h
    cases h
  | succ fuel ih =>
    intro fuel' t node hle h
    obtain ⟨k, rfl⟩ : ∃ k, fuel' = k + 1 := ⟨fuel' - 1, by omega⟩
    simp only [insertFixup] at h ⊢
    split at h
    · next hc =>
        rw [if_pos hc]
        exact ih (by omega) h
    · next hc => rwa [if_neg hc]

/-- More turns change nothing in an insertion. -/
theorem insert_mono {fuel fuel' : ℕ} (hle : fuel ≤ fuel') (h : t.insert fuel x = some t') :
    t.insert fuel' x = some t' := by
  rw [insert] at h ⊢
  split at h
  · next hc => rwa [if_pos hc]
  · next hc =>
      rw [if_neg hc]
      simp only [Option.bind_eq_bind, Option.bind_eq_some_iff] at h ⊢
      obtain ⟨t₁, hvalue, t₂, hfix, hend⟩ := h
      exact ⟨t₁, insertValue_mono hle hvalue, t₂, insertFixup_mono hle hfix, hend⟩

/-- More turns change nothing. -/
theorem min_mono {s : ℕ} : ∀ {fuel fuel' node : ℕ}, fuel ≤ fuel' →
    t.min fuel node = some s → t.min fuel' node = some s := by
  intro fuel
  induction fuel with
  | zero =>
    intro fuel' node _ h
    cases h
  | succ fuel ih =>
    intro fuel' node hle h
    obtain ⟨k, rfl⟩ : ∃ k, fuel' = k + 1 := ⟨fuel' - 1, by omega⟩
    simp only [RbTree.min] at h ⊢
    split at h
    · next hc =>
        rw [if_pos hc]
        exact ih (by omega) h
    · next hc => rwa [if_neg hc]

/-- More turns change nothing. -/
theorem deleteFixup_mono : ∀ {fuel fuel' : ℕ} {t : RbTree} {node : ℕ}, fuel ≤ fuel' →
    deleteFixup fuel t node = some t' → deleteFixup fuel' t node = some t' := by
  intro fuel
  induction fuel with
  | zero =>
    intro fuel' t node _ h
    cases h
  | succ fuel ih =>
    intro fuel' t node hle h
    obtain ⟨k, rfl⟩ : ∃ k, fuel' = k + 1 := ⟨fuel' - 1, by omega⟩
    simp only [deleteFixup] at h ⊢
    split at h
    · next hc =>
        rw [if_pos hc]
        exact ih (by omega) h
    · next hc => rwa [if_neg hc]

/-- More turns find the same node. -/
theorem substOf_mono {fuel fuel' : ℕ} {p : ℕ × ℕ} (hle : fuel ≤ fuel')
    (h : t.substOf fuel x = some p) : t.substOf fuel' x = some p := by
  rw [substOf] at h ⊢
  split at h
  · next hc => rwa [if_pos hc]
  · next hc =>
      rw [if_neg hc]
      split at h
      · next hc' => rwa [if_pos hc']
      · next hc' =>
          rw [if_neg hc']
          simp only [Option.bind_eq_bind, Option.bind_eq_some_iff] at h ⊢
          obtain ⟨s, hmin, hend⟩ := h
          exact ⟨s, min_mono hle hmin, hend⟩

/-- More turns change nothing in a deletion. -/
theorem delete_mono {fuel fuel' : ℕ} (hle : fuel ≤ fuel') (h : t.delete fuel x = some t') :
    t.delete fuel' x = some t' := by
  obtain ⟨⟨s, temp⟩, hsub⟩ : ∃ p, t.substOf fuel x = some p := by
    rw [delete, Option.bind_eq_bind, Option.bind_eq_some_iff] at h
    obtain ⟨p, hp, -⟩ := h
    exact ⟨p, hp⟩
  rw [delete_eq hsub] at h
  rw [delete_eq (substOf_mono hle hsub)]
  split at h
  · next hc => rwa [if_pos hc]
  · next hc =>
      rw [if_neg hc]
      dsimp only at h ⊢
      split at h
      · next hred => rwa [if_pos hred]
      · next hred =>
          rw [if_neg hred]
          exact deleteFixup_mono hle h

end RbTree

/-! ### Runs -/

/-- A program with loops ends with a result: more fuel does not change it. -/
def Ends {α : Type*} (f : ℕ → Option α) (a : α) : Prop := ∃ n, ∀ m, n ≤ m → f m = some a

/-- An operation on a tree. -/
inductive RbOp
  | insert (node key : ℕ)
  | delete (node : ℕ)

/-- The program of an operation; the caller sets the key before an insertion. -/
def RbOp.run (t : RbTree) : RbOp → ℕ → Option RbTree
  | insert node key, fuel =>
    RbTree.insert fuel { t with key := Function.update t.key node key } node
  | delete node, fuel => t.delete fuel node

/-- The nodes that have been inserted and not deleted, with their keys, the oldest first. -/
abbrev RbNodes := List (ℕ × ℕ)

/-- The nodes after an operation. -/
def RbOp.nodes (held : RbNodes) : RbOp → RbNodes
  | insert node key => held ++ [(node, key)]
  | delete node => held.filter fun p => p.1 ≠ node

/-- A node is inserted that is not in the tree, and deleted if it is. -/
def RbOp.Possible (sentinel : ℕ) (held : RbNodes) : RbOp → Prop
  | insert node _ => node ∉ held.map Prod.fst ∧ node ≠ sentinel
  | delete node => node ∈ held.map Prod.fst

/-- A tree, and the nodes that should be in it. -/
structure RbRun where
  tree : RbTree
  held : RbNodes

/-- Operations on a tree that `ngx_rbtree_init` has made. -/
def rbMachine : Machine RbRun RbOp where
  init s := s.held = [] ∧ ∃ sentinel t, s.tree = RbTree.init sentinel t
  step s op s' := op.Possible s.tree.sentinel s.held ∧ Ends (op.run s.tree) s'.tree ∧
    s'.held = op.nodes s.held

open RbShape

/-- A binary search tree: the keys on the right of a node are not smaller than its own, and those
on the left are in the relation `left` to it. -/
def SearchTree (left : ℕ → ℕ → Prop) (key : ℕ → ℕ) : RbShape ℕ → Prop
  | .nil => True
  | .node _ l x r => (∀ z ∈ toList l, left (key z) (key x)) ∧ (∀ z ∈ toList r, key x ≤ key z) ∧
      SearchTree left key l ∧ SearchTree left key r

/-- The nodes of a tree in order, with their keys. -/
def RbTree.entries (t : RbTree) (L : List ℕ) : RbNodes := L.map fun z => (z, t.key z)

/-- **The tree is right**: it is a red-black tree and a search tree with the nodes that should be in
it; nodes with the same key are in the order in which they were inserted; and the enumeration finds
all nodes in the order of their keys. -/
def RbRun.Correct (s : RbRun) : Prop :=
  ∃ T, s.tree.At [] T ∧ IsRb T ∧ SearchTree (· ≤ ·) s.tree.key T ∧
    (s.tree.entries (toList T)).Perm s.held ∧
    (∀ k, (s.tree.entries (toList T)).filter (fun p => p.2 = k) =
      s.held.filter fun p => p.2 = k) ∧
    (toList T).Pairwise (fun u v => s.tree.key u ≤ s.tree.key v) ∧
    Ends s.tree.walk (toList T)

/-! ### Every state of every run -/

section

variable {s : RbRun} {L : List ℕ} {key : ℕ → ℕ}

/-- A tree whose in-order walk is sorted is a search tree. -/
theorem searchTree_of_sorted {T : RbShape ℕ} (h : RbTree.Sorted key (toList T)) :
    SearchTree (· ≤ ·) key T := by
  induction T with
  | nil => trivial
  | node c l x r ihl ihr =>
    obtain ⟨hl, hxr, hdis⟩ := List.pairwise_append.mp h
    obtain ⟨hx, hr⟩ := List.pairwise_cons.mp hxr
    exact ⟨fun z hz => hdis z hz x (List.mem_cons_self ..), hx, ihl hl, ihr hr⟩

/-- What is kept: the nodes of the tree in order, and in the order of their age for each key. -/
structure RbRun.Inv (s : RbRun) (L : List ℕ) : Prop where
  holds : s.tree.Holds L
  stable : ∀ k, (s.tree.entries L).filter (fun p => p.2 = k) = s.held.filter fun p => p.2 = k

/-- The entries of the tree are those held. -/
theorem RbRun.Inv.perm (h : s.Inv L) : (s.tree.entries L).Perm s.held := by
  refine List.perm_iff_count.mpr fun p => ?_
  have hcount : ∀ H : RbNodes, H.count p = (H.filter fun q => q.2 = p.2).count p := by
    intro H
    exact (List.count_filter (by simp)).symm
  rw [hcount, h.stable, ← hcount]

theorem RbRun.Inv.mem_iff (h : s.Inv L) {x : ℕ} : x ∈ s.held.map Prod.fst ↔ x ∈ L := by
  rw [← (h.perm.map Prod.fst).mem_iff, RbTree.entries, List.map_map]
  simp

theorem RbTree.Holds.nodup {t : RbTree} (h : t.Holds L) : L.Nodup := by
  obtain ⟨⟨T, hat, -, rfl⟩, -⟩ := h
  simpa [ctxList] using hat.nodup

/-- The shape of a tree has nothing to do with its keys. -/
theorem RbTree.At.setKey {t : RbTree} {T : RbShape ℕ} (h : t.At [] T) (key : ℕ → ℕ) :
    RbTree.At { t with key := key } [] T := by
  have hnd : (toList T).Nodup := by simpa [ctxList] using h.nodup
  refine ⟨?_, ?_, fun _ => trivial, h.nodup, h.fresh, h.black⟩
  · have hroot : t.root = t.ptr T := h.above
    exact hroot.trans (RbTree.ptr_congr rfl T)
  · exact h.links.same rfl hnd (fun _ _ _ => rfl) (fun _ _ => rfl) fun _ _ _ => rfl

/-- A key is written before its node is in the tree. -/
theorem RbTree.Holds.setKey {t : RbTree} {x k : ℕ} (h : t.Holds L) (hx : x ∉ L) :
    RbTree.Holds { t with key := Function.update t.key x k } L := by
  obtain ⟨⟨T, hat, hrb, rfl⟩, hsorted⟩ := h
  refine ⟨⟨T, hat.setKey _, hrb, rfl⟩, hsorted.imp_of_mem fun {u v} hu hv huv => ?_⟩
  have hux : u ≠ x := fun heq => hx (heq ▸ hu)
  have hvx : v ≠ x := fun heq => hx (heq ▸ hv)
  simpa only [Function.update_of_ne hux, Function.update_of_ne hvx] using huv

theorem RbTree.entries_congr {t t' : RbTree} {x k : ℕ} (hkey : t'.key = Function.update t.key x k)
    (hx : x ∉ L) : t'.entries L = t.entries L := by
  refine List.map_congr_left fun z hz => ?_
  have hzx : z ≠ x := fun heq => hx (heq ▸ hz)
  rw [hkey, Function.update_of_ne hzx]

/-- **An insertion keeps the invariant**, and ends. -/
theorem RbRun.Inv.insert {x k : ℕ} (h : s.Inv L) (hx : x ∉ L) (hxs : x ≠ s.tree.sentinel) :
    ∃ t' L', Ends ((RbOp.insert x k).run s.tree) t' ∧
      RbRun.Inv ⟨t', (RbOp.insert x k).nodes s.held⟩ L' := by
  obtain ⟨t', L₁, L₂, hrun, rfl, hholds, hle, hgt, hkey, -⟩ :=
    RbTree.insert_spec (h.holds.setKey (k := k) hx) hx hxs (Nat.lt_succ_self _)
  refine ⟨t', L₁ ++ x :: L₂, ⟨_, fun m hm => RbTree.insert_mono hm hrun⟩, hholds, fun k' => ?_⟩
  have hkey : t'.key = Function.update s.tree.key x k := hkey
  rw [List.mem_append, not_or] at hx
  have h₁ : t'.entries L₁ = s.tree.entries L₁ := RbTree.entries_congr hkey hx.1
  have h₂ : t'.entries L₂ = s.tree.entries L₂ := RbTree.entries_congr hkey hx.2
  have hnew : t'.entries (L₁ ++ x :: L₂) = s.tree.entries L₁ ++ (x, k) :: s.tree.entries L₂ := by
    rw [← h₁, ← h₂, RbTree.entries, RbTree.entries, RbTree.entries, List.map_append, List.map_cons,
      hkey, Function.update_self]
  have hold := h.stable k'
  rw [RbTree.entries, List.map_append, List.filter_append] at hold
  refine Eq.trans ?_ (List.filter_append ..).symm
  rw [hnew, List.filter_append, ← hold, List.append_assoc]
  refine congrArg _ ?_
  by_cases hk : k = k'
  · -- The nodes behind the new one have greater keys.
    subst hk
    have hempty : (s.tree.entries L₂).filter (fun p => p.2 = k) = [] := by
      refine List.filter_eq_nil_iff.mpr fun p hp => ?_
      obtain ⟨z, hz, rfl⟩ := List.mem_map.mp hp
      have := hgt z hz
      have hzx : z ≠ x := fun heq => hx.2 (heq ▸ hz)
      simp only [Function.update_self, Function.update_of_ne hzx] at this
      simpa using Nat.ne_of_gt this
    rw [List.filter_cons_of_pos (by simp), hempty]
    rw [RbTree.entries] at hempty
    rw [hempty]
    simp
  · rw [List.filter_cons_of_neg (by simpa using hk), List.filter_cons_of_neg (by simpa using hk)]
    simp [RbTree.entries]

/-- **A deletion keeps the invariant**, and ends. -/
theorem RbRun.Inv.delete {x : ℕ} (h : s.Inv L) (hx : x ∈ L) :
    ∃ t', Ends ((RbOp.delete x).run s.tree) t' ∧
      RbRun.Inv ⟨t', (RbOp.delete x).nodes s.held⟩ (L.erase x) := by
  obtain ⟨t', hrun, hholds, hkey, -⟩ := RbTree.delete_spec h.holds hx (Nat.lt_succ_self _)
  refine ⟨t', ⟨_, fun m hm => RbTree.delete_mono hm hrun⟩, hholds, fun k => ?_⟩
  have hnd := h.holds.nodup
  have hnew : t'.entries (L.erase x) = (s.tree.entries L).filter fun p => p.1 ≠ x := by
    rw [RbTree.entries_congr hkey hnd.not_mem_erase, hnd.erase_eq_filter, RbTree.entries,
      RbTree.entries, List.filter_map]
    exact congrArg _ (List.filter_congr fun z _ => by rw [bne, beq_eq_decide]; simp)
  rw [hnew, List.filter_comm, h.stable, List.filter_comm]
  rfl

/-- **Every possible operation ends**, and keeps the invariant. -/
theorem RbRun.Inv.step {op : RbOp} (h : s.Inv L) (hop : op.Possible s.tree.sentinel s.held) :
    ∃ t' L', Ends (op.run s.tree) t' ∧ RbRun.Inv ⟨t', op.nodes s.held⟩ L' := by
  cases op with
  | insert x k =>
    exact h.insert (mt h.mem_iff.mpr hop.1) hop.2
  | delete x =>
    obtain ⟨t', hrest⟩ := h.delete (h.mem_iff.mp hop)
    exact ⟨t', _, hrest⟩

theorem Ends.unique {α : Type*} {f : ℕ → Option α} {a b : α} (ha : Ends f a) (hb : Ends f b) :
    a = b := by
  obtain ⟨n, hn⟩ := ha
  obtain ⟨m, hm⟩ := hb
  have := (hn (max n m) (Nat.le_max_left ..)).symm.trans (hm (max n m) (Nat.le_max_right ..))
  exact Option.some.inj this

/-- The invariant gives what is asked of a tree. -/
theorem RbRun.Inv.correct (h : s.Inv L) : s.Correct := by
  have hperm := h.perm
  obtain ⟨⟨⟨T, hat, hrb, rfl⟩, hsorted⟩, hstable⟩ := h
  exact ⟨T, hat, hrb, searchTree_of_sorted hsorted, hperm, hstable, hsorted, _, fun m hm =>
    RbTree.walk_spec hat hm⟩

/-- **The invariant** holds in every state that a run reaches. -/
theorem rbMachine_inv {tr : List (RbRun × RbOp)} (h : rbMachine.Run tr s) : ∃ L, s.Inv L := by
  refine h.invariant (P := fun s => ∃ L, s.Inv L) ?_ ?_
  · rintro ⟨_, _⟩ ⟨rfl, sentinel, t, rfl⟩
    refine ⟨[], ⟨⟨.nil, ⟨rfl, trivial, fun hc => absurd rfl hc, List.nodup_nil, by simp [toList, ctxList],
      ?_⟩, ⟨⟨0, rfl⟩, trivial, rfl⟩, rfl⟩, List.Pairwise.nil⟩, fun _ => rfl⟩
    exact Function.update_self ..
  · rintro s op ⟨t', held'⟩ ⟨L, hinv⟩ ⟨hop, hend, rfl⟩
    obtain ⟨t₁, L', hend', hinv'⟩ := hinv.step hop
    obtain rfl := hend.unique hend'
    exact ⟨L', hinv'⟩

/-- **The red-black tree is right** in every state of every run, and every operation ends. -/
theorem rbtree_correct {tr : List (RbRun × RbOp)} (h : rbMachine.Run tr s) :
    s.Correct ∧ ∀ op : RbOp, op.Possible s.tree.sentinel s.held → ∃ s', rbMachine.step s op s' := by
  obtain ⟨L, hinv⟩ := rbMachine_inv h
  refine ⟨hinv.correct, fun op hop => ?_⟩
  obtain ⟨t', -, hend, -⟩ := hinv.step hop
  exact ⟨⟨t', op.nodes s.held⟩, hop, hend, rfl⟩

end

/-! ### Equal keys -/

/-- An empty tree. -/
def threeEqual₀ : RbTree := RbTree.init 9 ⟨0, 0, fun _ _ => 0, fun _ => 0, fun _ => false, fun _ => 0⟩

/-- Three nodes with the same key are inserted. -/
def threeEqual : Option RbTree := do
  let t ← (RbOp.insert 1 5).run threeEqual₀ 9
  let t ← (RbOp.insert 2 5).run t 9
  (RbOp.insert 3 5).run t 9

theorem RbOp.ends {t t' : RbTree} {x k fuel : ℕ} (h : (RbOp.insert x k).run t fuel = some t') :
    Ends ((RbOp.insert x k).run t) t' :=
  ⟨fuel, fun _ hm => RbTree.insert_mono hm h⟩

/-- Three nodes with one key: the root has an equal key on its left. -/
theorem threeEqual_eq : ∃ t, threeEqual = some t ∧ t.root = 2 ∧ t.sentinel = 9 ∧
    t.child false 2 = 1 ∧ t.key 1 = 5 ∧ t.key 2 = 5 := by
  have hany : (threeEqual.any fun t => t.root = 2 ∧ t.sentinel = 9 ∧ t.child false 2 = 1 ∧
      t.key 1 = 5 ∧ t.key 2 = 5) = true := by
    decide +kernel
  cases h : threeEqual with
  | none => simp [h] at hany
  | some t => exact ⟨t, rfl, by simpa [h] using hany⟩

/-- The run of the three insertions. -/
theorem threeEqual_run : ∃ tr t, threeEqual = some t ∧
    rbMachine.Run tr ⟨t, [(1, 5), (2, 5), (3, 5)]⟩ := by
  obtain ⟨t₃, h₃, -⟩ := threeEqual_eq
  have hres := h₃
  rw [threeEqual, Option.bind_eq_bind, Option.bind_eq_some_iff] at h₃
  obtain ⟨t₁, h₁, h₃⟩ := h₃
  rw [Option.bind_eq_some_iff] at h₃
  obtain ⟨t₂, h₂, h₃⟩ := h₃
  have hs₁ : t₁.sentinel = 9 := by
    have : ∀ t ∈ (RbOp.insert 1 5).run threeEqual₀ 9, t.sentinel = 9 := by decide
    exact this t₁ h₁
  have hs₂ : t₂.sentinel = 9 := by
    have : ∀ t ∈ ((RbOp.insert 1 5).run threeEqual₀ 9).bind fun t => (RbOp.insert 2 5).run t 9,
        t.sentinel = 9 := by
      decide
    exact this t₂ (by rw [h₁]; exact h₂)
  have hinit : rbMachine.init ⟨threeEqual₀, []⟩ := ⟨rfl, 9, _, rfl⟩
  have hstep₁ : rbMachine.step ⟨threeEqual₀, []⟩ (.insert 1 5) ⟨t₁, [(1, 5)]⟩ :=
    ⟨⟨by simp, by decide⟩, RbOp.ends h₁, rfl⟩
  have hstep₂ : rbMachine.step ⟨t₁, [(1, 5)]⟩ (.insert 2 5) ⟨t₂, [(1, 5), (2, 5)]⟩ :=
    ⟨⟨by simp, by simp [hs₁]⟩, RbOp.ends h₂, rfl⟩
  have hstep₃ : rbMachine.step ⟨t₂, [(1, 5), (2, 5)]⟩ (.insert 3 5)
      ⟨t₃, [(1, 5), (2, 5), (3, 5)]⟩ :=
    ⟨⟨by simp, by simp [hs₂]⟩, RbOp.ends h₃, rfl⟩
  exact ⟨_, t₃, hres, (((Machine.Run.start hinit).snoc hstep₁).snoc hstep₂).snoc hstep₃⟩

/-- The tree after these insertions is right. -/
theorem rbtree_correct_three : ∃ s : RbRun, s.held = [(1, 5), (2, 5), (3, 5)] ∧ s.Correct := by
  obtain ⟨tr, t, -, hrun⟩ := threeEqual_run
  exact ⟨_, rfl, (rbtree_correct hrun).1⟩

/-- **A node with the same key on the left**: of three nodes with the same key the second one is the
root, and the first one is on its left. -/
theorem rbtree_equal_left : ∃ tr s T, rbMachine.Run tr s ∧ s.tree.At [] T ∧
    ¬ SearchTree (· < ·) s.tree.key T := by
  obtain ⟨tr, t₃, h₃, hrun⟩ := threeEqual_run
  obtain ⟨t, ht, hroot, hsent, hleft, hkey₁, hkey₂⟩ := threeEqual_eq
  obtain rfl : t₃ = t := Option.some_inj.1 (h₃.symm.trans ht)
  obtain ⟨L, ⟨⟨T, hat, -, -⟩, -⟩, -⟩ := rbMachine_inv hrun
  refine ⟨_, _, T, hrun, hat, fun hsearch => ?_⟩
  have htop : 2 = t₃.ptr T := hroot.symm.trans hat.above
  cases T with
  | nil =>
    rw [RbTree.ptr_nil, hsent] at htop
    cases htop
  | node c l x r =>
    obtain rfl : 2 = x := htop
    have hl : 1 = t₃.ptr l := hleft.symm.trans hat.links.2.1
    have hne : l ≠ .nil := by
      rintro rfl
      rw [RbTree.ptr_nil, hsent] at hl
      cases hl
    have hlt := hsearch.1 _ (RbTree.ptr_mem (t := t₃) hne)
    rw [← hl] at hlt
    have hlt : t₃.key 1 < t₃.key 2 := hlt
    rw [hkey₁, hkey₂] at hlt
    exact absurd hlt (Nat.lt_irrefl 5)

end Hengine
