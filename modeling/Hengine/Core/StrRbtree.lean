import Hengine.Core.RbTreeOrder
import Mathlib.Tactic.Ring

/-!
# Red-black trees of strings

The model of `ngx_str_rbtree_insert_value` and `ngx_str_rbtree_lookup` in `ngx_string.c`.

Nodes are ordered by their hash, then by the length of the string, then by its bytes. The hash is a
parameter, so that strings may collide in any way. A node is an address; `nodes` records which ones were
inserted.
-/

namespace Hengine.Str

open List Function

open RbTree RbShape

/-- `ngx_memcmp` of `n` bytes. -/
@[grind =]
def memcmp : ℕ → List UInt8 → List UInt8 → ℤ
  | n + 1, a :: s1, b :: s2 => if a = b then memcmp n s1 s2 else (a.toNat : ℤ) - b.toNat
  | _, _, _ => 0

/-- The tree, with the hash of each node as its key; the strings of the nodes; and the nodes that were
inserted. -/
structure StrRbtree where
  tree : RbTree
  str : ℕ → List UInt8
  nodes : List ℕ

namespace StrRbtree

/-- Turns that are enough for every loop over the tree. -/
def fuel (s : StrRbtree) : ℕ := s.nodes.length + 2

/-- `ngx_str_rbtree_insert_value`: the side of `temp` on which `node` goes. -/
def nodeSide (s : StrRbtree) (node temp : ℕ) : Bool :=
  if s.tree.key node ≠ s.tree.key temp then
    if s.tree.key node < s.tree.key temp then false else true
  else if (s.str node).length ≠ (s.str temp).length then
    if (s.str node).length < (s.str temp).length then false else true
  else if memcmp (s.str node).length (s.str node) (s.str temp) < 0 then false
  else true

/-- The loop of `ngx_str_rbtree_lookup` at a node: the side on which it goes on, or `none` where it
returns the node. -/
def lookupSide (s : StrRbtree) (val : List UInt8) (hash : ℕ) (node : ℕ) : Option Bool :=
  if hash ≠ s.tree.key node then some (if hash < s.tree.key node then false else true)
  else if val.length ≠ (s.str node).length then
    some (if val.length < (s.str node).length then false else true)
  else
    let rc := memcmp val.length val (s.str node)
    if rc < 0 then some false
    else if 0 < rc then some true
    else none

/-- `ngx_str_rbtree_lookup`: `some none` is `NULL`. -/
def lookup (s : StrRbtree) (val : List UInt8) (hash : ℕ) : Option (Option ℕ) :=
  search (s.lookupSide val hash) s.tree s.fuel s.tree.root

/-- A node is filled in, and `ngx_rbtree_insert` puts it into the tree. -/
def insert (hash : List UInt8 → UInt32) (s : StrRbtree) (node : ℕ) (name : List UInt8) :
    Option StrRbtree := do
  let s := { s with
    tree := { s.tree with key := update s.tree.key node (hash name).toNat }
    str := update s.str node name }
  let t ← insertBy s.nodeSide s.fuel s.tree node
  some { s with tree := t, nodes := node :: s.nodes }

end StrRbtree

/-- An insertion of a node with a name. -/
structure Insert where
  node : ℕ
  name : List UInt8

/-- The node is in no use, and the length of the name is a `size_t`. -/
def Insert.Possible (e : Insert) (s : StrRbtree) : Prop :=
  e.node ∉ s.nodes ∧ e.node ≠ s.tree.sentinel ∧ e.name.length < 2 ^ 64

/-- The tree under any sequence of insertions. -/
def strMachine (hash : List UInt8 → UInt32) : Machine StrRbtree Insert where
  init s := s.nodes = [] ∧ (∃ sentinel t, s.tree = RbTree.init sentinel t) ∧
    ∀ x, (s.str x).length < 2 ^ 64
  step s e s' := e.Possible s ∧ s.insert hash e.node e.name = some s'

/-! ### Strings as numbers -/

/-- The bytes of a string as digits of a number. -/
def number : List UInt8 → ℕ
  | [] => 0
  | c :: s => c.toNat * 256 ^ s.length + number s

/-- The number of a string is bounded by its length. -/
theorem number_lt (s : List UInt8) : number s < 256 ^ s.length := by
  induction s with
  | nil => exact Nat.one_pos
  | cons c s ih =>
    have hc := c.toNat_lt
    have hmul : (c.toNat + 1) * 256 ^ s.length ≤ 256 * 256 ^ s.length :=
      Nat.mul_le_mul_right _ (by omega)
    rw [number, length_cons, Nat.pow_succ, Nat.mul_comm (256 ^ s.length)]
    rw [Nat.add_mul, Nat.one_mul] at hmul
    omega

/-- A pair as one number is compared by its first part, then by its second. -/
theorem pair_lt_iff {n a b x y : ℕ} (hx : x < n) (hy : y < n) :
    a * n + x < b * n + y ↔ a < b ∨ a = b ∧ x < y := by
  rcases Nat.lt_trichotomy a b with h | h | h
  · have hmul := Nat.mul_le_mul_right n (Nat.succ_le_of_lt h)
    rw [Nat.succ_mul] at hmul
    exact iff_of_true (by omega) (.inl h)
  · simp [h]
  · have hmul := Nat.mul_le_mul_right n (Nat.succ_le_of_lt h)
    rw [Nat.succ_mul] at hmul
    exact iff_of_false (by omega) (by omega)

theorem pair_eq_iff {n a b x y : ℕ} (hx : x < n) (hy : y < n) :
    a * n + x = b * n + y ↔ a = b ∧ x = y := by
  have hlt := pair_lt_iff (a := a) (b := b) hx hy
  have hgt := pair_lt_iff (a := b) (b := a) hy hx
  omega

/-- **The comparison of strings** of one length is that of their numbers. -/
theorem memcmp_spec : ∀ {s t : List UInt8}, s.length = t.length →
    (memcmp s.length s t < 0 ↔ number s < number t) ∧ (0 < memcmp s.length s t ↔ number t < number s) ∧
      (number s = number t ↔ s = t)
  | [], [], _ => by simp [memcmp]
  | a :: s, b :: t, h => by
    have hlen : s.length = t.length := Nat.succ.inj h
    obtain ⟨hlt, hgt, heq⟩ := memcmp_spec hlen
    have hs := number_lt s
    have ht := number_lt t
    have hab : a = b ↔ a.toNat = b.toNat := UInt8.toNat_inj.symm
    rw [← hlen] at ht
    rw [length_cons, memcmp, number, number, ← hlen, pair_lt_iff hs ht, pair_lt_iff ht hs,
      pair_eq_iff hs ht, List.cons.injEq, heq]
    split_ifs with h'
    · rw [hlt, hgt]
      have hnat := hab.mp h'
      refine ⟨by omega, by omega, and_congr hab.symm Iff.rfl⟩
    · have hnat : a.toNat ≠ b.toNat := fun hnat => h' (hab.mpr hnat)
      refine ⟨by omega, by omega, and_congr hab.symm Iff.rfl⟩

namespace StrRbtree

variable {hash : List UInt8 → UInt32} {s s' : StrRbtree} {m : ℕ} {L : List ℕ} {node : ℕ}
  {name : List UInt8}

/-- The number of a hash and a string shorter than `m`. -/
def place (m key : ℕ) (name : List UInt8) : ℕ := (key * m + name.length) * 256 ^ m + number name

/-- The place of a node in the tree. -/
def rank (s : StrRbtree) (m x : ℕ) : ℕ := place m (s.tree.key x) (s.str x)

theorem number_lt_of (h : name.length < m) : number name < 256 ^ m :=
  Nat.lt_of_lt_of_le (number_lt name) (Nat.pow_le_pow_right (by decide) h.le)

/-- Places compare by the hash, then the length, then the bytes. -/
theorem place_lt_iff {k k' : ℕ} {s t : List UInt8} (hs : s.length < m) (ht : t.length < m) :
    place m k s < place m k' t ↔
      k < k' ∨ k = k' ∧ (s.length < t.length ∨ s.length = t.length ∧ number s < number t) := by
  rw [place, place, pair_lt_iff (number_lt_of hs) (number_lt_of ht), pair_lt_iff hs ht,
    pair_eq_iff hs ht]
  omega

/-- Equal places are those of equal strings with equal hashes. -/
theorem place_eq_iff {k k' : ℕ} {s t : List UInt8} (hs : s.length < m) (ht : t.length < m) :
    place m k s = place m k' t ↔ k = k' ∧ s.length = t.length ∧ number s = number t := by
  rw [place, place, pair_eq_iff (number_lt_of hs) (number_lt_of ht), pair_eq_iff hs ht, and_assoc]

/-- **Nodes go into the tree** in the order of their places. -/
theorem ranks (h : ∀ x, (s.str x).length < m) : Ranks s.nodeSide (s.rank m) := by
  intro x y
  simp only [nodeSide, rank, place_lt_iff (h x) (h y)]
  split_ifs with hkey hlt hlen hlt hcmp
  · simp [hlt]
  · simp [hkey, hlt]
  · simp [not_not.mp hkey, hlt]
  · simp [not_not.mp hkey, hlen, hlt]
  · simp [not_not.mp hkey, not_not.mp hlen, (memcmp_spec (not_not.mp hlen)).1.mp hcmp]
  · simp [not_not.mp hkey, not_not.mp hlen,
      Nat.not_lt.mp fun hnum => hcmp ((memcmp_spec (not_not.mp hlen)).1.mpr hnum)]

/-- **A lookup goes on** in the order of the places. -/
theorem seeks (h : ∀ x, (s.str x).length < m) (hname : name.length < m) (key : ℕ) :
    Seeks (s.lookupSide name key) (s.rank m) (place m key name) := by
  intro x
  simp only [lookupSide, rank, place_lt_iff (h x) hname, place_lt_iff hname (h x),
    place_eq_iff (h x) hname]
  by_cases hkey : key = s.tree.key x
  · by_cases hlen : name.length = (s.str x).length
    · obtain ⟨hlt, hgt, -⟩ := memcmp_spec hlen
      rw [if_neg (not_not.mpr hkey), if_neg (not_not.mpr hlen)]
      split_ifs <;> simp <;> omega
    · rw [if_neg (not_not.mpr hkey), if_pos hlen]
      split_ifs <;> simp <;> omega
  · rw [if_pos hkey]
    split_ifs <;> simp <;> omega

/-- What a lookup stops at is a node of the name. -/
theorem lookupSide_eq_none {key : ℕ} :
    s.lookupSide name key node = none ↔ s.tree.key node = key ∧ s.str node = name := by
  rw [lookupSide, eq_comm (a := s.tree.key node), eq_comm (a := s.str node)]
  by_cases hkey : key = s.tree.key node
  · by_cases hlen : name.length = (s.str node).length
    · obtain ⟨hlt, hgt, heq⟩ := memcmp_spec hlen
      rw [if_neg (not_not.mpr hkey), if_neg (not_not.mpr hlen), ← heq]
      dsimp only
      split_ifs <;> simp <;> omega
    · rw [if_neg (not_not.mpr hkey), if_pos hlen]
      exact iff_of_false nofun fun hsame => hlen (congrArg List.length hsame.2)
  · rw [if_pos hkey]
    exact iff_of_false nofun fun hsame => hkey hsame.1

/-! ### The invariant -/

/-- The nodes of the tree, in its order, are those that were inserted, and their keys are the hashes of
their strings. -/
structure Inv (hash : List UInt8 → UInt32) (m : ℕ) (s : StrRbtree) (L : List ℕ) : Prop where
  holds : (s.tree.setKeys (s.rank m)).Holds L
  perm : L.Perm s.nodes
  hashed : ∀ x ∈ s.nodes, s.tree.key x = (hash (s.str x)).toNat
  short : ∀ x, (s.str x).length < m

theorem Inv.length (h : s.Inv hash m L) : L.length + 1 < s.fuel := by
  rw [fuel, h.perm.length_eq]
  omega

/-- **An insertion** ends and keeps the invariant. -/
theorem Inv.insert (h : s.Inv hash m L) (hnode : node ∉ s.nodes) (hsentinel : node ≠ s.tree.sentinel)
    (hname : name.length < m) :
    ∃ s' L', s.insert hash node name = some s' ∧ s'.Inv hash m L' ∧ s'.nodes = node :: s.nodes ∧
      s'.str = update s.str node name := by
  have hne : ∀ y ∈ s.nodes, y ≠ node := fun y hy heq => hnode (heq ▸ hy)
  -- filling the node in changes no node of the tree
  let s₁ : StrRbtree := { s with
    tree := { s.tree with key := update s.tree.key node (hash name).toNat }
    str := update s.str node name }
  have hholds : (s₁.tree.setKeys (s₁.rank m)).Holds L := by
    refine h.holds.setKeys_congr fun y hy => ?_
    have hyn := hne y (h.perm.mem_iff.mp hy)
    simp only [rank, s₁, update_of_ne hyn]
  have hshort : ∀ x, (s₁.str x).length < m := fun x => by
    by_cases hx : x = node
    · subst hx
      simpa [s₁] using hname
    · simpa only [s₁, update_of_ne hx] using h.short x
  obtain ⟨t, L₁, L₂, hrun, rfl, hholds', hkey, -⟩ :=
    insertBy_spec (ranks hshort) hholds (fun hx => hnode (h.perm.mem_iff.mp hx)) hsentinel h.length
  have hperm : (L₁ ++ node :: L₂).Perm (node :: s.nodes) :=
    perm_middle.trans (h.perm.cons node)
  refine ⟨{ s₁ with tree := t, nodes := node :: s.nodes }, L₁ ++ node :: L₂, ?_, ⟨?_, hperm, ?_, hshort⟩,
    rfl, rfl⟩
  · have hrun' : insertBy s₁.nodeSide s.fuel s₁.tree node = some t := hrun
    show (insertBy s₁.nodeSide s.fuel s₁.tree node).bind _ = _
    rw [hrun', Option.bind_some]
  · refine hholds'.setKeys_congr fun y _ => ?_
    rw [rank, rank, hkey]
  · intro x hx
    show t.key x = (hash (update s.str node name x)).toNat
    rw [hkey]
    rcases mem_cons.mp hx with rfl | hx
    · simp [s₁]
    · simpa only [s₁, update_of_ne (hne x hx)] using h.hashed x hx

/-- **A lookup** finds a node of the name, if there is one. -/
theorem Inv.lookup (h : s.Inv hash m L) (hname : name.length < m) :
    ∃ res, s.lookup name (hash name).toNat = some res ∧
      (∀ x, res = some x → x ∈ s.nodes ∧ s.str x = name) ∧
      (res = none → ∀ x ∈ s.nodes, s.str x ≠ name) := by
  obtain ⟨T, hat, rfl, hroot, hsorted⟩ := h.holds.shape
  have hlen := h.length
  have hseeks := seeks h.short hname (hash name).toNat
  obtain ⟨res, hrun, hsome, hnone⟩ := search_spec hseeks hat hsorted (show _ < s.fuel by omega)
  refine ⟨res, by rw [StrRbtree.lookup, hroot, hrun], fun x hx => ?_, fun hres x hx hstr => ?_⟩
  · obtain ⟨hmem, hrank⟩ := hsome x hx
    exact ⟨h.perm.mem_iff.mp hmem, (lookupSide_eq_none.mp ((hseeks x).1.mpr hrank)).2⟩
  · refine hnone hres x (h.perm.mem_iff.mpr hx) ((hseeks x).1.mp (lookupSide_eq_none.mpr ⟨?_, hstr⟩))
    rw [h.hashed x hx, hstr]

end StrRbtree

/-! ### Every state of every run -/

section

variable {hash : List UInt8 → UInt32} {s : StrRbtree} {m : ℕ} {tr : List (StrRbtree × Insert)}

open StrRbtree

/-- An empty tree meets the invariant. -/
theorem inv_of_init (h : (strMachine hash).init s) (hm : 2 ^ 64 ≤ m) : s.Inv hash m [] := by
  obtain ⟨hnodes, ⟨sentinel, t, htree⟩, hshort⟩ := h
  have hholds : (s.tree.setKeys (s.rank m)).Holds [] := by
    rw [htree]
    exact ⟨⟨.nil, ⟨rfl, trivial, fun hc => absurd rfl hc, nodup_nil, by simp [toList, ctxList],
      update_self ..⟩, ⟨⟨0, rfl⟩, trivial, rfl⟩, rfl⟩, List.Pairwise.nil⟩
  exact ⟨hholds, by rw [hnodes], by simp [hnodes], fun x => Nat.lt_of_lt_of_le (hshort x) hm⟩

/-- The names in the tree are those of the insertions. -/
def Names (s : StrRbtree) (es : List Insert) : Prop :=
  ∀ name, (∃ x ∈ s.nodes, s.str x = name) ↔ ∃ e ∈ es, e.name = name

/-- One more name. -/
theorem Names.insert {s' : StrRbtree} {es : List Insert} {e : Insert} (h : Names s es)
    (hnode : e.node ∉ s.nodes) (hnodes : s'.nodes = e.node :: s.nodes)
    (hstr : s'.str = update s.str e.node e.name) : Names s' (es ++ [e]) := by
  intro name
  have hold : (∃ x ∈ s.nodes, s'.str x = name) ↔ ∃ x ∈ s.nodes, s.str x = name := by
    refine exists_congr fun x => and_congr_right fun hx => ?_
    have hne : x ≠ e.node := fun heq => hnode (heq ▸ hx)
    rw [hstr, update_of_ne hne]
  rw [hnodes]
  simp only [mem_cons, exists_eq_or_imp, hold, h name, mem_append, not_mem_nil, or_false]
  rw [hstr, update_self]
  constructor
  · rintro (hname | ⟨x, hx, hname⟩)
    · exact ⟨e, .inr rfl, hname⟩
    · exact ⟨x, .inl hx, hname⟩
  · rintro ⟨x, hx | rfl, hname⟩
    · exact .inr ⟨x, hx, hname⟩
    · exact .inl hname

/-- The invariant in every state of a run. -/
theorem strMachine_inv (hm : 2 ^ 64 ≤ m) (h : (strMachine hash).Run tr s) :
    (∃ L, s.Inv hash m L) ∧ Names s (tr.map Prod.snd) := by
  induction h with
  | start hinit =>
    refine ⟨⟨[], inv_of_init hinit hm⟩, fun name => ?_⟩
    simp [hinit.1]
  | @snoc tr s s' e _ hstep ih =>
    obtain ⟨⟨L, hinv⟩, hnames⟩ := ih
    obtain ⟨⟨hnode, hsentinel, hlen⟩, hrun⟩ := hstep
    obtain ⟨s₁, L', hrun', hinv', hnodes, hstr⟩ :=
      hinv.insert hnode hsentinel (Nat.lt_of_lt_of_le hlen hm)
    obtain rfl : s' = s₁ := Option.some.inj (hrun.symm.trans hrun')
    refine ⟨⟨L', hinv'⟩, ?_⟩
    rw [map_append, map_singleton]
    exact hnames.insert hnode hnodes hstr

/-- **A lookup finds what was inserted.** After any sequence of insertions, whatever the hashes, every
possible insertion ends, and a lookup of a name gives a node with that name where one was inserted and
`NULL` where none was. -/
theorem strRbtree_lookup (h : (strMachine hash).Run tr s) :
    (∀ e : Insert, e.Possible s → ∃ s', (strMachine hash).step s e s') ∧
    ∀ name : List UInt8, ∃ res, s.lookup name (hash name).toNat = some res ∧
      (∀ x, res = some x → x ∈ s.nodes ∧ s.str x = name) ∧
      (res = none ↔ ∀ e ∈ tr.map Prod.snd, e.name ≠ name) := by
  refine ⟨fun e he => ?_, fun name => ?_⟩
  · obtain ⟨⟨L, hinv⟩, -⟩ := strMachine_inv (Nat.le_refl _) h
    obtain ⟨s', -, hrun, -⟩ := hinv.insert he.1 he.2.1 he.2.2
    exact ⟨s', he, hrun⟩
  · obtain ⟨m, hm, hname⟩ : ∃ m, 2 ^ 64 ≤ m ∧ name.length < m :=
      ⟨2 ^ 64 + name.length, Nat.le_add_right _ _, Nat.lt_add_of_pos_left (Nat.pow_pos (by decide))⟩
    obtain ⟨⟨L, hinv⟩, hnames⟩ := strMachine_inv hm h
    obtain ⟨res, hrun, hsome, hnone⟩ := hinv.lookup hname
    refine ⟨res, hrun, hsome, fun hres e he hename => ?_, fun hall => ?_⟩
    · obtain ⟨x, hx, hstr⟩ := (hnames name).mpr ⟨e, he, hename⟩
      exact hnone hres x hx hstr
    · cases res with
      | none => rfl
      | some x =>
        obtain ⟨e, he, hename⟩ := (hnames name).mp ⟨x, hsome x rfl⟩
        exact absurd hename (hall e he)

end

/-! ### Two names with one hash -/

/-- An empty tree; node 9 is the sentinel. -/
def noStrings : StrRbtree :=
  ⟨RbTree.init 9 ⟨0, 0, fun _ _ => 0, fun _ => 0, fun _ => false, fun _ => 0⟩, fun _ => [], []⟩

/-- The tree after the insertion of one name. -/
def oneString : StrRbtree := (noStrings.insert (fun _ => 0) 1 [97]).getD noStrings

/-- The tree after the insertion of two names. -/
def twoStrings : StrRbtree := (oneString.insert (fun _ => 0) 2 [98]).getD oneString

/-- Two insertions of different names with one hash. -/
theorem twoStrings_run :
    (strMachine fun _ => 0).Run [(noStrings, ⟨1, [97]⟩), (oneString, ⟨2, [98]⟩)] twoStrings := by
  have hinit : (strMachine fun _ => 0).init noStrings := ⟨rfl, ⟨9, _, rfl⟩, fun _ => Nat.pow_pos (by decide)⟩
  have hone : (strMachine fun _ => 0).step noStrings ⟨1, [97]⟩ oneString :=
    ⟨⟨nofun, by decide, Nat.one_lt_pow (by decide) (by decide)⟩, rfl⟩
  have htwo : (strMachine fun _ => 0).step oneString ⟨2, [98]⟩ twoStrings :=
    ⟨⟨by decide, by decide, Nat.one_lt_pow (by decide) (by decide)⟩, rfl⟩
  exact ((Machine.Run.start hinit).snoc hone).snoc htwo

/-- The second name is found. -/
theorem strRbtree_lookup_two : ∃ res, twoStrings.lookup [98] 0 = some res ∧ res ≠ none ∧
    ∀ x, res = some x → x ∈ twoStrings.nodes ∧ twoStrings.str x = [98] := by
  obtain ⟨res, hrun, hsome, hnone⟩ := (strRbtree_lookup twoStrings_run).2 [98]
  exact ⟨res, hrun, hnone.not.2 (by simp), hsome⟩

end Hengine.Str
