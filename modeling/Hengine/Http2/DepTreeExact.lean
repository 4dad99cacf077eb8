import Mathlib.Data.List.Count
import Hengine.Http2.DepTreeLinks

/-!
# The Dependency Tree over Whole Runs

In every state of a connection the nodes are a forest under the root, each in the queue of its
parent and with its depth for a rank; the nodes without a stream wait for reuse, and the others
are as many as the requests that are processed. All of this holds whatever the frames say.

The number of nodes that wait is another matter: `closed_nodes` has 8 bits. It is the length of
the queue as long as no more than 255 nodes can wait, which depends on the number of concurrent
streams that the configuration allows.
-/

namespace Hengine

open List Function Option

namespace DepTree

variable {t t' : DepTree} {x y z sid : ℕ}

/-- What holds of the nodes between two events: the links, the ranks, the weights and the queue
for reuse. Of the length of the queue, `closed_nodes` has the low 8 bits. -/
structure Sound (t : DepTree) : Prop where
  linked : t.Linked
  ranked : t.Ranked
  weights : ∀ x ∈ t.ids, 1 ≤ t.weight x
  closed_nodup : t.closed.Nodup
  mem_closed : ∀ x, x ∈ t.closed ↔ x ∈ t.ids ∧ t.stream x = false
  nodes : t.closedNodes = t.closed.length % 256

/-- What holds once the node `x` is found, or made: a new one is not yet in the tree. -/
structure Reserved (t : DepTree) (x : ℕ) : Prop where
  pending : t.Pending x
  weights : ∀ y ∈ t.ids, t.parent y ≠ .null → 1 ≤ t.weight y
  closed_nodup : t.closed.Nodup
  mem_closed : ∀ y, y ∈ t.closed ↔ y ∈ t.ids ∧ t.stream y = false ∧ t.parent y ≠ .null
  fresh : t.parent x = .null → t.stream x = false
  nodes : t.closedNodes = t.closed.length % 256

/-- The number of nodes with a stream. -/
def opened (t : DepTree) : ℕ := t.ids.countP t.stream

/-- How the index changes when the node of `sid` is looked for. -/
def Grown (t : DepTree) (sid : ℕ) (t' : DepTree) : Prop :=
  t'.ids ⊆ sid :: t.ids ∧
    t'.ids.length = t.ids.length + if sid ∉ t.ids ∧ t.closedNodes < 32 then 1 else 0

/-- The closed nodes and the open ones are all there are. -/
theorem Sound.length_closed (h : t.Sound) : t.closed.length + t.opened = t.ids.length := by
  have hperm : t.closed.Perm (t.ids.filter fun x => !t.stream x) := by
    refine (perm_ext_iff_of_nodup h.closed_nodup (h.linked.nodup.filter _)).mpr fun x => ?_
    rw [h.mem_closed, mem_filter]
    simp
  rw [hperm.length_eq, ← countP_eq_length_filter, opened,
    length_eq_countP_add_countP t.stream (l := t.ids), Nat.add_comm]
  simp

/-- How many there are after one has changed. -/
theorem countP_update {l : List ℕ} {s : ℕ → Bool} {b : Bool} (hl : l.Nodup) (hx : x ∈ l) :
    l.countP (update s x b) + (if s x then 1 else 0) =
      l.countP s + if b then 1 else 0 := by
  have hperm := perm_cons_erase hx
  have hrest : (l.erase x).countP (update s x b) = (l.erase x).countP s := by
    refine countP_congr fun y hy => ?_
    rw [update_of_ne (hl.mem_erase_iff.mp hy).1]
  rw [hperm.countP_eq, hperm.countP_eq, countP_cons, countP_cons, hrest,
    update_self]
  omega

/-! ### `ngx_http_v2_get_node_by_id` -/

/-- A node that is there already. -/
theorem Sound.reserved (h : t.Sound) (hx : x ∈ t.ids) : t.Reserved x where
  pending := ⟨h.linked, hx, fun y hy _ => h.ranked y hy, Or.inl (h.ranked x hx)⟩
  weights := fun y hy _ => h.weights y hy
  closed_nodup := h.closed_nodup
  mem_closed := by
    intro y
    rw [h.mem_closed]
    constructor
    · rintro ⟨hy, hs⟩
      exact ⟨hy, hs, parent_ne_null_of_rankOk (h.ranked y hy)⟩
    · rintro ⟨hy, hs, -⟩
      exact ⟨hy, hs⟩
  fresh := fun hnull => absurd hnull (parent_ne_null_of_rankOk (h.ranked x hx))
  nodes := h.nodes

/-- A new node. -/
theorem Sound.addNode (h : t.Sound) (hx : x ∉ t.ids) : (t.addNode x).Reserved x := by
  have hpar : ∀ {y}, y ≠ x → (t.addNode x).parent y = t.parent y := fun hy =>
    update_of_ne hy ..
  have hself : (t.addNode x).parent x = .null := update_self ..
  have hkids : t.children (.node x) = [] := by
    refine eq_nil_iff_forall_not_mem.mpr fun y hy => hx ?_
    obtain ⟨hy, hp, -⟩ := (h.linked.mem_children _ _).mp hy
    exact h.linked.parent_mem y x hy hp
  have hchildren : (t.addNode x).children = t.children := by
    rw [DepTree.addNode]
    exact update_eq_self_iff.mpr hkids.symm
  have hids : ∀ y, y ∈ (t.addNode x).ids ↔ y = x ∨ y ∈ t.ids := fun y => mem_cons
  have hne : ∀ {y}, y ∈ t.ids → y ≠ x := fun hy heq => hx (heq ▸ hy)
  refine ⟨⟨⟨nodup_cons.mpr ⟨hx, h.linked.nodup⟩, ?_, ?_, ?_⟩, mem_cons_self .., ?_, ?_⟩,
    ?_, h.closed_nodup, ?_, fun _ => update_self .., h.nodes⟩
  · intro y p hy hp
    rcases (hids y).mp hy with rfl | hy
    · rw [hself] at hp
      cases hp
    · rw [hpar (hne hy)] at hp
      exact mem_cons_of_mem _ (h.linked.parent_mem y p hy hp)
  · intro q y
    rw [hchildren, h.linked.mem_children, hids]
    by_cases hyx : y = x
    · subst hyx
      rw [hself]
      constructor
      · rintro ⟨hy, -⟩
        exact absurd hy hx
      · rintro ⟨-, hq, hnull⟩
        exact absurd hq.symm hnull
    · rw [hpar hyx]
      simp [hyx]
  · intro q
    rw [hchildren]
    exact h.linked.children_nodup q
  · intro y hy hyx
    have hy : y ∈ t.ids := ((hids y).mp hy).resolve_left hyx
    refine (h.ranked y hy).congr (hpar hyx) (update_of_ne hyx ..) fun p hp => ?_
    exact update_of_ne (hne (h.linked.parent_mem y p hy hp)) ..
  · refine Or.inr ⟨hself, fun y hy hp => ?_⟩
    rcases (hids y).mp hy with rfl | hy
    · rw [hself] at hp
      cases hp
    · rw [hpar (hne hy)] at hp
      exact hx (h.linked.parent_mem y x hy hp)
  · intro y hy hnull
    have hyx : y ≠ x := fun heq => hnull (heq ▸ hself)
    have hw : (t.addNode x).weight y = t.weight y := update_of_ne hyx ..
    rw [hw]
    exact h.weights y (((hids y).mp hy).resolve_left hyx)
  · intro y
    have hcl : (t.addNode x).closed = t.closed := rfl
    rw [hcl, h.mem_closed, hids]
    by_cases hyx : y = x
    · subst hyx
      simp [hself, hx]
    · have hs : (t.addNode x).stream y = t.stream y := update_of_ne hyx ..
      rw [hs, hpar hyx]
      constructor
      · rintro ⟨hy, hs⟩
        exact ⟨Or.inr hy, hs, parent_ne_null_of_rankOk (h.ranked y hy)⟩
      · rintro ⟨hy, hs, -⟩
        exact ⟨hy.resolve_left hyx, hs⟩

/-- A new node is not open. -/
theorem opened_addNode (hx : x ∉ t.ids) : (t.addNode x).opened = t.opened := by
  have hrest : t.ids.countP (t.addNode x).stream = t.ids.countP t.stream := by
    refine countP_congr fun y hy => ?_
    have hyx : y ≠ x := fun heq => hx (heq ▸ hy)
    have hs : (t.addNode x).stream y = t.stream y := update_of_ne hyx ..
    rw [hs]
  have hself : (t.addNode x).stream x = false := update_self ..
  have hids : (t.addNode x).ids = x :: t.ids := rfl
  rw [opened, opened, hids, countP_cons, hrest, hself]
  simp

/-- The tree without a node that waited is sound. -/
theorem Sound.getClosedNode (h : t.Sound) (hne : t.closed ≠ []) :
    ∃ z t', t.getClosedNode = some t' ∧ t'.Sound ∧ z ∈ t.ids ∧ t'.ids = t.ids.erase z ∧
      t'.stream = t.stream ∧ t'.opened = t.opened := by
  obtain ⟨z, l, hcl⟩ := exists_cons_of_ne_nil hne
  obtain ⟨hz, hzs⟩ := (h.mem_closed z).mp (hcl ▸ mem_cons_self ..)
  obtain ⟨t', hrun, hlinked, hranked, hids, hstream, hclosed, hnodes, hweight⟩ :=
    getClosedNode_spec h.linked h.ranked hcl hz
  have hnd := h.closed_nodup
  rw [hcl] at hnd
  obtain ⟨hzl, hl⟩ := nodup_cons.mp hnd
  have hmem : ∀ x, x ∈ t'.ids ↔ x ≠ z ∧ x ∈ t.ids := by
    intro x
    rw [hids]
    exact h.linked.nodup.mem_erase_iff
  refine ⟨z, t', hrun, ⟨hlinked, hranked, ?_, hclosed ▸ hl, ?_, ?_⟩, hz, hids, hstream, ?_⟩
  · intro x hx
    exact hweight x (h.weights x ((hmem x).mp hx).2)
  · intro x
    have hold := h.mem_closed x
    rw [hcl, mem_cons] at hold
    rw [hclosed, hmem, hstream]
    constructor
    · intro hx
      obtain ⟨hx', hs⟩ := hold.mp (Or.inr hx)
      exact ⟨⟨fun heq => hzl (heq ▸ hx), hx'⟩, hs⟩
    · rintro ⟨⟨hxz, hx⟩, hs⟩
      exact (hold.mpr ⟨hx, hs⟩).resolve_left hxz
  · have hlen := h.nodes
    rw [hcl, length_cons] at hlen
    rw [hnodes, hclosed]
    omega
  · rw [opened, opened, hids, hstream, countP_erase]
    simp [hzs]

/-- **The node of `sid`**, found or made, and of what the index has become. -/
theorem Sound.getNodeById (h : t.Sound) (sid : ℕ) :
    ∃ t', t.getNodeById sid = some t' ∧ t'.Reserved sid ∧ Grown t sid t' ∧
      t'.opened = t.opened ∧
      ∀ y ∈ t'.ids, t'.stream y = true → y ∈ t.ids ∧ t.stream y = true := by
  rw [DepTree.getNodeById]
  by_cases hsid : sid ∈ t.ids
  · rw [if_pos hsid]
    refine ⟨t, rfl, h.reserved hsid, ⟨subset_cons_self .., ?_⟩, rfl, fun y hy hs => ⟨hy, hs⟩⟩
    simp [hsid]
  · rw [if_neg hsid]
    have hstream : ∀ (t₁ : DepTree), t₁.ids ⊆ t.ids → t₁.stream = t.stream →
        ∀ y ∈ (t₁.addNode sid).ids, (t₁.addNode sid).stream y = true →
          y ∈ t.ids ∧ t.stream y = true := by
      intro t₁ hsub hst y hy hs
      by_cases hys : y = sid
      · subst hys
        have hself : (t₁.addNode y).stream y = false := update_self ..
        rw [hself] at hs
        cases hs
      · have hother : (t₁.addNode sid).stream y = t₁.stream y := update_of_ne hys ..
        rw [hother, hst] at hs
        exact ⟨hsub ((mem_cons.mp hy).resolve_left hys), hs⟩
    by_cases hfew : t.closedNodes < 32
    · rw [if_pos hfew]
      refine ⟨_, rfl, h.addNode hsid, ⟨List.Subset.refl _, ?_⟩, opened_addNode hsid,
        hstream t (List.Subset.refl _) rfl⟩
      rw [if_pos ⟨hsid, hfew⟩]
      rfl
    · rw [if_neg hfew]
      have hne : t.closed ≠ [] := by
        intro hnil
        have := h.nodes
        rw [hnil] at this
        simp only [length_nil, Nat.zero_mod] at this
        omega
      obtain ⟨z, t₁, hrun, hsound, hz, hids, hst, hopen⟩ := h.getClosedNode hne
      have hsub : t₁.ids ⊆ t.ids := hids ▸ erase_subset
      have hnot : sid ∉ t₁.ids := fun hmem => hsid (hsub hmem)
      refine ⟨t₁.addNode sid, by rw [hrun]; rfl, hsound.addNode hnot,
        ⟨cons_subset_cons sid hsub, ?_⟩, (opened_addNode hnot).trans hopen,
        hstream t₁ hsub hst⟩
      have hlen : (t₁.addNode sid).ids.length = t₁.ids.length + 1 := rfl
      have hpos := length_pos_of_mem hz
      rw [hlen, hids, length_erase_of_mem hz, if_neg fun hc => hfew hc.2]
      omega

/-! ### The frames -/

/-- **The node in its place**: what `ngx_http_v2_set_dependency` makes of a tree where the queue
for reuse is right and `x` has its weight. -/
theorem Pending.setDependency (h : t.Pending x) {depend : ℕ} (hdx : depend ≠ x) (exclusive : Bool)
    (hw : ∀ y ∈ t.ids, 1 ≤ t.weight y) (hnd : t.closed.Nodup)
    (hmem : ∀ y, y ∈ t.closed ↔ y ∈ t.ids ∧ t.stream y = false)
    (hnodes : t.closedNodes = t.closed.length % 256) :
    ∃ t', t.setDependency x depend exclusive = some t' ∧ t'.Sound ∧ t'.ids = t.ids ∧
      t'.stream = t.stream := by
  obtain ⟨t', hrun, hlinked, hranked, ⟨hids, hweight, hstream, hcn⟩, hperm⟩ :=
    setDependency_spec h hdx exclusive fun y hy hs => (hmem y).mpr ⟨hy, hs⟩
  refine ⟨t', hrun, ⟨hlinked, hranked, ?_, hperm.nodup_iff.mpr hnd, ?_, ?_⟩, hids, hstream⟩
  · intro y hy
    rw [hweight]
    exact hw y (hids ▸ hy)
  · intro y
    rw [hperm.mem_iff, hmem, hids, hstream]
  · rw [hcn, hnodes, hperm.length_eq]

/-- Only the links matter to a pending node. -/
theorem Pending.congr (h : t.Pending x) (w : ℕ → ℕ) (s : ℕ → Bool) (l : List ℕ) (n : ℕ) :
    Pending { t with weight := w, stream := s, closed := l, closedNodes := n } x :=
  ⟨⟨h.linked.nodup, h.linked.parent_mem, h.linked.mem_children, h.linked.children_nodup⟩, h.mem,
    h.ranks, h.self⟩

/-- Positive weights stay positive. -/
theorem Reserved.setWeight (h : t.Reserved x) {w : ℕ} (hw : 1 ≤ w) :
    ∀ y ∈ t.ids, 1 ≤ update t.weight x w y := by
  intro y hy
  by_cases hyx : y = x
  · rw [hyx, update_self]
    exact hw
  · rw [update_of_ne hyx]
    exact h.weights y hy (parent_ne_null_of_rankOk (h.pending.ranks y hy hyx))

/-- What the queue for reuse is when `x` has got its stream. -/
theorem Reserved.openStream (h : t.Reserved x) (hx : t.stream x = false) :
    ∃ l n, t.openStream x =
        { t with stream := update t.stream x true, closed := l, closedNodes := n } ∧
      l.Nodup ∧ n = l.length % 256 ∧
      ∀ y, y ∈ l ↔ y ∈ t.ids ∧ update t.stream x true y = false := by
  by_cases hnull : t.parent x = .null
  · refine ⟨t.closed, t.closedNodes, ?_, h.closed_nodup, h.nodes, ?_⟩
    · simp [DepTree.openStream, hnull]
    · intro y
      rw [h.mem_closed]
      by_cases hyx : y = x
      · subst hyx
        simp [hnull]
      · rw [update_of_ne hyx]
        constructor
        · rintro ⟨hy, hs, -⟩
          exact ⟨hy, hs⟩
        · rintro ⟨hy, hs⟩
          exact ⟨hy, hs, parent_ne_null_of_rankOk (h.pending.ranks y hy hyx)⟩
  · have hmem : x ∈ t.closed := (h.mem_closed x).mpr ⟨h.pending.mem, hx, hnull⟩
    refine ⟨t.closed.erase x, (t.closedNodes + 255) % 256, ?_, h.closed_nodup.erase x, ?_, ?_⟩
    · simp [DepTree.openStream, hnull, decClosed]
    · have hpos := length_pos_of_mem hmem
      rw [length_erase_of_mem hmem, h.nodes]
      omega
    · intro y
      rw [h.closed_nodup.mem_erase_iff, h.mem_closed]
      by_cases hyx : y = x
      · subst hyx
        simp
      · rw [update_of_ne hyx]
        constructor
        · rintro ⟨-, hy, hs, -⟩
          exact ⟨hy, hs⟩
        · rintro ⟨hy, hs⟩
          exact ⟨hyx, hy, hs, parent_ne_null_of_rankOk (h.pending.ranks y hy hyx)⟩

/-- What the queue for reuse is when `x` has been put at its end. -/
theorem Reserved.awaitReuse (h : t.Reserved x) (w : ℕ → ℕ) :
    ∃ l n, { t with weight := w }.awaitReuse x =
        { t with weight := w, closed := l, closedNodes := n } ∧
      l.Nodup ∧ n = l.length % 256 ∧ ∀ y, y ∈ l ↔ y ∈ t.ids ∧ t.stream y = false := by
  have hother : ∀ y, y ≠ x → (y ∈ t.closed ↔ y ∈ t.ids ∧ t.stream y = false) := by
    intro y hyx
    rw [h.mem_closed]
    constructor
    · rintro ⟨hy, hs, -⟩
      exact ⟨hy, hs⟩
    · rintro ⟨hy, hs⟩
      exact ⟨hy, hs, parent_ne_null_of_rankOk (h.pending.ranks y hy hyx)⟩
  by_cases hs : t.stream x = true
  · refine ⟨t.closed, t.closedNodes, ?_, h.closed_nodup, h.nodes, ?_⟩
    · simp [DepTree.awaitReuse, hs]
    · intro y
      by_cases hyx : y = x
      · subst hyx
        rw [h.mem_closed]
        simp [hs]
      · exact hother y hyx
  · have hs : t.stream x = false := by simpa using hs
    by_cases hnull : t.parent x = .null
    · have hnot : x ∉ t.closed := fun hmem => ((h.mem_closed x).mp hmem).2.2 hnull
      refine ⟨t.closed ++ [x], (t.closedNodes + 1) % 256, ?_, ?_, ?_, ?_⟩
      · simp [DepTree.awaitReuse, hs, hnull, incClosed]
      · exact nodup_append_comm.mp (nodup_cons.mpr ⟨hnot, h.closed_nodup⟩)
      · rw [length_append, length_singleton, h.nodes]
        omega
      · intro y
        rw [mem_append, mem_singleton]
        by_cases hyx : y = x
        · subst hyx
          simp [h.pending.mem, hs]
        · rw [hother y hyx]
          simp [hyx]
    · have hmem : x ∈ t.closed := (h.mem_closed x).mpr ⟨h.pending.mem, hs, hnull⟩
      have hperm : (t.closed.erase x ++ [x]).Perm t.closed :=
        (perm_append_singleton x _).trans (perm_cons_erase hmem).symm
      refine ⟨t.closed.erase x ++ [x], t.closedNodes, ?_, hperm.nodup_iff.mpr h.closed_nodup, ?_, ?_⟩
      · simp [DepTree.awaitReuse, hs, hnull]
      · rw [hperm.length_eq, h.nodes]
      · intro y
        rw [hperm.mem_iff]
        by_cases hyx : y = x
        · subst hyx
          simp [hmem, h.pending.mem, hs]
        · exact hother y hyx

/-- **A `HEADERS` frame** for a stream that is accepted. -/
theorem Sound.headersNode (h : t.Sound) (sid : ℕ) (priority : Option Priority)
    (hsid : sid ∈ t.ids → t.stream sid = false) (hdep : ∀ p, priority = some p →
      p.depend ≠ sid) (hpos : 0 < sid) :
    ∃ t', t.headersNode sid priority = some t' ∧ t'.Sound ∧ Grown t sid t' ∧
      t'.opened = t.opened + 1 ∧
      ∀ y ∈ t'.ids, t'.stream y = true → y = sid ∨ (y ∈ t.ids ∧ t.stream y = true) := by
  obtain ⟨t₁, hget, hres, hgrown, hopen, hold⟩ := h.getNodeById sid
  have hfalse : t₁.stream sid = false := by
    by_contra hs
    have hs : t₁.stream sid = true := by simpa using hs
    obtain ⟨hmem, htrue⟩ := hold sid hres.pending.mem hs
    rw [hsid hmem] at htrue
    cases htrue
  obtain ⟨l, n, heq, hnd, hn, hmem⟩ := hres.openStream hfalse
  -- In each case the node gets a place in the tree.
  suffices hrest : ∃ t', t.headersNode sid priority = some t' ∧ t'.Sound ∧ t'.ids = t₁.ids ∧
      t'.stream = update t₁.stream sid true by
    obtain ⟨t', hrun, hsound, hids, hstream⟩ := hrest
    refine ⟨t', hrun, hsound, ?_, ?_, ?_⟩
    · rw [Grown, hids]
      exact hgrown
    · have hcount := countP_update (s := t₁.stream) (b := true) hres.pending.linked.nodup
        hres.pending.mem
      rw [hfalse] at hcount
      rw [opened, hids, hstream, ← hopen, opened]
      simpa using hcount
    · intro y hy hs
      rw [hids] at hy
      rw [hstream] at hs
      by_cases hys : y = sid
      · exact Or.inl hys
      · rw [update_of_ne hys] at hs
        exact Or.inr (hold y hy hs)
  have hset : ∀ w, 1 ≤ w → ∀ depend, depend ≠ sid → ∀ exclusive,
      ∃ t', ((t₁.openStream sid).setWeight sid w).setDependency sid depend exclusive = some t' ∧
        t'.Sound ∧ t'.ids = t₁.ids ∧ t'.stream = update t₁.stream sid true := by
    intro w hw depend hds exclusive
    rw [heq]
    exact (hres.pending.congr (update t₁.weight sid w) (update t₁.stream sid true)
      l n).setDependency hds exclusive (hres.setWeight hw) hnd hmem hn
  simp only [DepTree.headersNode, hget, bind_eq_bind, bind_some]
  cases priority with
  | some p => exact hset _ (by omega) p.depend (hdep p rfl) p.exclusive
  | none =>
    have hpar : (t₁.openStream sid).parent sid = t₁.parent sid := by rw [heq]
    dsimp only
    rw [hpar]
    by_cases hnull : t₁.parent sid = .null
    · rw [if_pos hnull]
      exact hset 16 (by omega) 0 (by omega) false
    · rw [if_neg hnull]
      refine ⟨_, rfl, ?_, by rw [heq], by rw [heq]⟩
      rw [heq]
      have hL := hres.pending.linked
      have hr := hres.pending.ranked hnull
      refine ⟨⟨hL.nodup, hL.parent_mem, hL.mem_children, hL.children_nodup⟩, hr, ?_, hnd, hmem,
        hn⟩
      intro y hy
      exact hres.weights y hy (parent_ne_null_of_rankOk (hr y hy))

/-- **A `PRIORITY` frame.** -/
theorem Sound.priorityNode (h : t.Sound) (sid : ℕ) (p : Priority) (hdep : p.depend ≠ sid) :
    ∃ t', t.priorityNode sid p = some t' ∧ t'.Sound ∧ Grown t sid t' ∧ t'.opened = t.opened ∧
      ∀ y ∈ t'.ids, t'.stream y = true → y ∈ t.ids ∧ t.stream y = true := by
  obtain ⟨t₁, hget, hres, hgrown, hopen, hold⟩ := h.getNodeById sid
  obtain ⟨l, n, heq, hnd, hn, hmem⟩ :=
    hres.awaitReuse (update t₁.weight sid (p.weight.toNat + 1))
  obtain ⟨t', hset, hsound, hids, hstream⟩ :=
    (hres.pending.congr (update t₁.weight sid (p.weight.toNat + 1)) t₁.stream l
      n).setDependency hdep p.exclusive (hres.setWeight (by omega)) hnd hmem hn
  refine ⟨t', ?_, hsound, ?_, ?_, ?_⟩
  · simp only [DepTree.priorityNode, hget, bind_eq_bind, bind_some, DepTree.setWeight]
    rw [heq]
    exact hset
  · rw [Grown, hids]
    exact hgrown
  · rw [opened, hids, hstream, ← hopen, opened]
  · intro y hy hs
    rw [hids] at hy
    rw [hstream] at hs
    exact hold y hy hs

/-- **The end of a stream.** -/
theorem Sound.closeNode (h : t.Sound) (hx : x ∈ t.ids) (hs : t.stream x = true) :
    (t.closeNode x).Sound ∧ (t.closeNode x).opened + 1 = t.opened := by
  have hnot : x ∉ t.closed := by
    intro hmem
    rw [((h.mem_closed x).mp hmem).2] at hs
    cases hs
  have hL := h.linked
  constructor
  · refine ⟨⟨hL.nodup, hL.parent_mem, hL.mem_children, hL.children_nodup⟩, h.ranked, h.weights,
      ?_, ?_, ?_⟩
    · exact nodup_append_comm.mp (nodup_cons.mpr ⟨hnot, h.closed_nodup⟩)
    · intro y
      simp only [DepTree.closeNode, incClosed, mem_append, mem_singleton]
      rw [h.mem_closed]
      by_cases hyx : y = x
      · subst hyx
        simp [hx]
      · rw [update_of_ne hyx]
        simp [hyx]
    · simp only [DepTree.closeNode, incClosed, length_append, length_singleton]
      rw [h.nodes]
      omega
  · have hcount := countP_update (s := t.stream) (b := false) hL.nodup hx
    rw [hs] at hcount
    simpa [opened, DepTree.closeNode, incClosed] using hcount

end DepTree

/-! ### Runs -/

namespace DepConn

variable {s s' : DepConn} {concurrentStreams : ℕ} {e : DepEvent}

/-- What holds in every state: the nodes with a stream are those of the requests that are
processed, and their identifiers have been seen. -/
structure Inv (s : DepConn) : Prop where
  sound : s.tree.Sound
  seen : ∀ x ∈ s.tree.ids, s.tree.stream x = true → x ≤ s.lastSid
  processing : s.tree.opened = s.processing

/-- What an event does to the number of nodes, when at most `concurrentStreams` streams are
processed at a time. -/
def Stepped (concurrentStreams : ℕ) (s : DepConn) (e : DepEvent) (s' : DepConn) : Prop :=
  match e with
  | .headers sid _ _ =>
    s'.tree.ids = s.tree.ids ∧ s'.processing = s.processing ∨
      s.processing < concurrentStreams ∧ DepTree.Grown s.tree sid s'.tree ∧
        s'.processing = s.processing + 1
  | .priority sid _ => DepTree.Grown s.tree sid s'.tree ∧ s'.processing = s.processing
  | .close _ => s'.tree.ids = s.tree.ids ∧ s'.processing + 1 = s.processing

/-- **One event** keeps the invariant; no loop or recursion goes on for ever. -/
theorem Inv.handle (h : s.Inv) (concurrentStreams : ℕ) (e : DepEvent) :
    s.handle concurrentStreams e = .rejected ∨
      ∃ s', s.handle concurrentStreams e = .done s' ∧ s'.Inv ∧ Stepped concurrentStreams s e s' := by
  cases e with
  | headers sid priority early =>
    simp only [DepConn.handle]
    split
    · exact Or.inl rfl
    · next hok =>
        obtain ⟨hodd, hnew, hdep⟩ : sid % 2 ≠ 0 ∧ s.lastSid < sid ∧
            (priority.map DepTree.Priority.depend).getD 0 ≠ sid := by
          refine ⟨fun hc => hok (Or.inl hc), ?_, fun hc => hok (Or.inr (Or.inr hc))⟩
          exact Nat.lt_of_not_le fun hc => hok (Or.inr (Or.inl hc))
        refine Or.inr ?_
        split
        · refine ⟨_, rfl, ⟨h.sound, fun x hx hs => ?_, h.processing⟩, Or.inl ⟨rfl, rfl⟩⟩
          exact (h.seen x hx hs).trans (Nat.le_of_lt hnew)
        · next hroom =>
            obtain ⟨t', hrun, hsound, hgrown, hopen, hold⟩ := h.sound.headersNode sid priority
              (by
                intro hmem
                by_contra hs
                have := h.seen sid hmem (by simpa using hs)
                omega)
              (by
                rintro p rfl
                exact hdep)
              (by omega)
            refine ⟨⟨t', sid, s.processing + 1⟩, by rw [hrun]; rfl, ⟨hsound, ?_, ?_⟩, Or.inr ?_⟩
            · intro x hx hs
              rcases hold x hx hs with rfl | ⟨hx, hs⟩
              · exact Nat.le_refl x
              · exact (h.seen x hx hs).trans (Nat.le_of_lt hnew)
            · rw [hopen, h.processing]
            · exact ⟨Nat.lt_of_not_le fun hc => hroom (Or.inl hc), hgrown, rfl⟩
  | priority sid p =>
    simp only [DepConn.handle]
    split
    · exact Or.inl rfl
    · next hok =>
        obtain ⟨t', hrun, hsound, hgrown, hopen, hold⟩ :=
          h.sound.priorityNode sid p fun hc => hok (Or.inr hc)
        refine Or.inr ⟨⟨t', s.lastSid, s.processing⟩, by rw [hrun]; rfl, ⟨hsound, ?_, ?_⟩,
          hgrown, rfl⟩
        · intro x hx hs
          obtain ⟨hx, hs⟩ := hold x hx hs
          exact h.seen x hx hs
        · rw [hopen, h.processing]
  | close sid =>
    simp only [DepConn.handle]
    split
    · next hok =>
        obtain ⟨hsound, hopen⟩ := h.sound.closeNode hok.1 hok.2
        have hproc := h.processing
        refine Or.inr ⟨_, rfl, ⟨hsound, ?_, by dsimp only; omega⟩, rfl, by dsimp only; omega⟩
        intro x hx hs
        refine h.seen x hx ?_
        simp only [DepTree.closeNode, DepTree.incClosed, update_apply] at hs
        split at hs
        · cases hs
        · exact hs
    · exact Or.inl rfl

/-- The invariant along a run. -/
theorem inv_of_reachable (h : (depMachine concurrentStreams).Reachable s) : s.Inv := by
  refine h.invariant (P := Inv) ?_ ?_
  · rintro s rfl
    refine ⟨⟨⟨nodup_nil, ?_, ?_, fun _ => nodup_nil⟩, ?_, ?_, nodup_nil, ?_, rfl⟩, ?_,
      rfl⟩
    · intro x p hx
      exact absurd hx not_mem_nil
    · intro q x
      simp [DepTree.empty]
    · intro x hx
      exact absurd hx not_mem_nil
    · intro x hx
      exact absurd hx not_mem_nil
    · intro x
      simp [DepTree.empty]
    · intro x hx
      exact absurd hx not_mem_nil
  · intro s e s' hinv hstep
    rcases hinv.handle concurrentStreams e with hrej | ⟨s₁, hdone, hinv', -⟩
    · have hstep : s.handle concurrentStreams e = .done s' := hstep
      rw [hrej] at hstep
      cases hstep
    · have hstep : s.handle concurrentStreams e = .done s' := hstep
      rw [hdone] at hstep
      cases hstep
      exact hinv'

/-! ### How many nodes may wait -/

/-- While no more than 223 streams are allowed, there are at most 255 nodes. -/
theorem length_ids_le (hcs : concurrentStreams ≤ 223)
    (h : (depMachine concurrentStreams).Reachable s) :
    s.tree.ids.length ≤ concurrentStreams + 32 ∧ s.processing ≤ concurrentStreams := by
  suffices hboth : s.Inv ∧ s.tree.ids.length ≤ concurrentStreams + 32 ∧
      s.processing ≤ concurrentStreams from hboth.2
  refine h.invariant (P := fun s => s.Inv ∧
    s.tree.ids.length ≤ concurrentStreams + 32 ∧ s.processing ≤ concurrentStreams) ?_ ?_
  · rintro s rfl
    have hstart : (depMachine concurrentStreams).Reachable ⟨.empty, 0, 0⟩ := ⟨[], .start rfl⟩
    exact ⟨inv_of_reachable hstart, Nat.zero_le _, Nat.zero_le _⟩
  · rintro s e s' ⟨hinv, hle, hproc⟩ hstep
    have hstep : s.handle concurrentStreams e = .done s' := hstep
    rcases hinv.handle concurrentStreams e with hrej | ⟨s₁, hdone, hinv', hst⟩
    · rw [hrej] at hstep
      cases hstep
    · rw [hdone] at hstep
      cases hstep
      -- A node is added only when fewer than 32 wait, and then they are all counted.
      have hlen := hinv.sound.length_closed
      have hnodes := hinv.sound.nodes
      have hopen := hinv.processing
      have hgrown : ∀ sid, DepTree.Grown s.tree sid s'.tree →
          s'.tree.ids.length ≤ s.tree.ids.length ∨
            s'.tree.ids.length ≤ s.processing + 32 := by
        rintro sid ⟨-, hgrown⟩
        rw [hgrown]
        split
        · right
          omega
        · exact Or.inl (Nat.le_refl _)
      refine ⟨hinv', ?_⟩
      cases e with
      | headers sid priority early =>
        rcases hst with ⟨hids, hp⟩ | ⟨hroom, hg, hp⟩
        · rw [hids, hp]
          exact ⟨hle, hproc⟩
        · have := hgrown sid hg
          omega
      | priority sid p =>
        obtain ⟨hg, hp⟩ := hst
        have := hgrown sid hg
        omega
      | close sid =>
        obtain ⟨hids, hp⟩ := hst
        rw [hids]
        omega

/-- Any number of streams that is allowed can be opened, one after the other. -/
theorem reachable_open : ∀ {n : ℕ}, n ≤ concurrentStreams →
    ∃ s, (depMachine concurrentStreams).Reachable s ∧ s.processing = n ∧ s.tree.ids.length = n ∧
      s.lastSid ≤ 2 * n ∧ ∀ x ∈ s.tree.ids, x ≤ 2 * n := by
  intro n
  induction n with
  | zero =>
    intro _
    refine ⟨_, ⟨[], .start rfl⟩, rfl, rfl, Nat.le_refl _, fun x hx => ?_⟩
    exact absurd hx not_mem_nil
  | succ n ih =>
    intro hn
    obtain ⟨s, ⟨tr, hrun⟩, hproc, hlen, hlast, hids⟩ := ih (by omega)
    have hinv := inv_of_reachable ⟨tr, hrun⟩
    have hnot : 2 * n + 1 ∉ s.tree.ids := fun hmem => by
      have := hids _ hmem
      omega
    obtain ⟨t', hh, -, ⟨hsub, hgrown⟩, -⟩ := hinv.sound.headersNode (2 * n + 1)
      none (fun hmem => absurd hmem hnot) (by intro p hp; cases hp) (by omega)
    have hstep : s.handle concurrentStreams (.headers (2 * n + 1) none false) =
        .done ⟨t', 2 * n + 1, s.processing + 1⟩ := by
      simp only [DepConn.handle, map_none, getD_none]
      rw [if_neg (by omega), if_neg (by simp; omega), hh]
      rfl
    refine ⟨_, ⟨_, hrun.snoc hstep⟩, by dsimp only; omega, ?_, by dsimp only; omega, ?_⟩
    · have hcl := hinv.sound.length_closed
      have hopen := hinv.processing
      have hnodes := hinv.sound.nodes
      dsimp only
      rw [hgrown, if_pos ⟨hnot, by omega⟩, hlen]
    · intro x hx
      rcases mem_cons.mp (hsub hx) with rfl | hx
      · omega
      · have := hids x hx
        omega

/-- After that, up to 32 idle streams can be given a priority. -/
theorem reachable_wait {n : ℕ} (hn : n ≤ concurrentStreams) : ∀ {k : ℕ}, k ≤ 32 →
    ∃ s, (depMachine concurrentStreams).Reachable s ∧ s.processing = n ∧
      s.tree.ids.length = n + k ∧ ∀ x ∈ s.tree.ids, x ≤ 2 * n + k := by
  intro k
  induction k with
  | zero =>
    intro _
    obtain ⟨s, hreach, hproc, hlen, -, hids⟩ := reachable_open hn
    exact ⟨s, hreach, hproc, hlen, hids⟩
  | succ k ih =>
    intro hk
    obtain ⟨s, ⟨tr, hrun⟩, hproc, hlen, hids⟩ := ih (by omega)
    have hinv := inv_of_reachable ⟨tr, hrun⟩
    have hnot : 2 * n + k + 1 ∉ s.tree.ids := fun hmem => by
      have := hids _ hmem
      omega
    obtain ⟨t', hh, -, ⟨hsub, hgrown⟩, -⟩ := hinv.sound.priorityNode (2 * n + k + 1)
      ⟨0, false, 0⟩ (by dsimp only; omega)
    have hstep : s.handle concurrentStreams (.priority (2 * n + k + 1) ⟨0, false, 0⟩) =
        .done ⟨t', s.lastSid, s.processing⟩ := by
      simp only [DepConn.handle]
      rw [if_neg (by omega), hh]
      rfl
    refine ⟨_, ⟨_, hrun.snoc hstep⟩, hproc, ?_, ?_⟩
    · have hcl := hinv.sound.length_closed
      have hopen := hinv.processing
      have hnodes := hinv.sound.nodes
      dsimp only
      rw [hgrown, if_pos ⟨hnot, by omega⟩, hlen]
      omega
    · intro x hx
      rcases mem_cons.mp (hsub hx) with rfl | hx
      · omega
      · have := hids x hx
        omega

/-- And all streams can be closed. -/
theorem reachable_close {n k : ℕ} (hn : n ≤ concurrentStreams) (hk : k ≤ 32) :
    ∀ {j : ℕ}, j ≤ n → ∃ s, (depMachine concurrentStreams).Reachable s ∧
      s.processing + j = n ∧ s.tree.ids.length = n + k := by
  intro j
  induction j with
  | zero =>
    intro _
    obtain ⟨s, hreach, hproc, hlen, -⟩ := reachable_wait hn hk
    exact ⟨s, hreach, hproc, hlen⟩
  | succ j ih =>
    intro hj
    obtain ⟨s, ⟨tr, hrun⟩, hproc, hlen⟩ := ih (by omega)
    have hinv := inv_of_reachable ⟨tr, hrun⟩
    have hpos : 0 < s.tree.ids.countP s.tree.stream := by
      have : s.tree.ids.countP s.tree.stream = s.processing := hinv.processing
      omega
    obtain ⟨x, hx, hs⟩ := countP_pos_iff.mp hpos
    have hstep : s.handle concurrentStreams (.close x) =
        .done ⟨s.tree.closeNode x, s.lastSid, s.processing - 1⟩ := by
      simp only [DepConn.handle]
      rw [if_pos ⟨hx, hs⟩]
    exact ⟨_, ⟨_, hrun.snoc hstep⟩, by dsimp only; omega, hlen⟩

/-- **More nodes can wait than 8 bits count**, where 224 streams or more are allowed. -/
theorem reachable_overflow (hcs : 224 ≤ concurrentStreams) :
    ∃ s, (depMachine concurrentStreams).Reachable s ∧ s.tree.closed.length = 256 ∧
      s.tree.closedNodes = 0 := by
  obtain ⟨s, hreach, hproc, hlen⟩ := reachable_close hcs (Nat.le_refl 32) (Nat.le_refl 224)
  have hinv := inv_of_reachable hreach
  have hcl := hinv.sound.length_closed
  have hopen := hinv.processing
  have hnodes := hinv.sound.nodes
  exact ⟨s, hreach, by omega, by omega⟩

end DepConn

/-! ### Well-formed trees -/

/-- What the tree is to be: a forest under the root in which the rank of a node is its depth,
with each node in the queue of its parent and in no other, weights of at least 1, and exactly
the nodes without a stream in the queue for reuse, the length of which is known. -/
structure DepTree.WellFormed (t : DepTree) : Prop where
  depth : ∀ x ∈ t.ids, Depth t.parent x (t.rank x)
  parent_mem : ∀ x p, x ∈ t.ids → t.parent x = .node p → p ∈ t.ids
  queue : ∀ q x, (t.children q).count x = if x ∈ t.ids ∧ t.parent x = q then 1 else 0
  weight : ∀ x ∈ t.ids, 1 ≤ t.weight x
  closed : ∀ x, t.closed.count x = if x ∈ t.ids ∧ t.stream x = false then 1 else 0
  closedNodes : t.closedNodes = t.closed.length

/-- A sound tree is well formed if the nodes that wait are counted. -/
theorem DepTree.Sound.wellFormed {t : DepTree} (h : t.Sound)
    (hn : t.closedNodes = t.closed.length) : t.WellFormed where
  depth := fun _ hx => h.linked.depth h.ranked hx
  parent_mem := h.linked.parent_mem
  queue := by
    intro q x
    have hq : x ∈ t.children q ↔ x ∈ t.ids ∧ t.parent x = q := by
      rw [h.linked.mem_children]
      constructor
      · rintro ⟨hx, hp, -⟩
        exact ⟨hx, hp⟩
      · rintro ⟨hx, rfl⟩
        exact ⟨hx, rfl, parent_ne_null_of_rankOk (h.ranked x hx)⟩
    by_cases hmem : x ∈ t.children q
    · rw [if_pos (hq.mp hmem), count_eq_one_of_mem (h.linked.children_nodup q) hmem]
    · rw [if_neg (mt hq.mpr hmem), count_eq_zero_of_not_mem hmem]
  weight := h.weights
  closed := by
    intro x
    by_cases hmem : x ∈ t.closed
    · rw [if_pos ((h.mem_closed x).mp hmem), count_eq_one_of_mem h.closed_nodup hmem]
    · rw [if_neg (mt (h.mem_closed x).mpr hmem), count_eq_zero_of_not_mem hmem]
  closedNodes := hn

/-- **The dependency tree.** In every state that frames and closings lead to the tree is well
formed, and no event leads a loop or a recursion astray, if and only if at most 223 concurrent
streams are allowed. -/
theorem dep_tree_well_formed (concurrentStreams : ℕ) :
    (∀ s, (depMachine concurrentStreams).Reachable s →
      s.tree.WellFormed ∧ ∀ e, s.handle concurrentStreams e ≠ .stuck) ↔
    concurrentStreams ≤ 223 := by
  constructor
  · intro h
    by_contra hcs
    obtain ⟨s, hreach, hlen, hzero⟩ := DepConn.reachable_overflow (Nat.lt_of_not_le hcs)
    have := (h s hreach).1.closedNodes
    omega
  · intro hcs s hreach
    have hinv := DepConn.inv_of_reachable hreach
    obtain ⟨hle, hproc⟩ := DepConn.length_ids_le hcs hreach
    have hcl := hinv.sound.length_closed
    have hnodes := hinv.sound.nodes
    refine ⟨hinv.sound.wellFormed (by omega), fun e hstuck => ?_⟩
    rcases hinv.handle concurrentStreams e with hrej | ⟨s', hdone, -⟩
    · rw [hrej] at hstuck
      cases hstuck
    · rw [hdone] at hstuck
      cases hstuck

/-- Where 256 concurrent streams are allowed, 256 nodes may wait and none be counted. -/
theorem dep_tree_miscounted :
    ∃ s, (depMachine 256).Reachable s ∧ s.tree.closed.length = 256 ∧ s.tree.closedNodes = 0 ∧
      ¬ s.tree.WellFormed := by
  obtain ⟨s, hreach, hlen, hzero⟩ := DepConn.reachable_overflow (show 224 ≤ 256 by omega)
  refine ⟨s, hreach, hlen, hzero, fun h => ?_⟩
  have := h.closedNodes
  omega

end Hengine
