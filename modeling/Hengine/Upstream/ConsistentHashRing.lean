import Hengine.Upstream.ConsistentHashDown

/-!
# The Nodes That Are Out

What the loops of the consistent hash balancer do to its nodes. A node is out when it is in the
queue, and then it is deleted from the segment tree; the nodes of one peer go out together and
come back together. The search for another node ends, since each round takes out a node that the
tree still had, and it finds nothing only when all nodes are out.
-/

namespace Hengine

open List Function Option

namespace ConsistentHash

variable {s s' : ConsistentHash} {now : ℤ} {hash : UInt32} {check : ℕ → Bool}

/-- The peer of a virtual node. -/
def peerOf (s : ConsistentHash) (i : ℕ) : ℕ := (s.server i).elim 0 VirtualNode.rnindex

/-- The hash of a virtual node. -/
def hashOf (s : ConsistentHash) (i : ℕ) : UInt32 := (s.server i).elim 0 VirtualNode.hash

/-- The nodes are sorted by their hash. -/
def SortedNodes (s : ConsistentHash) : Prop := s.servers.Pairwise fun a b => a.hash ≤ b.hash

/-- What the tree is to store: the nodes that are not out. -/
def inTree (down : ℕ → Bool) (i : ℕ) : Option (SegNode Unit) :=
  if down i then none else some ⟨i, none⟩

/-- The nodes are in order, and the queue and the tree agree on which of them are out. -/
structure Ok (s : ConsistentHash) : Prop where
  pos : 0 < s.number
  few : s.number ≤ 2 ^ 31
  sorted : s.SortedNodes
  sound : ∃ leaf, s.tree.Sound s.number (inTree s.down) leaf
  nodup : s.downServers.Nodup
  mem : ∀ i, i ∈ s.downServers ↔ 1 ≤ i ∧ i ≤ s.number ∧ s.down i = true

/-- Every index from 1 on has a node. -/
theorem server_eq {i : ℕ} (h₁ : 1 ≤ i) (h₂ : i ≤ s.number) :
    ∃ v, s.server i = some v ∧ s.peerOf i = v.rnindex := by
  have hlt : i - 1 < s.servers.length := by
    rw [number] at h₂
    omega
  have hserver : s.server i = some s.servers[i - 1] := by
    rw [server, if_neg (by omega), getElem?_eq_getElem hlt]
  exact ⟨_, hserver, by rw [peerOf, hserver]; rfl⟩

theorem peerOf_congr (h : s'.servers = s.servers) (i : ℕ) : s'.peerOf i = s.peerOf i := by
  rw [peerOf, peerOf, server, server, h]

theorem hashOf_congr (h : s'.servers = s.servers) (i : ℕ) : s'.hashOf i = s.hashOf i := by
  rw [hashOf, hashOf, server, server, h]

theorem number_congr (h : s'.servers = s.servers) : s'.number = s.number := by
  rw [number, number, h]

/-! ### The tree -/

/-- Taking a node out of the segment tree succeeds. -/
theorem Ok.tree_delete (h : s.Ok) {i : ℕ} (h₁ : 1 ≤ i) (h₂ : i ≤ s.number) :
    ∃ tree leaf, s.tree.delete (s.number + 1) 1 1 s.number i = some tree ∧
      tree.Sound s.number (inTree (update s.down i true)) leaf := by
  obtain ⟨leaf, hsound⟩ := h.sound
  obtain ⟨tree, leaf', hrun, hsound'⟩ := hsound.step (Nat.lt_succ_self _)
    (SegOp.delete i) ⟨h₁, h₂⟩
  rw [SegTree.apply, hsound.num] at hrun
  refine ⟨tree, leaf', hrun, hsound'.congr fun p _ _ => ?_⟩
  by_cases hp : p = i
  · subst hp
    simp [inTree, SegOp.store]
  · simp [inTree, SegOp.store, hp]

/-- So does putting it back. -/
theorem Ok.tree_insert (h : s.Ok) {i : ℕ} (h₁ : 1 ≤ i) (h₂ : i ≤ s.number) :
    ∃ tree leaf, s.tree.insert (s.number + 1) 1 1 s.number i ⟨i, none⟩ = some tree ∧
      tree.Sound s.number (inTree (update s.down i false)) leaf := by
  obtain ⟨leaf, hsound⟩ := h.sound
  obtain ⟨tree, leaf', hrun, hsound'⟩ := hsound.step (Nat.lt_succ_self _)
    (SegOp.insert i ⟨i, none⟩) ⟨h₁, h₂, Or.inl rfl⟩
  rw [SegTree.apply, hsound.num] at hrun
  refine ⟨tree, leaf', hrun, hsound'.congr fun p _ _ => ?_⟩
  by_cases hp : p = i
  · subst hp
    simp [inTree, SegOp.store]
  · simp [inTree, SegOp.store, hp]

/-- **What the tree finds** in a range: the first node that is not out, or the extreme key. -/
theorem Ok.query_first (h : s.Ok) {l r : ℕ} (hl : 1 ≤ l) (hr : r ≤ s.number) :
    ∃ v, s.tree.query (s.number + 1) 1 1 s.number l r = some v ∧
      ((∃ i, l ≤ i ∧ i ≤ r ∧ s.down i = false ∧ (∀ j, l ≤ j → j < i → s.down j = true) ∧
          keyIndex v = i) ∨
        (∀ i, l ≤ i → i ≤ r → s.down i = true) ∧ keyIndex v = 0xffffffff) := by
  have hfew := h.few
  obtain ⟨leaf, hsound⟩ := h.sound
  by_cases hlr : l ≤ r
  · obtain ⟨v, hrun, hbest⟩ := hsound.query (Nat.lt_succ_self _) hl hlr hr
    rw [hsound.num] at hrun
    have hanswer : SegTree.Answer (inTree s.down) l r v := by
      refine hsound.answer (by rw [segExtreme]; omega) (fun p v hv => Or.inl ?_) hl hr hbest
      rw [inTree] at hv
      split at hv
      · cases hv
      · cases hv
        rfl
    refine ⟨v, hrun, ?_⟩
    rcases hanswer with ⟨i, h₁, h₂, hi, hleast⟩ | ⟨hnone, hkey⟩
    · rw [inTree] at hi
      split at hi
      · cases hi
      · next hdown =>
          cases hi
          refine Or.inl ⟨i, h₁, h₂, by simpa using hdown, fun j hj hji => ?_, ?_⟩
          · by_contra hjd
            have := hleast j _ hj (by omega) (if_neg hjd)
            simp only at this
            omega
          · simp only [keyIndex]
            omega
    · refine Or.inr ⟨fun i h₁ h₂ => ?_, ?_⟩
      · by_contra hdown
        have := hnone i h₁ h₂
        rw [inTree, if_neg hdown] at this
        cases this
      · rw [keyIndex, hkey, segExtreme]
        rfl
  · refine ⟨⟨segExtreme, none⟩, ?_, Or.inr ⟨fun i h₁ h₂ => by omega, ?_⟩⟩
    · have := hsound.query_empty (Nat.lt_succ_self s.number) (l := l) (r := r) (by omega)
      rw [hsound.num] at this
      exact this
    · rw [keyIndex, segExtreme]
      rfl

/-! ### Nodes go out -/

/-- One node goes out. -/
theorem Ok.deleteOne (h : s.Ok) (now ft : ℤ) {i : ℕ} (h₁ : 1 ≤ i) (h₂ : i ≤ s.number) :
    ∃ s', deleteOne now ft s i = some s' ∧ s'.Ok ∧ s'.peers = s.peers ∧ s'.servers = s.servers ∧
      s'.down = update s.down i true ∧
      s'.timeout = if s.down i then s.timeout else update s.timeout i (now + ft) := by
  rw [ConsistentHash.deleteOne]
  by_cases hdown : s.down i = true
  · refine ⟨s, if_pos hdown, h, rfl, rfl, ?_, (if_pos hdown).symm⟩
    rw [← hdown, update_eq_self]
  · obtain ⟨tree, leaf, hrun, hsound⟩ := h.tree_delete h₁ h₂
    rw [if_neg hdown, hrun]
    have hfalse : s.down i = false := by simpa using hdown
    refine ⟨_, rfl, ⟨h.pos, h.few, h.sorted, ⟨leaf, hsound⟩, ?_, ?_⟩, rfl, rfl, rfl,
      (if_neg hdown).symm⟩
    · refine nodup_cons.mpr ⟨fun hmem => ?_, h.nodup⟩
      exact hdown ((h.mem i).mp hmem).2.2
    · intro j
      have hj := h.mem j
      simp only [mem_cons]
      by_cases hji : j = i
      · subst hji
        simp only [true_or, update_self, true_iff, and_true]
        exact ⟨h₁, h₂⟩
      · rw [update_of_ne hji]
        simp only [hji, false_or]
        exact hj

/-- Some nodes go out, one after the other. -/
theorem Ok.deleteAll (now ft : ℤ) : ∀ {l : List ℕ} {s : ConsistentHash}, s.Ok → l.Nodup →
    (∀ i ∈ l, 1 ≤ i ∧ i ≤ s.number) →
    ∃ s', l.foldlM (ConsistentHash.deleteOne now ft) s = some s' ∧ s'.Ok ∧ s'.peers = s.peers ∧
      s'.servers = s.servers ∧ (∀ i, s'.down i = (s.down i || decide (i ∈ l))) ∧
      ∀ i, s'.timeout i = if s.down i = false ∧ i ∈ l then now + ft else s.timeout i := by
  intro l
  induction l with
  | nil =>
    intro s h _ _
    exact ⟨s, rfl, h, rfl, rfl, fun i => by simp, fun i => by simp⟩
  | cons a l ih =>
    intro s h hnd hmem
    obtain ⟨ha, hnd⟩ := nodup_cons.mp hnd
    obtain ⟨s₁, hrun₁, hok₁, hp₁, hs₁, hd₁, ht₁⟩ :=
      h.deleteOne now ft (hmem a (mem_cons_self ..)).1 (hmem a (mem_cons_self ..)).2
    obtain ⟨s', hrun, hok, hp, hs, hd, ht⟩ := ih hok₁ hnd fun i hi => by
      rw [number_congr hs₁]
      exact hmem i (mem_cons_of_mem a hi)
    refine ⟨s', by rw [foldlM_cons, hrun₁]; exact hrun, hok, hp.trans hp₁, hs.trans hs₁,
      fun i => ?_, fun i => ?_⟩
    · rw [hd, hd₁]
      by_cases hia : i = a
      · subst hia
        simp
      · simp [hia]
    · rw [ht, hd₁, ht₁]
      by_cases hia : i = a
      · subst hia
        simp only [update_self, mem_cons, true_or, and_true]
        by_cases hdown : s.down i = true
        · simp [hdown]
        · have hdown : s.down i = false := by simpa using hdown
          simp [hdown]
      · have htime : (if s.down a = true then s.timeout
            else update s.timeout a (now + ft)) i = s.timeout i := by
          split
          · rfl
          · exact update_of_ne hia ..
        rw [update_of_ne hia, htime]
        simp [hia]

/-- The nodes of a peer. -/
theorem mem_realNode {p i : ℕ} :
    i ∈ s.realNode p ↔ 1 ≤ i ∧ i ≤ s.number ∧ s.peerOf i = p := by
  simp only [realNode, mem_filter, mem_range'_1]
  constructor
  · rintro ⟨⟨h₁, h₂⟩, hany⟩
    obtain ⟨v, hv, hp⟩ := server_eq (s := s) h₁ (by omega)
    rw [hv] at hany
    refine ⟨h₁, by omega, ?_⟩
    rw [hp]
    simpa using hany
  · rintro ⟨h₁, h₂, hp⟩
    obtain ⟨v, hv, hpv⟩ := server_eq (s := s) h₁ h₂
    refine ⟨⟨h₁, by omega⟩, ?_⟩
    rw [hv]
    simpa using hpv.symm.trans hp

/-- **A peer is taken out**: those of its nodes that were in the tree go out with a new time. -/
theorem Ok.deleteNode (h : s.Ok) (now : ℤ) (p : ℕ) :
    ∃ s', s.deleteNode now p = some s' ∧ s'.Ok ∧ s'.peers = s.peers ∧ s'.servers = s.servers ∧
      (∀ i, 1 ≤ i → i ≤ s.number → s'.down i = (s.down i || decide (s.peerOf i = p))) ∧
      ∀ i, 1 ≤ i → i ≤ s.number → s'.timeout i =
        if s.down i = false ∧ s.peerOf i = p then now + (s.peers.peer p).failTimeout
        else s.timeout i := by
  obtain ⟨s', hrun, hok, hp, hs, hd, ht⟩ := Ok.deleteAll now (s.peers.peer p).failTimeout
    (l := s.realNode p) h ((nodup_range').filter _) fun i hi => by
      obtain ⟨h₁, h₂, -⟩ := mem_realNode.mp hi
      exact ⟨h₁, h₂⟩
  refine ⟨s', hrun, hok, hp, hs, fun i h₁ h₂ => ?_, fun i h₁ h₂ => ?_⟩
  · rw [hd]
    simp [mem_realNode, h₁, h₂]
  · rw [ht]
    simp [mem_realNode, h₁, h₂]

/-! ### Nodes come back -/

/-- A node that is out is due: its time has come, and its peer is healthy. -/
def Due (s : ConsistentHash) (now : ℤ) (check : ℕ → Bool) (i : ℕ) : Prop :=
  now ≥ s.timeout i ∧ check (s.peerOf i) = false

/-- The peers once the node `i` has come back. -/
def restored (s : ConsistentHash) (i : ℕ) : RrPeers :=
  s.peers.setPeer (s.peerOf i) { s.peers.peer (s.peerOf i) with fails := 0, down := false }

/-- One node of the queue. -/
theorem Ok.recoverOne (h : s.Ok) (now : ℤ) (check : ℕ → Bool) {i : ℕ} (hi : i ∈ s.downServers) :
    (¬ s.Due now check i ∧ recoverOne now check s i = some s) ∨
      s.Due now check i ∧ ∃ s', recoverOne now check s i = some s' ∧ s'.Ok ∧
        s'.peers = s.restored i ∧ s'.servers = s.servers ∧ s'.timeout = s.timeout ∧
        s'.down = update s.down i false := by
  obtain ⟨h₁, h₂, -⟩ := (h.mem i).mp hi
  obtain ⟨v, hv, hp⟩ := server_eq (s := s) h₁ h₂
  rw [ConsistentHash.recoverOne]
  by_cases hnow : now ≥ s.timeout i
  · rw [if_pos hnow, hv]
    simp only [bind_eq_bind, bind_some]
    by_cases hcheck : check v.rnindex = true
    · refine Or.inl ⟨fun hdue => ?_, if_pos hcheck⟩
      rw [Due, hp, hcheck] at hdue
      cases hdue.2
    · have hfalse : check v.rnindex = false := by simpa using hcheck
      refine Or.inr ⟨⟨hnow, hp ▸ hfalse⟩, ?_⟩
      rw [if_neg hcheck]
      obtain ⟨tree, leaf, hrun, hsound⟩ := h.tree_insert h₁ h₂
      refine ⟨{ s.setPeer v.rnindex { s.peers.peer v.rnindex with fails := 0, down := false } with
        down := update s.down i false
        downServers := s.downServers.erase i
        tree := tree }, ?_, ⟨h.pos, h.few, h.sorted, ⟨leaf, hsound⟩, h.nodup.erase i, ?_⟩, ?_, rfl,
        rfl, rfl⟩
      · simp only [setPeer, number] at hrun ⊢
        rw [hrun]
        rfl
      · intro j
        have hj := h.mem j
        simp only
        rw [h.nodup.mem_erase_iff, hj]
        by_cases hji : j = i
        · subst hji
          simp
        · rw [update_of_ne hji]
          simp only [ne_eq, hji, not_false_eq_true, true_and]
          exact Iff.rfl
      · rw [restored, hp]
        rfl
  · rw [if_neg hnow]
    exact Or.inl ⟨fun hdue => hnow hdue.1, rfl⟩

/-- **The queue is looked through**: the nodes that are due come back, and their peers are cleared
of their failures and marks. -/
theorem Ok.recover (h : s.Ok) (now : ℤ) (check : ℕ → Bool) :
    ∃ s', s.recover now check = some s' ∧ s'.Ok ∧ s'.servers = s.servers ∧
      s'.timeout = s.timeout ∧
      (∀ i, s'.down i = true ↔ s.down i = true ∧ ¬ (i ∈ s.downServers ∧ s.Due now check i)) ∧
      ∀ p, s'.peers.peer p = s.peers.peer p ∧
          (∀ i ∈ s.downServers, s.Due now check i → s.peerOf i ≠ p) ∨
        s'.peers.peer p = { s.peers.peer p with fails := 0, down := false } ∧
          ∃ i ∈ s.downServers, s.Due now check i ∧ s.peerOf i = p := by
  -- Along the rest of the queue.
  suffices hfold : ∀ (l : List ℕ) (t : ConsistentHash), t.Ok → l.Nodup → l ⊆ t.downServers →
      ∃ s', l.foldlM (ConsistentHash.recoverOne now check) t = some s' ∧ s'.Ok ∧
        s'.servers = t.servers ∧ s'.timeout = t.timeout ∧
        (∀ i, s'.down i = true ↔ t.down i = true ∧ ¬ (i ∈ l ∧ t.Due now check i)) ∧
        ∀ p, s'.peers.peer p = t.peers.peer p ∧
            (∀ i ∈ l, t.Due now check i → t.peerOf i ≠ p) ∨
          s'.peers.peer p = { t.peers.peer p with fails := 0, down := false } ∧
            ∃ i ∈ l, t.Due now check i ∧ t.peerOf i = p by
    exact hfold s.downServers s h h.nodup (List.Subset.refl _)
  intro l
  induction l with
  | nil =>
    intro t ht _ _
    exact ⟨t, rfl, ht, rfl, rfl, fun i => by simp, fun p => Or.inl ⟨rfl, by simp⟩⟩
  | cons a l ih =>
    intro t ht hnd hsub
    obtain ⟨ha, hnd⟩ := nodup_cons.mp hnd
    obtain ⟨hamem, hsub⟩ := cons_subset.mp hsub
    rcases ht.recoverOne now check hamem with
      ⟨hnot, hone⟩ | ⟨hdue, t₁, hone, hok₁, hp₁, hs₁, htm₁, hd₁⟩
    · obtain ⟨s', hrun, hok, hs, htm, hd, hp⟩ := ih t ht hnd hsub
      refine ⟨s', by rw [foldlM_cons, hone]; exact hrun, hok, hs, htm, fun i => ?_,
        fun p => ?_⟩
      · rw [hd]
        by_cases hia : i = a
        · subst hia
          simp [hnot]
        · simp [hia]
      · rcases hp p with ⟨heq, hnone⟩ | ⟨heq, i, hi, hdi, hpi⟩
        · refine Or.inl ⟨heq, fun i hi hdi => ?_⟩
          rcases mem_cons.mp hi with rfl | hi
          · exact absurd hdi hnot
          · exact hnone i hi hdi
        · exact Or.inr ⟨heq, i, mem_cons_of_mem a hi, hdi, hpi⟩
    · have hpeer : ∀ i, t₁.peerOf i = t.peerOf i := peerOf_congr hs₁
      have hdue₁ : ∀ i, t₁.Due now check i ↔ t.Due now check i := by
        intro i
        rw [Due, Due, htm₁, hpeer]
      have hsub₁ : l ⊆ t₁.downServers := by
        intro i hi
        have hia : i ≠ a := fun heq => ha (heq ▸ hi)
        obtain ⟨h₁, h₂, h₃⟩ := (ht.mem i).mp (hsub hi)
        rw [hok₁.mem, number_congr hs₁, hd₁, update_of_ne hia]
        exact ⟨h₁, h₂, h₃⟩
      obtain ⟨s', hrun, hok, hs, htm, hd, hp⟩ := ih t₁ hok₁ hnd hsub₁
      refine ⟨s', by rw [foldlM_cons, hone]; exact hrun, hok, hs.trans hs₁,
        htm.trans htm₁, fun i => ?_, fun p => ?_⟩
      · rw [hd, hd₁, hdue₁]
        by_cases hia : i = a
        · subst hia
          simp [hdue]
        · rw [update_of_ne hia]
          simp [hia]
      · have hpa : t₁.peers.peer p = if p = t.peerOf a
            then { t.peers.peer p with fails := 0, down := false } else t.peers.peer p := by
          rw [hp₁, restored, RrPeers.setPeer]
          by_cases hpe : p = t.peerOf a
          · subst hpe
            simp
          · simp [hpe]
        rcases hp p with ⟨heq, hnone⟩ | ⟨heq, i, hi, hdi, hpi⟩
        · by_cases hpe : p = t.peerOf a
          · rw [hpa, if_pos hpe] at heq
            exact Or.inr ⟨heq, a, mem_cons_self .., hdue, hpe.symm⟩
          · rw [hpa, if_neg hpe] at heq
            refine Or.inl ⟨heq, fun i hi hdi => ?_⟩
            rcases mem_cons.mp hi with rfl | hi
            · exact Ne.symm hpe
            · rw [← hpeer]
              exact hnone i hi ((hdue₁ i).mpr hdi)
        · refine Or.inr ⟨?_, i, mem_cons_of_mem a hi, (hdue₁ i).mp hdi, hpeer i ▸ hpi⟩
          rw [heq, hpa]
          split
          · rfl
          · rfl

/-- A peer that may be used: it is healthy, and has no mark and is within its limit, or one of its
nodes is due, so that its failures and its mark are taken away. -/
def Usable (s : ConsistentHash) (now : ℤ) (check : ℕ → Bool) (p : ℕ) : Prop :=
  check p = false ∧ (s.unfit (fun _ => false) p = false ∨
    ∃ i, 1 ≤ i ∧ i ≤ s.number ∧ s.down i = true ∧ now ≥ s.timeout i ∧ s.peerOf i = p)

/-- **A peer may be used** if it is fit once the queue has been looked through. -/
theorem Ok.usable_iff {t : ConsistentHash} (h : s.Ok) (hrec : s.recover now check = some t) (p : ℕ) :
    s.Usable now check p ↔ t.unfit check p = false := by
  obtain ⟨t', hrec', -, -, -, -, hp⟩ := h.recover now check
  rw [hrec] at hrec'
  cases hrec'
  rcases hp p with ⟨heq, hnone⟩ | ⟨heq, i, hi, ⟨hnow, hc⟩, hip⟩
  · have hsplit : t.unfit check p = (check p || s.unfit (fun _ => false) p) := by
      simp [unfit, heq, Bool.or_assoc]
    rw [hsplit, Bool.or_eq_false_iff, Usable]
    refine and_congr_right fun hc => ⟨?_, Or.inl⟩
    rintro (hfit | ⟨i, h₁, h₂, hd, hnow, hip⟩)
    · exact hfit
    · exact absurd hip (hnone i ((h.mem i).mpr ⟨h₁, h₂, hd⟩) ⟨hnow, hip ▸ hc⟩)
  · obtain ⟨h₁, h₂, hd⟩ := (h.mem i).mp hi
    rw [hip] at hc
    simp only [unfit, heq, hc, Bool.false_or, Bool.or_false, decide_eq_false_iff_not]
    exact ⟨fun _ => Nat.not_lt_zero _, fun _ => ⟨hc, Or.inr ⟨i, h₁, h₂, hd, hnow, hip⟩⟩⟩

/-! ### The search -/

/-- The nodes of one peer are out together, and come back at one time. -/
def Uniform (s : ConsistentHash) : Prop :=
  ∀ i j, 1 ≤ i → i ≤ s.number → 1 ≤ j → j ≤ s.number → s.peerOf i = s.peerOf j →
    s.down i = s.down j ∧ (s.down i = true → s.timeout i = s.timeout j)

/-- What a request takes out: nodes of peers that are not fit, and with the time of now. -/
structure Out (now : ℤ) (check : ℕ → Bool) (s s' : ConsistentHash) : Prop where
  peers : s'.peers = s.peers
  servers : s'.servers = s.servers
  keep : ∀ i, 1 ≤ i → i ≤ s.number → s.down i = true →
    s'.down i = true ∧ s'.timeout i = s.timeout i
  fresh : ∀ i, 1 ≤ i → i ≤ s.number → s.down i = false → s'.down i = true →
    s.unfit check (s.peerOf i) = true ∧
      s'.timeout i = now + (s.peers.peer (s.peerOf i)).failTimeout
  uniform : s.Uniform → s'.Uniform

theorem Out.refl (now : ℤ) (check : ℕ → Bool) (s : ConsistentHash) : Out now check s s :=
  ⟨rfl, rfl, fun _ _ _ h => ⟨h, rfl⟩, fun _ _ _ h h' => absurd (h.symm.trans h') (by simp), id⟩

theorem unfit_congr (h : s'.peers = s.peers) (p : ℕ) : s'.unfit check p = s.unfit check p := by
  rw [unfit, unfit, h]

/-- One removal after the other. -/
theorem Out.trans {s'' : ConsistentHash} (h : Out now check s s') (h' : Out now check s' s'') :
    Out now check s s'' := by
  have hnum := number_congr h.servers
  refine ⟨h'.peers.trans h.peers, h'.servers.trans h.servers, ?_, ?_, fun hu => h'.uniform (h.uniform hu)⟩
  · intro i h₁ h₂ hd
    obtain ⟨hd', ht'⟩ := h.keep i h₁ h₂ hd
    obtain ⟨hd'', ht''⟩ := h'.keep i h₁ (hnum ▸ h₂) hd'
    exact ⟨hd'', ht''.trans ht'⟩
  · intro i h₁ h₂ hd hd''
    by_cases hd' : s'.down i = true
    · obtain ⟨hu, ht'⟩ := h.fresh i h₁ h₂ hd hd'
      obtain ⟨-, ht''⟩ := h'.keep i h₁ (hnum ▸ h₂) hd'
      exact ⟨hu, ht''.trans ht'⟩
    · obtain ⟨hu, ht''⟩ := h'.fresh i h₁ (hnum ▸ h₂) (by simpa using hd') hd''
      rw [unfit_congr h.peers, peerOf_congr h.servers] at hu
      rw [h.peers, peerOf_congr h.servers] at ht''
      exact ⟨hu, ht''⟩

/-- A peer that is not fit is taken out. -/
theorem Ok.deleteNode_out (h : s.Ok) {p : ℕ} (hp : s.unfit check p = true) (now : ℤ) :
    ∃ s', s.deleteNode now p = some s' ∧ s'.Ok ∧ Out now check s s' ∧
      ∀ i, 1 ≤ i → i ≤ s.number → s'.down i = (s.down i || decide (s.peerOf i = p)) := by
  obtain ⟨s', hrun, hok, hpeers, hservers, hd, ht⟩ := h.deleteNode now p
  have hnum := number_congr hservers
  refine ⟨s', hrun, hok, ⟨hpeers, hservers, ?_, ?_, ?_⟩, hd⟩
  · intro i h₁ h₂ hdown
    rw [hd i h₁ h₂, ht i h₁ h₂, hdown]
    simp
  · intro i h₁ h₂ hdown hdown'
    rw [hd i h₁ h₂, hdown] at hdown'
    have hpi : s.peerOf i = p := by simpa using hdown'
    rw [ht i h₁ h₂, if_pos ⟨hdown, hpi⟩, hpi]
    exact ⟨hp, rfl⟩
  · intro hu i j hi₁ hi₂ hj₁ hj₂ hij
    rw [hnum] at hi₂ hj₂
    rw [peerOf_congr hservers, peerOf_congr hservers] at hij
    obtain ⟨hdown, htime⟩ := hu i j hi₁ hi₂ hj₁ hj₂ hij
    rw [hd i hi₁ hi₂, hd j hj₁ hj₂, ht i hi₁ hi₂, ht j hj₁ hj₂, ← hij, ← hdown]
    refine ⟨rfl, fun hout => ?_⟩
    by_cases hfalse : s.down i = false
    · have hpi : s.peerOf i = p := by simpa [hfalse] using hout
      rw [if_pos ⟨hfalse, hpi⟩, if_pos ⟨hfalse, hpi⟩]
    · rw [if_neg fun hc => hfalse hc.1, if_neg fun hc => hfalse hc.1]
      exact htime (by simpa using hfalse)

/-- The number of nodes that are not out. -/
def alive (s : ConsistentHash) : ℕ := (List.range' 1 s.number).countP fun i => !s.down i

/-- Each round of the search takes out a node. -/
theorem alive_lt (hnum : s'.number = s.number) {i : ℕ} (h₁ : 1 ≤ i) (h₂ : i ≤ s.number)
    (hi : s.down i = false) (hi' : s'.down i = true)
    (hkeep : ∀ j, 1 ≤ j → j ≤ s.number → s.down j = true → s'.down j = true) :
    s'.alive < s.alive := by
  rw [alive, alive, hnum, countP_eq_length_filter, countP_eq_length_filter]
  have hsub : (List.range' 1 s.number).filter (fun j => !s'.down j) ⊆
      ((List.range' 1 s.number).filter fun j => !s.down j).erase i := by
    intro j hj
    obtain ⟨hj, hd⟩ := mem_filter.mp hj
    have hd : s'.down j = false := by simpa using hd
    have hji : j ≠ i := by
      rintro rfl
      rw [hi'] at hd
      cases hd
    refine (mem_erase_of_ne hji).mpr (mem_filter.mpr ⟨hj, ?_⟩)
    by_contra hdown
    have hdown : s.down j = true := by simpa using hdown
    have hrange := mem_range'_1.mp hj
    rw [hkeep j hrange.1 (by omega) hdown] at hd
    cases hd
  have hmem : i ∈ (List.range' 1 s.number).filter fun j => !s.down j :=
    mem_filter.mpr ⟨mem_range'_1.mpr ⟨h₁, by omega⟩, by simp [hi]⟩
  have hle := (subperm_of_subset ((nodup_range').filter _) hsub).length_le
  rw [length_erase_of_mem hmem] at hle
  have hpos := length_pos_of_mem hmem
  omega

/-- `c` is the first node after `p` that is not out. -/
def After (s : ConsistentHash) (p c : ℕ) : Prop :=
  p < c ∧ c ≤ s.number ∧ s.down c = false ∧ ∀ j, p < j → j < c → s.down j = true

/-- There is one first node behind a place. -/
theorem After.unique {p i j : ℕ} (hi : s.After p i) (hj : s.After p j) : i = j := by
  obtain ⟨hpi, -, hid, hi⟩ := hi
  obtain ⟨hpj, -, hjd, hj⟩ := hj
  rcases Nat.lt_trichotomy i j with hlt | heq | hgt
  · rw [hj i hpi hlt] at hid
    cases hid
  · exact heq
  · rw [hi j hpj hgt] at hjd
    cases hjd

/-- How far a node is from a key. -/
def distance (s : ConsistentHash) (hash : UInt32) (i : ℕ) : ℕ := hashDiff (s.hashOf i) hash

/-- What one round of the search tries: the first node of all, if it lies before `index` and is as
near to the key as the first one after `index`, or else that one. -/
def Tries (s : ConsistentHash) (hash : UInt32) (index i : ℕ) : Prop :=
  s.After 0 i ∧ i < index ∧
      (∀ q, s.After index q → s.distance hash i ≤ s.distance hash q) ∨
    s.After index i ∧ ∀ l, s.After 0 l → l < index → s.distance hash i < s.distance hash l

/-- A node that is tried is a live one of the ring. -/
theorem Tries.left {index i : ℕ} (h : s.Tries hash index i) :
    1 ≤ i ∧ i ≤ s.number ∧ s.down i = false := by
  rcases h with ⟨⟨h₁, h₂, hd, -⟩, -, -⟩ | ⟨⟨h₁, h₂, hd, -⟩, -⟩
  · exact ⟨h₁, h₂, hd⟩
  · exact ⟨by omega, h₂, hd⟩

/-- **The choice** between the two nodes that the tree has found. -/
theorem Ok.choose (h : s.Ok) {index : ℕ} (h₁ : 1 ≤ index) (h₂ : index ≤ s.number)
    (hdown : s.down index = true) (hash : UInt32) :
    ∃ one two, s.tree.query (s.number + 1) 1 1 s.number 1 (index - 1) = some one ∧
      s.tree.query (s.number + 1) 1 1 s.number (index + 1) s.number = some two ∧
      (s.choose hash (keyIndex one) (keyIndex two) = none ∧
          (∀ i, 1 ≤ i → i ≤ s.number → s.down i = true) ∨
        ∃ i, s.choose hash (keyIndex one) (keyIndex two) = some i ∧ s.Tries hash index i) := by
  have hfew := h.few
  obtain ⟨one, hone, hleft⟩ := h.query_first (l := 1) (r := index - 1) (Nat.le_refl 1) (by omega)
  obtain ⟨two, htwo, hright⟩ := h.query_first (l := index + 1) (r := s.number) (by omega)
    (Nat.le_refl _)
  refine ⟨one, two, hone, htwo, ?_⟩
  rcases hleft with ⟨i, hi₁, hi₂, hid, hileast, hik⟩ | ⟨hall, hk⟩
  · have hfirst : s.After 0 i := ⟨by omega, by omega, hid, fun j hj hj' => hileast j hj hj'⟩
    rcases hright with ⟨q, hq₁, hq₂, hqd, hqleast, hqk⟩ | ⟨hall', hk'⟩
    · have hafter : s.After index q := ⟨hq₁, hq₂, hqd, fun j hj hj' => hqleast j hj hj'⟩
      rw [ConsistentHash.choose, hik, hqk, if_neg (by omega), if_neg (by omega)]
      by_cases hdiff : s.distance hash i > s.distance hash q
      · refine Or.inr ⟨q, congrArg some (if_pos hdiff), Or.inr ⟨hafter, fun l hl _ => ?_⟩⟩
        rw [hl.unique hfirst]
        exact hdiff
      · refine Or.inr ⟨i, congrArg some (if_neg hdiff), Or.inl ⟨hfirst, by omega, fun q' hq' => ?_⟩⟩
        rw [hq'.unique hafter]
        exact Nat.le_of_not_gt hdiff
    · rw [ConsistentHash.choose, hik, hk', if_neg (by omega), if_pos rfl]
      refine Or.inr ⟨i, rfl, Or.inl ⟨hfirst, by omega, fun q hq => ?_⟩⟩
      have hqd := hq.2.2.1
      rw [hall' q hq.1 hq.2.1] at hqd
      cases hqd
  · have hnone : ∀ l, s.After 0 l → ¬ l < index := by
      rintro l ⟨hl₁, -, hld, -⟩ hlt
      rw [hall l hl₁ (by omega)] at hld
      cases hld
    rcases hright with ⟨q, hq₁, hq₂, hqd, hqleast, hqk⟩ | ⟨hall', hk'⟩
    · rw [ConsistentHash.choose, hk, hqk, if_pos rfl, if_neg (by omega)]
      exact Or.inr ⟨q, rfl, Or.inr ⟨⟨hq₁, hq₂, hqd, fun j hj hj' => hqleast j hj hj'⟩,
        fun l hl hlt => absurd hlt (hnone l hl)⟩⟩
    · rw [ConsistentHash.choose, hk, hk', if_pos rfl, if_pos rfl]
      refine Or.inl ⟨rfl, fun i hi₁ hi₂ => ?_⟩
      rcases Nat.lt_trichotomy i index with hlt | rfl | hgt
      · exact hall i hi₁ (by omega)
      · exact hdown
      · exact hall' i hgt hi₂

/-- **One round of the search**: it ends when all nodes are out or the node that it tries is fit, and
otherwise the nodes of this peer go out, and the next round starts from there. -/
theorem Ok.round (h : s.Ok) {index : ℕ} (h₁ : 1 ≤ index) (h₂ : index ≤ s.number)
    (hdown : s.down index = true) (now : ℤ) (hash : UInt32) (check : ℕ → Bool) (fuel : ℕ) :
    (search now hash check (fuel + 1) s index = some (s, .busy) ∧
        ∀ i, 1 ≤ i → i ≤ s.number → s.down i = true) ∨
      ∃ i, s.Tries hash index i ∧
        (search now hash check (fuel + 1) s index = some (s, .node i) ∧
            s.unfit check (s.peerOf i) = false ∨
          ∃ s₁, search now hash check (fuel + 1) s index = search now hash check fuel s₁ i ∧
            s.unfit check (s.peerOf i) = true ∧ s₁.Ok ∧ Out now check s s₁ ∧ s₁.alive < s.alive ∧
            ∀ j, 1 ≤ j → j ≤ s.number →
              s₁.down j = (s.down j || decide (s.peerOf j = s.peerOf i))) := by
  obtain ⟨one, two, hone, htwo, ⟨hc, hall⟩ | ⟨i, hc, htry⟩⟩ := h.choose h₁ h₂ hdown hash
  · refine Or.inl ⟨?_, hall⟩
    simp only [ConsistentHash.search, hone, htwo, hc, bind_eq_bind, bind_some]
  · refine Or.inr ⟨i, htry, ?_⟩
    obtain ⟨hi₁, hi₂, hid⟩ := htry.left
    obtain ⟨v, hv, hpv⟩ := server_eq (s := s) hi₁ hi₂
    simp only [ConsistentHash.search, hone, htwo, hc, hv, bind_eq_bind, bind_some, hpv]
    by_cases hunfit : s.unfit check v.rnindex = true
    · obtain ⟨s₁, hdel, hok₁, hout₁, hd₁⟩ := h.deleteNode_out hunfit now
      have hi₁' : s₁.down i = true := by
        rw [hd₁ i hi₁ hi₂, hpv]
        simp
      refine Or.inr ⟨s₁, ?_, hunfit, hok₁, hout₁, alive_lt (number_congr hout₁.servers) hi₁ hi₂ hid
        hi₁' fun j hj₁ hj₂ hj => (hout₁.keep j hj₁ hj₂ hj).1, hd₁⟩
      simp only [hunfit, hdel, bind_some, if_true]
    · rw [if_neg hunfit, if_neg (by simp [hid])]
      exact Or.inl ⟨rfl, by simpa using hunfit⟩

/-- What a reply says about the nodes. -/
def Reply.Tells (check : ℕ → Bool) (s : ConsistentHash) : Reply → Prop
  | .busy => ∀ i, 1 ≤ i → i ≤ s.number → s.down i = true
  | .node i => 1 ≤ i ∧ i ≤ s.number ∧ s.down i = false ∧ s.unfit check (s.peerOf i) = false

/-- **The search ends**, with a node that is fit, or when all nodes are out. -/
theorem Ok.search (now : ℤ) (hash : UInt32) (check : ℕ → Bool) {fuel : ℕ} :
    ∀ {s : ConsistentHash} {index : ℕ}, s.Ok → 1 ≤ index →
    index ≤ s.number → s.down index = true → s.alive < fuel →
    ∃ s' reply, search now hash check fuel s index = some (s', reply) ∧ s'.Ok ∧
      Out now check s s' ∧ reply.Tells check s' := by
  induction fuel with
  | zero =>
    intro s index _ _ _ _ hfuel
    omega
  | succ fuel ih =>
    intro s index h h₁ h₂ hdown hfuel
    rcases h.round h₁ h₂ hdown now hash check fuel with
      ⟨hrun, hall⟩ | ⟨i, htry, ⟨hrun, hfit⟩ | ⟨s₁, hrun, -, hok₁, hout₁, hless, hd₁⟩⟩
    · exact ⟨s, .busy, hrun, h, .refl now check s, hall⟩
    · obtain ⟨hi₁, hi₂, hid⟩ := htry.left
      exact ⟨s, .node i, hrun, h, .refl now check s, hi₁, hi₂, hid, hfit⟩
    · obtain ⟨hi₁, hi₂, -⟩ := htry.left
      have hnum := number_congr hout₁.servers
      have hi₁' : s₁.down i = true := by
        rw [hd₁ i hi₁ hi₂]
        simp
      obtain ⟨s', reply, hrun', hok, hout, htells⟩ :=
        ih hok₁ hi₁ (hnum ▸ hi₂) hi₁' (by omega)
      exact ⟨s', reply, hrun.trans hrun', hok, hout₁.trans hout, htells⟩

/-! ### The search for a hash -/

/-- Hashes rise along the ring. -/
theorem SortedNodes.le (h : s.SortedNodes) {i j : ℕ} (hi : 1 ≤ i) (hij : i ≤ j) (hj : j ≤ s.number) :
    s.hashOf i ≤ s.hashOf j := by
  rw [number] at hj
  have hget : ∀ k, 1 ≤ k → (hk : k - 1 < s.servers.length) → s.hashOf k = s.servers[k - 1].hash := by
    intro k h₁ hk
    rw [hashOf, server, if_neg (by omega), getElem?_eq_getElem hk]
    rfl
  rw [hget i hi (by omega), hget j (by omega) (by omega)]
  rcases Nat.lt_or_eq_of_le hij with hlt | rfl
  · exact pairwise_iff_getElem.mp h _ _ (by omega) (by omega) (by omega)
  · exact UInt32.le_refl _

/-- What the loop knows: all nodes before `low` have smaller hashes, and that at `hight` has a
greater one unless it is the last. -/
structure Bounds (s : ConsistentHash) (hash : UInt32) (low hight : ℕ) : Prop where
  pos : 1 ≤ low
  le : low ≤ hight
  last : hight ≤ s.number
  below : ∀ j, 1 ≤ j → j < low → s.hashOf j < hash
  above : hight = s.number ∨ hash < s.hashOf hight

/-- **The loop** ends at a node with the very hash, or where its bounds meet. -/
theorem searchIndex_spec (hsorted : s.SortedNodes) (hfew : s.number ≤ 2 ^ 31) {fuel low hight : ℕ}
    (h : Bounds s hash low hight) (hfuel : hight < low + fuel) :
    ∃ i, s.searchIndex hash fuel low hight = some i ∧ 1 ≤ i ∧ i ≤ s.number ∧
      (s.hashOf i = hash ∨ Bounds s hash i i) := by
  induction fuel generalizing low hight with
  | zero =>
    have := h.le
    omega
  | succ fuel ih =>
    have hpos := h.pos
    have hle := h.le
    have hlast := h.last
    rw [searchIndex]
    simp only [Nat.shiftRight_eq_div_pow, pow_one]
    by_cases hlt : low < hight
    · rw [if_pos hlt, Nat.mod_eq_of_lt (by omega)]
      change ∃ i, (if s.hashOf ((low + hight) / 2) = hash then _ else
        if s.hashOf ((low + hight) / 2) < hash then _ else _) = some i ∧ _
      by_cases heq : s.hashOf ((low + hight) / 2) = hash
      · rw [if_pos heq]
        exact ⟨_, rfl, by omega, by omega, Or.inl heq⟩
      · rw [if_neg heq]
        by_cases hless : s.hashOf ((low + hight) / 2) < hash
        · rw [if_pos hless]
          refine ih ⟨by omega, by omega, hlast, fun j h₁ h₂ => ?_, h.above⟩ (by omega)
          exact UInt32.lt_of_le_of_lt (hsorted.le h₁ (by omega) (by omega)) hless
        · rw [if_neg hless]
          refine ih ⟨hpos, by omega, by omega, h.below, Or.inr ?_⟩ (by omega)
          exact UInt32.lt_of_le_of_ne (UInt32.not_lt.mp hless) (Ne.symm heq)
    · rw [if_neg hlt]
      obtain rfl : low = hight := by omega
      exact ⟨low, rfl, hpos, hlast, Or.inr h⟩

/-- The node that follows a hash: the first one whose hash is not smaller, or any of those with the
very hash; without such a node, the first of all. -/
def Follows (s : ConsistentHash) (hash : UInt32) (p : ℕ) : Prop :=
  (hash ≤ s.hashOf p ∧
      ∀ j, 1 ≤ j → j < p → s.hashOf j < hash ∨ s.hashOf j = hash ∧ s.hashOf p = hash) ∨
    (∀ j, 1 ≤ j → j ≤ s.number → s.hashOf j < hash) ∧ p = 1

/-- **The index of a hash** is that of the node that follows it. -/
theorem Ok.getServerIndex (h : s.Ok) (hash : UInt32) :
    ∃ p, s.getServerIndex hash = some p ∧ 1 ≤ p ∧ p ≤ s.number ∧ s.Follows hash p := by
  have hpos := h.pos
  have hfew := h.few
  have hbounds : Bounds s hash 1 s.number :=
    ⟨Nat.le_refl 1, hpos, Nat.le_refl _, fun j hj hj' => by omega, Or.inl rfl⟩
  obtain ⟨i, hi, h₁, h₂, hcase⟩ := searchIndex_spec h.sorted hfew hbounds
    (show s.number < 1 + s.number by omega)
  have hindex : s.getServerIndex hash = some (if i = s.number ∧ s.hashOf i < hash then 1 else i) := by
    rw [ConsistentHash.getServerIndex, Nat.mod_eq_of_lt (by omega), hi]
    rfl
  by_cases hend : i = s.number ∧ s.hashOf i < hash
  · rw [if_pos hend] at hindex
    refine ⟨1, hindex, Nat.le_refl 1, hpos, Or.inr ⟨fun j hj hj' => ?_, rfl⟩⟩
    exact UInt32.lt_of_le_of_lt (h.sorted.le hj (by omega) h₂) hend.2
  · rw [if_neg hend] at hindex
    refine ⟨i, hindex, h₁, h₂, Or.inl ?_⟩
    rcases hcase with heq | hbounds
    · refine ⟨UInt32.le_of_eq heq.symm, fun j hj hj' => ?_⟩
      have hle := h.sorted.le hj (Nat.le_of_lt hj') h₂
      rw [heq] at hle
      rcases UInt32.lt_or_eq_of_le hle with hlt | hje
      · exact Or.inl hlt
      · exact Or.inr ⟨hje, heq⟩
    · refine ⟨?_, fun j hj hj' => Or.inl (hbounds.below j hj hj')⟩
      rcases hbounds.above with hn | hlt
      · exact UInt32.not_lt.mp fun hc => hend ⟨hn, hc⟩
      · exact UInt32.le_of_lt hlt

/-! ### A request -/

/-- **How a request starts**: the node that follows its hash is looked at, and if its peer is not fit,
this peer is taken out and another node is searched for. -/
theorem Ok.start (h : s.Ok) (now : ℤ) (hash : UInt32) (check : ℕ → Bool) :
    ∃ t p, s.recover now check = some t ∧ t.Ok ∧ t.getServerIndex hash = some p ∧ 1 ≤ p ∧
      p ≤ t.number ∧ t.Follows hash p ∧
      (t.unfit check (t.peerOf p) = false ∧
          s.getPeer now hash check = some (t, if t.down p then .busy else .node p) ∨
        t.unfit check (t.peerOf p) = true ∧ ∃ t₁,
          s.getPeer now hash check = ConsistentHash.search now hash check (t.number + 1) t₁ p ∧
          t₁.Ok ∧ Out now check t t₁ ∧ t₁.alive < t.number + 1 ∧
          ∀ j, 1 ≤ j → j ≤ t.number →
            t₁.down j = (t.down j || decide (t.peerOf j = t.peerOf p))) := by
  obtain ⟨t, hrec, hok, -⟩ := h.recover now check
  obtain ⟨p, hp, h₁, h₂, hfollows⟩ := hok.getServerIndex hash
  obtain ⟨v, hv, hpv⟩ := server_eq (s := t) h₁ h₂
  refine ⟨t, p, hrec, hok, hp, h₁, h₂, hfollows, ?_⟩
  simp only [ConsistentHash.getPeer, hrec, hp, hv, bind_eq_bind, bind_some, hpv]
  by_cases hunfit : t.unfit check v.rnindex = true
  · obtain ⟨t₁, hdel, hok₁, hout₁, hd₁⟩ := hok.deleteNode_out hunfit now
    refine Or.inr ⟨hunfit, t₁, ?_, hok₁, hout₁, ?_, hd₁⟩
    · simp only [hunfit, hdel, bind_some, if_true, number_congr hout₁.servers]
    · have := countP_le_length (p := fun i => !t₁.down i) (l := List.range' 1 t₁.number)
      rw [length_range', number_congr hout₁.servers] at this
      rw [alive, number_congr hout₁.servers]
      omega
  · refine Or.inl ⟨by simpa using hunfit, ?_⟩
    rw [if_neg hunfit]
    split
    · rfl
    · rfl

/-- **A request** ends. It gets a node that is fit, or finds all nodes out, or else its own node
is out though the peer is fit again. If the peer is not fit, then its own node goes out. -/
theorem Ok.getPeer (h : s.Ok) (now : ℤ) (hash : UInt32) (check : ℕ → Bool) :
    ∃ t s' reply, s.recover now check = some t ∧ s.getPeer now hash check = some (s', reply) ∧
      s'.Ok ∧ Out now check t s' ∧
      (reply.Tells check s' ∨ reply = .busy ∧ s' = t ∧
        ∃ i, 1 ≤ i ∧ i ≤ t.number ∧ t.down i = true ∧ t.unfit check (t.peerOf i) = false) ∧
      ∀ p, t.getServerIndex hash = some p → t.unfit check (t.peerOf p) = true →
        s'.down p = true := by
  obtain ⟨t, p, hrec, hok, hp, h₁, h₂, -, ⟨hfit, hget⟩ |
    ⟨hunfit, t₁, hget, hok₁, hout₁, halive, hd₁⟩⟩ := h.start now hash check
  · have hown : ∀ q, t.getServerIndex hash = some q → t.unfit check (t.peerOf q) = true →
        t.down q = true := by
      intro q hq hun
      rw [hp] at hq
      cases hq
      rw [hfit] at hun
      cases hun
    by_cases hdown : t.down p = true
    · rw [if_pos hdown] at hget
      exact ⟨t, t, .busy, hrec, hget, hok, .refl now check t,
        Or.inr ⟨rfl, rfl, p, h₁, h₂, hdown, hfit⟩, hown⟩
    · rw [if_neg hdown] at hget
      exact ⟨t, t, .node p, hrec, hget, hok, .refl now check t,
        Or.inl ⟨h₁, h₂, by simpa using hdown, hfit⟩, hown⟩
  · have hnum := number_congr hout₁.servers
    have hdown : t₁.down p = true := by
      rw [hd₁ p h₁ h₂]
      simp
    obtain ⟨s', reply, hrun, hok', hout, htells⟩ :=
      Ok.search now hash check hok₁ h₁ (hnum ▸ h₂) hdown halive
    refine ⟨t, s', reply, hrec, hget.trans hrun, hok', hout₁.trans hout, Or.inl htells, ?_⟩
    intro q hq _
    rw [hp] at hq
    cases hq
    exact (hout.keep p h₁ (hnum ▸ h₂) hdown).1

end ConsistentHash

end Hengine
