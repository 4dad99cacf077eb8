import Hengine.Upstream.ConsistentHash

/-!
# Peers That Are Configured Down

The mark that a peer is down comes from the configuration, but the queue of nodes that are out
takes it away again: a node that is out because its peer is configured down comes back after
`fail_timeout` like any other. Until then such a peer is never selected.
-/

namespace Hengine

open Option List

/-- What every step of a loop keeps holds at its end. -/
theorem foldlM_invariant {σ α : Type*} {f : σ → α → Option σ} {P : σ → Prop} :
    ∀ {l : List α} {s s' : σ}, (∀ s a s', a ∈ l → P s → f s a = some s' → P s') → P s →
      l.foldlM f s = some s' → P s' := by
  intro l
  induction l with
  | nil =>
    intro s s' _ hs hrun
    cases hrun
    exact hs
  | cons a l ih =>
    intro s s' hstep hs hrun
    rw [foldlM_cons, bind_eq_bind, bind_eq_some_iff] at hrun
    obtain ⟨s₁, hone, hrest⟩ := hrun
    exact ih (fun s b s' hb => hstep s b s' (mem_cons_of_mem a hb))
      (hstep s a s₁ (mem_cons_self ..) hs hone) hrest

namespace ConsistentHash

variable {s s' : ConsistentHash} {now : ℤ} {hash : UInt32} {check : ℕ → Bool} {conf : RrPeers}

/-- All peers that are configured down have the mark. -/
def Marked (conf : RrPeers) (s : ConsistentHash) : Prop :=
  ∀ p, (conf.peer p).down = true → (s.peers.peer p).down = true

/-! ### What the loops leave alone -/

/-- Deleting a node changes no peer. -/
theorem deleteOne_frame {ft : ℤ} {i : ℕ} (h : deleteOne now ft s i = some s') :
    s'.peers = s.peers ∧ s'.servers = s.servers := by
  rw [deleteOne] at h
  split at h
  · cases h
    exact ⟨rfl, rfl⟩
  · rw [bind_eq_bind, bind_eq_some_iff] at h
    obtain ⟨tree, -, h⟩ := h
    cases h
    exact ⟨rfl, rfl⟩

/-- Nor does deleting those of a peer. -/
theorem deleteNode_frame {p : ℕ} (h : s.deleteNode now p = some s') :
    s'.peers = s.peers ∧ s'.servers = s.servers := by
  refine foldlM_invariant (P := fun t => t.peers = s.peers ∧ t.servers = s.servers) ?_ ⟨rfl, rfl⟩ h
  rintro t i t' - ⟨hp, hs⟩ hone
  obtain ⟨hp', hs'⟩ := deleteOne_frame hone
  exact ⟨hp'.trans hp, hs'.trans hs⟩

/-- One node of the queue changes the marks of its own peer only, when its time has come. -/
theorem recoverOne_frame {id : ℕ} (h : recoverOne now check s id = some s') :
    s'.servers = s.servers ∧ s'.timeout = s.timeout ∧
      (s'.peers = s.peers ∨ now ≥ s.timeout id ∧ ∃ v, s.server id = some v ∧
        check v.rnindex = false ∧ s'.peers = s.peers.setPeer v.rnindex
          { s.peers.peer v.rnindex with fails := 0, down := false }) := by
  rw [recoverOne] at h
  split at h
  · next hnow =>
      rw [bind_eq_bind, bind_eq_some_iff] at h
      obtain ⟨v, hv, h⟩ := h
      dsimp only at h
      split at h
      · cases h
        exact ⟨rfl, rfl, Or.inl rfl⟩
      · next hcheck =>
          rw [bind_eq_bind, bind_eq_some_iff] at h
          obtain ⟨tree, -, h⟩ := h
          cases h
          exact ⟨rfl, rfl, Or.inr ⟨hnow, v, hv, by simpa using hcheck, rfl⟩⟩
  · cases h
    exact ⟨rfl, rfl, Or.inl rfl⟩

/-- A recovery changes no server. -/
theorem recover_servers (h : s.recover now check = some s') :
    s'.servers = s.servers ∧ s'.timeout = s.timeout := by
  refine foldlM_invariant (P := fun t => t.servers = s.servers ∧ t.timeout = s.timeout) ?_
    ⟨rfl, rfl⟩ h
  rintro t id t' - ⟨hs, ht⟩ hone
  obtain ⟨hs', ht', -⟩ := recoverOne_frame hone
  exact ⟨hs'.trans hs, ht'.trans ht⟩

/-- At a request, no node of a peer that is configured down has waited long enough. -/
def NoneDue (conf : RrPeers) (s : ConsistentHash) (now : ℤ) (check : ℕ → Bool) : Prop :=
  ∀ id ∈ s.downServers, ∀ v, s.server id = some v → (conf.peer v.rnindex).down = true →
    now < s.timeout id ∨ check v.rnindex = true

/-- **The queue leaves the marks alone** as long as no node of such a peer is due. -/
theorem recover_down (hdue : NoneDue conf s now check) (hm : s.Marked conf)
    (h : s.recover now check = some s') : s'.Marked conf := by
  obtain ⟨-, -, hmarked⟩ := foldlM_invariant
    (P := fun t => t.servers = s.servers ∧ t.timeout = s.timeout ∧ t.Marked conf)
    (fun t id t' hid ht hone => by
      obtain ⟨hs, htime, hmt⟩ := ht
      obtain ⟨hs', htime', hpeers⟩ := recoverOne_frame hone
      refine ⟨hs'.trans hs, htime'.trans htime, ?_⟩
      rcases hpeers with heq | ⟨hnow, v, hv, hcheck, heq⟩
      · intro p hp
        rw [heq]
        exact hmt p hp
      · intro p hp
        have hv' : s.server id = some v := by
          rw [server, ← hs]
          exact hv
        by_cases hpv : p = v.rnindex
        · subst hpv
          rcases hdue id hid v hv' hp with hlt | hc
          · rw [htime] at hnow
            omega
          · rw [hcheck] at hc
            cases hc
        · rw [heq]
          simp only [RrPeers.setPeer, Function.update_of_ne hpv]
          exact hmt p hp) ⟨rfl, rfl, hm⟩ h
  exact hmarked

/-! ### What a request gets -/

theorem not_down_of_fit {p : ℕ} (h : ¬ s.unfit check p = true) :
    (s.peers.peer p).down = false := by
  simp only [unfit, Bool.or_eq_true, not_or, Bool.not_eq_true] at h
  exact h.2

/-- The loop keeps the peers, and ends with a node whose peer is not marked. -/
theorem search_not_down {fuel index : ℕ} {reply : Reply} :
    ∀ {s : ConsistentHash}, search now hash check fuel s index = some (s', reply) →
      s'.peers = s.peers ∧ s'.servers = s.servers ∧ ∀ i, reply = .node i →
        ∃ v, s.server i = some v ∧ (s.peers.peer v.rnindex).down = false := by
  induction fuel generalizing index with
  | zero =>
    intro s h
    cases h
  | succ fuel ih =>
    intro s h
    simp only [search, bind_eq_bind, bind_eq_some_iff] at h
    obtain ⟨one, -, two, -, h⟩ := h
    split at h
    · cases h
      exact ⟨rfl, rfl, fun i hi => by cases hi⟩
    · next index1 hchoose =>
        rw [bind_eq_some_iff] at h
        obtain ⟨v, hv, h⟩ := h
        split at h
        · rw [bind_eq_some_iff] at h
          obtain ⟨t, hdel, hrest⟩ := h
          obtain ⟨hp, hs⟩ := deleteNode_frame hdel
          obtain ⟨hp', hs', hreply⟩ := ih hrest
          refine ⟨hp'.trans hp, hs'.trans hs, fun i hi => ?_⟩
          obtain ⟨w, hw, hdown⟩ := hreply i hi
          refine ⟨w, ?_, hp ▸ hdown⟩
          rw [server, ← hs]
          exact hw
        · next hfit =>
            split at h
            · cases h
              exact ⟨rfl, rfl, fun i hi => by cases hi⟩
            · cases h
              refine ⟨rfl, rfl, fun i hi => ?_⟩
              cases hi
              exact ⟨v, hv, not_down_of_fit hfit⟩

/-- **A request** gets a node whose peer is not marked, and changes no mark but as the queue
does. -/
theorem getPeer_not_down {reply : Reply} (h : s.getPeer now hash check = some (s', reply)) :
    ∃ t, s.recover now check = some t ∧ s'.peers = t.peers ∧ s'.servers = s.servers ∧
      ∀ i, reply = .node i → ∃ v, s.server i = some v ∧ (t.peers.peer v.rnindex).down = false := by
  simp only [getPeer, bind_eq_bind, bind_eq_some_iff] at h
  obtain ⟨t, hrec, index, -, v, hv, h⟩ := h
  obtain ⟨hservers, -⟩ := recover_servers hrec
  have hserver : ∀ i, t.server i = s.server i := by
    intro i
    rw [server, server, hservers]
  refine ⟨t, hrec, ?_⟩
  split at h
  · rw [bind_eq_some_iff] at h
    obtain ⟨t₁, hdel, hsearch⟩ := h
    obtain ⟨hp, hs⟩ := deleteNode_frame hdel
    obtain ⟨hp', hs', hreply⟩ := search_not_down hsearch
    refine ⟨hp'.trans hp, hs'.trans (hs.trans hservers), fun i hi => ?_⟩
    obtain ⟨w, hw, hdown⟩ := hreply i hi
    refine ⟨w, ?_, hp ▸ hdown⟩
    rw [← hserver, server, ← hs]
    exact hw
  · next hfit =>
      split at h
      · cases h
        exact ⟨rfl, hservers, fun i hi => by cases hi⟩
      · cases h
        refine ⟨rfl, hservers, fun i hi => ?_⟩
        cases hi
        exact ⟨v, (hserver _).symm.trans hv, not_down_of_fit hfit⟩

end ConsistentHash

end Hengine
