import Hengine.Upstream.ConsistentHashRing

/-!
# Consistent Hashing over Whole Runs

Two questions about any run of requests, failures and elapsed times: does a request ever get a
peer that is configured down, and is it ever turned away while a peer is available?

A peer that is configured down loses its mark when its nodes have waited in the queue for
`fail_timeout`, and can be selected from then on. A node that is out because of a health check
stays out after the check has recovered, and a request whose hash leads to it is turned away.
Failures do not grow old: a peer that has failed too often is taken out by the next request, however
late it comes. All this needs runs of a certain kind, and in the others the answers are no.
-/

namespace Hengine

open List Option Function

/-- The peers as the configuration leaves them: the directives admit no weight of zero. There are so few virtual nodes that the sum of two indices fits. -/
structure ChashConf (conf : RrPeers) : Prop where
  number_pos : 0 < conf.number
  weight_pos : ∀ p < conf.number, 0 < (conf.peer p).weight
  few : (virtualNodes conf).length ≤ 2 ^ 31

/-- Each peer has a virtual node. -/
theorem exists_virtualNode {conf : RrPeers} (h : ChashConf conf) {p : ℕ} (hp : p < conf.number) :
    ∃ v ∈ virtualNodes conf, v.rnindex = p := by
  have hw := h.weight_pos p hp
  have hpos : 0 < chashWeight (conf.peer p) := by
    rw [chashWeight]
    refine Nat.lt_min.mpr ⟨?_, by decide⟩
    omega
  refine ⟨_, mem_flatMap.mpr ⟨p, mem_range.mpr hp,
    mem_map.mpr ⟨0, mem_range.mpr hpos, rfl⟩⟩, rfl⟩

namespace ConsistentHash

variable {conf : RrPeers} {s s' t : ConsistentHash} {now : ℤ} {hash : UInt32} {check : ℕ → Bool}

/-- What holds in every state of a run. -/
structure Inv (conf : RrPeers) (s : ConsistentHash) : Prop where
  ok : s.Ok
  servers : s.servers.Perm (virtualNodes conf)
  uniform : s.Uniform
  limits : ∀ p, (s.peers.peer p).maxFails = (conf.peer p).maxFails ∧
    (s.peers.peer p).failTimeout = (conf.peer p).failTimeout
  down : ∀ p, (s.peers.peer p).down = true → (conf.peer p).down = true

/-- Nodes are out only while their peers fail or are down. -/
def Failing (s : ConsistentHash) : Prop :=
  ∀ i, 1 ≤ i → i ≤ s.number → s.down i = true → s.unfit (fun _ => false) (s.peerOf i) = true

/-- The balancer as it is made. -/
theorem init_inv (hconf : ChashConf conf) (h : (chashMachine conf).init s) :
    s.Inv conf ∧ s.peers = conf ∧ (∀ i, s.down i = false) ∧ s.downServers = [] := by
  obtain ⟨servers, hperm, hsorted, hinit⟩ := h
  have hlen := hperm.length_eq
  have hpos : 0 < servers.length := by
    obtain ⟨v, hv, -⟩ := exists_virtualNode hconf hconf.number_pos
    rw [hlen]
    exact length_pos_of_mem hv
  obtain ⟨tree, hbuild, hsound⟩ := SegTree.sound_build (δ := Unit) hpos (Nat.lt_succ_self _)
  rw [ConsistentHash.init, hbuild] at hinit
  cases hinit
  refine ⟨⟨⟨hpos, ?_, hsorted, ⟨_, hsound.congr fun p _ _ => rfl⟩, nodup_nil, ?_⟩, hperm, ?_,
    fun p => ⟨rfl, rfl⟩, fun p hp => hp⟩, rfl, fun i => rfl, rfl⟩
  · have := hconf.few
    simp only [number]
    omega
  · intro i
    simp
  · intro i j _ _ _ _ _
    exact ⟨rfl, fun hd => by cases hd⟩

/-! ### Steps -/

/-- The state after the queue has been looked through. -/
theorem Inv.recover (h : s.Inv conf) (hrec : s.recover now check = some t) : t.Inv conf := by
  obtain ⟨t', hrec', hok, hservers, htime, hd, hp⟩ := h.ok.recover now check
  rw [hrec] at hrec'
  cases hrec'
  have hnum := number_congr hservers
  refine ⟨hok, hservers ▸ h.servers, ?_, fun p => ?_, fun p hdown => ?_⟩
  · intro i j hi₁ hi₂ hj₁ hj₂ hij
    rw [hnum] at hi₂ hj₂
    rw [peerOf_congr hservers, peerOf_congr hservers] at hij
    obtain ⟨hdown, htimes⟩ := h.uniform i j hi₁ hi₂ hj₁ hj₂ hij
    -- Both are due, or neither is.
    have hiff : t.down i = true ↔ t.down j = true := by
      rw [hd, hd, h.ok.mem, h.ok.mem, ← hdown, Due, Due, hij]
      constructor
      · rintro ⟨hout, hnot⟩
        refine ⟨hout, fun hc => hnot ⟨⟨hi₁, hi₂, hout⟩, ?_⟩⟩
        rw [htimes hout]
        exact hc.2
      · rintro ⟨hout, hnot⟩
        refine ⟨hout, fun hc => hnot ⟨⟨hj₁, hj₂, hout⟩, ?_⟩⟩
        rw [← htimes hout]
        exact hc.2
    refine ⟨Bool.eq_iff_iff.mpr hiff, fun hout => ?_⟩
    rw [htime]
    exact htimes ((hd i).mp hout).1
  · rcases hp p with ⟨heq, -⟩ | ⟨heq, -⟩
    · rw [heq]
      exact h.limits p
    · rw [heq]
      exact h.limits p
  · rcases hp p with ⟨heq, -⟩ | ⟨heq, -⟩
    · rw [heq] at hdown
      exact h.down p hdown
    · rw [heq] at hdown
      cases hdown

/-- **Taking nodes out** keeps the invariant. -/
theorem Inv.out (h : t.Inv conf) (hok : s'.Ok) (hout : Out now check t s') : s'.Inv conf := by
  refine ⟨hok, hout.servers ▸ h.servers, hout.uniform h.uniform, fun p => ?_, fun p hdown => ?_⟩
  · rw [hout.peers]
    exact h.limits p
  · rw [hout.peers] at hdown
    exact h.down p hdown

/-- **A request** keeps the invariant. -/
theorem Inv.request (h : s.Inv conf) {reply : Reply}
    (hget : s.getPeer now hash check = some (s', reply)) : s'.Inv conf := by
  obtain ⟨t, s₁, reply₁, hrec, hget₁, hok, hout, -, -⟩ := h.ok.getPeer now hash check
  rw [hget] at hget₁
  cases hget₁
  exact (h.recover hrec).out hok hout

/-- Freeing a peer counts a failure, nothing else. -/
theorem freePeer_spec {i : ℕ} (h : s.freePeer i = some s') :
    ∃ p, s' = s.setPeer p { s.peers.peer p with fails := (s.peers.peer p).fails + 1 } := by
  rw [freePeer, bind_eq_bind, bind_eq_some_iff] at h
  obtain ⟨v, -, h⟩ := h
  cases h
  exact ⟨v.rnindex, rfl⟩

/-- **A failure** keeps the invariant. -/
theorem Inv.failure (h : s.Inv conf) {i : ℕ} (hfree : s.freePeer i = some s') : s'.Inv conf := by
  obtain ⟨p, rfl⟩ := freePeer_spec hfree
  refine ⟨⟨h.ok.pos, h.ok.few, h.ok.sorted, h.ok.sound, h.ok.nodup, h.ok.mem⟩, h.servers, h.uniform,
    fun p' => ?_, fun p' hdown => ?_⟩
  · by_cases hp : p' = p
    · subst hp
      simpa [setPeer, RrPeers.setPeer] using h.limits p'
    · simpa [setPeer, RrPeers.setPeer, hp] using h.limits p'
  · refine h.down p' ?_
    by_cases hp : p' = p
    · subst hp
      simpa [setPeer, RrPeers.setPeer] using hdown
    · simpa [setPeer, RrPeers.setPeer, hp] using hdown

/-- **The invariant of the ring** holds after every run. -/
theorem inv_of_run (hconf : ChashConf conf) {tr : List (ConsistentHash × ChashEvent)}
    (h : (chashMachine conf).Run tr s) : s.Inv conf := by
  refine h.invariant (P := Inv conf) (fun s hs => (init_inv hconf hs).1) ?_
  intro s e s' hinv hstep
  cases e with
  | request now hash check reply => exact hinv.request hstep
  | failure time i => exact hinv.failure hstep

/-! ### Without health checks -/

/-- Nodes that are still out after the queue has been looked through have peers that still fail. -/
theorem Failing.recover (h : s.Inv conf) (hf : s.Failing)
    (hrec : s.recover now (fun _ => false) = some t) :
    t.Failing := by
  obtain ⟨t', hrec', hok, hservers, htime, hd, hp⟩ := h.ok.recover now (fun _ => false)
  rw [hrec] at hrec'
  cases hrec'
  have hnum := number_congr hservers
  intro i h₁ h₂ hdown
  obtain ⟨hsd, hnot⟩ := (hd i).mp hdown
  rw [peerOf_congr hservers]
  rcases hp (s.peerOf i) with ⟨heq, -⟩ | ⟨-, j, hj, hdue, hij⟩
  · have := hf i h₁ (hnum ▸ h₂) hsd
    simp only [unfit, heq]
    exact this
  · -- A node of the same peer that was due: then this one was due too.
    obtain ⟨hj₁, hj₂, hjd⟩ := (h.ok.mem j).mp hj
    obtain ⟨-, htimes⟩ := h.uniform j i hj₁ hj₂ h₁ (hnum ▸ h₂) hij
    refine absurd ⟨(h.ok.mem i).mpr ⟨h₁, hnum ▸ h₂, hsd⟩, ?_, rfl⟩ hnot
    rw [← htimes hjd]
    exact hdue.1

/-- Taking out nodes of peers that failed keeps the rest failing. -/
theorem Failing.out (hf : t.Failing) (hout : Out now (fun _ => false) t s') : s'.Failing := by
  have hnum := number_congr hout.servers
  intro i h₁ h₂ hdown
  rw [hnum] at h₂
  rw [unfit_congr hout.peers, peerOf_congr hout.servers]
  by_cases htd : t.down i = true
  · exact hf i h₁ h₂ htd
  · exact (hout.fresh i h₁ h₂ (by simpa using htd) hdown).1

/-- More failures do not make a peer fit. -/
theorem Failing.failure (hf : s.Failing) {i : ℕ} (hfree : s.freePeer i = some s') :
    s'.Failing := by
  obtain ⟨p, rfl⟩ := freePeer_spec hfree
  intro j h₁ h₂ hdown
  have hold := hf j h₁ h₂ hdown
  have hpeer : ∀ q, (s.setPeer p q).peerOf j = s.peerOf j := fun _ => rfl
  rw [hpeer]
  simp only [unfit, setPeer, Bool.false_or, Bool.or_eq_true, decide_eq_true_eq] at hold ⊢
  by_cases hp : s.peerOf j = p
  · rw [hp] at hold ⊢
    simp only [RrPeers.setPeer, update_self]
    rcases hold with hlt | hdown
    · exact Or.inl (decide_eq_true (Nat.lt_succ_of_lt hlt))
    · exact Or.inr hdown
  · simp only [RrPeers.setPeer, update_of_ne hp, decide_eq_true_eq]
    exact hold

/-- A request without health checks. -/
def CheckFree : ChashEvent → Prop
  | .request _ _ check _ => ∀ p, check p = false
  | .failure .. => True

/-- Along a run without health checks, only nodes of failing peers are out. -/
theorem failing_of_run (hconf : ChashConf conf) {tr : List (ConsistentHash × ChashEvent)}
    (h : (chashMachine conf).Run tr s) (hfree : ∀ x ∈ tr, CheckFree x.2) : s.Failing := by
  have hev := h.invariant_of_steps (P := fun s => s.Inv conf ∧ s.Failing)
    (C := fun _ e => CheckFree e) ?_ ?_ hfree
  · exact hev.2.2
  · intro s hs
    obtain ⟨hinv, -, hdown, -⟩ := init_inv hconf hs
    refine ⟨hinv, fun i _ _ hd => ?_⟩
    rw [hdown i] at hd
    cases hd
  · rintro s e s' ⟨hinv, hf⟩ hC hstep
    cases e with
    | request now hash check reply =>
      obtain rfl : check = fun _ => false := funext hC
      refine ⟨hinv.request hstep, ?_⟩
      obtain ⟨t, s₁, reply₁, hrec, hget₁, -, hout, -⟩ := hinv.ok.getPeer now hash fun _ => false
      have hstep : s.getPeer now hash (fun _ => false) = some (s', reply) := hstep
      rw [hstep] at hget₁
      cases hget₁
      exact (Failing.recover hinv hf hrec).out hout
    | failure time i => exact ⟨hinv.failure hstep, hf.failure hstep⟩

/-! ### Turned away -/

/-- The peer `p` has failed at most `fail_timeout` ago. -/
def FailedLately (conf : RrPeers) (tr : List (ConsistentHash × ChashEvent)) (now : ℤ) (p : ℕ) :
    Prop :=
  ∃ x ∈ tr, ∃ time i, x.2 = .failure time i ∧ x.1.peerOf i = p ∧
    now ≤ time + (conf.peer p).failTimeout

/-- A peer that is unavailable after a run: it is configured down, or has `max_fails` failures or
more and is inside its `fail_timeout`. -/
def Unavailable (conf : RrPeers) (tr : List (ConsistentHash × ChashEvent)) (s : ConsistentHash)
    (now : ℤ) (p : ℕ) : Prop :=
  (conf.peer p).down = true ∨
    (s.peers.peer p).fails ≥ (s.peers.peer p).maxFails ∧ FailedLately conf tr now p

/-- Each peer has a node on the ring. -/
theorem Inv.exists_node (h : s.Inv conf) (hconf : ChashConf conf) {p : ℕ} (hp : p < conf.number) :
    ∃ i, 1 ≤ i ∧ i ≤ s.number ∧ s.peerOf i = p := by
  obtain ⟨v, hv, hvp⟩ := exists_virtualNode hconf hp
  obtain ⟨k, hk, hget⟩ := mem_iff_getElem.mp (h.servers.mem_iff.mpr hv)
  refine ⟨k + 1, by omega, hk, ?_⟩
  rw [peerOf, server, if_neg (by omega), Nat.add_sub_cancel, getElem?_eq_getElem hk, hget]
  exact hvp

/-- The peer of a node is one of the configuration. -/
theorem Inv.peerOf_lt (h : s.Inv conf) {i : ℕ} (h₁ : 1 ≤ i) (h₂ : i ≤ s.number) :
    s.peerOf i < conf.number := by
  obtain ⟨v, hv, hp⟩ := server_eq (s := s) h₁ h₂
  have hmem : v ∈ virtualNodes conf := by
    rw [server, if_neg (by omega)] at hv
    exact h.servers.mem_iff.mp (mem_of_getElem? hv)
  obtain ⟨q, hq, hvq⟩ := mem_flatMap.mp hmem
  obtain ⟨j, -, rfl⟩ := mem_map.mp hvq
  rw [hp]
  exact mem_range.mp hq

end ConsistentHash

open ConsistentHash in
/-- **Configured down.** In a run where at no request a node of a peer that is configured down has
waited long enough, no request gets such a peer. -/
theorem chash_not_down {conf : RrPeers} {tr : List (ConsistentHash × ChashEvent)}
    {s : ConsistentHash} (hrun : (chashMachine conf).Run tr s)
    (hdue : ∀ x ∈ tr, ∀ now hash check reply, x.2 = .request now hash check reply →
      NoneDue conf x.1 now check) :
    ∀ x ∈ tr, ∀ now hash check i, x.2 = .request now hash check (.node i) →
      ∃ v, x.1.server i = some v ∧ (conf.peer v.rnindex).down = false := by
  -- All marks are there in every state, and at every request the one it gets has none.
  have hmarked : s.Marked conf ∧ ∀ x ∈ tr, ∀ now hash check i,
      x.2 = .request now hash check (.node i) →
        ∃ v, x.1.server i = some v ∧ (conf.peer v.rnindex).down = false := by
    induction hrun with
    | start h0 =>
      obtain ⟨servers, -, -, hinit⟩ := h0
      rw [ConsistentHash.init, map_eq_some_iff] at hinit
      obtain ⟨tree, -, rfl⟩ := hinit
      exact ⟨fun p hp => hp, fun x hx => absurd hx not_mem_nil⟩
    | @snoc tr s s' e hrun hstep ih =>
      obtain ⟨hm, hall⟩ := ih fun x hx => hdue x (mem_append_left _ hx)
      have hnow := hdue (s, e) (mem_append_right _ (mem_singleton_self _))
      cases e with
      | request now hash check reply =>
        obtain ⟨t, hrec, hpeers, -, hreply⟩ := getPeer_not_down hstep
        have hmt := recover_down (hnow now hash check reply rfl) hm hrec
        refine ⟨fun p hp => by rw [hpeers]; exact hmt p hp, fun x hx => ?_⟩
        rcases mem_append.mp hx with hx | hx
        · exact hall x hx
        · rw [mem_singleton.mp hx]
          rintro now' hash' check' i heq
          cases heq
          obtain ⟨v, hv, hdown⟩ := hreply i rfl
          refine ⟨v, hv, ?_⟩
          by_contra hd
          rw [hmt v.rnindex (by simpa using hd)] at hdown
          cases hdown
      | failure time i =>
        obtain ⟨p, hp⟩ := freePeer_spec hstep
        refine ⟨fun p' hp' => ?_, fun x hx => ?_⟩
        · have := hm p' hp'
          rw [hp]
          by_cases hpp : p' = p
          · subst hpp
            simpa [setPeer, RrPeers.setPeer] using this
          · simpa [setPeer, RrPeers.setPeer, hpp] using this
        · rcases mem_append.mp hx with hx | hx
          · exact hall x hx
          · rw [mem_singleton.mp hx]
            intro now hash check i heq
            cases heq
  exact hmarked.2

open ConsistentHash in
/-- **Turned away.** In any state that requests without health checks and failures lead to, a
request at any time ends. It gets `NGX_BUSY` only if all peers are unavailable, if and only if some
peer may be used, or all that are not configured down have failed lately. -/
theorem chash_busy_unavailable {conf : RrPeers} (hconf : ChashConf conf)
    {tr : List (ConsistentHash × ChashEvent)} {s : ConsistentHash}
    (hrun : (chashMachine conf).Run tr s) (hfree : ∀ x ∈ tr, CheckFree x.2) (now : ℤ)
    (hash : UInt32) :
    ∃ s' reply, s.getPeer now hash (fun _ => false) = some (s', reply) ∧
      ((reply = .busy → ∀ p < conf.number, Unavailable conf tr s now p) ↔
        (∃ p < conf.number, s.Usable now (fun _ => false) p) ∨
          ∀ p < conf.number, (conf.peer p).down = false → FailedLately conf tr now p) := by
  have hinv := inv_of_run hconf hrun
  have hf := failing_of_run hconf hrun hfree
  obtain ⟨t, s', reply, hrec, hget, -, hout, htells, -⟩ := hinv.ok.getPeer now hash fun _ => false
  have hinvt := hinv.recover hrec
  have hft := Failing.recover hinv hf hrec
  have hnum := number_congr hout.servers
  have husable := fun p => hinv.ok.usable_iff hrec p
  -- A request is turned away if and only if no peer may be used.
  have hbusy : reply = .busy ↔ ∀ p < conf.number, ¬ s.Usable now (fun _ => false) p := by
    constructor
    · rintro rfl p hp hfit
      obtain ⟨i, h₁, h₂, rfl⟩ := hinvt.exists_node hconf hp
      rw [husable] at hfit
      have hall : ∀ i, 1 ≤ i → i ≤ s'.number → s'.down i = true := by
        rcases htells with htells | ⟨-, -, j, hj₁, hj₂, hdown, hfit⟩
        · exact htells
        · rw [hft j hj₁ hj₂ hdown] at hfit
          cases hfit
      have hunfit := hft.out hout i h₁ (hnum ▸ h₂) (hall i h₁ (hnum ▸ h₂))
      rw [unfit_congr hout.peers, peerOf_congr hout.servers, hfit] at hunfit
      cases hunfit
    · intro hnone
      rcases htells with htells | ⟨hbusy, -⟩
      · cases reply with
        | busy => rfl
        | node i =>
          obtain ⟨h₁, h₂, -, hfit⟩ := htells
          rw [unfit_congr hout.peers, ← husable] at hfit
          obtain ⟨v, hv, hpv⟩ := server_eq (s := s') h₁ h₂
          refine absurd hfit (hnone _ ?_)
          rw [peerOf_congr hout.servers]
          exact hinvt.peerOf_lt h₁ (hnum ▸ h₂)
      · exact hbusy
  refine ⟨s', reply, hget, ?_⟩
  constructor
  · intro hclaim
    by_cases hsome : ∃ p < conf.number, s.Usable now (fun _ => false) p
    · exact Or.inl hsome
    · push Not at hsome
      refine Or.inr fun p hp hup => ?_
      rcases hclaim (hbusy.mpr hsome) p hp with hdown | ⟨-, hlate⟩
      · rw [hup] at hdown
        cases hdown
      · exact hlate
  · intro hcond hb p hp
    have hnone := hbusy.mp hb
    rcases hcond with ⟨q, hq, hfit⟩ | hlate
    · exact absurd hfit (hnone q hq)
    · by_cases hup : (conf.peer p).down = true
      · exact Or.inl hup
      · refine Or.inr ⟨?_, hlate p hp (by simpa using hup)⟩
        -- The peer is not marked, so it has failed too often.
        have hunfit : s.unfit (fun _ => false) p = true := by
          by_contra hfit
          exact hnone p hp ⟨rfl, Or.inl (by simpa using hfit)⟩
        simp only [unfit, Bool.false_or, Bool.or_eq_true, decide_eq_true_eq] at hunfit
        rcases hunfit with hfails | hmark
        · exact Nat.le_of_lt hfails
        · exact absurd (hinv.down p hmark) hup

/-! ### Two servers -/

/-- Two servers with the identifiers 1 and 4; the first one may be configured down. -/
def twoServers (down : Bool) : RrPeers :=
  { number := 2
    peer := fun p => { name := "127.0.0.1:80", id := if p = 0 then "1" else "4", weight := 1,
                       maxFails := 1, failTimeout := 10, down := down && decide (p = 0) } }

/-- A peer of weight one has 160 of them. -/
theorem length_virtualNodes {conf : RrPeers} (h : ∀ p, (conf.peer p).weight = 1) :
    (virtualNodes conf).length = 160 * conf.number := by
  have hpeer : ∀ i, (peerNodes i (conf.peer i)).length = 160 := by
    intro i
    simp [peerNodes, chashWeight, h]
  have hsum : ∀ m : ℕ, ((List.range m).map fun _ => 160).sum = 160 * m := by
    intro m
    rw [map_const', length_range, sum_replicate_nat, Nat.mul_comm]
  rw [virtualNodes, length_flatMap]
  simp only [hpeer]
  exact hsum conf.number

theorem twoServers_conf (down : Bool) : ChashConf (twoServers down) where
  number_pos := by simp [twoServers]
  weight_pos := fun _ _ => by simp [twoServers]
  few := by
    have hlen : (virtualNodes (twoServers down)).length = 320 := length_virtualNodes fun _ => rfl
    omega

/-- Two nodes of the first server. -/
theorem first_hashes (down : Bool) : ⟨12457530, 0⟩ ∈ peerNodes 0 ((twoServers down).peer 0) ∧
    ⟨178944043, 0⟩ ∈ peerNodes 0 ((twoServers down).peer 0) := by
  cases down
  · decide +kernel
  · decide +kernel

/-- No node of the second server has the hash of one of them; one comes before them, and one after. -/
theorem second_hashes (down : Bool) :
    ⟨9392598, 1⟩ ∈ peerNodes 1 ((twoServers down).peer 1) ∧
      ⟨182818196, 1⟩ ∈ peerNodes 1 ((twoServers down).peer 1) ∧
      ∀ v ∈ peerNodes 1 ((twoServers down).peer 1), 9392598 ≤ v.hash ∧ v.hash ≠ 12457530 ∧
        v.hash ≠ 178944043 ∧ (12457530 < v.hash → 31907389 ≤ v.hash) := by
  cases down
  · decide +kernel
  · decide +kernel

namespace ConsistentHash

variable {conf : RrPeers} {s s' t : ConsistentHash} {now : ℤ} {hash : UInt32} {check : ℕ → Bool}

/-- A balancer can be made if there is a virtual node. -/
theorem exists_init_of (hpos : 0 < (virtualNodes conf).length) :
    ∃ s, (chashMachine conf).init s := by
  have hpos : 0 < ((virtualNodes conf).mergeSort fun a b => a.hash ≤ b.hash).length := by
    rw [length_mergeSort]
    exact hpos
  obtain ⟨tree, hbuild, -⟩ := SegTree.sound_build (δ := Unit) hpos (Nat.lt_succ_self _)
  refine ⟨_, _, mergeSort_perm _ _, ?_, by rw [ConsistentHash.init, hbuild]; rfl⟩
  refine (pairwise_mergeSort ?_ ?_ _).imp fun h => by simpa using h
  · intro a b c hab hbc
    simp only [decide_eq_true_eq] at hab hbc ⊢
    exact UInt32.le_trans hab hbc
  · intro a b
    simp only [Bool.or_eq_true, decide_eq_true_eq]
    exact UInt32.le_total a.hash b.hash

theorem exists_init (hconf : ChashConf conf) : ∃ s, (chashMachine conf).init s := by
  obtain ⟨v, hv, -⟩ := exists_virtualNode hconf hconf.number_pos
  exact exists_init_of (length_pos_of_mem hv)

/-- Every node of the configuration has its place. -/
theorem Inv.exists_index (h : s.Inv conf) {v : VirtualNode} (hv : v ∈ virtualNodes conf) :
    ∃ k, 1 ≤ k ∧ k ≤ s.number ∧ s.hashOf k = v.hash ∧ s.peerOf k = v.rnindex := by
  obtain ⟨k, hk, hget⟩ := mem_iff_getElem.mp (h.servers.mem_iff.mpr hv)
  have hserver : s.server (k + 1) = some v := by
    rw [server, if_neg (by omega), Nat.add_sub_cancel, getElem?_eq_getElem hk, hget]
  exact ⟨k + 1, by omega, hk, by rw [hashOf, hserver]; rfl, by rw [peerOf, hserver]; rfl⟩

/-- The nodes of the two servers. -/
theorem twoServers_nodes {down : Bool} (h : s.Inv (twoServers down)) {i : ℕ} (h₁ : 1 ≤ i)
    (h₂ : i ≤ s.number) :
    s.peerOf i = 0 ∨ s.peerOf i = 1 ∧ 9392598 ≤ s.hashOf i ∧ s.hashOf i ≠ 12457530 ∧
      s.hashOf i ≠ 178944043 ∧ (12457530 < s.hashOf i → 31907389 ≤ s.hashOf i) := by
  obtain ⟨v, hv, hp⟩ := server_eq (s := s) h₁ h₂
  have hhash : s.hashOf i = v.hash := by rw [hashOf, hv]; rfl
  have hmem : v ∈ virtualNodes (twoServers down) := by
    rw [server, if_neg (by omega)] at hv
    exact h.servers.mem_iff.mp (mem_of_getElem? hv)
  obtain ⟨q, hq, hvq⟩ := mem_flatMap.mp hmem
  have hq : q < 2 := mem_range.mp hq
  obtain ⟨j, -, hj⟩ := List.mem_map.mp hvq
  have hrn : v.rnindex = q := by rw [← hj]
  rw [hp, hhash, hrn]
  obtain rfl | rfl : q = 0 ∨ q = 1 := by omega
  · exact Or.inl rfl
  · exact Or.inr ⟨rfl, (second_hashes down).2.2 v hvq⟩

/-- The two keys lead to nodes of the first server. -/
theorem twoServers_primary {down : Bool} (h : s.Inv (twoServers down))
    (hkey : hash = 12457530 ∨ hash = 178944043) :
    ∃ p, s.getServerIndex hash = some p ∧ 1 ≤ p ∧ p ≤ s.number ∧ s.hashOf p = hash ∧
      s.peerOf p = 0 := by
  have hnode : ⟨hash, 0⟩ ∈ virtualNodes (twoServers down) := by
    refine mem_flatMap.mpr ⟨0, mem_range.mpr (by simp [twoServers]), ?_⟩
    rcases hkey with rfl | rfl
    · exact (first_hashes down).1
    · exact (first_hashes down).2
  obtain ⟨k, hk₁, hk₂, hk, -⟩ := h.exists_index hnode
  obtain ⟨p, hp, h₁, h₂, hfollows⟩ := h.ok.getServerIndex hash
  have hhash : s.hashOf p = hash := by
    rcases hfollows with ⟨hle, hfirst⟩ | ⟨hall, -⟩
    · rcases Nat.lt_or_ge k p with hlt | hge
      · rcases hfirst k hk₁ hlt with hless | ⟨-, heq⟩
        · rw [hk] at hless
          exact absurd hless (UInt32.lt_irrefl _)
        · exact heq
      · have hle' := h.ok.sorted.le h₁ hge hk₂
        rw [hk] at hle'
        exact UInt32.le_antisymm hle' hle
    · have hless := hall k hk₁ hk₂
      rw [hk] at hless
      exact absurd hless (UInt32.lt_irrefl _)
  refine ⟨p, hp, h₁, h₂, hhash, ?_⟩
  rcases twoServers_nodes h h₁ h₂ with hp | ⟨-, -, hne, hne', -⟩
  · exact hp
  · rcases hkey with rfl | rfl
    · exact absurd hhash hne
    · exact absurd hhash hne'

/-- When the first server is not fit and the nodes of the second one are left, a request gets a
node; if it leads to the first server, then the nodes of this one are out. -/
theorem twoServers_node {down : Bool} (h : s.Inv (twoServers down))
    (hrec : s.recover now check = some t) (hun : t.unfit check 0 = true)
    (hfit : t.unfit check 1 = false)
    (hleft : ∀ i, 1 ≤ i → i ≤ t.number → t.peerOf i = 1 → t.down i = false) :
    ∃ s' i, s.getPeer now 12457530 check = some (s', .node i) ∧ Out now check t s' ∧
      s'.Inv (twoServers down) ∧ ∀ j, 1 ≤ j → j ≤ t.number →
        (s'.down j = true ↔ t.peerOf j = 0) := by
  obtain ⟨t', s', reply, hrec', hget, hok, hout, htells, hown⟩ := h.ok.getPeer now 12457530 check
  rw [hrec] at hrec'
  cases hrec'
  have ht := h.recover hrec
  have hnum := number_congr hout.servers
  have hinv := ht.out hok hout
  obtain ⟨p, hp, hp₁, hp₂, -, hpeer⟩ := twoServers_primary ht (Or.inl rfl)
  have hdown : ∀ j, 1 ≤ j → j ≤ t.number → (s'.down j = true ↔ t.peerOf j = 0) := by
    intro j h₁ h₂
    constructor
    · intro hd
      rcases twoServers_nodes ht h₁ h₂ with hj | ⟨hj, -⟩
      · exact hj
      · have := (hout.fresh j h₁ h₂ (hleft j h₁ h₂ hj) hd).1
        rw [hj, hfit] at this
        cases this
    · intro hj
      have hsame := (hinv.uniform p j hp₁ (hnum ▸ hp₂) h₁ (hnum ▸ h₂) (by
        rw [peerOf_congr hout.servers, peerOf_congr hout.servers, hpeer, hj])).1
      rw [← hsame]
      exact hown p hp (by rw [hpeer]; exact hun)
  obtain ⟨k, hk₁, hk₂, hk⟩ := ht.exists_node (twoServers_conf down) (p := 1) (by simp [twoServers])
  rcases htells with htells | ⟨-, -, i, h₁, h₂, hd, hfi⟩
  · cases reply with
    | busy =>
      have := (hdown k hk₁ hk₂).mp (htells k hk₁ (hnum ▸ hk₂))
      omega
    | node i => exact ⟨s', i, hget, hout, hinv, hdown⟩
  · rcases twoServers_nodes ht h₁ h₂ with hi | ⟨hi, -⟩
    · rw [hi, hun] at hfi
      cases hfi
    · rw [hleft i h₁ h₂ hi] at hd
      cases hd

/-- With the first server configured down, its nodes are out after the first request. -/
theorem twoServers_out : ∃ s₀ s₁ i, (chashMachine (twoServers true)).init s₀ ∧
    s₀.getPeer 0 12457530 (fun _ => false) = some (s₁, .node i) ∧ s₁.Inv (twoServers true) ∧
    s₁.peers = twoServers true ∧ ∀ j, 1 ≤ j → j ≤ s₁.number →
      (s₁.down j = true ↔ s₁.peerOf j = 0) ∧ (s₁.peerOf j = 0 → s₁.timeout j = 10) := by
  obtain ⟨s₀, h₀⟩ := exists_init (twoServers_conf true)
  obtain ⟨hinv, hpeers, hdown, hqueue⟩ := init_inv (twoServers_conf true) h₀
  have hrec : s₀.recover 0 (fun _ => false) = some s₀ := by
    rw [recover, hqueue]
    rfl
  obtain ⟨s₁, i, hget, hout, hinv₁, hd⟩ := twoServers_node hinv hrec (by
    simp [unfit, hpeers, twoServers]) (by simp [unfit, hpeers, twoServers]) fun i _ _ _ => hdown i
  refine ⟨s₀, s₁, i, h₀, hget, hinv₁, hout.peers.trans hpeers, fun j h₁ h₂ => ?_⟩
  rw [number_congr hout.servers] at h₂
  rw [peerOf_congr hout.servers]
  refine ⟨hd j h₁ h₂, fun hj => ?_⟩
  rw [(hout.fresh j h₁ h₂ (hdown j) ((hd j h₁ h₂).mpr hj)).2, hpeers]
  rfl

end ConsistentHash

open ConsistentHash in
/-- While the nodes of the first server wait in the queue, a request that leads to one of them gets a
node of the second server. -/
theorem chash_not_down_queued : ∃ tr s x i v, (chashMachine (twoServers true)).Run tr s ∧ x ∈ tr ∧
    x.2 = .request 5 12457530 (fun _ => false) (.node i) ∧
    (∃ id ∈ x.1.downServers, x.1.peerOf id = 0 ∧ 5 < x.1.timeout id) ∧
    x.1.server i = some v ∧ ((twoServers true).peer v.rnindex).down = false := by
  obtain ⟨s₀, s₁, i₀, h₀, hget, hinv, hpeers, hout⟩ := twoServers_out
  obtain ⟨t, hrec, hok, hservers, -, hd, hp⟩ := hinv.ok.recover 5 fun _ => false
  have hnum := number_congr hservers
  -- At second 5 no node is due.
  have hwait : ∀ id ∈ s₁.downServers, 5 < s₁.timeout id := by
    intro id hid
    obtain ⟨h₁, h₂, hdown⟩ := (hinv.ok.mem id).mp hid
    obtain ⟨hiff, htime⟩ := hout id h₁ h₂
    rw [htime (hiff.mp hdown)]
    decide
  have hsame : ∀ p, t.peers.peer p = (twoServers true).peer p := by
    intro p
    rcases hp p with ⟨heq, -⟩ | ⟨-, id, hid, hdue, -⟩
    · rw [heq, hpeers]
    · exact absurd hdue.1 (not_le.mpr (hwait id hid))
  obtain ⟨s₂, i, hget₂, -, -, -⟩ := twoServers_node hinv hrec
    (by simp [unfit, hsame, twoServers]) (by simp [unfit, hsame, twoServers]) (by
      intro j h₁ h₂ hj
      by_contra hdown
      have hdown := ((hd j).mp (by simpa using hdown)).1
      rw [peerOf_congr hservers] at hj
      have := (hout j h₁ (hnum ▸ h₂)).1.mp hdown
      omega)
  have hstep₁ : (chashMachine (twoServers true)).step s₀
      (.request 0 12457530 (fun _ => false) (.node i₀)) s₁ := hget
  have hstep₂ : (chashMachine (twoServers true)).step s₁
      (.request 5 12457530 (fun _ => false) (.node i)) s₂ := hget₂
  have hrun := ((Machine.Run.start h₀).snoc hstep₁).snoc hstep₂
  obtain ⟨v, hv, hup⟩ := chash_not_down hrun (by
    intro x hx now hash check reply hreq id hid v _ _
    rcases mem_append.mp hx with hx | hx
    · rw [nil_append, mem_singleton] at hx
      rw [hx, (init_inv (twoServers_conf true) h₀).2.2.2] at hid
      exact absurd hid not_mem_nil
    · obtain rfl := mem_singleton.mp hx
      cases hreq
      exact Or.inl (hwait id hid)) _ (mem_append_right _ (mem_singleton_self _)) 5 12457530 _ i rfl
  obtain ⟨k, hk₁, hk₂, hk⟩ := hinv.exists_node (twoServers_conf true) (p := 0) (by simp [twoServers])
  have hmem := (hinv.ok.mem k).mpr ⟨hk₁, hk₂, (hout k hk₁ hk₂).1.mpr hk⟩
  exact ⟨_, s₂, _, i, v, hrun, mem_append_right _ (mem_singleton_self _), rfl,
    ⟨k, hmem, hk, hwait k hmem⟩, hv, hup⟩

/-! ### A single peer -/

/-- A single peer, which may be configured down. -/
def onePeer (down : Bool) : RrPeers :=
  { number := 1
    peer := fun _ => { name := "127.0.0.1:80", weight := 1, maxFails := 1, failTimeout := 10,
                       down := down } }

theorem onePeer_conf (down : Bool) : ChashConf (onePeer down) where
  number_pos := Nat.one_pos
  weight_pos := fun _ _ => by simp [onePeer]
  few := by
    have hlen : (virtualNodes (onePeer down)).length = 160 := length_virtualNodes fun _ => rfl
    omega

namespace ConsistentHash

variable {conf : RrPeers} {s : ConsistentHash}

/-- Every node belongs to the one peer. -/
theorem Inv.peerOf_zero {down : Bool} {s : ConsistentHash} (h : s.Inv (onePeer down)) {i : ℕ}
    (h₁ : 1 ≤ i) (h₂ : i ≤ s.number) : s.peerOf i = 0 :=
  Nat.lt_one_iff.mp (h.peerOf_lt h₁ h₂)

/-- A request, when the queue is empty and the peer is not fit: it is taken out, and the request
turned away. -/
theorem turned_away {down : Bool} {s : ConsistentHash} (hinv : s.Inv (onePeer down))
    (hqueue : s.downServers = []) (now : ℤ) (check : ℕ → Bool) (hunfit : s.unfit check 0 = true)
    (hash : UInt32) :
    ∃ s', s.getPeer now hash check = some (s', .busy) ∧ s'.Inv (onePeer down) ∧
      s'.peers = s.peers ∧
      ∀ i, 1 ≤ i → i ≤ s'.number → s'.down i = true ∧ s'.timeout i = now + 10 := by
  obtain ⟨t, s', reply, hrec, hget, hok, hout, htells, -⟩ := hinv.ok.getPeer now hash check
  obtain rfl : s = t := by
    rw [recover, hqueue] at hrec
    exact Option.some.inj hrec
  have hinv' := hinv.out hok hout
  have hnum := number_congr hout.servers
  have hup : ∀ i, 1 ≤ i → i ≤ s.number → s.down i = false := by
    intro i h₁ h₂
    by_contra hdown
    have := (hinv.ok.mem i).mpr ⟨h₁, h₂, by simpa using hdown⟩
    rw [hqueue] at this
    exact absurd this not_mem_nil
  have hun : ∀ i, 1 ≤ i → i ≤ s.number → s.unfit check (s.peerOf i) = true := by
    intro i h₁ h₂
    rw [hinv.peerOf_zero h₁ h₂]
    exact hunfit
  have hbusy : reply = .busy ∧ ∀ i, 1 ≤ i → i ≤ s'.number → s'.down i = true := by
    rcases htells with htells | ⟨-, -, i, h₁, h₂, -, hfit⟩
    · cases reply with
      | busy => exact ⟨rfl, htells⟩
      | node i =>
        obtain ⟨h₁, h₂, -, hfit⟩ := htells
        rw [unfit_congr hout.peers, peerOf_congr hout.servers, hun i h₁ (hnum ▸ h₂)] at hfit
        cases hfit
    · rw [hun i h₁ h₂] at hfit
      cases hfit
  refine ⟨s', hbusy.1 ▸ hget, hinv', hout.peers, fun i h₁ h₂ => ⟨hbusy.2 i h₁ h₂, ?_⟩⟩
  rw [(hout.fresh i h₁ (hnum ▸ h₂) (hup i h₁ (hnum ▸ h₂)) (hbusy.2 i h₁ h₂)).2]
  exact congrArg (now + ·) (hinv.limits _).2

/-- A request whose peer is fit after the queue has been looked through. -/
theorem getPeer_of_fit {s t : ConsistentHash} {now : ℤ} {hash : UInt32} {check : ℕ → Bool} {p : ℕ}
    (hok : t.Ok) (hrec : s.recover now check = some t) (hp : t.getServerIndex hash = some p)
    (hfit : t.unfit check (t.peerOf p) = false) :
    s.getPeer now hash check = some (t, if t.down p then .busy else .node p) := by
  obtain ⟨p', hp', h₁, h₂, -⟩ := hok.getServerIndex hash
  rw [hp] at hp'
  cases hp'
  obtain ⟨v, hv, hpv⟩ := server_eq (s := t) h₁ h₂
  rw [hpv] at hfit
  simp only [getPeer, hrec, hp, hv, bind_eq_bind, bind_some, hfit, Bool.false_eq_true, if_false]
  split
  · rfl
  · rfl

/-- A failure is counted at the peer of the node. -/
theorem freePeer_run {i : ℕ} (h₁ : 1 ≤ i) (h₂ : i ≤ s.number) :
    s.freePeer i = some (s.setPeer (s.peerOf i)
      { s.peers.peer (s.peerOf i) with fails := (s.peers.peer (s.peerOf i)).fails + 1 }) := by
  obtain ⟨v, hv, hp⟩ := server_eq (s := s) h₁ h₂
  rw [freePeer, hv, hp]
  rfl

/-- Two failures at second 0 of requests that have got the node `i` of a new balancer. -/
theorem failed_twice (hconf : ChashConf conf) (h₀ : (chashMachine conf).init s) {i : ℕ} (h₁ : 1 ≤ i)
    (h₂ : i ≤ s.number) :
    ∃ tr s', (chashMachine conf).Run tr s' ∧ s'.servers = s.servers ∧ s'.downServers = [] ∧
      (∀ j, s'.down j = false) ∧ (∀ p, (s'.peers.peer p).fails =
        if p = s.peerOf i then (conf.peer p).fails + 2 else (conf.peer p).fails) ∧
      (∀ p, (s'.peers.peer p).down = (conf.peer p).down) ∧
      tr ≠ [] ∧ ∀ x ∈ tr, x.2 = .failure 0 i ∧ x.1.peerOf i = s.peerOf i := by
  obtain ⟨hinv, hpeers, hdown, hqueue⟩ := init_inv hconf h₀
  obtain ⟨s₁, hs₁⟩ : ∃ s₁, s₁ = s.setPeer (s.peerOf i)
      { s.peers.peer (s.peerOf i) with fails := (s.peers.peer (s.peerOf i)).fails + 1 } := ⟨_, rfl⟩
  have hstep₁ : (chashMachine conf).step s (.failure 0 i) s₁ := by
    rw [hs₁]
    exact freePeer_run h₁ h₂
  have hpeer₁ : s₁.peerOf i = s.peerOf i := by rw [hs₁]; rfl
  have hnum : s₁.number = s.number := by rw [hs₁]; rfl
  have hstep₂ : (chashMachine conf).step s₁ (.failure 0 i) (s₁.setPeer (s₁.peerOf i)
      { s₁.peers.peer (s₁.peerOf i) with fails := (s₁.peers.peer (s₁.peerOf i)).fails + 1 }) :=
    freePeer_run h₁ (hnum ▸ h₂)
  refine ⟨_, _, ((Machine.Run.start h₀).snoc hstep₁).snoc hstep₂, ?_, ?_, ?_, ?_, ?_, by simp, ?_⟩
  · rw [hs₁]
    rfl
  · rw [hs₁]
    exact hqueue
  · rw [hs₁]
    exact hdown
  · intro p
    rw [hpeer₁, hs₁]
    by_cases hp : p = s.peerOf i
    · simp [setPeer, RrPeers.setPeer, hp, hpeers]
    · simp [setPeer, RrPeers.setPeer, hp, hpeers]
  · intro p
    rw [hpeer₁, hs₁]
    by_cases hp : p = s.peerOf i
    · simp [setPeer, RrPeers.setPeer, hp, hpeers]
    · simp [setPeer, RrPeers.setPeer, hp, hpeers]
  · intro x hx
    simp only [nil_append, mem_append, mem_singleton] at hx
    rcases hx with rfl | rfl
    · exact ⟨rfl, rfl⟩
    · exact ⟨rfl, hpeer₁⟩

/-- The only peer has failed twice at second 0. -/
theorem onePeer_failed : ∃ tr s, (chashMachine (onePeer false)).Run tr s ∧ s.downServers = [] ∧
    s.unfit (fun _ => false) 0 = true ∧ (∀ x ∈ tr, CheckFree x.2) ∧
    ∀ now, FailedLately (onePeer false) tr now 0 ↔ now ≤ 10 := by
  obtain ⟨s₀, h₀⟩ := exists_init (onePeer_conf false)
  obtain ⟨hinv, -⟩ := init_inv (onePeer_conf false) h₀
  have hpos := hinv.ok.pos
  obtain ⟨tr, s, hrun, -, hqueue, -, hfails, -, hne, htr⟩ :=
    failed_twice (onePeer_conf false) h₀ (Nat.le_refl 1) hpos
  have hzero := hinv.peerOf_zero (Nat.le_refl 1) hpos
  rw [hzero] at hfails htr
  refine ⟨tr, s, hrun, hqueue, ?_, fun x hx => ?_, fun now => ?_⟩
  · have hmax := ((inv_of_run (onePeer_conf false) hrun).limits 0).1
    simp [unfit, hfails, hmax, onePeer]
  · rw [(htr x hx).1]
    trivial
  · constructor
    · rintro ⟨x, hx, time, i, heq, -, hle⟩
      rw [(htr x hx).1] at heq
      cases heq
      exact hle
    · intro hle
      obtain ⟨x, hx⟩ := exists_mem_of_ne_nil tr hne
      exact ⟨x, hx, 0, 1, (htr x hx).1, (htr x hx).2, hle⟩

end ConsistentHash

open ConsistentHash in
/-- A peer that has failed too often at second 0 is unavailable at second 5. -/
theorem chash_busy_unavailable_lately : ∃ tr s s', (chashMachine (onePeer false)).Run tr s ∧
    s.getPeer 5 0 (fun _ => false) = some (s', .busy) ∧ Unavailable (onePeer false) tr s 5 0 ∧
    ((onePeer false).peer 0).down = false := by
  obtain ⟨tr, s, hrun, hqueue, hunfit, hfree, hlate⟩ := onePeer_failed
  obtain ⟨s₁, hget₁, -⟩ := turned_away (inv_of_run (onePeer_conf false) hrun) hqueue 5 _ hunfit 0
  obtain ⟨s', reply, hget, hiff⟩ := chash_busy_unavailable (onePeer_conf false) hrun hfree 5 0
  rw [hget₁] at hget
  cases hget
  refine ⟨tr, s, s₁, hrun, hget₁, hiff.mpr (Or.inr fun p hp _ => ?_) rfl 0 Nat.one_pos, rfl⟩
  obtain rfl : p = 0 := Nat.lt_one_iff.mp hp
  exact (hlate 5).mpr (by decide)

open ConsistentHash in
/-- A peer that is configured down is selected once its nodes have been out for `fail_timeout`. -/
theorem chash_selects_down : ∃ tr s x i v,
    (chashMachine (onePeer true)).Run tr s ∧ x ∈ tr ∧
      x.2 = .request 10 0 (fun _ => false) (.node i) ∧ x.1.server i = some v ∧
      ((onePeer true).peer v.rnindex).down = true := by
  obtain ⟨s₀, h₀⟩ := exists_init (onePeer_conf true)
  obtain ⟨hinv₀, hpeers, -, hqueue⟩ := init_inv (onePeer_conf true) h₀
  obtain ⟨s₁, hget₁, hinv₁, hpeers₁, hout₁⟩ := turned_away hinv₀ hqueue 0 (fun _ => false)
    (by simp [unfit, hpeers, onePeer]) 0
  obtain ⟨t, hrec, hok, hservers, -, hd, -⟩ := hinv₁.ok.recover 10 fun _ => false
  have hnum := number_congr hservers
  obtain ⟨p, hp, h₁, h₂, -⟩ := hok.getServerIndex 0
  rw [hnum] at h₂
  -- At second 10 all nodes are due, and the peer has lost its mark.
  obtain ⟨hdown, htime⟩ := hout₁ p h₁ h₂
  have hback : t.down p = false := by
    by_contra hdown'
    exact ((hd p).mp (by simpa using hdown')).2
      ⟨(hinv₁.ok.mem p).mpr ⟨h₁, h₂, hdown⟩, by rw [htime]; decide, rfl⟩
  have hfit : t.unfit (fun _ => false) (t.peerOf p) = false := by
    rw [peerOf_congr hservers]
    exact (hinv₁.ok.usable_iff hrec _).mp ⟨rfl, Or.inr ⟨p, h₁, h₂, hdown, by rw [htime]; decide, rfl⟩⟩
  have hget₂ : s₁.getPeer 10 0 (fun _ => false) = some (t, .node p) := by
    rw [getPeer_of_fit hok hrec hp hfit, hback]
    rfl
  obtain ⟨v, hv, -⟩ := server_eq (s := s₁) h₁ h₂
  have hstep₁ : (chashMachine (onePeer true)).step s₀ (.request 0 0 (fun _ => false) .busy) s₁ :=
    hget₁
  have hstep₂ : (chashMachine (onePeer true)).step s₁
      (.request 10 0 (fun _ => false) (.node p)) t := hget₂
  have hrun := ((Machine.Run.start h₀).snoc hstep₁).snoc hstep₂
  exact ⟨_, t, _, _, v, hrun, mem_append_right _ (mem_singleton_self _), rfl, hv, rfl⟩

open ConsistentHash in
/-- A request is turned away while the only peer is available: its failures are old; or a health
check has taken it out, and has recovered since. -/
theorem chash_busy_available :
    (∃ tr s s', (chashMachine (onePeer false)).Run tr s ∧ (∀ x ∈ tr, CheckFree x.2) ∧
      s.getPeer 1000 0 (fun _ => false) = some (s', .busy) ∧
      ¬ Unavailable (onePeer false) tr s 1000 0) ∧
    ∃ tr s s', (chashMachine (onePeer false)).Run tr s ∧
      s.getPeer 1 0 (fun _ => false) = some (s', .busy) ∧
      ¬ Unavailable (onePeer false) tr s 1 0 := by
  constructor
  · obtain ⟨tr, s, hrun, hqueue, hunfit, hfree, hlate⟩ := onePeer_failed
    obtain ⟨s', hget, -⟩ :=
      turned_away (inv_of_run (onePeer_conf false) hrun) hqueue 1000 _ hunfit 0
    refine ⟨tr, s, s', hrun, hfree, hget, ?_⟩
    rintro (hdown | ⟨-, hl⟩)
    · cases hdown
    · have := (hlate 1000).mp hl
      omega
  · obtain ⟨s₀, h₀⟩ := exists_init (onePeer_conf false)
    obtain ⟨hinv₀, hpeers, -, hqueue⟩ := init_inv (onePeer_conf false) h₀
    obtain ⟨s₁, hget₁, hinv₁, hpeers₁, hout₁⟩ := turned_away hinv₀ hqueue 0 (fun _ => true)
      (by simp [unfit]) 0
    obtain ⟨t, hrec, hok, hservers, -, hd, -⟩ := hinv₁.ok.recover 1 fun _ => false
    have hnum := number_congr hservers
    obtain ⟨p, hp, h₁, h₂, -⟩ := hok.getServerIndex 0
    rw [hnum] at h₂
    -- At second 1 the peer is fit, but no node is due.
    obtain ⟨hdown, htime⟩ := hout₁ p h₁ h₂
    have hout : t.down p = true := by
      refine (hd p).mpr ⟨hdown, fun hc => ?_⟩
      have := hc.2.1
      rw [htime] at this
      omega
    have hfit : t.unfit (fun _ => false) (t.peerOf p) = false :=
      (hinv₁.ok.usable_iff hrec _).mp ⟨rfl, Or.inl (by simp [unfit, hpeers₁, hpeers, onePeer])⟩
    have hstep₁ : (chashMachine (onePeer false)).step s₀ (.request 0 0 (fun _ => true) .busy) s₁ :=
      hget₁
    refine ⟨_, s₁, t, (Machine.Run.start h₀).snoc hstep₁, ?_, ?_⟩
    · rw [getPeer_of_fit hok hrec hp hfit, hout]
      rfl
    · rintro (hmark | ⟨hfails, -⟩)
      · cases hmark
      · rw [hpeers₁, hpeers] at hfails
        simp [onePeer] at hfails

end Hengine
