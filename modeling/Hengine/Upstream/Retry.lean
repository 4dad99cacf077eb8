import Hengine.Upstream.Requests

/-!
# Round-Robin Requests

The contracts of `Hengine.Upstream.Requests` for the round-robin balancer, and what they
give over whole runs.

The step from one group to a request is the same for every balancer built on
`getWithBackup`: a contract on picking from one group (`PickAccount`, `PickSelect`,
`PickComplete`) becomes the contract of the `get` call.
-/

namespace Hengine

open List

variable {ρ : Type} {env : RrEnv}

/-! ### From picks to calls -/

/-- The accounting contract for picking from one group. -/
structure PickAccount (s : GetState ρ) (res : Bool × GetState ρ) : Prop where
  conf : res.2.up.conf = s.up.conf
  ok : res.1 = true → res.2.pc.sockaddr.isSome = true ∧ ∃ g i,
    res.2.rrp.current = some (g, i) ∧ i < (s.up.peers g).number ∧
    ∀ h j, res.2.up.conns h j = s.up.conns h j + if h = g ∧ j = i then 1 else 0
  fail : res.1 = false → res.2.pc.sockaddr = s.pc.sockaddr ∧
    ∀ h j, res.2.up.conns h j = s.up.conns h j

/-- The selection contract for picking from one group. -/
structure PickSelect (Q : RrPeers → List Word → ℕ → Prop) (s : GetState ρ)
    (res : Bool × GetState ρ) : Prop where
  conf : res.2.up.conf = s.up.conf
  other : ∀ g, g ≠ s.rrp.group → res.2.up.peers g = s.up.peers g
  group : res.2.rrp.group = s.rrp.group
  fail : res.1 = false → res.2.rrp.tried = s.rrp.tried
  ok : res.1 = true → ∃ i, i < (s.up.peers s.rrp.group).number ∧
    res.2.rrp.current = some (s.rrp.group, i) ∧
    Q (s.up.peers s.rrp.group) s.rrp.tried i ∧
    res.2.rrp.tried = setBit s.rrp.tried i

/-- The completeness contract for picking from one group. -/
def PickComplete (env : RrEnv) (s : GetState ρ) (res : Bool × GetState ρ) : Prop :=
  res.1 = false → ∀ i < (s.up.peers s.rrp.group).number,
    peerSkip env s.rrp.tried i ((s.up.peers s.rrp.group).peer i) = true

/-- The state a `get` starts from, with the cached connection forgotten. -/
def GetState.begin (s : GetState ρ) : GetState ρ :=
  { s with pc := { s.pc with cached := false, connection := none } }

/-- The state a failed `get` ends in: `pc->name` is the name of the outer group. -/
def GetState.giveUp (s : GetState ρ) (name : String) : GetState ρ :=
  { s with pc := { s.pc with name := name } }

/-- The ways through `getWithBackup`: the first group gives a peer, or fails and there is no
other, or the backup group decides. -/
theorem getWithBackup_cases (pick : GetState ρ → Bool × GetState ρ) (s : GetState ρ) :
    (∃ t, pick s.begin = (true, t) ∧ getWithBackup pick s = (.ok, t)) ∨
    (∃ t, pick s.begin = (false, t) ∧ ¬ (t.rrp.group = .primary ∧ t.up.next = true) ∧
      getWithBackup pick s = (.busy, t.giveUp (s.up.peers s.rrp.group).name)) ∨
    (∃ t, pick s.begin = (false, t) ∧ (t.rrp.group = .primary ∧ t.up.next = true) ∧
      ((∃ t', pick t.toBackup = (true, t') ∧ getWithBackup pick s = (.ok, t')) ∨
       (∃ t', pick t.toBackup = (false, t') ∧
        getWithBackup pick s = (.busy, t'.giveUp (s.up.peers s.rrp.group).name)))) := by
  rcases hpick : pick s.begin with ⟨ok, t⟩
  have hpick' : pick { s with pc := { s.pc with cached := false, connection := none } }
      = (ok, t) := hpick
  cases ok with
  | true =>
    refine Or.inl ⟨t, rfl, ?_⟩
    simp only [getWithBackup, hpick']
  | false =>
    by_cases hnext : t.rrp.group = .primary ∧ t.up.next = true
    · refine Or.inr (Or.inr ⟨t, rfl, hnext, ?_⟩)
      rcases hback : pick t.toBackup with ⟨ok, t'⟩
      cases ok with
      | true =>
        refine Or.inl ⟨t', rfl, ?_⟩
        simp only [getWithBackup, hpick', if_pos hnext, hback]
      | false =>
        refine Or.inr ⟨t', rfl, ?_⟩
        simp only [getWithBackup, hpick', if_pos hnext, hback]
        rfl
    · refine Or.inr (Or.inl ⟨t, rfl, hnext, ?_⟩)
      simp only [getWithBackup, hpick', if_neg hnext]
      rfl

variable {pick : GetState ρ → Bool × GetState ρ} {s : GetState ρ} {up : Upstream} {ps : RrPeers}

/-- Accounting carries over from picks to calls over upstreams of one configuration. -/
theorem getWithBackup_account
    (h : ∀ t : GetState ρ, t.up.conf = s.up.conf → PickAccount t (pick t)) :
    GetAccount s (getWithBackup pick s) := by
  have h₁ := h s.begin rfl
  rcases getWithBackup_cases pick s with ⟨t, hp, hres⟩ | ⟨t, hp, -, hres⟩ | ⟨t, hp, -, hback⟩
  · rw [hp] at h₁
    rw [hres]
    exact ⟨h₁.conf, fun _ => h₁.ok rfl, by simp⟩
  · rw [hp] at h₁
    rw [hres]
    exact ⟨h₁.conf, by simp, fun _ => h₁.fail rfl⟩
  · rw [hp] at h₁
    have h₂ := h t.toBackup h₁.conf
    have hnum : ∀ g, (t.up.peers g).number = (s.up.peers g).number := number_of_conf h₁.conf
    have hconns : ∀ g i, t.up.conns g i = s.up.conns g i := (h₁.fail rfl).2
    rcases hback with ⟨t', hp', hres⟩ | ⟨t', hp', hres⟩
    · rw [hp'] at h₂
      rw [hres]
      refine ⟨h₂.conf.trans h₁.conf, fun _ => ?_, by simp⟩
      obtain ⟨hsome, g, i, hcur, hi, hcount⟩ := h₂.ok rfl
      refine ⟨hsome, g, i, hcur, by rw [← hnum g]; exact hi, ?_⟩
      intro k j
      rw [← hconns k j]
      exact hcount k j
    · rw [hp'] at h₂
      rw [hres]
      refine ⟨h₂.conf.trans h₁.conf, by simp, fun _ => ⟨?_, ?_⟩⟩
      · exact (h₂.fail rfl).1.trans (h₁.fail rfl).1
      · intro k j
        exact ((h₂.fail rfl).2 k j).trans (hconns k j)

/-- What is left for the backup servers. -/
theorem toBackup_frame {Q : RrPeers → List Word → ℕ → Prop} {s t : GetState ρ}
    (h : PickSelect Q s (false, t))
    (hprim : t.rrp.group = .primary) :
    s.rrp.group = .primary ∧ t.toBackup.rrp.tried = s.triedAt .backup ∧
      t.up.peers .backup = s.up.peers .backup := by
  have hgroup : s.rrp.group = .primary := h.group.symm.trans hprim
  have hpeers : t.up.peers .backup = s.up.peers .backup :=
    h.other .backup (by rw [hgroup]; simp)
  have htried : t.rrp.tried = s.rrp.tried := h.fail rfl
  refine ⟨hgroup, ?_, hpeers⟩
  rw [GetState.triedAt, if_neg (by rw [hgroup]; simp)]
  simp only [GetState.toBackup, htried, hpeers]

/-- Selection carries over from picks to calls over upstreams of one configuration. -/
theorem getWithBackup_select {Q : RrPeers → List Word → ℕ → Prop}
    (h : ∀ t : GetState ρ, t.up.conf = s.up.conf → PickSelect Q t (pick t)) :
    GetSelect Q s (getWithBackup pick s) := by
  have h₁ := h s.begin rfl
  have hsame : s.triedAt s.rrp.group = s.rrp.tried := if_pos rfl
  rcases getWithBackup_cases pick s with
    ⟨t, hp, hres⟩ | ⟨t, hp, -, hres⟩ | ⟨t, hp, ⟨hprim, hnext⟩, hback⟩
  · rw [hp] at h₁
    rw [hres]
    have hgroup : t.rrp.group = s.rrp.group := h₁.group
    refine ⟨h₁.conf, Or.inl hgroup, by simp, fun _ => ?_⟩
    simp only [hgroup, hsame]
    exact h₁.ok rfl
  · rw [hp] at h₁
    rw [hres]
    have hgroup : t.rrp.group = s.rrp.group := h₁.group
    refine ⟨h₁.conf, Or.inl hgroup, fun _ => ?_, by simp⟩
    have htried : s.triedAt (t.giveUp (s.up.peers s.rrp.group).name).rrp.group
        = s.rrp.tried := if_pos hgroup
    rw [htried]
    exact h₁.fail rfl
  · rw [hp] at h₁
    have h₂ := h t.toBackup h₁.conf
    obtain ⟨hgroup, htried, hpeers⟩ := toBackup_frame h₁ hprim
    have htried : t.toBackup.rrp.tried = s.triedAt .backup := htried
    have hpeers : t.up.peers .backup = s.up.peers .backup := hpeers
    have hnext' : s.up.next = true := by
      rw [← hnext]
      exact (next_of_conf h₁.conf).symm
    rcases hback with ⟨t', hp', hres⟩ | ⟨t', hp', hres⟩
    · rw [hp'] at h₂
      rw [hres]
      have hg' : t'.rrp.group = .backup := h₂.group
      refine ⟨h₂.conf.trans h₁.conf, Or.inr ⟨hgroup, hg', hnext'⟩, by simp, fun _ => ?_⟩
      simp only [hg']
      rw [← htried, ← hpeers]
      exact h₂.ok rfl
    · rw [hp'] at h₂
      rw [hres]
      have hg' : (t'.giveUp (s.up.peers s.rrp.group).name).rrp.group = .backup := h₂.group
      refine ⟨h₂.conf.trans h₁.conf, Or.inr ⟨hgroup, hg', hnext'⟩, fun _ => ?_, by simp⟩
      simp only [hg']
      rw [← htried]
      exact h₂.fail rfl

/-- Completeness carries over from picks to calls over upstreams of one configuration. -/
theorem getWithBackup_complete
    (h : ∀ t : GetState ρ, t.up.conf = s.up.conf → PickSelect (Eligible env) t (pick t) ∧
      PickComplete env t (pick t)) :
    GetComplete env s (getWithBackup pick s) := by
  obtain ⟨h₁, hc₁⟩ := h s.begin rfl
  have hsame : s.triedAt s.rrp.group = s.rrp.tried := if_pos rfl
  rcases getWithBackup_cases pick s with
    ⟨t, hp, hres⟩ | ⟨t, hp, -, hres⟩ | ⟨t, hp, ⟨hprim, -⟩, hback⟩
  · rw [hp] at h₁
    rw [hres]
    exact ⟨fun hne => absurd h₁.group hne, by simp⟩
  · rw [hp] at h₁ hc₁
    rw [hres]
    have hgroup : (t.giveUp (s.up.peers s.rrp.group).name).rrp.group = s.rrp.group := h₁.group
    refine ⟨fun hne => absurd hgroup hne, fun _ => ?_⟩
    simp only [hgroup, hsame]
    exact hc₁ rfl
  · rw [hp] at h₁ hc₁
    obtain ⟨h₂, hc₂⟩ := h t.toBackup h₁.conf
    obtain ⟨hgroup, htried, hpeers⟩ := toBackup_frame h₁ hprim
    have htried : t.toBackup.rrp.tried = s.triedAt .backup := htried
    have hpeers : t.up.peers .backup = s.up.peers .backup := hpeers
    rcases hback with ⟨t', hp', hres⟩ | ⟨t', hp', hres⟩
    · rw [hres]
      exact ⟨fun _ => hc₁ rfl, by simp⟩
    · rw [hp'] at h₂ hc₂
      rw [hres]
      refine ⟨fun _ => hc₁ rfl, fun _ => ?_⟩
      have hg' : (t'.giveUp (s.up.peers s.rrp.group).name).rrp.group = .backup := h₂.group
      simp only [hg']
      rw [← htried, ← hpeers]
      exact hc₂ rfl

/-! ### Granting a peer -/

/-- The state after peer `p` won in the current group, whose new content is `ps`. -/
def GetState.grant (s : GetState ρ) (ps : RrPeers) (p : ℕ) : GetState ρ :=
  { s with
    up := s.up.set s.rrp.group ps
    rrp := { s.rrp with
      current := some (s.rrp.group, p)
      tried := setBit s.rrp.tried p } }.takePeer s.rrp.group p

/-- Replacing a group by one of its configuration keeps all of it. -/
theorem Upstream.conf_set {g : Group} (h : ps.conf = (up.peers g).conf) :
    (up.set g ps).conf = up.conf := by
  have hpeers : ∀ k, ((up.set g ps).peers k).conf = (up.peers k).conf := by
    intro k
    by_cases hk : k = g
    · subst hk
      simpa [Upstream.set] using h
    · simp [Upstream.set, hk]
  simp only [Upstream.conf, hpeers]
  rfl

/-- Taking a peer counts one connection there. -/
theorem conns_takePeer (s : GetState ρ) (g h : Group) (i j : ℕ) :
    (s.takePeer g i).up.conns h j = s.up.conns h j + if h = g ∧ j = i then 1 else 0 := by
  rw [Upstream.conns, GetState.takePeer, Upstream.peer_setPeer]
  split_ifs with hc
  · rw [hc.1, hc.2]
    rfl
  · rfl

theorem conf_takePeer (s : GetState ρ) (g : Group) (i : ℕ) :
    (s.takePeer g i).up.conf = s.up.conf :=
  Upstream.conf_setPeer rfl

theorem peers_takePeer (s : GetState ρ) {g h : Group} (i : ℕ) (hne : h ≠ g) :
    (s.takePeer g i).up.peers h = s.up.peers h := by
  simp [GetState.takePeer, Upstream.setPeer, Upstream.set, hne]

section Grant

variable {s : GetState ρ} {ps : RrPeers} {A : Finset ℕ} {p : ℕ} {now : ℤ}
  (h : SwrrPick (s.up.peers s.rrp.group) ps A p now)

include h

theorem conf_grant : (s.grant ps p).up.conf = s.up.conf := by
  rw [GetState.grant, conf_takePeer]
  exact Upstream.conf_set h.conf_eq

/-- Granting a peer counts one try. -/
theorem grant_account : PickAccount s (true, s.grant ps p) := by
  refine ⟨conf_grant h, fun _ => ⟨rfl, s.rrp.group, p, rfl, h.lt, ?_⟩, by simp⟩
  intro k j
  have hset : (s.up.set s.rrp.group ps).conns k j = s.up.conns k j := by
    by_cases hk : k = s.rrp.group
    · subst hk
      simpa [Upstream.conns, Upstream.set] using h.conns_eq j
    · simp [Upstream.conns, Upstream.set, hk]
  rw [← hset]
  exact conns_takePeer _ _ _ _ _

/-- A granted peer is selected. -/
theorem grant_select {Q : RrPeers → List Word → ℕ → Prop}
    (hQ : Q (s.up.peers s.rrp.group) s.rrp.tried p) :
    PickSelect Q s (true, s.grant ps p) := by
  refine ⟨conf_grant h, ?_, rfl, by simp, fun _ => ⟨p, h.lt, rfl, hQ, rfl⟩⟩
  intro g hg
  refine (peers_takePeer _ p hg).trans ?_
  simp [Upstream.set, hg]

end Grant

/-! ### The round-robin balancer -/

/-- What round robin does in a group that is not a single peer. -/
theorem rrPick_cases (env : RrEnv) (hs : (s.up.peers s.rrp.group).single = false) :
    (∃ p ps, rrPick env s = (true, s.grant ps p) ∧
      SwrrPick (s.up.peers s.rrp.group) ps
        (eligible env (s.up.peers s.rrp.group) s.rrp.tried) p env.now ∧
      p ∈ eligible env (s.up.peers s.rrp.group) s.rrp.tried) ∨
    (∃ init, rrPick env s = (false, { s with
        up := s.up.set s.rrp.group { s.up.peers s.rrp.group with initNumber := init } }) ∧
      ∀ i < (s.up.peers s.rrp.group).number,
        peerSkip env s.rrp.tried i ((s.up.peers s.rrp.group).peer i) = true) := by
  rcases hget : upstreamGetPeer env (s.up.peers s.rrp.group) s.rrp with ⟨_ | p, ps, rrp⟩
  · obtain ⟨rfl, hps, hskip⟩ := upstreamGetPeer_none hget
    refine Or.inr ⟨ps.initNumber, ?_, hskip⟩
    rw [← hps]
    simp [rrPick, hs, hget]
  · obtain ⟨hpick, hp, -, rfl⟩ := upstreamGetPeer_some hget
    refine Or.inl ⟨p, ps, ?_, hpick, hp⟩
    simp [rrPick, hs, hget, GetState.grant]

theorem conf_set_initNumber (up : Upstream) (g : Group) (init : Option ℕ) :
    (up.set g { up.peers g with initNumber := init }).conf = up.conf :=
  Upstream.conf_set rfl

theorem conns_set_initNumber (up : Upstream) (g h : Group) (init : Option ℕ) (j : ℕ) :
    (up.set g { up.peers g with initNumber := init }).conns h j = up.conns h j := by
  by_cases hg : h = g
  · subst hg
    simp [Upstream.conns, Upstream.set]
  · simp [Upstream.conns, Upstream.set, hg]

/-- Round robin accounts for every peer it hands out, the single one included. -/
theorem rrPick_account
    (hs : (s.up.peers s.rrp.group).single = true → 0 < (s.up.peers s.rrp.group).number) :
    PickAccount s (rrPick env s) := by
  cases hsingle : (s.up.peers s.rrp.group).single with
  | true =>
    simp only [rrPick, hsingle, if_true]
    split_ifs
    · exact ⟨rfl, by simp, fun _ => ⟨rfl, fun _ _ => rfl⟩⟩
    · refine ⟨conf_takePeer _ _ _,
        fun _ => ⟨rfl, s.rrp.group, 0, rfl, hs hsingle, fun k j => conns_takePeer _ _ _ _ _⟩,
        by simp⟩
  | false =>
    rcases rrPick_cases env hsingle with ⟨p, ps, hres, hpick, -⟩ | ⟨init, hres, -⟩
    · rw [hres]
      exact grant_account hpick
    · rw [hres]
      exact ⟨conf_set_initNumber _ _ _, by simp,
        fun _ => ⟨rfl, fun k j => conns_set_initNumber _ _ _ _ _⟩⟩

/-- **The choice is eligible**, and there is one if any peer is. -/
theorem rrPick_select (hs : (s.up.peers s.rrp.group).single = false) :
    PickSelect (Eligible env) s (rrPick env s) ∧ PickComplete env s (rrPick env s) := by
  rcases rrPick_cases env hs with ⟨p, ps, hres, hpick, hp⟩ | ⟨init, hres, hskip⟩
  · rw [hres]
    exact ⟨grant_select hpick (Finset.mem_filter.mp hp).2, by simp [PickComplete]⟩
  · rw [hres]
    refine ⟨⟨conf_set_initNumber _ _ _, ?_, rfl, fun _ => rfl, by simp⟩, fun _ => hskip⟩
    intro g hg
    simp [Upstream.set, hg]

/-- A group of one server has that server. -/
theorem FreshUpstream.single_number {up up₀ : Upstream} (hup : FreshUpstream up)
    (h : up₀.conf = up.conf) (g : Group) :
    (up₀.peers g).single = true → 0 < (up₀.peers g).number := by
  have hs : (up₀.peers g).single = (up.peers g).single := by
    have hs := congrArg (fun u : Upstream => (u.peers g).single) h
    exact hs
  rw [hs, number_of_conf h g]
  intro hsingle
  cases g with
  | primary => exact hup.primary.number_pos
  | backup => simp [hup.backup_single] at hsingle

/-- With backup servers there is no shortcut. -/
theorem FreshUpstream.not_single {up up₀ : Upstream} (hup : FreshUpstream up)
    (hs : (up.peers .primary).single = false) (h : up₀.conf = up.conf) (g : Group) :
    (up₀.peers g).single = false := by
  have hconf : (up₀.peers g).single = (up.peers g).single := by
    have hs := congrArg (fun u : Upstream => (u.peers g).single) h
    exact hs
  rw [hconf]
  cases g with
  | primary => exact hs
  | backup => exact hup.backup_single

section RoundRobin

variable {up : Upstream} {s : GetState ρ} (env : RrEnv) (hup : FreshUpstream up)
  (hconf : s.up.conf = up.conf)

include hup hconf

/-- **Accounting** of the round-robin `get`. -/
theorem upstreamGetRoundRobinPeer_account :
    GetAccount s (upstreamGetRoundRobinPeer env s) :=
  getWithBackup_account fun _ ht =>
    rrPick_account (hup.single_number (ht.trans hconf) _)

variable (hs : (up.peers .primary).single = false)

include hs

/-- **Selection** of the round-robin `get`. -/
theorem upstreamGetRoundRobinPeer_select :
    GetSelect (Eligible env) s (upstreamGetRoundRobinPeer env s) :=
  getWithBackup_select fun _ ht => (rrPick_select (hup.not_single hs (ht.trans hconf) _)).1

/-- **Completeness** of the round-robin `get`. -/
theorem upstreamGetRoundRobinPeer_complete :
    GetComplete env s (upstreamGetRoundRobinPeer env s) :=
  getWithBackup_complete fun _ ht => rrPick_select (hup.not_single hs (ht.trans hconf) _)

end RoundRobin

/-- The round-robin balancer, which keeps no data of its own. -/
def roundRobin : Balancer Unit Unit where
  start := id
  get := upstreamGetRoundRobinPeer

/-! ### The weight invariant -/

/-- A call on the shared peers, by whoever holds whatever request data. -/
inductive PeerCall
  | getPeer (g : Group) (env : RrEnv) (rrp : RrPeerData)
  | get (env : RrEnv) (pc : PeerConnection) (rrp : RrPeerData)
  | free (pc : PeerConnection) (rrp : RrPeerData) (failed : Bool) (now : ℤ)

/-- The shared peers after a call. -/
def peerCall (up : Upstream) : PeerCall → Upstream
  | .getPeer g env rrp => up.set g (upstreamGetPeer env (up.peers g) rrp).2.1
  | .get env pc rrp =>
    (upstreamGetRoundRobinPeer env { up := up, pc := pc, rrp := rrp, priv := () }).2.up
  | .free pc rrp failed now => (upstreamFreeRoundRobinPeer up pc rrp failed now).1

/-- Any calls in any order on an upstream that starts as `up`. -/
def peerMachine (up : Upstream) : Machine Upstream PeerCall where
  init := fun up₀ => up₀ = up
  step := fun up₀ e up₁ => up₁ = peerCall up₀ e

/-- All groups of an upstream are balanced. -/
def Upstream.Balanced (up : Upstream) : Prop :=
  ∀ g, Hengine.Balanced (up.peers g)

theorem Upstream.Balanced.set (h : up.Balanced) {g : Group} (hps : Hengine.Balanced ps) :
    (up.set g ps).Balanced := by
  intro k
  by_cases hk : k = g
  · subst hk
    simpa [Upstream.set] using hps
  · simpa [Upstream.set, hk] using h k

/-- Writing a peer with the same current weight and an effective weight within bounds. -/
theorem Upstream.Balanced.setPeer (h : up.Balanced) {g : Group} {i : ℕ} {p : RrPeer}
    (hcw : p.currentWeight = ((up.peers g).peer i).currentWeight)
    (hew : i < (up.peers g).number → 0 ≤ p.effectiveWeight ∧ p.effectiveWeight ≤ p.weight) :
    (up.setPeer g i p).Balanced := by
  refine h.set ⟨?_, ?_⟩
  · intro j hj
    by_cases hji : j = i
    · subst hji
      simpa [RrPeers.setPeer] using hew hj
    · simpa [RrPeers.setPeer, hji] using (h g).effective j hj
  · have hsame : ∀ j, (((up.peers g).setPeer i p).peer j).currentWeight
        = ((up.peers g).peer j).currentWeight := by
      intro j
      by_cases hji : j = i
      · subst hji
        simpa [RrPeers.setPeer] using hcw
      · simp [RrPeers.setPeer, hji]
    simp only [hsame]
    exact (h g).current

/-- Getting a peer keeps the balance of weights. -/
theorem upstreamGetPeer_balanced (env : RrEnv) (rrp : RrPeerData) (h : Balanced ps) :
    Balanced (upstreamGetPeer env ps rrp).2.1 := by
  rcases hget : upstreamGetPeer env ps rrp with ⟨_ | p, ps', rrp'⟩
  · obtain ⟨-, hps, -⟩ := upstreamGetPeer_none hget
    rw [hps]
    exact ⟨h.effective, h.current⟩
  · exact (upstreamGetPeer_some hget).1.balanced h

/-- The effective weight stays between zero and the weight. -/
theorem RrPeer.settle_bounds {p : RrPeer} (failed : Bool) (now : ℤ)
    (h : 0 ≤ p.effectiveWeight ∧ p.effectiveWeight ≤ p.weight) :
    0 ≤ (p.settle failed now).effectiveWeight ∧
      (p.settle failed now).effectiveWeight ≤ (p.settle failed now).weight := by
  have hshare : 0 ≤ p.weight / (p.maxFails : ℤ) := Int.ediv_nonneg (by omega) (by omega)
  rw [RrPeer.effectiveWeight_settle, RrPeer.weight_settle]
  split_ifs <;> omega

/-- Freeing a peer leaves the sum of the current weights alone. -/
theorem upstreamFreeRoundRobinPeer_balanced (pc : PeerConnection) (rrp : RrPeerData)
    (failed : Bool) (now : ℤ) (h : up.Balanced) :
    (upstreamFreeRoundRobinPeer up pc rrp failed now).1.Balanced := by
  unfold upstreamFreeRoundRobinPeer
  split
  · exact h
  · rename_i g i _
    simp only
    split_ifs
    · exact h.setPeer rfl fun hi => (h g).effective i hi
    · exact h.setPeer (RrPeer.currentWeight_settle _ _ _)
        fun hi => RrPeer.settle_bounds _ _ ((h g).effective i hi)

/-- Picking by round robin keeps all groups balanced. -/
theorem rrPick_balanced (h : s.up.Balanced) : (rrPick env s).2.up.Balanced := by
  have htake : ∀ (t : GetState ρ) g i, t.up.Balanced → (t.takePeer g i).up.Balanced :=
    fun t g i ht => ht.setPeer rfl fun hi => (ht g).effective i hi
  have hget := upstreamGetPeer_balanced env s.rrp (h s.rrp.group)
  simp only [rrPick]
  split_ifs
  · exact h
  · exact htake _ _ _ h
  · rcases hres : upstreamGetPeer env (s.up.peers s.rrp.group) s.rrp with ⟨_ | p, ps, rrp⟩
    · rw [hres] at hget
      exact h.set hget
    · rw [hres] at hget
      exact htake _ _ _ (h.set hget)

/-- What every pick keeps of the shared peers, a call keeps. -/
theorem getWithBackup_up {P : Upstream → Prop} (h : ∀ t, P t.up → P (pick t).2.up) (hs : P s.up) :
    P (getWithBackup pick s).2.up := by
  have h₁ := h s.begin hs
  rcases getWithBackup_cases pick s with ⟨t, hp, hres⟩ | ⟨t, hp, -, hres⟩ | ⟨t, hp, -, hback⟩
  · rw [hp] at h₁
    rw [hres]
    exact h₁
  · rw [hp] at h₁
    rw [hres]
    exact h₁
  · rw [hp] at h₁
    have h₂ := h t.toBackup h₁
    rcases hback with ⟨t', hp', hres⟩ | ⟨t', hp', hres⟩
    · rw [hp'] at h₂
      rw [hres]
      exact h₂
    · rw [hp'] at h₂
      rw [hres]
      exact h₂

/-- So does every call. -/
theorem peerCall_balanced (e : PeerCall) (h : up.Balanced) : (peerCall up e).Balanced := by
  cases e with
  | getPeer g env rrp => exact h.set (upstreamGetPeer_balanced env rrp (h g))
  | get env pc rrp => exact getWithBackup_up (fun _ ht => rrPick_balanced ht) h
  | free pc rrp failed now => exact upstreamFreeRoundRobinPeer_balanced pc rrp failed now h

theorem FreshPeers.balanced (h : FreshPeers ps) : Balanced ps where
  effective := by
    intro i hi
    rw [(h.peer i hi).effective]
    exact ⟨(h.peer i hi).weight_pos.le, le_refl _⟩
  current := Finset.sum_eq_zero fun i hi => (h.peer i (Finset.mem_range.mp hi)).current

/-- A fresh upstream is balanced. -/
theorem FreshUpstream.balanced (h : FreshUpstream up) : up.Balanced := by
  intro g
  cases g with
  | primary => exact h.primary.balanced
  | backup =>
    cases hnext : up.next with
    | true => exact (h.backup hnext).balanced
    | false =>
      have hzero := h.no_backup hnext
      refine ⟨fun i hi => absurd hi (by omega), ?_⟩
      rw [hzero]
      simp

/-- **The round-robin state invariant.** In every state that any calls of the scan, the
`get` and the `free` routine reach from initialisation, every effective weight is between
zero and the configured weight, and the current weights of each group add up to zero. -/
theorem roundRobin_balanced {checkAdd : UpstreamServer → Sockaddr × String → ℕ}
    {conf : UpstreamConf} {up up' : Upstream}
    (hinit : upstreamInitRoundRobin checkAdd conf = some up)
    (h : (peerMachine up).Reachable up') (g : Group) :
    (∀ i < (up'.peers g).number, 0 ≤ ((up'.peers g).peer i).effectiveWeight ∧
      ((up'.peers g).peer i).effectiveWeight ≤ ((up'.peers g).peer i).weight) ∧
    ∑ i ∈ Finset.range (up'.peers g).number, ((up'.peers g).peer i).currentWeight = 0 := by
  have hbal : up'.Balanced := by
    refine h.invariant ?_ ?_
    · rintro up₀ rfl
      exact (upstreamInitRoundRobin_fresh hinit).balanced
    · rintro up₀ e up₁ hb rfl
      exact peerCall_balanced e hb
  exact ⟨(hbal g).effective, (hbal g).current⟩

/-- Two servers of weights five and one, and a backup server. -/
def pairConf : UpstreamConf :=
  .servers "backend"
    [{ name := "a", addrs := [([1], "a:80")], weight := 5
       weight_pos := Nat.succ_pos _, addrs_ne := cons_ne_nil _ _ },
     { name := "b", addrs := [([2], "b:80")], weight := 1
       weight_pos := Nat.succ_pos _, addrs_ne := cons_ne_nil _ _ },
     { name := "c", addrs := [([3], "c:80")], weight := 1, backup := true
       weight_pos := Nat.succ_pos _, addrs_ne := cons_ne_nil _ _ }]

/-- The configured pair, with no health checks. -/
def pairUpstream : Upstream :=
  (upstreamInitRoundRobin (fun _ _ => checkIndexError) pairConf).getD
    { peers := fun _ => {}, next := false }

theorem pairUpstream_init :
    upstreamInitRoundRobin (fun _ _ => checkIndexError) pairConf = some pairUpstream := rfl

/-- A quiet outside. -/
def quietEnv : RrEnv :=
  { now := 0, random := 0, checkPeerDown := fun _ => false }

/-- A pick and a failure later the first peer has lost all its effective weight, and the
balance still holds. -/
theorem roundRobin_balanced_pair :
    ∃ up', (peerMachine pairUpstream).Reachable up' ∧
      ((up'.peers .primary).peer 0).effectiveWeight = 0 ∧
      ((up'.peers .primary).peer 0).currentWeight = -1 ∧
      ∑ i ∈ Finset.range (up'.peers .primary).number,
        ((up'.peers .primary).peer i).currentWeight = 0 := by
  have h₀ : (peerMachine pairUpstream).Run [] pairUpstream := .start rfl
  have h₁ := h₀.snoc (e := .getPeer .primary quietEnv { tried := [0#64] }) rfl
  have h₂ := h₁.snoc (e := .free {} { current := some (.primary, 0) } true 0) rfl
  exact ⟨_, ⟨_, h₂⟩, by decide, by decide,
    (roundRobin_balanced pairUpstream_init ⟨_, h₂⟩ .primary).2⟩

/-! ### Retry completeness -/

/-- The words of the bitmap a round-robin `get` touches: the word of each index it scans in
the request's group and, if it moves on, the words it clears and those of the backup
group's indices. -/
def triedWordsUsed (env : RrEnv) (s : GetState ρ) : List ℕ :=
  let scan := fun g =>
    let ps := s.up.peers g
    (scanOrder ps.number (ps.initNumber.getD (env.random % ps.number))).map (· / 64)
  scan s.rrp.group ++
    if s.rrp.group = .primary ∧ s.up.next = true
      then List.range (groupWords (s.up.peers .backup)) ++ scan .backup
      else []

/-- The touched words are words of the bitmap. -/
theorem Tracked.triedWordsUsed_lt {n : ℕ} {s : UpstreamState n ρ} {r : Fin n} (ht : Tracked up s)
    (hact : (s.req r).active = true) : ∀ w ∈ triedWordsUsed env (s.call r), w < triedWords up := by
  have hm := ht.marked r hact
  have hscan : ∀ g init, (g = .backup → up.next = true) →
      ∀ w ∈ (scanOrder (s.up.peers g).number init).map (· / 64), w < triedWords up := by
    intro g init hg w hw
    obtain ⟨i, hi, rfl⟩ := mem_map.mp hw
    rw [mem_scanOrder, number_of_conf ht.conf g] at hi
    rw [← hm.length]
    exact ht.div_lt_length hact hg hi
  intro w hw
  simp only [triedWordsUsed, mem_append] at hw
  rcases hw with hw | hw
  · exact hscan _ _ hm.backup w hw
  · split_ifs at hw with hmove
    · have hnext : up.next = true := (next_of_conf ht.conf).symm.trans hmove.2
      rcases mem_append.mp hw with hw | hw
      · have hwords := groupWords_le_triedWords s.up .backup fun _ => hmove.2
        rw [triedWords_of_conf ht.conf] at hwords
        exact lt_of_lt_of_le (mem_range.mp hw) hwords
      · exact hscan _ _ (fun _ => hnext) w hw
    · simp at hw

/-- **Retry completeness.** In every state of every run of round-robin requests over an
upstream with more than one peer: no peer was returned twice to one request; the next call
touches allocated words of the bitmap only; and it reports `NGX_BUSY` only when every peer
of the last group is tried or unavailable, after every primary peer was so when the request
fell over to the backup group. -/
theorem roundRobin_retry {checkAdd : UpstreamServer → Sockaddr × String → ℕ}
    {conf : UpstreamConf} {up : Upstream} {n : ℕ}
    {tr : List (UpstreamState n Unit × RequestEvent n Unit)} {s : UpstreamState n Unit}
    (hinit : upstreamInitRoundRobin checkAdd conf = some up)
    (hs : (up.peers .primary).single = false)
    (hrun : (requestMachine n roundRobin up).Run tr s) {r : Fin n}
    (hact : (s.req r).active = true) (env : RrEnv) :
    (s.req r).hist.Nodup ∧
    (∀ w ∈ triedWordsUsed env (s.call r), w < (upstreamInitRoundRobinPeer up).1.tried.length) ∧
    ∀ t, upstreamGetRoundRobinPeer env (s.call r) = (.busy, t) →
      (∀ i < (s.up.peers t.rrp.group).number, (t.rrp.group, i) ∈ (s.req r).hist ∨
        ((s.up.peers t.rrp.group).peer i).unavailable env = true) ∧
      (t.rrp.group = .backup →
        ∃ f, ((s.req r).afterGet s.up env .busy t).fell = some f ∧ f.Exhausted) := by
  have hup := upstreamInitRoundRobin_fresh hinit
  have hstep : ∀ (s : UpstreamState n Unit) e, Tracked up s →
      StepSelect roundRobin s e ∧ StepComplete roundRobin s e := by
    intro s e ht
    exact ⟨fun r env _ _ => upstreamGetRoundRobinPeer_select (s := s.call r) env hup ht.conf hs,
      fun r env _ _ => upstreamGetRoundRobinPeer_complete (s := s.call r) env hup ht.conf hs⟩
  obtain ⟨ht, hf⟩ := (run_fell hrun fun p _ ht => hstep p.1 p.2 ht).2
  refine ⟨(ht.marked r hact).nodup, ?_, ?_⟩
  · intro w hw
    have hlt := ht.triedWordsUsed_lt hact w hw
    simpa [upstreamInitRoundRobinPeer] using hlt
  · intro t hbusy
    have hsel := upstreamGetRoundRobinPeer_select (s := s.call r) env hup ht.conf hs
    have hcomp := upstreamGetRoundRobinPeer_complete (s := s.call r) env hup ht.conf hs
    rw [hbusy] at hsel hcomp
    refine ⟨?_, ?_⟩
    · intro i hi
      exact ht.skipped hact (hsel.move.imp id fun hmv => ⟨hmv.1, hmv.2.1⟩) hi
        (hcomp.busy rfl i hi)
    · exact hf.fell_afterGet ht hact hcomp

/-- One request over the pair is sent to both servers, then to the backup server, and then
told that nothing is left. -/
theorem roundRobin_retry_pair :
    ∃ (tr : List (UpstreamState 1 Unit × RequestEvent 1 Unit)) (s : UpstreamState 1 Unit)
      (t : GetState Unit),
      (requestMachine 1 roundRobin pairUpstream).Run tr s ∧
      (s.req 0).hist = [(.backup, 0), (.primary, 1), (.primary, 0)] ∧ (s.req 0).hist.Nodup ∧
      upstreamGetRoundRobinPeer quietEnv (s.call 0) = (.busy, t) ∧
      ∃ f, ((s.req 0).afterGet s.up quietEnv .busy t).fell = some f ∧ f.Exhausted := by
  have hidle : Idle pairUpstream (UpstreamState.idle (n := 1) pairUpstream ()) :=
    ⟨rfl, fun _ => ⟨rfl, rfl⟩⟩
  have hrun := Machine.run_of_replay (f := requestStep roundRobin)
    [.init 0 (), .get 0 quietEnv, .free 0 false 0, .get 0 quietEnv, .free 0 false 0,
      .get 0 quietEnv, .free 0 false 0] hidle rfl
  have hretry := roundRobin_retry pairUpstream_init rfl hrun (r := 0) rfl quietEnv
  exact ⟨_, _, _, hrun, by decide, hretry.1, rfl, (hretry.2.2 _ rfl).2 rfl⟩

end Hengine
