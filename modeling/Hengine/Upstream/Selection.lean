import Hengine.Upstream.Hash
import Hengine.Upstream.LeastConn

/-!
# No Balancer Picks an Unavailable Peer

The eligibility test stands in six loops of four files. Here the four balancers are held
against one statement over all runs: the peer a successful `get` returns was not returned
to the request before, and is not down, not reported down, not full and not failing. For
least connections its ratio of connections to weight is moreover least.

Round robin, least connections and hash meet the statement in every run. Two conditions
remain. The consistent hash does not ask the health check, so the peers of the server it
comes to must not be reported down. And the comparison of ratios must not wrap.
-/

namespace Hengine

open List

variable {n : ℕ} {ι ρ : Type} {up : Upstream}

/-- The step, if it is a successful `get`, returns a peer that was not returned to the
request before and is available. -/
def PickSound (b : Balancer ι ρ) (s : UpstreamState n ρ) (e : RequestEvent n ι) : Prop :=
  ∀ r env t, e = .get r env → (s.req r).active = true → b.get env (s.call r) = (.ok, t) →
    ∃ g i, t.rrp.current = some (g, i) ∧ i < (s.up.peers g).number ∧
      (g, i) ∉ (s.req r).hist ∧ ((s.up.peers g).peer i).unavailable env = false

/-- The step, if it is a successful `get`, returns a peer whose ratio of connections to
weight is least among the peers of its group that were not returned to the request before
and are available. -/
def PickLeast (b : Balancer ι ρ) (s : UpstreamState n ρ) (e : RequestEvent n ι) : Prop :=
  ∀ r env t, e = .get r env → (s.req r).active = true → b.get env (s.call r) = (.ok, t) →
    ∃ g i, t.rrp.current = some (g, i) ∧ ∀ j < (s.up.peers g).number,
      (g, j) ∉ (s.req r).hist → ((s.up.peers g).peer j).unavailable env = false →
      ((s.up.peers g).peer i).ratio ≤ ((s.up.peers g).peer j).ratio

/-- The step, if it is a `get`, compares no eligible peers by a wrapping product. -/
def StepFits (s : UpstreamState n ρ) (e : RequestEvent n ι) : Prop :=
  ∀ r env, e = .get r env → ∀ g,
    CrossFits (peerSkip env ((s.call r).triedAt g)) (s.up.peers g).peer
      (List.range (s.up.peers g).number)

/-- The step, if it is a `get`, finds no peer reported down among those the consistent hash
may choose: the untried, not configured down, not failing and not full peers of the first
server, within the remaining tries, that has any. -/
def StepChecked (points : List ChashPoint) (s : UpstreamState n HashPeerData)
    (e : RequestEvent n ι) : Prop :=
  ∀ r env, e = .get r env → (s.req r).priv.key ≠ [] →
    let q := s.req r
    let ps := s.up.peers q.rrp.group
    ∀ server,
      chashServer points env ps q.rrp.tried (21 - q.priv.tries) q.priv.hash = some server →
      ∀ i < ps.number, chashSkip env q.rrp.tried server i (ps.peer i) = false →
        env.checkPeerDown (ps.peer i).checkIndex = false

variable {s : UpstreamState n ρ} {e : RequestEvent n ι} {b : Balancer ι ρ}

/-- A tracked state and the selection contract make a sound pick. -/
theorem Tracked.pickSound (ht : Tracked up s) (hsel : StepSelect b s e) : PickSound b s e := by
  rintro r env t rfl hact hget
  have h := hsel r env rfl hact
  rw [hget] at h
  obtain ⟨i, hi, hcur, hel, -⟩ := h.ok rfl
  have hgroup : t.rrp.group = (s.req r).rrp.group ∨
      (s.req r).rrp.group = .primary ∧ t.rrp.group = .backup :=
    h.move.imp id fun hmv => ⟨hmv.1, hmv.2.1⟩
  have hi' : i < (up.peers t.rrp.group).number := by
    rw [← number_of_conf ht.conf]
    exact hi
  refine ⟨_, i, hcur, hi, ht.not_mem_hist hact hgroup hi' hel, ?_⟩
  simp only [Eligible, peerSkip, Bool.or_eq_false_iff] at hel
  exact hel.2

/-- **Sound picks over runs.** -/
theorem run_pickSound {tr : List (UpstreamState n ρ × RequestEvent n ι)}
    (hrun : (requestMachine n b up).Run tr s)
    (hget : ∀ p ∈ tr, Tracked up p.1 → StepSelect b p.1 p.2) :
    ∀ p ∈ tr, Tracked up p.1 ∧ PickSound b p.1 p.2 := by
  intro p hp
  have ht := (run_select hrun hget).1 p hp
  exact ⟨ht, ht.pickSound (hget p hp ht)⟩

/-- Configured weights are positive. -/
theorem FreshUpstream.weightsPos (hup : FreshUpstream up) {up₀ : Upstream}
    (hconf : up₀.conf = up.conf) {g : Group} (hg : g = .backup → up.next = true) :
    WeightsPos (up₀.peers g).peer (List.range (up₀.peers g).number) := by
  have hpeers : (up₀.peers g).conf = (up.peers g).conf := by
    have hc := congrArg (fun u : Upstream => u.peers g) hconf
    exact hc
  have hweighed : Weighed (up₀.peers g) := by
    cases g with
    | primary => exact hup.primary.weighed hpeers
    | backup => exact (hup.backup (hg rfl)).weighed hpeers
  intro i hi
  exact hweighed.weight_pos i (mem_range.mp hi)

/-- A least-connections pick has the least ratio, where no product wraps. -/
theorem Tracked.pickLeast {s : UpstreamState n Unit} {e : RequestEvent n Unit}
    (hup : FreshUpstream up) (hs : (up.peers .primary).single = false) (ht : Tracked up s)
    (hfit : StepFits s e) : PickLeast leastConn s e := by
  rintro r env t rfl hact hget
  have h := upstreamGetLeastConnPeer_select (s := s.call r) env hup ht.conf hs
  rw [show upstreamGetLeastConnPeer env (s.call r) = (.ok, t) from hget] at h
  obtain ⟨i, hi, hcur, ⟨-, hleast⟩, -⟩ := h.ok rfl
  have hgroup : t.rrp.group = (s.req r).rrp.group ∨
      (s.req r).rrp.group = .primary ∧ t.rrp.group = .backup :=
    h.move.imp id fun hmv => ⟨hmv.1, hmv.2.1⟩
  have hback : t.rrp.group = .backup → up.next = true := by
    intro hg
    rw [← next_of_conf ht.conf]
    refine h.backup_next (fun hg' => ?_) hg
    exact (next_of_conf ht.conf).trans ((ht.marked r hact).backup hg')
  refine ⟨_, i, hcur, ?_⟩
  intro j hj hnew hav
  refine hleast (hup.weightsPos ht.conf hback) (hfit r env rfl _) j hj ?_
  have hj' : j < (up.peers t.rrp.group).number := by
    rw [← number_of_conf ht.conf]
    exact hj
  have hbit : testBit ((s.call r).triedAt t.rrp.group) j = false := by
    rw [← Bool.not_eq_true, ht.triedAt_bits hact hgroup j hj']
    exact hnew
  rw [Eligible, peerSkip, hbit, Bool.false_or]
  exact hav

/-- **Sound picks.** For every upstream with more than one peer and every run of any number
of requests: round robin, least connections and hash return only peers that are untried and
available; so does the consistent hash in the runs whose steps find no peer reported down
among those it may choose; and least connections returns one of least ratio wherever no
product of its comparisons wraps. -/
theorem balancers_pickSound {checkAdd : UpstreamServer → Sockaddr × String → ℕ}
    {conf : UpstreamConf} (hinit : upstreamInitRoundRobin checkAdd conf = some up)
    (hs : (up.peers .primary).single = false) (n : ℕ) (crc32 : List UInt8 → UInt32)
    (points : List ChashPoint) :
    (∀ tr s, (requestMachine n roundRobin up).Run tr s →
      ∀ p ∈ tr, PickSound roundRobin p.1 p.2) ∧
    (∀ tr s, (requestMachine n leastConn up).Run tr s →
      ∀ p ∈ tr, PickSound leastConn p.1 p.2 ∧ (StepFits p.1 p.2 → PickLeast leastConn p.1 p.2)) ∧
    (∀ tr s, (requestMachine n (hash crc32) up).Run tr s →
      ∀ p ∈ tr, PickSound (hash crc32) p.1 p.2) ∧
    ∀ tr s, (requestMachine n (chash crc32 points) up).Run tr s →
      (∀ p ∈ tr, StepChecked points p.1 p.2) →
      ∀ p ∈ tr, PickSound (chash crc32 points) p.1 p.2 := by
  have hup := upstreamInitRoundRobin_fresh hinit
  refine ⟨?_, ?_, ?_, ?_⟩
  · intro tr s hrun p hp
    refine (run_pickSound hrun (fun p _ ht => ?_) p hp).2
    exact fun r env _ _ => upstreamGetRoundRobinPeer_select env hup ht.conf hs
  · intro tr s hrun p hp
    obtain ⟨ht, hsound⟩ := run_pickSound hrun (fun p _ ht => fun r env _ _ =>
      (upstreamGetLeastConnPeer_select env hup ht.conf hs).mono fun _ _ _ h => h.1) p hp
    exact ⟨hsound, ht.pickLeast hup hs⟩
  · intro tr s hrun p hp
    refine (run_pickSound hrun (fun p _ ht => ?_) p hp).2
    exact fun r env _ hact =>
      upstreamGetHashPeer_select hup ht.conf hs env (ht.marked r hact).backup
  · intro tr s hrun hcheck p hp
    refine (run_pickSound hrun (fun p hp ht => ?_) p hp).2
    exact fun r env he _ => upstreamGetChashPeer_select hup ht.conf hs env (hcheck p hp r env he)

/-- The points of a consistent hash over the pair. -/
def pairPoints : List ChashPoint :=
  [{ hash := 100, server := "a" }, { hash := 200, server := "b" }]

/-- The pair with its servers health-checked under the indices `0`, `1` and `2`. -/
def checkedUpstream : Upstream :=
  (upstreamInitRoundRobin
    (fun s _ => if s.name = "a" then 0 else if s.name = "b" then 1 else 2) pairConf).getD
    { peers := fun _ => {}, next := false }

/-- A moment at which the health check reports both primary servers down. -/
def primaryDownEnv : RrEnv :=
  { now := 0, random := 0, checkPeerDown := fun i => i == 0 || i == 1 }

/-- **The missing test.** The first request of the consistent hash is sent to a primary
server while both are reported down. -/
theorem chash_picks_reported_down :
    ∃ tr s i, (requestMachine 1 (chash (fun _ => 0) pairPoints) checkedUpstream).Run tr s ∧
      (s.req 0).last = some .ok ∧ (s.req 0).rrp.current = some (.primary, i) ∧
      primaryDownEnv.checkPeerDown ((s.up.peers .primary).peer i).checkIndex = true ∧
      ¬ ∀ p ∈ tr, PickSound (chash (fun _ => 0) pairPoints) p.1 p.2 := by
  have hidle : Idle checkedUpstream (UpstreamState.idle (n := 1) checkedUpstream
      ((hash fun _ => 0).start [])) := ⟨rfl, fun _ => ⟨rfl, rfl⟩⟩
  have hrun := Machine.run_of_replay (f := requestStep (chash (fun _ => 0) pairPoints))
    [.init 0 [107], .get 0 primaryDownEnv] hidle rfl
  refine ⟨_, _, 0, hrun, by decide, by decide, by decide, ?_⟩
  intro h
  obtain ⟨g, i, hcur, -, -, hav⟩ :=
    h _ (mem_append_right _ (mem_singleton_self _)) 0 primaryDownEnv _ rfl
      (by decide) rfl
  have hpick : (Group.primary, 0) = (g, i) := by
    rw [← Option.some.injEq, ← hcur]
    decide
  cases hpick
  revert hav
  decide

/-- The balancers over the pair: a least-connections request takes a peer of least ratio, and
a consistent-hash request a sound one. -/
theorem balancers_pickSound_pair :
    (∃ tr s, (requestMachine 1 leastConn pairUpstream).Run tr s ∧ (s.req 0).last = some .ok ∧
      ∀ p ∈ tr, PickLeast leastConn p.1 p.2) ∧
    ∃ tr s, (requestMachine 1 (chash (fun _ => 0) pairPoints) pairUpstream).Run tr s ∧
      (s.req 0).last = some .ok ∧
      ∀ p ∈ tr, PickSound (chash (fun _ => 0) pairPoints) p.1 p.2 := by
  have h := balancers_pickSound pairUpstream_init rfl 1 (fun _ => 0) pairPoints
  refine ⟨?_, ?_⟩
  · have hidle : Idle pairUpstream (UpstreamState.idle (n := 1) pairUpstream ()) :=
      ⟨rfl, fun _ => ⟨rfl, rfl⟩⟩
    have hrun := Machine.run_of_replay (f := requestStep leastConn)
      [.init 0 (), .get 0 quietEnv] hidle rfl
    refine ⟨_, _, hrun, by decide, fun p hp => (h.2.1 _ _ hrun p hp).2 ?_⟩
    simp only [nil_append, cons_append, mem_cons, not_mem_nil, or_false] at hp
    rcases hp with rfl | rfl
    · rintro r env he
      exact absurd he (by simp)
    · rintro r env he g
      cases he
      cases g <;> simp only [CrossFits] <;> decide
  · have hidle : Idle pairUpstream (UpstreamState.idle (n := 1) pairUpstream
        ((hash fun _ => 0).start [])) := ⟨rfl, fun _ => ⟨rfl, rfl⟩⟩
    have hrun := Machine.run_of_replay (f := requestStep (chash (fun _ => 0) pairPoints))
      [.init 0 [107], .get 0 quietEnv] hidle rfl
    refine ⟨_, _, hrun, by decide, h.2.2.2 _ _ hrun fun p hp => ?_⟩
    simp only [nil_append, cons_append, mem_cons, not_mem_nil, or_false] at hp
    rcases hp with rfl | rfl
    · rintro r env he
      exact absurd he (by simp)
    · rintro r env he -
      cases he
      exact fun _ _ _ _ _ => rfl

end Hengine
