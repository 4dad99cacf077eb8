import Hengine.Lib.Smooth
import Hengine.Upstream.RoundRobin

/-!
# Fairness of the Round-Robin Scan

With every peer available and every effective weight at its configured value, one call of
`upstreamGetPeer` is one round of the smooth schedule of `Hengine.Lib.Smooth` on the
current weights. Exactness of the schedule then gives the period of the balancer.

Requests do not come alone: between two calls other requests take and free connections,
times pass, and failure counters move. `Served` allows any of this that leaves the weights
alone, as long as the next call again finds every peer available.
-/

namespace Hengine

/-- The groups agree on their weights; anything else may differ. -/
def SameWeights (ps ps' : RrPeers) : Prop :=
  ps'.number = ps.number ∧ ∀ i < ps.number,
    (ps'.peer i).weight = (ps.peer i).weight ∧
    (ps'.peer i).effectiveWeight = (ps.peer i).effectiveWeight ∧
    (ps'.peer i).currentWeight = (ps.peer i).currentWeight

/-- Consecutive requests from group `ps`, with what `upstreamGetPeer` returned to each,
oldest first. Every request comes with an empty bitmap and finds all peers available. -/
inductive Served (ps : RrPeers) : List (Option ℕ) → RrPeers → Prop
  | nil : Served ps [] ps
  | snoc {picks : List (Option ℕ)} {ps₁ ps₂ : RrPeers} {env : RrEnv} {rrp : RrPeerData} :
      Served ps picks ps₁ → SameWeights ps₁ ps₂ →
      (∀ i < ps₂.number, testBit rrp.tried i = false) →
      (∀ i < ps₂.number, (ps₂.peer i).unavailable env = false) →
      Served ps (picks ++ [(upstreamGetPeer env ps₂ rrp).1])
        (upstreamGetPeer env ps₂ rrp).2.1

/-- A group at the start of a period, or within one: effective weights are the
configured, positive ones. -/
structure Steady (ps : RrPeers) : Prop where
  weight_pos : ∀ i < ps.number, 0 < (ps.peer i).weight
  effective : ∀ i < ps.number, (ps.peer i).effectiveWeight = (ps.peer i).weight

theorem RrPeer.effectiveWeight_bump {p : RrPeer} (h : p.effectiveWeight = p.weight) :
    p.bump.effectiveWeight = p.weight := by
  simp [RrPeer.bump, h]

/-- Where nothing was tried and all are available, all are eligible. -/
theorem eligible_eq_range {env : RrEnv} {ps : RrPeers} {tried : List Word}
    (ht : ∀ i < ps.number, testBit tried i = false)
    (ha : ∀ i < ps.number, (ps.peer i).unavailable env = false) :
    eligible env ps tried = Finset.range ps.number := by
  refine Finset.filter_true_of_mem ?_
  intro i hi
  have hi := Finset.mem_range.mp hi
  simp [peerSkip, ht i hi, ha i hi]

/-- One request in a steady group with all peers available is one round. -/
theorem upstreamGetPeer_round {env : RrEnv} {ps : RrPeers} {rrp : RrPeerData}
    (hn : 0 < ps.number) (hs : Steady ps)
    (ht : ∀ i < ps.number, testBit rrp.tried i = false)
    (ha : ∀ i < ps.number, (ps.peer i).unavailable env = false) :
    ∃ p ps' rrp', upstreamGetPeer env ps rrp = (some p, ps', rrp') ∧
      ps'.number = ps.number ∧ Steady ps' ∧
      (∀ i < ps.number, (ps'.peer i).weight = (ps.peer i).weight) ∧
      Smooth.Round (Finset.range ps.number) (fun i => (ps.peer i).weight)
        (fun i => (ps.peer i).currentWeight) p (fun i => (ps'.peer i).currentWeight) := by
  have helig := eligible_eq_range ht ha
  rcases hres : upstreamGetPeer env ps rrp with ⟨_ | p, ps', rrp'⟩
  · obtain ⟨-, -, hskip⟩ := upstreamGetPeer_none hres
    have h0 := hskip 0 hn
    simp [peerSkip, ht 0 hn, ha 0 hn] at h0
  obtain ⟨hpick, hp, hmax, -⟩ := upstreamGetPeer_some hres
  rw [helig] at hpick hp hmax
  have hpeer : ∀ i < ps.number, (ps'.peer i).weight = (ps.peer i).weight ∧
      (ps'.peer i).effectiveWeight = (ps.peer i).weight := by
    intro i hi
    rw [hpick.peer_eq i, if_pos (Finset.mem_range.mpr hi)]
    have he := RrPeer.effectiveWeight_bump (hs.effective i hi)
    have hw : (ps.peer i).bump.weight = (ps.peer i).weight := rfl
    simp only
    split_ifs <;> simp [he, hw]
  have hsum : ∑ j ∈ Finset.range ps.number, (ps.peer j).effectiveWeight
      = ∑ j ∈ Finset.range ps.number, (ps.peer j).weight :=
    Finset.sum_congr rfl fun j hj => hs.effective j (Finset.mem_range.mp hj)
  refine ⟨p, ps', rrp', rfl, hpick.number_eq, ⟨?_, ?_⟩, fun i hi => (hpeer i hi).1,
    ⟨hp, ?_, ?_⟩⟩
  · intro i hi
    rw [hpick.number_eq] at hi
    rw [(hpeer i hi).1]
    exact hs.weight_pos i hi
  · intro i hi
    rw [hpick.number_eq] at hi
    rw [(hpeer i hi).1, (hpeer i hi).2]
  · intro j hj
    have hjn := Finset.mem_range.mp hj
    have hpn := Finset.mem_range.mp hp
    have hcw := hmax j hj
    rw [hs.effective j hjn, hs.effective p hpn] at hcw
    exact hcw
  · intro j hj
    rw [hpick.currentWeight_eq j, if_pos hj, hs.effective j (Finset.mem_range.mp hj), hsum]

/-- Only the weights matter. -/
theorem Steady.of_sameWeights {ps ps' : RrPeers} (h : Steady ps) (hsw : SameWeights ps ps') :
    Steady ps' := by
  obtain ⟨hnum, hsame⟩ := hsw
  refine ⟨?_, ?_⟩
  · intro i hi
    rw [hnum] at hi
    rw [(hsame i hi).1]
    exact h.weight_pos i hi
  · intro i hi
    rw [hnum] at hi
    rw [(hsame i hi).1, (hsame i hi).2.1]
    exact h.effective i hi

/-- **Served requests are rounds** of the smooth schedule on the configured weights. -/
theorem Served.rounds {ps ps' : RrPeers} {picks : List (Option ℕ)} (hn : 0 < ps.number)
    (hs : Steady ps) (h : Served ps picks ps') :
    ps'.number = ps.number ∧ Steady ps' ∧
      (∀ i < ps.number, (ps'.peer i).weight = (ps.peer i).weight) ∧
      ∃ is, picks = is.map some ∧
        Smooth.Rounds (Finset.range ps.number) (fun i => (ps.peer i).weight)
          (fun i => (ps.peer i).currentWeight) is (fun i => (ps'.peer i).currentWeight) := by
  induction h with
  | nil => exact ⟨rfl, hs, fun _ _ => rfl, [], rfl, Smooth.Rounds.nil⟩
  | @snoc picks ps₁ ps₂ env rrp _ hsw ht ha ih =>
    obtain ⟨hnum, hsteady, hweight, is, hpicks, hrounds⟩ := ih
    obtain ⟨hnum₂, hsame⟩ := id hsw
    obtain ⟨p, ps', rrp', hres, hnum', hsteady', hweight', hround⟩ :=
      upstreamGetPeer_round (by omega) (hsteady.of_sameWeights hsw) ht ha
    rw [hres]
    have hw₂ : ∀ i < ps.number, (ps₂.peer i).weight = (ps.peer i).weight := by
      intro i hi
      rw [(hsame i (by omega)).1, hweight i hi]
    refine ⟨hnum'.trans (hnum₂.trans hnum), hsteady', ?_, is ++ [p], by simp [hpicks], hrounds.snoc ?_⟩
    · intro i hi
      rw [hweight' i (by omega), hw₂ i hi]
    · -- the round was taken from `ps₂`, whose weights are those of `ps₁` and of `ps`
      rw [hnum₂, hnum] at hround
      have hp := Finset.mem_range.mp hround.mem
      have hcw : ∀ i < ps.number, (ps₂.peer i).currentWeight = (ps₁.peer i).currentWeight :=
        fun i hi => (hsame i (by omega)).2.2
      refine ⟨hround.mem, ?_, ?_⟩
      · intro j hj
        have hjn := Finset.mem_range.mp hj
        have hmax := hround.max j hj
        simp only [hcw j hjn, hcw p hp, hw₂ j hjn, hw₂ p hp] at hmax
        exact hmax
      · intro j hj
        have hjn := Finset.mem_range.mp hj
        have hsum : ∑ k ∈ Finset.range ps.number, (ps₂.peer k).weight
            = ∑ k ∈ Finset.range ps.number, (ps.peer k).weight :=
          Finset.sum_congr rfl fun k hk => hw₂ k (Finset.mem_range.mp hk)
        have hpay := hround.pay j hj
        simp only [hcw j hjn, hw₂ j hjn, hsum] at hpay
        exact hpay

/-- **Exact fairness.** From zero current weights, as many requests as the configured
weights add up to pick every peer exactly weight-many times, and all current weights are
zero again. -/
theorem upstreamGetPeer_fair {ps ps' : RrPeers} {picks : List (Option ℕ)}
    (hw : ∀ i < ps.number, 0 < (ps.peer i).weight)
    (he : ∀ i < ps.number, (ps.peer i).effectiveWeight = (ps.peer i).weight)
    (hc : ∀ i < ps.number, (ps.peer i).currentWeight = 0)
    (h : Served ps picks ps')
    (hT : (picks.length : ℤ) = ∑ i ∈ Finset.range ps.number, (ps.peer i).weight) :
    ∀ i < ps.number, (picks.count (some i) : ℤ) = (ps.peer i).weight ∧
      (ps'.peer i).currentWeight = 0 := by
  intro i hi
  obtain ⟨-, -, -, is, rfl, hrounds⟩ := h.rounds (by omega) ⟨hw, he⟩
  have hw' : ∀ j ∈ Finset.range ps.number, 0 ≤ (ps.peer j).weight :=
    fun j hj => (hw j (Finset.mem_range.mp hj)).le
  have hpos : 0 < ∑ j ∈ Finset.range ps.number, (ps.peer j).weight :=
    Finset.sum_pos (fun j hj => hw j (Finset.mem_range.mp hj)) ⟨i, Finset.mem_range.mpr hi⟩
  have hshare : ∀ j ∈ Finset.range ps.number,
      (is.length : ℤ) * (ps.peer j).weight
        = (ps.peer j).weight * ∑ k ∈ Finset.range ps.number, (ps.peer k).weight := by
    intro j _
    rw [List.length_map] at hT
    rw [hT, mul_comm]
  have hexact := hrounds.exact (fun j hj => hc j (Finset.mem_range.mp hj)) hw' hpos hshare i
    (Finset.mem_range.mpr hi)
  rw [List.count_map_of_injective _ _ (Option.some_injective ℕ)]
  exact hexact

/-- Two peers of weights two and one. -/
def twoPeers : RrPeers where
  number := 2
  totalWeight := 3
  weighted := true
  peer := fun i =>
    if i = 0 then { weight := 2, effectiveWeight := 2 }
    else { weight := 1, effectiveWeight := 1 }

/-- Three requests over the two peers: the heavier one is picked twice. -/
theorem upstreamGetPeer_fair_twoPeers :
    ∃ picks ps', Served twoPeers picks ps' ∧ picks.length = 3 ∧
      ∀ i < 2, (picks.count (some i) : ℤ) = (twoPeers.peer i).weight ∧
        (ps'.peer i).currentWeight = 0 := by
  let env : RrEnv := { now := 0, random := 1, checkPeerDown := fun _ => false }
  let rrp : RrPeerData := { tried := [0#64] }
  let next : RrPeers → RrPeers := fun ps => (upstreamGetPeer env ps rrp).2.1
  have hsame : ∀ ps, SameWeights ps ps := fun ps => ⟨rfl, fun _ _ => ⟨rfl, rfl, rfl⟩⟩
  have ht : ∀ i, testBit rrp.tried i = false := testBit_replicate_zero 1
  have h₁ : Served twoPeers _ (next twoPeers) :=
    Served.nil.snoc (hsame _) (fun i _ => ht i) (by decide)
  have h₂ : Served twoPeers _ (next (next twoPeers)) :=
    h₁.snoc (hsame _) (fun i _ => ht i) (by decide)
  have h₃ : Served twoPeers _ (next (next (next twoPeers))) :=
    h₂.snoc (hsame _) (fun i _ => ht i) (by decide)
  refine ⟨_, _, h₃, rfl, ?_⟩
  exact upstreamGetPeer_fair (by decide) (by decide) (by decide) h₃ (by decide)

end Hengine
