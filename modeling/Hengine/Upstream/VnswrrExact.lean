import Hengine.Lib.Smooth
import Hengine.Upstream.Vnswrr

/-!
# Exactness of the Virtual-Node Table

The entries of the table are the picks of `upstreamGetRrPeer`, one round of the smooth
schedule of `Hengine.Lib.Smooth` each, on the effective weights. As long as these are the
configured ones, the batches together are one run of the schedule, and a complete table is a
run of `total_weight / gcd` rounds: exactness of the schedule gives every peer its share.

A failed request takes a share of the effective weight, and nothing in this balancer gives
it back (the round-robin scan does). Rounds after such a failure run on other weights. So
exactness holds in the runs in which no failure lowers an effective weight before the table
is complete; a complete table is never written again. The group must meet the condition of
`VnFits` too: a `max_init` above `total_weight / gcd` builds more entries than one period
of the schedule has.
-/

namespace Hengine

open List Function

/-- The first `n` entries of the table are rounds of the schedule on the weights `w` of the
`m` peers. -/
def VnRounds (w : ℕ → ℤ) (m : ℕ) (s : VnGroup) (n : ℕ) (c : ℕ → ℤ) : Prop :=
  ∃ is : List ℕ, is.length = n ∧ (∀ i < n, s.vpeers i = is[i]?) ∧
    Smooth.Rounds (Finset.range m) w (fun _ => 0) is c

/-- The table is built up to entry `n` on the weights `w`, and the peers are where the
schedule left them: current weights are its counters, effective weights are `w`. -/
def VnBuilt (w : ℕ → ℤ) (s : VnGroup) (n : ℕ) : Prop :=
  ∃ c, VnRounds w s.ps.number s n c ∧ ∀ j < s.ps.number,
    (s.ps.peer j).currentWeight = c j ∧ (s.ps.peer j).effectiveWeight = w j

/-- What is kept while requests are served in a group configured as `ps`: the table is under
construction on the configured weights, or complete. A group without a table has none. -/
structure VnSchedule (ps : RrPeers) (gcd : ℕ) (s : VnGroup) : Prop where
  conf : s.ps.conf = ps.conf
  gcd : s.gcd = gcd
  table : ps.weighted = true → VnBuilt (fun j => (ps.peer j).weight) s s.vnumber ∨
    s.vnumber = s.capacity ∧ ∃ c, VnRounds (fun j => (ps.peer j).weight) s.ps.number s s.vnumber c
  unweighted : ps.weighted = false → s.vnumber = 0

/-- The step, if it is a free of a failed peer while the table is incomplete, takes nothing
off its effective weight. -/
def KeepsWeight (s : VnGroup) : VnEvent → Prop
  | .get _ _ => True
  | .free i failed _ =>
    failed = true → s.ps.weighted = true → s.vnumber ≠ s.capacity → s.ps.single = false →
      (s.ps.peer i).maxFails = 0 ∨ (s.ps.peer i).weight < (s.ps.peer i).maxFails

/-- Once the table has all its entries, every peer occurs in it exactly as often as its
weight divided by the common divisor says. -/
def VnSpread (s : VnGroup) : Prop :=
  s.capacity ≤ s.vnumber → ∀ i < s.ps.number,
    (((List.range s.vnumber).map s.vpeers).count (some i) : ℤ) = (s.ps.peer i).weight / s.gcd

variable {w : ℕ → ℤ} {ps : RrPeers} {gcd : ℕ}

/-! ### Building -/

variable {s : VnGroup}

/-- A batch entry is one more round. -/
theorem VnBuilt.entry {n : ℕ} (h : VnBuilt w s n) {p : ℕ} {ps' : RrPeers}
    (hget : upstreamGetRrPeer s.ps = (some p, ps')) (hn : 0 < s.ps.number) (a : VnAccess) :
    VnBuilt w ({ s with ps := ps', vpeers := update s.vpeers n (some p) }.note a)
      (n + 1) := by
  obtain ⟨c, ⟨is, hlen, hent, hrounds⟩, hpeers⟩ := h
  obtain ⟨p', ps₁, hget', hp, hconf, hmax, hnew⟩ := upstreamGetRrPeer_some hn
  rw [hget, Prod.mk.injEq, Option.some.injEq] at hget'
  obtain ⟨rfl, rfl⟩ := hget'
  have hnum : ps'.number = s.ps.number := (RrPeers.conf_fields hconf).1
  have hsum : ∑ j ∈ Finset.range s.ps.number, (s.ps.peer j).effectiveWeight
      = ∑ j ∈ Finset.range s.ps.number, w j :=
    Finset.sum_congr rfl fun j hj => (hpeers j (Finset.mem_range.mp hj)).2
  refine ⟨fun j => c j + w j - if j = p then ∑ k ∈ Finset.range s.ps.number, w k else 0,
    ⟨is ++ [p], by simp [hlen], ?_, ?_⟩, ?_⟩
  · intro i hi
    by_cases hin : i = n
    · subst hin
      simp [VnGroup.note, ← hlen]
    · have hlt : i < n := by omega
      simp only [VnGroup.note, update_of_ne hin]
      rw [hent i hlt, getElem?_append_left (by omega)]
  · have hm : ({ s with ps := ps', vpeers := update s.vpeers n (some p) }.note a).ps.number
        = s.ps.number := hnum
    rw [hm]
    refine hrounds.snoc ⟨Finset.mem_range.mpr hp, ?_, fun _ _ => rfl⟩
    intro j hj
    have hj := Finset.mem_range.mp hj
    have hcw := hmax j hj
    rw [(hpeers j hj).1, (hpeers j hj).2, (hpeers p hp).1, (hpeers p hp).2] at hcw
    exact hcw
  · intro j hj
    have hj : j < s.ps.number := by
      rw [← hnum]
      exact hj
    obtain ⟨hew, hcw⟩ := hnew j hj
    refine ⟨?_, hew.trans (hpeers j hj).2⟩
    refine hcw.trans ?_
    rw [(hpeers j hj).1, (hpeers j hj).2, hsum]

/-- **A batch continues the schedule.** -/
theorem VnGroup.fill_built (k n : ℕ) (s : VnGroup) (hn : 0 < s.ps.number)
    (h : VnBuilt w s n) : VnBuilt w (s.fill k n) (n + k) := by
  induction k generalizing n s with
  | zero => exact h
  | succ k ih =>
    obtain ⟨p, ps', hget, -, hconf, -⟩ := upstreamGetRrPeer_some hn
    simp only [VnGroup.fill, hget]
    have hentry := h.entry hget hn (.write n s.allocated)
    have hnum : ps'.number = s.ps.number := (RrPeers.conf_fields hconf).1
    have hrest := ih (n + 1) _ (by rw [← hnum] at hn; exact hn) hentry
    rw [show n + (k + 1) = n + 1 + k by omega]
    exact hrest

/-- Building from one virtual peer to another. -/
theorem initVirtualPeers_built (hn : 0 < s.ps.number) {b e : ℕ} (hbe : b ≤ e) (h : VnBuilt w s b) :
    VnBuilt w (upstreamInitVirtualPeers s b e) (upstreamInitVirtualPeers s b e).vnumber := by
  have hfill := s.fill_built (e - b) b hn h
  have hv : (upstreamInitVirtualPeers s b e).vnumber = b + (e - b) := by
    simp only [upstreamInitVirtualPeers]
    omega
  rw [hv]
  exact hfill

/-- **The next batch** continues the table. -/
theorem VnGroup.nextBatch_built (hn : 0 < s.ps.number) (h : VnBuilt w s s.vnumber) :
    VnBuilt w s.nextBatch s.nextBatch.vnumber := by
  simp only [VnGroup.nextBatch]
  split_ifs
  · exact initVirtualPeers_built (s := s.note (.sub s.capacity s.vnumber)) hn
      (Nat.le_add_left _ _) h
  · exact h

theorem VnGroup.nextBatch_complete (h : s.vnumber = s.capacity) :
    s.nextBatch = s.note (.sub s.capacity s.vnumber) := by
  have hzero : s.batchSize = 0 := by
    simp [VnGroup.batchSize, uintSub, h]
  simp [VnGroup.nextBatch, hzero]

/-! ### Calls -/

/-- Settling a peer at its configured weight takes nothing off it, when failures do not
count or count for less than one unit. -/
theorem RrPeer.effectiveWeight_settle_eq {p : RrPeer} {failed : Bool} (now : ℤ)
    (hew : p.effectiveWeight = p.weight) (hpos : 0 < p.weight)
    (hkeep : failed = true → p.maxFails = 0 ∨ p.weight < p.maxFails) :
    (p.settle failed now).effectiveWeight = p.effectiveWeight := by
  have hshare : failed = true →
      (if p.maxFails ≠ 0 then p.weight / (p.maxFails : ℤ) else 0) = 0 := by
    intro hf
    rcases hkeep hf with hm | hlt
    · rw [if_neg (by simpa using hm)]
    · rw [Int.ediv_eq_zero_of_lt hpos.le hlt, ite_self]
  rw [RrPeer.effectiveWeight_settle]
  cases hf : failed with
  | true =>
    rw [if_pos rfl, hshare hf]
    omega
  | false => rfl

section Calls

variable {s : VnGroup} (hps : 0 < ps.number)

section

variable (h : VnSchedule ps gcd s)
include h

theorem VnSchedule.note (a : VnAccess) : VnSchedule ps gcd (s.note a) :=
  ⟨h.conf, h.gcd, h.table, h.unweighted⟩

theorem VnSchedule.number : s.ps.number = ps.number :=
  (RrPeers.conf_fields h.conf).1

theorem VnSchedule.weighted : s.ps.weighted = ps.weighted :=
  (RrPeers.conf_fields h.conf).2.2.1

/-- Writing a peer record of the same configuration and the same current weight; the
effective weight matters only while the table is incomplete. -/
theorem VnSchedule.setPeer {i : ℕ} {p : RrPeer} (hp : p.conf = (s.ps.peer i).conf)
    (hcw : p.currentWeight = (s.ps.peer i).currentWeight)
    (hew : (i < s.ps.number → p.effectiveWeight = (s.ps.peer i).effectiveWeight) ∨ (ps.weighted =
      true → s.vnumber = s.capacity)) :
    VnSchedule ps gcd { s with ps := s.ps.setPeer i p } := by
  have hconf := RrPeers.conf_setPeer hp
  have hk : VnKeep s { s with ps := s.ps.setPeer i p } :=
    ⟨hconf, rfl, rfl, rfl, le_refl _, fun _ ha => ha⟩
  refine ⟨hconf.trans h.conf, h.gcd, ?_, h.unweighted⟩
  intro hw
  rw [hk.capacity]
  rcases h.table hw with ⟨c, hrounds, hpeers⟩ | hdone
  · rcases hew with hew | hdone
    · refine Or.inl ⟨c, hrounds, ?_⟩
      intro j hj
      obtain ⟨hc, he⟩ := hpeers j hj
      by_cases hji : j = i
      · subst hji
        simp only [RrPeers.setPeer, update_self]
        exact ⟨hcw.trans hc, (hew hj).trans he⟩
      · simp only [RrPeers.setPeer, update_of_ne hji]
        exact ⟨hc, he⟩
    · exact Or.inr ⟨hdone hw, c, hrounds⟩
  · exact Or.inr hdone

theorem VnSchedule.start (env : RrEnv) : VnSchedule ps gcd (s.start env) := by
  unfold VnGroup.start
  split
  · exact h
  · simp only
    split_ifs <;> exact ⟨h.conf, h.gcd, h.table, h.unweighted⟩

end

include hps

/-- A batch keeps the schedule. -/
theorem VnSchedule.nextBatch (h : VnSchedule ps gcd s) (hw : ps.weighted = true) :
    VnSchedule ps gcd s.nextBatch := by
  have hn : 0 < s.ps.number := by
    rw [h.number]
    exact hps
  have hk := s.nextBatch_keep hn
  rcases h.table hw with hbuilt | ⟨hdone, hrounds⟩
  · refine ⟨hk.conf.trans h.conf, hk.gcd.trans h.gcd, fun _ => Or.inl ?_, ?_⟩
    · exact VnGroup.nextBatch_built hn hbuilt
    · intro hw'
      simp [hw] at hw'
  · rw [VnGroup.nextBatch_complete hdone]
    exact h.note _

/-- The beginning of a walk keeps the schedule. -/
theorem VnSchedule.beginNumber (h : VnSchedule ps gcd s) :
    VnSchedule ps gcd s.beginNumber.2.2 := by
  cases hw : s.ps.weighted with
  | true =>
    simp only [VnGroup.beginNumber, hw, if_true]
    split_ifs
    · exact (h.nextBatch hps (h.weighted.symm.trans hw)).note _
    · exact h.note _
  | false =>
    simp only [VnGroup.beginNumber, hw, Bool.false_eq_true, if_false]
    split
    · exact h
    · split_ifs <;> exact h

/-- A walk keeps the schedule. -/
theorem VnSchedule.vnLoop (h : VnSchedule ps gcd s) (env : RrEnv) (tried : List Word)
    (b fuel i peer : ℕ) : VnSchedule ps gcd (vnLoop env tried b fuel i peer s).2 := by
  cases hw : s.ps.weighted with
  | false =>
    rw [vnLoop_unweighted hw]
    exact h
  | true =>
    induction fuel generalizing i peer s with
    | zero => exact h
    | succ fuel ih =>
      have ht := (h.nextBatch hps (h.weighted.symm.trans hw)).note
        (.read i s.nextBatch.vnumber)
      set t := s.nextBatch.note (.read i s.nextBatch.vnumber) with htdef
      have hwt : t.ps.weighted = true := by
        rw [ht.weighted, ← h.weighted, hw]
      simp only [Hengine.vnLoop, hw, if_true, ← htdef, hwt]
      split_ifs
      · exact ht.note _
      · exact ih (ht.note _) _ _ hwt
      · exact ht

/-- A `get` keeps the schedule: it changes no weight but through batches. -/
theorem VnSchedule.get (h : VnSchedule ps gcd s) (env : RrEnv) (tried : List Word) :
    VnSchedule ps gcd (vnGet env tried s) := by
  have htake : ∀ (t : VnGroup) (p : ℕ), VnSchedule ps gcd t → VnSchedule ps gcd
      { t with ps := t.ps.setPeer p { t.ps.peer p with conns := (t.ps.peer p).conns + 1 } } :=
    fun t p ht => ht.setPeer rfl rfl (Or.inl fun _ => rfl)
  simp only [vnGet]
  split_ifs
  · exact h
  · exact htake _ _ h
  · have h₂ := (h.start env).beginNumber hps
    simp only [upstreamGetVnswrr]
    rcases hbegin : (s.start env).beginNumber with ⟨b, peer, t⟩
    rw [hbegin] at h₂
    have h₃ := h₂.vnLoop hps env tried b t.turns b peer
    rcases hloop : Hengine.vnLoop env tried b t.turns b peer t with ⟨_ | ⟨i, best⟩, u⟩
    · rw [hloop] at h₃
      exact h₃
    · rw [hloop] at h₃
      refine htake _ _ ?_
      have hset := h₃.setPeer (i := best) (p := (u.ps.peer best).win 0 env.now) (by simp)
        (by simp) (Or.inl fun _ => by simp)
      exact ⟨hset.conf, hset.gcd, hset.table, hset.unweighted⟩

omit hps in
/-- A free keeps the schedule, unless it lowers an effective weight of an incomplete
table. -/
theorem VnSchedule.free (hfresh : FreshPeers ps) (h : VnSchedule ps gcd s) {i : ℕ}
    {failed : Bool} {now : ℤ} (hkeep : KeepsWeight s (.free i failed now)) :
    VnSchedule ps gcd (vnFree i failed now s) := by
  simp only [vnFree]
  by_cases hdone : ps.weighted = true → s.vnumber = s.capacity
  · refine h.setPeer ?_ ?_ (Or.inr hdone)
    · split_ifs
      · rfl
      · exact RrPeer.conf_settle _ failed now
    · split_ifs
      · rfl
      · exact RrPeer.currentWeight_settle _ failed now
  · simp only [Classical.not_imp] at hdone
    obtain ⟨hw, hopen⟩ := hdone
    obtain ⟨c, -, hpeers⟩ := (h.table hw).resolve_right fun hd => hopen hd.1
    cases hs : s.ps.single with
    | true =>
      simp only [if_true]
      exact h.setPeer rfl rfl (Or.inl fun _ => rfl)
    | false =>
      simp only [Bool.false_eq_true, if_false]
      refine h.setPeer (RrPeer.conf_settle _ failed now)
        (RrPeer.currentWeight_settle _ failed now) (Or.inl fun hi => ?_)
      have hweight : (s.ps.peer i).weight = (ps.peer i).weight :=
        (RrPeers.conf_fields h.conf).2.2.2.2 i
      have hew : (s.ps.peer i).effectiveWeight = (s.ps.peer i).weight := by
        rw [hweight]
        exact (hpeers i hi).2
      have hpos : 0 < (s.ps.peer i).weight := by
        rw [hweight]
        exact (hfresh.peer i (by rw [← h.number]; exact hi)).weight_pos
      exact RrPeer.effectiveWeight_settle_eq now hew hpos fun hf =>
        hkeep hf (h.weighted.trans hw) hopen hs

end Calls

/-! ### Runs -/

/-- **One step** keeps to the schedule. -/
theorem VnSchedule.step (hfresh : FreshPeers ps) (h : VnSchedule ps gcd s) {e : VnEvent}
    (hkeep : KeepsWeight s e) : VnSchedule ps gcd (vnStep s e) := by
  cases e with
  | get env tried => exact h.get hfresh.number_pos env tried
  | free i failed now => exact h.free hfresh hkeep

/-- A configured group starts on the schedule: its first batch is built from zero. -/
theorem initVnGroup_schedule (hfresh : FreshPeers ps) (maxInit : ℕ) :
    VnSchedule ps gcd (initVnGroup ps gcd maxInit) := by
  set s₀ : VnGroup := { ps := ps, maxInit := effectiveMaxInit ps maxInit, gcd := gcd } with hs₀
  have hbuilt : VnBuilt (fun j => (ps.peer j).weight) s₀ 0 := by
    refine ⟨fun _ => 0, ⟨[], rfl, by simp, .nil⟩, ?_⟩
    intro j hj
    exact ⟨(hfresh.peer j hj).current, (hfresh.peer j hj).effective⟩
  cases hw : ps.weighted with
  | true =>
    have hdef : initVnGroup ps gcd maxInit
        = upstreamInitVirtualPeers s₀ 0 (effectiveMaxInit ps maxInit) := by
      simp [initVnGroup, hw, ← hs₀]
    have hk := initVirtualPeers_keep s₀ hfresh.number_pos (b := 0)
      (e := effectiveMaxInit ps maxInit) (Nat.zero_le _)
    rw [hdef]
    refine ⟨hk.conf, hk.gcd, fun _ => Or.inl ?_, by simp [hw]⟩
    exact initVirtualPeers_built hfresh.number_pos (Nat.zero_le _) hbuilt
  | false =>
    have hdef : initVnGroup ps gcd maxInit = s₀ := by
      simp [initVnGroup, hw, hs₀]
    rw [hdef]
    exact ⟨rfl, rfl, by simp [hw], fun _ => rfl⟩

/-- **A complete table is exact**: it is a run of the schedule of total weight over divisor
many rounds. -/
theorem VnSchedule.spread (hc : VnConf ps gcd) (h : VnSchedule ps gcd s)
    (hle : s.vnumber ≤ s.capacity) : VnSpread s := by
  intro hfull i hi
  have hdone : s.vnumber = s.capacity := hle.antisymm hfull
  obtain ⟨hnum, htotal, hweighted, -, hweight⟩ := RrPeers.conf_fields h.conf
  have hcap : s.capacity = ps.totalWeight / gcd := by
    rw [VnGroup.capacity, htotal, h.gcd]
  have hgcd : (0 : ℤ) < gcd := Int.natCast_pos.mpr hc.gcd_pos
  have hrounds : ∃ c, VnRounds (fun j => (ps.peer j).weight) s.ps.number s s.vnumber c := by
    cases hw : ps.weighted with
    | true =>
      rcases h.table hw with ⟨c, hr, -⟩ | ⟨-, hr⟩
      · exact ⟨c, hr⟩
      · exact hr
    | false =>
      have hzero := h.unweighted hw
      have hroom := hc.number_le
      have hpos := hc.fresh.number_pos
      omega
  obtain ⟨c, is, hlen, hent, hrounds⟩ := hrounds
  -- the table as a list is the list of the picks
  have htable : (List.range s.vnumber).map s.vpeers = is.map some := by
    refine ext_getElem? ?_
    intro j
    by_cases hj : j < s.vnumber
    · have hjl : j < is.length := by omega
      simp [hj, hent j hj, hjl]
    · have hjl : is.length ≤ j := by omega
      simp [hj, hjl]
  have hdvd : (gcd : ℤ) ∣ ∑ j ∈ Finset.range ps.number, (ps.peer j).weight :=
    Finset.dvd_sum fun j hj => hc.dvd j (Finset.mem_range.mp hj)
  have hcapmul : (s.capacity : ℤ) * gcd = ∑ j ∈ Finset.range ps.number, (ps.peer j).weight := by
    rw [hcap, ← hc.fresh.total]
    rw [← hc.fresh.total] at hdvd
    have hnat : gcd ∣ ps.totalWeight := Int.natCast_dvd_natCast.mp hdvd
    exact_mod_cast Nat.div_mul_cancel hnat
  rw [hnum] at hrounds
  have hexact := hrounds.exact (n := fun j => (ps.peer j).weight / gcd) (fun _ _ => rfl)
    (fun j hj => (hc.fresh.peer j (Finset.mem_range.mp hj)).weight_pos.le)
    (Finset.sum_pos (fun j hj => (hc.fresh.peer j (Finset.mem_range.mp hj)).weight_pos)
      ⟨0, Finset.mem_range.mpr hc.fresh.number_pos⟩)
    (by
      intro j hj
      have hj := Finset.mem_range.mp hj
      calc (is.length : ℤ) * (ps.peer j).weight
          = s.capacity * (gcd * ((ps.peer j).weight / gcd)) := by
            rw [hlen, hdone, Int.mul_ediv_cancel' (hc.dvd j hj)]
        _ = (ps.peer j).weight / gcd * (s.capacity * gcd) := by ring
        _ = (ps.peer j).weight / gcd * ∑ k ∈ Finset.range ps.number, (ps.peer k).weight := by
            rw [hcapmul])
    i (Finset.mem_range.mpr (by rw [← hnum]; exact hi))
  rw [htable, count_map_of_injective _ _ (Option.some_injective ℕ), hweight i, h.gcd]
  exact hexact.1

theorem five_pos : 0 < 5 := Nat.succ_pos 4

theorem five_lt : 5 < 2 ^ 63 := by norm_num

theorem two_lt : 2 < 2 ^ 63 := by norm_num

/-- Two servers of weights five and two. -/
def unevenServers : List UpstreamServer :=
  [{ name := "a", addrs := [([1], "a:82")], weight := 5
     weight_pos := five_pos, weight_lt := five_lt, addrs_ne := cons_ne_nil _ _ },
   { name := "b", addrs := [([2], "b:82")], weight := 2
     weight_pos := Nat.two_pos, weight_lt := two_lt, addrs_ne := cons_ne_nil _ _ }]

/-- The uneven pair as configuration leaves it. -/
def unevenUpstream : Upstream :=
  (upstreamInitRoundRobin (fun _ _ => checkIndexError) (.servers "backend" unevenServers)).getD
    { peers := fun _ => {}, next := false }

theorem unevenUpstream_init :
    upstreamInitRoundRobin (fun _ _ => checkIndexError) (.servers "backend" unevenServers)
      = some unevenUpstream := rfl

/-- The uneven pair at the start, with `max_init` not set: batches of two entries. -/
def unevenGroup : VnGroup :=
  upstreamInitVnswrr unevenUpstream unevenServers 0 .primary

/-- A request at time `now` with nothing tried. -/
def unevenGet (now : ℤ) : VnEvent :=
  .get { now := now, random := 0, checkPeerDown := fun _ => false } [0#64]

end Hengine
