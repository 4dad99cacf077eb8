import Hengine.Upstream.Peers
import Mathlib.Algebra.Order.BigOperators.Group.Finset
import Mathlib.Tactic.Linarith

/-!
# The Round-Robin Balancer

`upstreamGetPeer` and `upstreamGetRoundRobinPeer` of `ngx_http_upstream_round_robin.c`.

The scan over the peers is a fold: each index of the scan order is either skipped or
visited, and a visit credits the peer with its effective weight and compares it with the
best one so far. The same visit stands in the second loop of the least-connections
balancer, in the consistent-hash balancer and, without the recovery of the effective
weight, in the virtual-node balancer, so it is a definition of its own.
The build always has `T_NGX_HTTP_UPSTREAM_RANDOM`: the scan starts at `init_number`,
drawn at random by the first request of a worker. Starting at index `0` is the plain scan.

The block after the label `failed` is the same text in three balancers: move to
`peers->next`, clear the words of its bitmap, try again there, and report `NGX_BUSY` with
the name of the outer group. It is `getWithBackup`, over the balancer's way of picking
from one group.
-/

namespace Hengine

open List Function

/-- What one call of a balancer reads of the outside: `ngx_time()`, `ngx_random()` and
the health-check table behind `ngx_http_upstream_check_peer_down`. -/
structure RrEnv where
  now : ℤ
  random : ℕ
  checkPeerDown : ℕ → Bool

/-- `max_fails && fails >= max_fails && now - checked <= fail_timeout`. -/
def RrPeer.failing (p : RrPeer) (now : ℤ) : Bool :=
  decide (p.maxFails ≠ 0) && decide (p.maxFails ≤ p.fails)
    && decide (now - p.checked ≤ p.failTimeout)

/-- `max_conns && conns >= max_conns`. -/
def RrPeer.full (p : RrPeer) : Bool :=
  decide (p.maxConns ≠ 0) && decide (p.maxConns ≤ p.conns)

/-- A peer that no request may be sent to at this moment. -/
def RrPeer.unavailable (env : RrEnv) (p : RrPeer) : Bool :=
  p.down || env.checkPeerDown p.checkIndex || p.failing env.now || p.full

/-- The tests before the first statement of the scan loop that changes anything: tried in
this request, down, reported down, failing, or full. -/
def peerSkip (env : RrEnv) (tried : List Word) (i : ℕ) (p : RrPeer) : Bool :=
  testBit tried i || p.unavailable env

/-! ### The scan -/

/-- The credit of one visit: the current weight grows by the effective weight, which
itself recovers by one towards the configured weight. -/
def RrPeer.bump (p : RrPeer) : RrPeer :=
  { p with
    currentWeight := p.currentWeight + p.effectiveWeight
    effectiveWeight :=
      if p.effectiveWeight < p.weight then p.effectiveWeight + 1 else p.effectiveWeight }

/-- The variables of the scan loop. -/
structure RrScan where
  peer : ℕ → RrPeer
  total : ℤ
  best : Option ℕ

/-- The body of the scan loop for a peer that is not skipped, over the way `credit` in
which it credits the peer. -/
def RrScan.visit (credit : RrPeer → RrPeer) (s : RrScan) (i : ℕ) : RrScan :=
  let peer := update s.peer i (credit (s.peer i))
  { peer := peer
    total := s.total + (s.peer i).effectiveWeight
    best := match s.best with
      | none => some i
      | some b =>
        if (peer i).currentWeight > (peer b).currentWeight then some i else some b }

/-- One turn of the scan loop. -/
def RrScan.turn (credit : RrPeer → RrPeer) (skip : ℕ → RrPeer → Bool) (s : RrScan) (i : ℕ) :
    RrScan :=
  if skip i (s.peer i) then s else s.visit credit i

/-- The scan loop over a list of indices. -/
def swrrScan (credit : RrPeer → RrPeer) (skip : ℕ → RrPeer → Bool) (order : List ℕ)
    (peer : ℕ → RrPeer) : RrScan :=
  order.foldl (RrScan.turn credit skip) { peer := peer, total := 0, best := none }

/-- The indices from `init` on, wrapping at `number`. -/
def scanOrder (number init : ℕ) : List ℕ :=
  (List.range number).rotate init

/-- The record of the winner: `current_weight -= total`, and `checked` moves to the
present when the fail timeout has passed. -/
def RrPeer.win (p : RrPeer) (total now : ℤ) : RrPeer :=
  let p := { p with currentWeight := p.currentWeight - total }
  if now - p.checked > p.failTimeout then { p with checked := now } else p

/-- `ngx_http_upstream_get_peer`: the index of the picked peer, or `none` for `NULL`. -/
def upstreamGetPeer (env : RrEnv) (ps : RrPeers) (rrp : RrPeerData) :
    Option ℕ × RrPeers × RrPeerData :=
  let init := ps.initNumber.getD (env.random % ps.number)
  let s := swrrScan RrPeer.bump (peerSkip env rrp.tried) (scanOrder ps.number init) ps.peer
  match s.best with
  | none => (none, { ps with initNumber := some init, peer := s.peer }, rrp)
  | some p =>
    (some p,
     { ps with
       initNumber := some init
       peer := update s.peer p ((s.peer p).win s.total env.now) },
     { rrp with current := some (rrp.group, p), tried := setBit rrp.tried p })

/-! ### Getting a peer, with fall-over to the backup group -/

/-- The result codes of a balancer. -/
inductive Rc
  | ok
  | busy
  deriving DecidableEq

/-- What a `get` call works on: the shared upstream, the connection and round-robin data
of the request, and the balancer's own data. -/
structure GetState (δ : Type) where
  up : Upstream
  pc : PeerConnection
  rrp : RrPeerData
  priv : δ

variable {δ : Type}

/-- The end of a successful `get`: address and name are copied out and `conns++`. -/
def GetState.takePeer (s : GetState δ) (g : Group) (i : ℕ) : GetState δ :=
  let peer := (s.up.peers g).peer i
  { s with
    up := s.up.setPeer g i { peer with conns := peer.conns + 1 }
    pc := { s.pc with sockaddr := some peer.sockaddr, name := peer.name } }

/-- The move to `peers->next` and the clearing of its bitmap words. -/
def GetState.toBackup (s : GetState δ) : GetState δ :=
  { s with
    rrp := { s.rrp with
      group := .backup
      tried := clearWords s.rrp.tried (groupWords (s.up.peers .backup)) } }

/-- A balancer's `get` from its way of picking in the current group: on failure the
request moves to the backup group, where the same is tried once more. -/
def getWithBackup (pick : GetState δ → Bool × GetState δ) (s : GetState δ) :
    Rc × GetState δ :=
  let s := { s with pc := { s.pc with cached := false, connection := none } }
  let name := (s.up.peers s.rrp.group).name
  match pick s with
  | (true, s) => (.ok, s)
  | (false, s) =>
    if s.rrp.group = .primary ∧ s.up.next = true then
      match pick s.toBackup with
      | (true, s) => (.ok, s)
      | (false, s) => (.busy, { s with pc := { s.pc with name := name } })
    else
      (.busy, { s with pc := { s.pc with name := name } })

/-- Picking from the current group by round robin. A single peer is taken unless it is
down, full or reported down; its failures and the bitmap are not looked at. -/
def rrPick (env : RrEnv) (s : GetState δ) : Bool × GetState δ :=
  let g := s.rrp.group
  let ps := s.up.peers g
  if ps.single then
    let peer := ps.peer 0
    if peer.down || peer.full || env.checkPeerDown peer.checkIndex then (false, s)
    else (true, { s with rrp := { s.rrp with current := some (g, 0) } }.takePeer g 0)
  else
    match upstreamGetPeer env ps s.rrp with
    | (none, ps, rrp) => (false, { s with up := s.up.set g ps, rrp := rrp })
    | (some p, ps, rrp) => (true, { s with up := s.up.set g ps, rrp := rrp }.takePeer g p)

/-- `ngx_http_upstream_get_round_robin_peer`. -/
def upstreamGetRoundRobinPeer (env : RrEnv) : GetState δ → Rc × GetState δ :=
  getWithBackup (rrPick env)

/-! ### The scan, specified -/

theorem nodup_scanOrder (number init : ℕ) : (scanOrder number init).Nodup :=
  nodup_rotate.mpr nodup_range

theorem mem_scanOrder {number init i : ℕ} : i ∈ scanOrder number init ↔ i < number := by
  simp [scanOrder]

/-- What a scan over the indices `l` leaves: the peers that are not skipped are credited,
the total is their summed effective weight, and the best one has the greatest current
weight among them. -/
structure ScanSpec (credit : RrPeer → RrPeer) (skip : ℕ → RrPeer → Bool) (peer : ℕ → RrPeer)
    (l : List ℕ) (s : RrScan) : Prop where
  peer_eq : ∀ i, s.peer i
    = if i ∈ l ∧ skip i (peer i) = false then credit (peer i) else peer i
  total_eq : s.total
    = ∑ i ∈ l.toFinset with skip i (peer i) = false, (peer i).effectiveWeight
  best_none : s.best = none → ∀ i ∈ l, skip i (peer i) = true
  best_some : ∀ b, s.best = some b → b ∈ l ∧ skip b (peer b) = false ∧
    ∀ i ∈ l, skip i (peer i) = false →
      (s.peer i).currentWeight ≤ (s.peer b).currentWeight

/-- One turn at a new index extends the specification by that index. -/
theorem ScanSpec.turn {credit : RrPeer → RrPeer} {skip : ℕ → RrPeer → Bool}
    {peer : ℕ → RrPeer} {l : List ℕ} {s : RrScan} {a : ℕ}
    (h : ScanSpec credit skip peer l s) (ha : a ∉ l) :
    ScanSpec credit skip peer (l ++ [a]) (s.turn credit skip a) := by
  have hpa : s.peer a = peer a := by
    rw [h.peer_eq a, if_neg fun hc => ha hc.1]
  have hmem : ∀ i, i ∈ l ++ [a] ↔ i ∈ l ∨ i = a := by
    intro i
    simp
  have hfin : (l ++ [a]).toFinset = insert a l.toFinset := by
    ext i
    simp
  have hafin : a ∉ (l.toFinset.filter fun i => skip i (peer i) = false) := by
    intro hc
    exact ha (mem_toFinset.mp (Finset.mem_filter.mp hc).1)
  unfold RrScan.turn
  rw [hpa]
  cases hskip : skip a (peer a) with
  | true =>
    rw [if_pos rfl]
    refine ⟨?_, ?_, ?_, ?_⟩
    · intro i
      rw [h.peer_eq i]
      by_cases hia : i = a
      · subst hia
        simp [ha, hskip]
      · simp [hmem, hia]
    · rw [h.total_eq, hfin, Finset.filter_insert, if_neg (by simp [hskip])]
    · intro hb i hi
      rcases (hmem i).mp hi with hi | rfl
      · exact h.best_none hb i hi
      · exact hskip
    · intro b hb
      obtain ⟨hbl, hbs, hmax⟩ := h.best_some b hb
      refine ⟨(hmem b).mpr (Or.inl hbl), hbs, ?_⟩
      intro i hi his
      rcases (hmem i).mp hi with hi | rfl
      · exact hmax i hi his
      · rw [hskip] at his
        exact absurd his (by simp)
  | false =>
    rw [if_neg (by simp)]
    have hvisit : ∀ i, (s.visit credit a).peer i
        = if i = a then credit (peer a) else s.peer i := by
      intro i
      by_cases hia : i = a
      · subst hia
        simp [RrScan.visit, hpa]
      · simp [RrScan.visit, hia]
    refine ⟨?_, ?_, ?_, ?_⟩
    · intro i
      rw [hvisit i, h.peer_eq i]
      by_cases hia : i = a
      · subst hia
        simp [hskip]
      · simp [hia]
    · rw [hfin, Finset.filter_insert, if_pos hskip, Finset.sum_insert hafin,
        ← h.total_eq]
      simp only [RrScan.visit, hpa]
      ring
    · intro hb
      cases hs : s.best with
      | none => simp [RrScan.visit, hs] at hb
      | some c =>
        simp only [RrScan.visit, hs] at hb
        split_ifs at hb
    · intro b hb
      have hcw : ∀ i ∈ l, (s.visit credit a).peer i = s.peer i := by
        intro i hi
        rw [hvisit i, if_neg fun hc : i = a => ha (hc ▸ hi)]
      cases hs : s.best with
      | none =>
        have hba : b = a := by
          simpa [RrScan.visit, hs] using hb.symm
        subst hba
        refine ⟨by simp, hskip, ?_⟩
        intro i hi his
        rcases (hmem i).mp hi with hi | rfl
        · rw [h.best_none hs i hi] at his
          exact absurd his (by simp)
        · exact le_refl _
      | some c =>
        obtain ⟨hcl, hcs, hmax⟩ := h.best_some c hs
        have hca : c ≠ a := fun hc => ha (hc ▸ hcl)
        have hbest : (s.visit credit a).best
            = if ((s.visit credit a).peer a).currentWeight > ((s.visit credit a).peer c).currentWeight
              then some a else some c := by
          simp [RrScan.visit, hs]
        rw [hbest] at hb
        split_ifs at hb with hgt
        · obtain rfl := Option.some.inj hb
          refine ⟨by simp, hskip, ?_⟩
          intro i hi his
          rcases (hmem i).mp hi with hi | rfl
          · rw [hcw c hcl] at hgt
            rw [hcw i hi]
            exact le_trans (hmax i hi his) hgt.le
          · exact le_refl _
        · obtain rfl := Option.some.inj hb
          refine ⟨(hmem c).mpr (Or.inl hcl), hcs, ?_⟩
          intro i hi his
          rcases (hmem i).mp hi with hi | rfl
          · rw [hcw i hi, hcw c hcl]
            exact hmax i hi his
          · exact not_lt.mp hgt

/-- **The scan.** -/
theorem swrrScan_spec (credit : RrPeer → RrPeer) (skip : ℕ → RrPeer → Bool)
    (peer : ℕ → RrPeer) {l : List ℕ} (hnd : l.Nodup) :
    ScanSpec credit skip peer l (swrrScan credit skip l peer) := by
  induction l using List.reverseRecOn with
  | nil =>
    refine ⟨?_, ?_, ?_, ?_⟩ <;> simp [swrrScan]
  | append_singleton l a ih =>
    have hnd' := nodup_append.mp hnd
    have ha : a ∉ l := fun hal => (hnd'.2.2 a hal a (by simp)) rfl
    have hscan : swrrScan credit skip (l ++ [a]) peer
        = (swrrScan credit skip l peer).turn credit skip a := by
      simp [swrrScan]
    rw [hscan]
    exact (ih hnd'.1).turn ha

/-! ### Picks

Every balancer of this repository that works on the shared peers ends a pick in the same
way: the peers of some set were credited, one peer wins, pays the credits back and may
have `checked` refreshed. `SwrrPick` says this once; the set is empty where the balancer
chooses without credits. -/

/-- The configured part of a peer record. -/
def RrPeer.conf (p : RrPeer) : RrPeer :=
  { p with
    currentWeight := 0, effectiveWeight := 0, conns := 0, fails := 0, accessed := 0
    checked := 0 }

/-- The configured part of a group. -/
def RrPeers.conf (ps : RrPeers) : RrPeers :=
  { ps with initNumber := none, peer := fun i => (ps.peer i).conf }

/-- The configured part of an upstream. -/
def Upstream.conf (up : Upstream) : Upstream :=
  { up with peers := fun g => (up.peers g).conf }

/-- Writing a peer record with the same configured part leaves the configuration alone. -/
theorem Upstream.conf_setPeer {up : Upstream} {g : Group} {i : ℕ} {p : RrPeer}
    (h : p.conf = ((up.peers g).peer i).conf) : (up.setPeer g i p).conf = up.conf := by
  have hpeers : ∀ k, ((up.setPeer g i p).peers k).conf = (up.peers k).conf := by
    intro k
    have hpeer : (fun j => (((up.setPeer g i p).peers k).peer j).conf)
        = fun j => ((up.peers k).peer j).conf := by
      funext j
      rw [Upstream.peer_setPeer]
      split_ifs with hkj
      · rw [h, hkj.1, hkj.2]
      · rfl
    by_cases hk : k = g
    · subst hk
      simp only [RrPeers.conf, hpeer]
      simp [Upstream.setPeer, Upstream.set, RrPeers.setPeer]
    · simp [Upstream.setPeer, Upstream.set, hk]
  simp only [Upstream.conf, hpeers]
  rfl

/-- The round-robin state invariant of a group. -/
structure Balanced (ps : RrPeers) : Prop where
  effective : ∀ i < ps.number,
    0 ≤ (ps.peer i).effectiveWeight ∧ (ps.peer i).effectiveWeight ≤ (ps.peer i).weight
  current : ∑ i ∈ Finset.range ps.number, (ps.peer i).currentWeight = 0

/-- Group `ps'` is group `ps` after the peers of `A` were credited and `p` won. -/
structure SwrrPick (ps ps' : RrPeers) (A : Finset ℕ) (p : ℕ) (now : ℤ) : Prop where
  lt : p < ps.number
  sub : ∀ i ∈ A, i < ps.number
  frame : ps' = { ps with initNumber := ps'.initNumber, peer := ps'.peer }
  peer_eq : ∀ i, ps'.peer i =
    let q := if i ∈ A then (ps.peer i).bump else ps.peer i
    if i = p then q.win (∑ j ∈ A, (ps.peer j).effectiveWeight) now else q

@[simp] theorem RrPeer.conf_bump (p : RrPeer) : p.bump.conf = p.conf := rfl

@[simp] theorem RrPeer.conf_win (p : RrPeer) (total now : ℤ) :
    (p.win total now).conf = p.conf := by
  unfold RrPeer.win
  simp only
  split_ifs <;> rfl

@[simp] theorem RrPeer.conf_settle (p : RrPeer) (failed : Bool) (now : ℤ) :
    (p.settle failed now).conf = p.conf := by
  simp only [RrPeer.settle]
  split_ifs <;> rfl

@[simp] theorem RrPeer.conns_win (p : RrPeer) (total now : ℤ) :
    (p.win total now).conns = p.conns := by
  unfold RrPeer.win
  simp only
  split_ifs <;> rfl

@[simp] theorem RrPeer.weight_win (p : RrPeer) (total now : ℤ) :
    (p.win total now).weight = p.weight := by
  unfold RrPeer.win
  simp only
  split_ifs <;> rfl

@[simp] theorem RrPeer.effectiveWeight_win (p : RrPeer) (total now : ℤ) :
    (p.win total now).effectiveWeight = p.effectiveWeight := by
  unfold RrPeer.win
  simp only
  split_ifs <;> rfl

@[simp] theorem RrPeer.currentWeight_win (p : RrPeer) (total now : ℤ) :
    (p.win total now).currentWeight = p.currentWeight - total := by
  unfold RrPeer.win
  simp only
  split_ifs <;> rfl

/-- Raising an effective weight keeps it within the weight. -/
theorem RrPeer.bump_bounds {p : RrPeer}
    (h : 0 ≤ p.effectiveWeight ∧ p.effectiveWeight ≤ p.weight) :
    0 ≤ p.bump.effectiveWeight ∧ p.bump.effectiveWeight ≤ p.bump.weight := by
  simp only [RrPeer.bump]
  split_ifs <;> omega

variable {ps ps' : RrPeers} {A : Finset ℕ} {p : ℕ} {now : ℤ}

section

variable (h : SwrrPick ps ps' A p now)
include h

theorem SwrrPick.number_eq : ps'.number = ps.number := by
  rw [h.frame]

theorem SwrrPick.conf_eq : ps'.conf = ps.conf := by
  have hpeer : (fun i => (ps'.peer i).conf) = fun i => (ps.peer i).conf := by
    funext i
    rw [h.peer_eq i]
    simp only
    split_ifs <;> simp
  rw [h.frame]
  simp only [RrPeers.conf, hpeer]

theorem SwrrPick.conns_eq (i : ℕ) : (ps'.peer i).conns = (ps.peer i).conns := by
  rw [h.peer_eq i]
  simp only
  split_ifs <;> simp [RrPeer.bump]

/-- The current weight of each peer after a pick. -/
theorem SwrrPick.currentWeight_eq (i : ℕ) :
    (ps'.peer i).currentWeight = (ps.peer i).currentWeight
      + (if i ∈ A then (ps.peer i).effectiveWeight else 0)
      - (if i = p then ∑ j ∈ A, (ps.peer j).effectiveWeight else 0) := by
  rw [h.peer_eq i]
  simp only
  split_ifs <;> simp [RrPeer.bump]

/-- A choice leaves the sum of the current weights alone. -/
theorem SwrrPick.sum_currentWeight :
    ∑ i ∈ Finset.range ps'.number, (ps'.peer i).currentWeight
      = ∑ i ∈ Finset.range ps.number, (ps.peer i).currentWeight := by
  have hsub : (Finset.range ps.number).filter (· ∈ A) = A := by
    ext i
    simp only [Finset.mem_filter, Finset.mem_range]
    exact ⟨fun hi => hi.2, fun hi => ⟨h.sub i hi, hi⟩⟩
  rw [h.number_eq, Finset.sum_congr rfl fun i _ => h.currentWeight_eq i,
    Finset.sum_sub_distrib, Finset.sum_add_distrib, Finset.sum_ite_eq',
    if_pos (Finset.mem_range.mpr h.lt), ← Finset.sum_filter, hsub]
  ring

/-- **A pick keeps the group balanced.** -/
theorem SwrrPick.balanced (hb : Balanced ps) :
    Balanced ps' where
  effective := by
    intro i hi
    rw [h.number_eq] at hi
    rw [h.peer_eq i]
    simp only
    have hold := hb.effective i hi
    split_ifs <;> simp [RrPeer.bump_bounds hold, hold]
  current := by rw [h.sum_currentWeight, hb.current]

end

/-- A scan that found a best peer ends in a pick of it. -/
theorem ScanSpec.pick {skip : ℕ → RrPeer → Bool} {l : List ℕ} {s : RrScan} {b : ℕ}
    (h : ScanSpec RrPeer.bump skip ps.peer l s) (hl : ∀ i ∈ l, i < ps.number) (hb : s.best = some b)
    (init : Option ℕ) (now : ℤ) :
    SwrrPick ps
      { ps with
        initNumber := init
        peer := update s.peer b ((s.peer b).win s.total now) }
      (l.toFinset.filter fun i => skip i (ps.peer i) = false) b now := by
  obtain ⟨hbl, hbs, -⟩ := h.best_some b hb
  have hmem : ∀ i, i ∈ (l.toFinset.filter fun i => skip i (ps.peer i) = false) ↔
      i ∈ l ∧ skip i (ps.peer i) = false := by
    intro i
    simp
  refine ⟨hl b hbl, fun i hi => hl i ((hmem i).mp hi).1, rfl, ?_⟩
  intro i
  have hpeer := h.peer_eq i
  rw [← if_congr (hmem i) rfl rfl] at hpeer
  by_cases hib : i = b
  · subst hib
    simp [hpeer, h.total_eq]
  · simp only [update_of_ne hib, hpeer, if_neg hib]

/-! ### The two outcomes of `upstreamGetPeer` -/

/-- The peers of a group that the scan does not skip. -/
def eligible (env : RrEnv) (ps : RrPeers) (tried : List Word) : Finset ℕ :=
  (Finset.range ps.number).filter fun i => peerSkip env tried i (ps.peer i) = false

theorem toFinset_scanOrder (number init : ℕ) :
    (scanOrder number init).toFinset = Finset.range number := by
  ext i
  simp [mem_scanOrder]

/-- Without a peer every index was skipped, and only `init_number` may have changed. -/
theorem upstreamGetPeer_none {env : RrEnv} {rrp rrp' : RrPeerData}
    (h : upstreamGetPeer env ps rrp = (none, ps', rrp')) :
    rrp' = rrp ∧ ps' = { ps with initNumber := ps'.initNumber } ∧
      ∀ i < ps.number, peerSkip env rrp.tried i (ps.peer i) = true := by
  simp only [upstreamGetPeer] at h
  set init := ps.initNumber.getD (env.random % ps.number) with hinit
  have hspec := swrrScan_spec RrPeer.bump (peerSkip env rrp.tried) ps.peer
    (nodup_scanOrder ps.number init)
  cases hbest : (swrrScan RrPeer.bump (peerSkip env rrp.tried) (scanOrder ps.number init) ps.peer).best
    with
  | some b => simp [hbest] at h
  | none =>
    rw [hbest] at h
    simp only [Prod.mk.injEq, true_and] at h
    obtain ⟨rfl, rfl⟩ := h
    have hskip : ∀ i < ps.number, peerSkip env rrp.tried i (ps.peer i) = true :=
      fun i hi => hspec.best_none hbest i (mem_scanOrder.mpr hi)
    have hpeer : (swrrScan RrPeer.bump (peerSkip env rrp.tried) (scanOrder ps.number init) ps.peer).peer
        = ps.peer := by
      funext i
      rw [hspec.peer_eq i, if_neg]
      rintro ⟨hi, hns⟩
      rw [hskip i (mem_scanOrder.mp hi)] at hns
      exact absurd hns (by simp)
    exact ⟨rfl, by rw [hpeer], hskip⟩

/-- With a peer: it was eligible, all eligible peers were credited, it has the greatest
credited weight, and the request remembers it as tried. -/
theorem upstreamGetPeer_some {env : RrEnv} {rrp rrp' : RrPeerData}
    (h : upstreamGetPeer env ps rrp = (some p, ps', rrp')) :
    SwrrPick ps ps' (eligible env ps rrp.tried) p env.now ∧
      p ∈ eligible env ps rrp.tried ∧
      (∀ i ∈ eligible env ps rrp.tried,
        (ps.peer i).currentWeight + (ps.peer i).effectiveWeight
          ≤ (ps.peer p).currentWeight + (ps.peer p).effectiveWeight) ∧
      rrp' = { rrp with current := some (rrp.group, p), tried := setBit rrp.tried p } := by
  simp only [upstreamGetPeer] at h
  set init := ps.initNumber.getD (env.random % ps.number) with hinit
  have hspec := swrrScan_spec RrPeer.bump (peerSkip env rrp.tried) ps.peer
    (nodup_scanOrder ps.number init)
  set s := swrrScan RrPeer.bump (peerSkip env rrp.tried) (scanOrder ps.number init) ps.peer with hs
  cases hbest : s.best with
  | none => simp [hbest] at h
  | some b =>
    rw [hbest] at h
    simp only [Prod.mk.injEq, Option.some.injEq] at h
    obtain ⟨rfl, rfl, rfl⟩ := h
    obtain ⟨hbl, hbs, hmax⟩ := hspec.best_some b hbest
    have hset : ((scanOrder ps.number init).toFinset.filter fun i =>
        peerSkip env rrp.tried i (ps.peer i) = false) = eligible env ps rrp.tried := by
      rw [toFinset_scanOrder, eligible]
    have hmem : ∀ i, i ∈ eligible env ps rrp.tried ↔
        i ∈ scanOrder ps.number init ∧ peerSkip env rrp.tried i (ps.peer i) = false := by
      intro i
      simp [eligible, mem_scanOrder]
    have hb : b ∈ eligible env ps rrp.tried := (hmem b).mpr ⟨hbl, hbs⟩
    have hpick := hspec.pick (fun i hi => mem_scanOrder.mp hi) hbest (some init) env.now
    rw [hset] at hpick
    refine ⟨hpick, hb, ?_, rfl⟩
    intro i hi
    have hcw := hmax i ((hmem i).mp hi).1 ((hmem i).mp hi).2
    rw [hspec.peer_eq i, hspec.peer_eq b, if_pos ((hmem i).mp hi),
      if_pos ((hmem b).mp hb)] at hcw
    exact hcw

end Hengine
