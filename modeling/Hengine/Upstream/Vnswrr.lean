import Hengine.Lib.Machine
import Hengine.Upstream.RoundRobin
import Mathlib.Algebra.BigOperators.GroupWithZero.Action

/-!
# The Virtual-Node Balancer

`ngx_http_upstream_vnswrr_module.c`. A weighted group has a table `vpeers` of virtual
peers: the sequence of the smooth schedule, produced in batches of `max_init` entries, the
first at configuration and the others while requests are served. A request walks the table
from the entry after the last one used.

The table is allocated for `total_weight / gcd` entries; `max_init` is bounded by
`total_weight`, which is more when the weights have a common divisor. The first request
reads the entry of a random peer number, which the first batch may not have reached. And
`total_weight` and the size in bytes are unsigned words: both wrap, and a table of `2 ^ 60`
entries or more is allocated too small.

The state of one group carries a ghost log of the accesses the claim of safety is about:
each read with the number of entries built, each write with the allocated number, and each
subtraction that computes a batch. An entry that was never written is zero: `vpeer` is
`NULL` and `rindex` is `0`.

Which peer an entry names plays no part in the bounds: `total` and the current weights are
`ngx_int_t` and are taken to fit.

Requests come with any bitmap, at any time and with any health-check report, and any peer
may be freed at any time, so every behaviour of requests over the group is a run.
-/

namespace Hengine

open List Function

/-! ### The model -/

/-- An access of the table, or a subtraction of two `ngx_uint_t`. -/
inductive VnAccess
  | read (i vnumber : ℕ)
  | write (i allocated : ℕ)
  | sub (a b : ℕ)

/-- Reads are below the entries built, writes below the entries allocated, and subtractions
do not wrap. -/
def VnAccess.Ok : VnAccess → Prop
  | .read i vnumber => i < vnumber
  | .write i allocated => i < allocated
  | .sub a b => b ≤ a

/-- A group of peers with its `ngx_http_upstream_vnswrr_srv_conf_t`. `NGX_CONF_UNSET_UINT`
is `none`; an entry of the table is the index of its peer, which is `rindex` too. `log` is
a ghost. -/
structure VnGroup where
  ps : RrPeers
  maxInit : ℕ
  gcd : ℕ
  vnumber : ℕ := 0
  lastNumber : Option ℕ := none
  initNumber : Option ℕ := none
  lastPeer : Option ℕ := none
  vpeers : ℕ → Option ℕ := fun _ => none
  log : List VnAccess := []

/-- `peers->total_weight / uvnscf->gcd`, the number of entries of the complete table. -/
def VnGroup.capacity (s : VnGroup) : ℕ :=
  s.ps.totalWeight / s.gcd

/-- The number of entries the table has room for: an entry takes 16 bytes, and the size
`sizeof(ngx_http_upstream_rr_vpeers_t) * total_weight / gcd` is computed in a `size_t`. -/
def VnGroup.allocated (s : VnGroup) : ℕ :=
  16 * s.ps.totalWeight % 2 ^ 64 / s.gcd / 16

/-- Record an access. -/
def VnGroup.note (s : VnGroup) (a : VnAccess) : VnGroup :=
  { s with log := a :: s.log }

/-- `a - b` on `ngx_uint_t`. -/
def uintSub (a b : ℕ) : ℕ :=
  if b ≤ a then a - b else a + 2 ^ 64 - b

/-- The credit of one round of the schedule. Unlike the round-robin scan it recovers no
effective weight. -/
def RrPeer.lend (p : RrPeer) : RrPeer :=
  { p with currentWeight := p.currentWeight + p.effectiveWeight }

/-- `ngx_http_upstream_get_rr_peer`. -/
def upstreamGetRrPeer (ps : RrPeers) : Option ℕ × RrPeers :=
  let s := swrrScan RrPeer.lend (fun _ _ => false) (List.range ps.number) ps.peer
  match s.best with
  | none => (none, ps)
  | some p =>
    (some p, { ps with
      peer := update s.peer p
        { s.peer p with currentWeight := (s.peer p).currentWeight - s.total } })

/-- The loop of `ngx_http_upstream_init_virtual_peers`: `k` entries from `i` on. A group has
a peer, so the branch without one is never taken. -/
@[grind =]
def VnGroup.fill : ℕ → ℕ → VnGroup → VnGroup
  | 0, _, s => s
  | k + 1, i, s =>
    match upstreamGetRrPeer s.ps with
    | (none, _) => s.fill k (i + 1)
    | (some p, ps) =>
      ({ s with ps := ps, vpeers := update s.vpeers i (some p) }.note
        (.write i s.allocated)).fill k (i + 1)

/-- `ngx_http_upstream_init_virtual_peers` on the entries from `b` up to `e`. -/
def upstreamInitVirtualPeers (s : VnGroup) (b e : ℕ) : VnGroup :=
  { s.fill (e - b) b with vnumber := max b e }

/-- The size of the next batch: as many entries as the table lacks, but at most
`max_init`. -/
def VnGroup.batchSize (s : VnGroup) : ℕ :=
  let n := uintSub s.capacity s.vnumber
  if n > s.maxInit then s.maxInit else n

/-- The next batch. -/
def VnGroup.nextBatch (s : VnGroup) : VnGroup :=
  let n := s.batchSize
  let s := s.note (.sub s.capacity s.vnumber)
  if n > 0 then upstreamInitVirtualPeers s s.vnumber (n + s.vnumber) else s

/-- The peer of an entry; a `NULL` pointer is not followed in a safe run. -/
def VnGroup.vpeer (s : VnGroup) (i : ℕ) : ℕ :=
  (s.vpeers i).getD 0

/-- The first request of a worker chooses where to start. -/
def VnGroup.start (env : RrEnv) (s : VnGroup) : VnGroup :=
  match s.lastNumber with
  | some _ => s
  | none =>
    let init := env.random % s.ps.number
    let s := { s with initNumber := some init, lastNumber := some init }
    if s.ps.weighted
      then { s with lastPeer := s.vpeers init }.note (.read init s.vnumber)
      else { s with lastPeer := some init }

/-- `begin_number`, with the peer found there. A table that is used up to its last entry is
extended first. -/
def VnGroup.beginNumber (s : VnGroup) : ℕ × ℕ × VnGroup :=
  let last := s.lastNumber.getD 0
  if s.ps.weighted then
    let s := if s.vnumber ≠ s.capacity ∧ last + 1 = s.vnumber then s.nextBatch else s
    let b := (last + 1) % s.vnumber
    (b, s.vpeer b, s.note (.read b s.vnumber))
  else
    match s.lastPeer with
    | none => (0, 0, s)
    | some l => if l + 1 < s.ps.number then ((last + 1) % s.ps.number, l + 1, s) else (0, 0, s)

/-- The walk from entry `i` with its `peer`, until an eligible peer is found or the walk is
back at `b`. -/
@[grind =]
def vnLoop (env : RrEnv) (tried : List Word) (b : ℕ) :
    ℕ → ℕ → ℕ → VnGroup → Option (ℕ × ℕ) × VnGroup
  | 0, _, _, s => (none, s)
  | fuel + 1, i, peer, s =>
    let s := if s.ps.weighted then (s.nextBatch).note (.read i s.nextBatch.vnumber) else s
    let rindex := if s.ps.weighted then s.vpeer i else i
    if peerSkip env tried rindex (s.ps.peer peer) then
      if s.ps.weighted then
        let i := (i + 1) % s.vnumber
        let peer := s.vpeer i
        let s := s.note (.read i s.vnumber)
        if i = b then (none, s) else vnLoop env tried b fuel i peer s
      else
        let i := (i + 1) % s.ps.number
        let peer := if peer + 1 < s.ps.number then peer + 1 else 0
        if i = b then (none, s) else vnLoop env tried b fuel i peer s
    else (some (i, peer), s)

/-- The number of entries a walk can pass. -/
def VnGroup.turns (s : VnGroup) : ℕ :=
  if s.ps.weighted then s.capacity else s.ps.number

/-- `ngx_http_upstream_get_vnswrr`: the peer, with the bitmap of the request. -/
def upstreamGetVnswrr (env : RrEnv) (tried : List Word) (s : VnGroup) :
    Option ℕ × List Word × VnGroup :=
  let s := s.start env
  let (b, peer, s) := s.beginNumber
  match vnLoop env tried b s.turns b peer s with
  | (none, s) => (none, tried, s)
  | (some (i, best), s) =>
    let rindex := if s.ps.weighted then s.vpeer i else i
    (some best, setBit tried rindex,
      { s with
        lastPeer := some best
        lastNumber := some i
        ps := s.ps.setPeer best ((s.ps.peer best).win 0 env.now) })

/-- What `ngx_http_upstream_get_vnswrr_peer` does in one group: the single peer is taken
unless it is down, full or reported down; `conns++` on the peer taken. -/
def vnGet (env : RrEnv) (tried : List Word) (s : VnGroup) : VnGroup :=
  let take := fun (s : VnGroup) p =>
    { s with ps := s.ps.setPeer p { s.ps.peer p with conns := (s.ps.peer p).conns + 1 } }
  if s.ps.single then
    let peer := s.ps.peer 0
    if peer.down || peer.full || env.checkPeerDown peer.checkIndex then s else take s 0
  else
    match upstreamGetVnswrr env tried s with
    | (none, _, s) => s
    | (some p, _, s) => take s p

/-- What `ngx_http_upstream_free_round_robin_peer` does to a peer of the group. -/
def vnFree (i : ℕ) (failed : Bool) (now : ℤ) (s : VnGroup) : VnGroup :=
  let peer := if s.ps.single then s.ps.peer i else (s.ps.peer i).settle failed now
  { s with ps := s.ps.setPeer i { peer with conns := uintDec peer.conns } }

/-- The calls on a group. -/
inductive VnEvent
  | get (env : RrEnv) (tried : List Word)
  | free (i : ℕ) (failed : Bool) (now : ℤ)

/-- One call. -/
def vnStep (s : VnGroup) : VnEvent → VnGroup
  | .get env tried => vnGet env tried s
  | .free i failed now => vnFree i failed now s

/-- The servers of a group. -/
def groupServers (servers : List UpstreamServer) : Group → List UpstreamServer
  | .primary => servers.filter fun s => !s.backup
  | .backup => servers.filter fun s => s.backup

/-- The divisor `ngx_http_upstream_init_vnswrr` computes with `ngx_http_upstream_gcd`, which
is Euclid's loop. -/
def serversGcd (servers : List UpstreamServer) : ℕ :=
  let g := servers.foldl (fun g s => Nat.gcd g s.weight) 0
  if g = 0 then 1 else g

/-- The `max_init` in effect: the number of peers when it is not set, and at most the total
weight. -/
def effectiveMaxInit (ps : RrPeers) (maxInit : ℕ) : ℕ :=
  if maxInit = 0 then ps.number
  else if maxInit > ps.totalWeight then ps.totalWeight else maxInit

/-- What `ngx_http_upstream_init_vnswrr` does for one group: a weighted one gets its table,
with the first batch built. -/
def initVnGroup (ps : RrPeers) (gcd maxInit : ℕ) : VnGroup :=
  let m := effectiveMaxInit ps maxInit
  let s : VnGroup := { ps := ps, maxInit := m, gcd := gcd }
  if ps.weighted then upstreamInitVirtualPeers s 0 m else s

/-- A group with `total_weight` and `weighted` as `ngx_http_upstream_init_round_robin`
computes them: the sum `w` of the weights is an `ngx_uint_t`. -/
def RrPeers.wrapTotal (ps : RrPeers) : RrPeers :=
  { ps with
    totalWeight := ps.totalWeight % 2 ^ 64
    weighted := ps.totalWeight % 2 ^ 64 != ps.number }

/-- `ngx_http_upstream_init_vnswrr` for the groups of an upstream built from `servers`. -/
def upstreamInitVnswrr (up : Upstream) (servers : List UpstreamServer) (maxInit : ℕ)
    (g : Group) : VnGroup :=
  initVnGroup (up.peers g).wrapTotal (serversGcd (groupServers servers g)) maxInit

/-- Any calls in any order on a group that starts as `s₀`. -/
def vnMachine (s₀ : VnGroup) : Machine VnGroup VnEvent where
  init := fun s => s = s₀
  step := fun s e s' => s' = vnStep s e

/-- The table is within its bounds and every access so far was. -/
structure VnSafe (s : VnGroup) : Prop where
  vnumber : s.vnumber ≤ s.allocated
  log : ∀ a ∈ s.log, a.Ok

/-! ### What every piece of a call keeps -/

/-- `s'` is `s` after more entries were built and more accesses recorded. -/
structure VnKeep (s s' : VnGroup) : Prop where
  conf : s'.ps.conf = s.ps.conf
  gcd : s'.gcd = s.gcd
  maxInit : s'.maxInit = s.maxInit
  lastNumber : s'.lastNumber = s.lastNumber
  vnumber : s.vnumber ≤ s'.vnumber
  log : ∀ a ∈ s.log, a ∈ s'.log

/-- What the configuration determines. -/
theorem RrPeers.conf_fields {ps ps' : RrPeers} (h : ps'.conf = ps.conf) :
    ps'.number = ps.number ∧ ps'.totalWeight = ps.totalWeight ∧ ps'.weighted = ps.weighted ∧
      ps'.single = ps.single ∧ ∀ i, (ps'.peer i).weight = (ps.peer i).weight := by
  have hn := congrArg RrPeers.number h
  have ht := congrArg RrPeers.totalWeight h
  have hw := congrArg RrPeers.weighted h
  have hs := congrArg RrPeers.single h
  have hp := fun i => congrArg (fun q : RrPeers => (q.peer i).weight) h
  exact ⟨hn, ht, hw, hs, hp⟩

variable {s : VnGroup} {servers : List UpstreamServer} {ps : RrPeers}

/-- Writing to a peer keeps its configuration. -/
theorem RrPeers.conf_setPeer {i : ℕ} {p : RrPeer} (h : p.conf = (ps.peer i).conf) :
    (ps.setPeer i p).conf = ps.conf := by
  have hpeer : (fun j => ((ps.setPeer i p).peer j).conf) = fun j => (ps.peer j).conf := by
    funext j
    by_cases hj : j = i
    · subst hj
      simpa [RrPeers.setPeer] using h
    · simp [RrPeers.setPeer, hj]
  simp only [RrPeers.conf, hpeer]
  rfl

section Keep

variable {s s' s'' : VnGroup}

theorem VnKeep.refl (s : VnGroup) : VnKeep s s :=
  ⟨rfl, rfl, rfl, rfl, le_refl _, fun _ h => h⟩

theorem VnKeep.trans (h : VnKeep s s') (h' : VnKeep s' s'') : VnKeep s s'' :=
  ⟨h'.conf.trans h.conf, h'.gcd.trans h.gcd, h'.maxInit.trans h.maxInit,
    h'.lastNumber.trans h.lastNumber, h.vnumber.trans h'.vnumber, fun a ha => h'.log a (h.log a ha)⟩

theorem VnKeep.weighted (h : VnKeep s s') : s'.ps.weighted = s.ps.weighted :=
  (RrPeers.conf_fields h.conf).2.2.1

theorem VnKeep.number (h : VnKeep s s') : s'.ps.number = s.ps.number :=
  (RrPeers.conf_fields h.conf).1

theorem VnKeep.capacity (h : VnKeep s s') : s'.capacity = s.capacity := by
  rw [VnGroup.capacity, VnGroup.capacity, (RrPeers.conf_fields h.conf).2.1, h.gcd]

theorem VnKeep.allocated (h : VnKeep s s') : s'.allocated = s.allocated := by
  rw [VnGroup.allocated, VnGroup.allocated, (RrPeers.conf_fields h.conf).2.1, h.gcd]

end Keep

/-- Sixteen bytes for each entry wrap at `2 ^ 60` entries. -/
theorem VnGroup.allocated_eq (s : VnGroup) :
    s.allocated = s.ps.totalWeight % 2 ^ 60 / s.gcd := by
  have hwrap : 16 * s.ps.totalWeight % 2 ^ 64 = 16 * (s.ps.totalWeight % 2 ^ 60) :=
    Nat.mul_mod_mul_left 16 s.ps.totalWeight (2 ^ 60)
  rw [VnGroup.allocated, hwrap, Nat.div_div_eq_div_mul, Nat.mul_comm s.gcd,
    Nat.mul_div_mul_left _ _ (by omega)]

/-- The room is never more than the complete table takes. -/
theorem VnGroup.allocated_le (s : VnGroup) : s.allocated ≤ s.capacity := by
  rw [s.allocated_eq]
  exact Nat.div_le_div_right (Nat.mod_le _ _)

/-- A total weight below `2 ^ 60` leaves room for the complete table. -/
theorem VnGroup.capacity_le_allocated (h : s.ps.totalWeight < 2 ^ 60) :
    s.capacity ≤ s.allocated := by
  rw [s.allocated_eq, Nat.mod_eq_of_lt h, VnGroup.capacity]

/-- A total weight from `2 ^ 60` on does not, if there is room for an entry at all. -/
theorem VnGroup.allocated_lt (h : 2 ^ 60 ≤ s.ps.totalWeight) (hroom : 0 < s.allocated) :
    s.allocated < s.capacity := by
  rw [s.allocated_eq] at hroom ⊢
  obtain ⟨hg, hle⟩ := Nat.div_pos_iff.mp hroom
  have hmod : s.ps.totalWeight % 2 ^ 60 < 2 ^ 60 := Nat.mod_lt _ (by omega)
  calc s.ps.totalWeight % 2 ^ 60 / s.gcd
      < s.ps.totalWeight % 2 ^ 60 / s.gcd + 1 := Nat.lt_succ_self _
    _ = (s.ps.totalWeight % 2 ^ 60 + s.gcd) / s.gcd := (Nat.add_div_right _ hg).symm
    _ ≤ s.capacity := Nat.div_le_div_right (by omega)

theorem keep_note (s : VnGroup) (a : VnAccess) : VnKeep s (s.note a) :=
  ⟨rfl, rfl, rfl, rfl, le_refl _, fun _ h => mem_cons_of_mem _ h⟩

/-- A round of the schedule in a group with a peer: every peer is credited, one of greatest
credited weight pays the credits back. -/
theorem upstreamGetRrPeer_some (hn : 0 < ps.number) :
    ∃ p ps', upstreamGetRrPeer ps = (some p, ps') ∧ p < ps.number ∧ ps'.conf = ps.conf ∧
      (∀ i < ps.number, (ps.peer i).currentWeight + (ps.peer i).effectiveWeight
        ≤ (ps.peer p).currentWeight + (ps.peer p).effectiveWeight) ∧
      ∀ i < ps.number, (ps'.peer i).effectiveWeight = (ps.peer i).effectiveWeight ∧
        (ps'.peer i).currentWeight = (ps.peer i).currentWeight + (ps.peer i).effectiveWeight
          - if i = p then ∑ j ∈ Finset.range ps.number, (ps.peer j).effectiveWeight else 0 := by
  have hspec := swrrScan_spec RrPeer.lend (fun _ _ => false) ps.peer
    (nodup_range (n := ps.number))
  set s := swrrScan RrPeer.lend (fun _ _ => false) (List.range ps.number) ps.peer with hs
  have hpeer : ∀ i, s.peer i = if i < ps.number then (ps.peer i).lend else ps.peer i := by
    intro i
    rw [hspec.peer_eq i]
    simp
  have htotal : s.total = ∑ j ∈ Finset.range ps.number, (ps.peer j).effectiveWeight := by
    rw [hspec.total_eq]
    simp [toFinset_range]
  cases hbest : s.best with
  | none =>
    have hskip := hspec.best_none hbest 0 (mem_range.mpr hn)
    simp at hskip
  | some p =>
    obtain ⟨hpl, -, hmax⟩ := hspec.best_some p hbest
    have hp := mem_range.mp hpl
    refine ⟨p, { ps with
      peer := update s.peer p
        { s.peer p with currentWeight := (s.peer p).currentWeight - s.total } }, ?_, hp, ?_,
      ?_, ?_⟩
    · simp only [upstreamGetRrPeer, ← hs, hbest]
    · have hconf : (fun i => (update s.peer p
          { s.peer p with currentWeight := (s.peer p).currentWeight - s.total } i).conf)
          = fun i => (ps.peer i).conf := by
        funext i
        have hsi : (s.peer i).conf = (ps.peer i).conf := by
          rw [hpeer i]
          split_ifs <;> rfl
        by_cases hip : i = p
        · subst hip
          rw [update_self]
          exact hsi
        · rw [update_of_ne hip, hsi]
      simp only [RrPeers.conf, hconf]
    · intro i hi
      have hcw := hmax i (mem_range.mpr hi) rfl
      rw [hpeer i, hpeer p, if_pos hi, if_pos hp] at hcw
      exact hcw
    · intro i hi
      by_cases hip : i = p
      · subst hip
        simp only [update_self, if_true]
        rw [hpeer i, if_pos hi, htotal]
        exact ⟨rfl, rfl⟩
      · simp only [update_of_ne hip, if_neg hip]
        rw [hpeer i, if_pos hi]
        exact ⟨rfl, by simp [RrPeer.lend]⟩

/-- The filling loop keeps what a call keeps, and touches neither `vnumber` nor entries
outside its range. -/
theorem VnGroup.fill_keep (k i : ℕ) (s : VnGroup) (hn : 0 < s.ps.number) :
    VnKeep s (s.fill k i) ∧ (s.fill k i).vnumber = s.vnumber ∧
      (VnSafe s → i + k ≤ s.allocated → VnSafe (s.fill k i)) := by
  induction k generalizing i s with
  | zero => exact ⟨.refl s, rfl, fun h _ => h⟩
  | succ k ih =>
    obtain ⟨p, ps, hget, -, hconf, -⟩ := upstreamGetRrPeer_some hn
    simp only [VnGroup.fill, hget]
    set t : VnGroup := { s with ps := ps, vpeers := update s.vpeers i (some p) }.note
      (.write i s.allocated) with ht
    have hkeep : VnKeep s t :=
      ⟨hconf, rfl, rfl, rfl, le_refl _, fun _ h => mem_cons_of_mem _ h⟩
    obtain ⟨hk, hv, hsafe⟩ := ih (i + 1) t (by rw [hkeep.number]; exact hn)
    refine ⟨hkeep.trans hk, hv, ?_⟩
    intro h hle
    refine hsafe ⟨?_, ?_⟩ (by rw [hkeep.allocated]; omega)
    · rw [hkeep.allocated]
      exact h.vnumber
    · intro a ha
      rcases mem_cons.mp ha with rfl | ha
      · simp only [VnAccess.Ok]
        omega
      · exact h.log a ha

/-- Building the virtual peers keeps all but the table. -/
theorem initVirtualPeers_keep (s : VnGroup) (hn : 0 < s.ps.number) {b e : ℕ}
    (hb : s.vnumber ≤ max b e) : VnKeep s (upstreamInitVirtualPeers s b e) := by
  obtain ⟨hk, -, -⟩ := VnGroup.fill_keep (e - b) b s hn
  exact ⟨hk.conf, hk.gcd, hk.maxInit, hk.lastNumber, hb, hk.log⟩

/-- A batch inside the room is written in bounds. -/
theorem initVirtualPeers_safe (h : VnSafe s) (hn : 0 < s.ps.number) {b e : ℕ} (hbe : b ≤ e)
    (he : e ≤ s.allocated) : VnSafe (upstreamInitVirtualPeers s b e) := by
  obtain ⟨hk, -, hsafe⟩ := VnGroup.fill_keep (e - b) b s hn
  have hfilled := hsafe h (by omega)
  refine ⟨?_, hfilled.log⟩
  have hroom : (upstreamInitVirtualPeers s b e).allocated = s.allocated := hk.allocated
  rw [hroom]
  simp only [upstreamInitVirtualPeers]
  omega

/-- The next batch keeps what is there. -/
theorem VnGroup.nextBatch_keep (s : VnGroup) (hn : 0 < s.ps.number) :
    VnKeep s s.nextBatch := by
  have hnote := keep_note s (.sub s.capacity s.vnumber)
  simp only [VnGroup.nextBatch]
  split_ifs
  · exact hnote.trans
      (initVirtualPeers_keep (s.note (.sub s.capacity s.vnumber)) hn (le_max_left _ _))
  · exact hnote

/-- The last batch ends at the end of the complete table. -/
theorem VnGroup.batchSize_le (h : s.vnumber ≤ s.capacity) :
    s.batchSize + s.vnumber ≤ s.capacity := by
  have hsub : uintSub s.capacity s.vnumber = s.capacity - s.vnumber := if_pos h
  simp only [VnGroup.batchSize, hsub]
  split_ifs <;> omega

/-- **A batch is safe**: while the table is within its bounds, and has room for all its
entries, the subtraction does not wrap and the batch ends within them. -/
theorem VnGroup.nextBatch_safe (hn : 0 < s.ps.number) (hroom : s.capacity ≤ s.allocated)
    (h : VnSafe s) : VnSafe s.nextBatch := by
  have hv := h.vnumber.trans s.allocated_le
  have hle := (VnGroup.batchSize_le hv).trans hroom
  have hnote : VnSafe (s.note (.sub s.capacity s.vnumber)) := by
    refine ⟨h.vnumber, ?_⟩
    intro a ha
    rcases mem_cons.mp ha with rfl | ha
    · exact hv
    · exact h.log a ha
  simp only [VnGroup.nextBatch]
  split_ifs
  · exact initVirtualPeers_safe hnote hn (Nat.le_add_left _ _) hle
  · exact hnote

theorem VnSafe.read (h : VnSafe s) {i : ℕ} (hi : i < s.vnumber) :
    VnSafe (s.note (.read i s.vnumber)) := by
  refine ⟨h.vnumber, ?_⟩
  intro a ha
  rcases mem_cons.mp ha with rfl | ha
  · exact hi
  · exact h.log a ha

/-! ### The walk -/

section Walk

variable {env : RrEnv} {tried : List Word} {b : ℕ}

/-- Without weights the loop changes nothing. -/
theorem vnLoop_unweighted {fuel i peer : ℕ} {s : VnGroup} (hw : s.ps.weighted = false) :
    (vnLoop env tried b fuel i peer s).2 = s := by
  induction fuel generalizing i peer with
  | zero => rfl
  | succ fuel ih =>
    simp only [vnLoop, hw, Bool.false_eq_true, if_false]
    split_ifs
    · rfl
    · exact ih
    · exact ih
    · rfl

/-- The walk keeps what a call keeps. -/
theorem vnLoop_keep {fuel i peer : ℕ} {s : VnGroup} (hn : 0 < s.ps.number) :
    VnKeep s (vnLoop env tried b fuel i peer s).2 := by
  cases hw : s.ps.weighted with
  | false =>
    rw [vnLoop_unweighted hw]
    exact .refl s
  | true =>
    induction fuel generalizing i peer s with
    | zero => exact .refl s
    | succ fuel ih =>
      have hb : VnKeep s (s.nextBatch.note (.read i s.nextBatch.vnumber)) :=
        (s.nextBatch_keep hn).trans (keep_note _ _)
      have hwb : (s.nextBatch.note (.read i s.nextBatch.vnumber)).ps.weighted = true :=
        hb.weighted.trans hw
      simp only [vnLoop, hw, if_true, hwb]
      split_ifs
      · exact hb.trans (keep_note _ _)
      · have hb' := hb.trans (keep_note _ (.read
          ((i + 1) % (s.nextBatch.note (.read i s.nextBatch.vnumber)).vnumber)
          (s.nextBatch.note (.read i s.nextBatch.vnumber)).vnumber))
        exact hb'.trans (ih (by rw [hb'.number]; exact hn) hwb)
      · exact hb

/-- **The walk over a table is safe**, and ends at an entry that was built. -/
theorem vnLoop_safe {fuel i peer : ℕ} {s : VnGroup} (hn : 0 < s.ps.number)
    (hw : s.ps.weighted = true) (hroom : s.capacity ≤ s.allocated) (h : VnSafe s)
    (hi : i < s.vnumber) :
    VnSafe (vnLoop env tried b fuel i peer s).2 ∧
      ∀ j p, (vnLoop env tried b fuel i peer s).1 = some (j, p) →
        j < (vnLoop env tried b fuel i peer s).2.vnumber := by
  induction fuel generalizing i peer s with
  | zero => exact ⟨h, by simp [vnLoop]⟩
  | succ fuel ih =>
    have hk := s.nextBatch_keep hn
    have hi' : i < s.nextBatch.vnumber := lt_of_lt_of_le hi hk.vnumber
    have hread := (VnGroup.nextBatch_safe hn hroom h).read hi'
    set t := s.nextBatch.note (.read i s.nextBatch.vnumber) with ht
    have hkt : VnKeep s t := hk.trans (keep_note _ _)
    have hwt : t.ps.weighted = true := hkt.weighted.trans hw
    have hv : t.vnumber = s.nextBatch.vnumber := rfl
    have hmod : (i + 1) % t.vnumber < t.vnumber := Nat.mod_lt _ (by omega)
    have hread' := hread.read hmod
    simp only [vnLoop, hw, if_true, ← ht, hwt]
    split_ifs
    · exact ⟨hread', by simp⟩
    · exact ih (by rw [show (t.note _).ps.number = t.ps.number from rfl, hkt.number]; exact hn)
        hwt (by rw [(hkt.trans (keep_note t _)).capacity, (hkt.trans (keep_note t _)).allocated]
                exact hroom) hread' hmod
    · refine ⟨hread, ?_⟩
      intro j p hjp
      simp only [Option.some.injEq, Prod.mk.injEq] at hjp
      rw [← hjp.1, hv]
      exact hi'

end Walk

/-! ### The invariant of safe runs -/

/-- A safe group whose table, if it has one, has room for all its entries and an entry for
every peer number, and the last entry used is one that was built. -/
structure VnInv (s : VnGroup) : Prop where
  safe : VnSafe s
  number_pos : 0 < s.ps.number
  room : s.ps.weighted = true → s.capacity ≤ s.allocated
  table : s.ps.weighted = true →
    s.ps.number ≤ s.vnumber ∧ ∀ l, s.lastNumber = some l → l < s.vnumber

/-- What a walk keeps, keeps the invariant. -/
theorem VnInv.keep {s s' : VnGroup} (h : VnInv s) (hk : VnKeep s s') (hs : VnSafe s') :
    VnInv s' := by
  refine ⟨hs, by rw [hk.number]; exact h.number_pos, ?_, ?_⟩
  · rw [hk.weighted, hk.capacity, hk.allocated]
    exact h.room
  rw [hk.weighted, hk.number, hk.lastNumber]
  intro hw
  obtain ⟨hle, hlast⟩ := h.table hw
  exact ⟨hle.trans hk.vnumber, fun l hl => lt_of_lt_of_le (hlast l hl) hk.vnumber⟩

/-- Writing to a peer keeps the invariant. -/
theorem VnInv.setPeer (h : VnInv s) {i : ℕ} {p : RrPeer} (hp : p.conf = (s.ps.peer i).conf) :
    VnInv { s with ps := s.ps.setPeer i p } := by
  have hconf := RrPeers.conf_setPeer hp
  have hk : VnKeep s { s with ps := s.ps.setPeer i p } :=
    ⟨hconf, rfl, rfl, rfl, le_refl _, fun _ ha => ha⟩
  refine h.keep hk ⟨?_, h.safe.log⟩
  rw [hk.allocated]
  exact h.safe.vnumber

/-- The first request starts at an entry that was built. -/
theorem VnInv.start (env : RrEnv) (h : VnInv s) :
    VnInv (s.start env) ∧ ∃ l, (s.start env).lastNumber = some l := by
  unfold VnGroup.start
  cases hlast : s.lastNumber with
  | some l => exact ⟨h, l, hlast⟩
  | none =>
    have hmod : env.random % s.ps.number < s.ps.number := Nat.mod_lt _ h.number_pos
    cases hw : s.ps.weighted with
    | true =>
      obtain ⟨hle, -⟩ := h.table hw
      simp only [hw, if_true]
      refine ⟨⟨⟨h.safe.vnumber, ?_⟩, h.number_pos, fun _ => h.room hw, fun _ => ⟨hle, ?_⟩⟩,
        _, rfl⟩
      · intro a ha
        rcases mem_cons.mp ha with rfl | ha
        · exact lt_of_lt_of_le hmod hle
        · exact h.safe.log a ha
      · intro l hl
        obtain rfl := Option.some.inj hl
        exact lt_of_lt_of_le hmod hle
    | false =>
      simp only [hw, Bool.false_eq_true, if_false]
      refine ⟨⟨⟨h.safe.vnumber, h.safe.log⟩, h.number_pos, ?_, ?_⟩, _, rfl⟩ <;>
        exact fun hw' => absurd hw' (by simp [hw])

/-- The walk begins at an entry that was built. -/
theorem VnInv.beginNumber (h : VnInv s) :
    VnInv s.beginNumber.2.2 ∧ (s.beginNumber.2.2.ps.weighted = true →
      s.beginNumber.1 < s.beginNumber.2.2.vnumber) := by
  cases hw : s.ps.weighted with
  | true =>
    have hbatch : VnInv (if s.vnumber ≠ s.capacity ∧ s.lastNumber.getD 0 + 1 = s.vnumber
        then s.nextBatch else s) := by
      split_ifs
      · exact h.keep (s.nextBatch_keep h.number_pos)
          (VnGroup.nextBatch_safe h.number_pos (h.room hw) h.safe)
      · exact h
    have hwb : (if s.vnumber ≠ s.capacity ∧ s.lastNumber.getD 0 + 1 = s.vnumber
        then s.nextBatch else s).ps.weighted = true := by
      split_ifs
      · exact (s.nextBatch_keep h.number_pos).weighted.trans hw
      · exact hw
    have hpos := (hbatch.table hwb).1
    have hn := hbatch.number_pos
    simp only [VnGroup.beginNumber, hw, if_true]
    have hmod := Nat.mod_lt (s.lastNumber.getD 0 + 1) (lt_of_lt_of_le hn hpos)
    exact ⟨hbatch.keep (keep_note _ _) (hbatch.safe.read hmod), fun _ => hmod⟩
  | false =>
    have hsame : s.beginNumber.2.2 = s := by
      simp only [VnGroup.beginNumber, hw, Bool.false_eq_true, if_false]
      split
      · rfl
      · split_ifs <;> rfl
    rw [hsame]
    exact ⟨h, fun hc => absurd hc (by simp [hw])⟩

/-- A call of `upstreamGetVnswrr` keeps the invariant. -/
theorem upstreamGetVnswrr_inv (env : RrEnv) (tried : List Word) (h : VnInv s) :
    VnInv (upstreamGetVnswrr env tried s).2.2 := by
  obtain ⟨h₁, -⟩ := h.start env
  obtain ⟨h₂, hb⟩ := h₁.beginNumber
  simp only [upstreamGetVnswrr]
  rcases hbegin : (s.start env).beginNumber with ⟨b, peer, t⟩
  rw [hbegin] at h₂ hb
  have hkeep : VnKeep t (vnLoop env tried b t.turns b peer t).2 := vnLoop_keep h₂.number_pos
  have hsafe : VnSafe (vnLoop env tried b t.turns b peer t).2 ∧
      ∀ j p, (vnLoop env tried b t.turns b peer t).1 = some (j, p) →
        t.ps.weighted = true → j < (vnLoop env tried b t.turns b peer t).2.vnumber := by
    cases hw : t.ps.weighted with
    | true =>
      obtain ⟨hs, hj⟩ := vnLoop_safe h₂.number_pos hw (h₂.room hw) h₂.safe (hb hw)
      exact ⟨hs, fun j p hjp _ => hj j p hjp⟩
    | false =>
      rw [vnLoop_unweighted hw]
      exact ⟨h₂.safe, by simp⟩
  rcases hloop : vnLoop env tried b t.turns b peer t with ⟨_ | ⟨i, best⟩, u⟩
  · rw [hloop] at hkeep hsafe
    exact h₂.keep hkeep hsafe.1
  · rw [hloop] at hkeep hsafe
    have hu : VnInv u := h₂.keep hkeep hsafe.1
    have hset := hu.setPeer (i := best) (p := (u.ps.peer best).win 0 env.now) (by simp)
    simp only
    refine ⟨⟨hset.safe.vnumber, hset.safe.log⟩, hset.number_pos, hset.room, ?_⟩
    intro hw
    refine ⟨(hset.table hw).1, ?_⟩
    intro l hl
    obtain rfl := Option.some.inj hl
    have hwu : u.ps.weighted = true := hw
    exact hsafe.2 i best rfl (by rw [← hkeep.weighted]; exact hwu)

/-- **Every call keeps the invariant.** -/
theorem vnStep_inv (e : VnEvent) (h : VnInv s) : VnInv (vnStep s e) := by
  cases e with
  | get env tried =>
    simp only [vnStep, vnGet]
    split_ifs
    · exact h
    · exact h.setPeer rfl
    · have hget := upstreamGetVnswrr_inv env tried h
      rcases hres : upstreamGetVnswrr env tried s with ⟨_ | p, tried', t⟩
      · rw [hres] at hget
        exact hget
      · rw [hres] at hget
        exact hget.setPeer rfl
  | free i failed now =>
    simp only [vnStep, vnFree]
    refine h.setPeer ?_
    split_ifs
    · rfl
    · exact RrPeer.conf_settle _ failed now

/-! ### Configured groups -/

/-- A group as configuration leaves it, with a common divisor of its weights, which is the
weight itself when there is one peer. -/
structure VnConf (ps : RrPeers) (gcd : ℕ) : Prop where
  fresh : FreshPeers ps
  gcd_pos : 0 < gcd
  dvd : ∀ i < ps.number, (gcd : ℤ) ∣ (ps.peer i).weight
  single : ps.single = true → ps.number = 1 ∧ ps.totalWeight = gcd ∧ gcd < 2 ^ 64

/-- The common divisor divides every weight. -/
theorem foldl_gcd_dvd (servers : List UpstreamServer) (g : ℕ) :
    servers.foldl (fun g s => Nat.gcd g s.weight) g ∣ g ∧
      ∀ s ∈ servers, servers.foldl (fun g s => Nat.gcd g s.weight) g ∣ s.weight := by
  induction servers generalizing g with
  | nil => exact ⟨dvd_refl g, by simp⟩
  | cons s servers ih =>
    obtain ⟨hg, hs⟩ := ih (Nat.gcd g s.weight)
    refine ⟨hg.trans (Nat.gcd_dvd_left _ _), ?_⟩
    intro t ht
    rcases mem_cons.mp ht with rfl | ht
    · exact hg.trans (Nat.gcd_dvd_right _ _)
    · exact hs t ht

theorem serversGcd_dvd {s : UpstreamServer} (h : s ∈ servers) : serversGcd servers ∣ s.weight := by
  simp only [serversGcd]
  split_ifs
  · exact one_dvd _
  · exact (foldl_gcd_dvd servers 0).2 s h

theorem serversGcd_pos (servers : List UpstreamServer) : 0 < serversGcd servers := by
  simp only [serversGcd]
  split_ifs with h
  · exact Nat.one_pos
  · exact Nat.pos_of_ne_zero h

/-- The groups of an upstream built from servers. -/
theorem peers_eq_initPeers {checkAdd : UpstreamServer → Sockaddr × String → ℕ} {host : String}
    {up : Upstream} (h : upstreamInitRoundRobin checkAdd (.servers host servers) = some up)
    {g : Group} (hg : g = .backup → up.next = true) :
    ∃ single, up.peers g = initPeers checkAdd host (groupServers servers g) single := by
  simp only [upstreamInitRoundRobin] at h
  split_ifs at h with hn hb
  · obtain rfl := Option.some.inj h
    cases g with
    | primary => exact ⟨_, rfl⟩
    | backup => simp at hg
  · obtain rfl := Option.some.inj h
    cases g with
    | primary => exact ⟨_, rfl⟩
    | backup => exact ⟨_, rfl⟩

/-- One address is that of one server, whose weight is both the sum and the divisor. -/
theorem initPeers_one {checkAdd : UpstreamServer → Sockaddr × String → ℕ} {host : String}
    {single : Bool} (hn : (initPeers checkAdd host servers single).number = 1) :
    (initPeers checkAdd host servers single).totalWeight = serversGcd servers ∧
      serversGcd servers < 2 ^ 64 := by
  have hpos : ∀ s : UpstreamServer, 0 < s.addrs.length :=
    fun s => length_pos_of_ne_nil s.addrs_ne
  match servers, hn with
  | [], hn => simp [initPeers] at hn
  | [s], hn =>
    have hone : s.addrs.length = 1 := by simpa [initPeers] using hn
    have hgcd : serversGcd [s] = s.weight := by
      simp [serversGcd, s.weight_pos.ne']
    have hlt := s.weight_lt
    refine ⟨?_, by omega⟩
    rw [hgcd]
    simp [initPeers, hone]
  | s :: t :: servers, hn =>
    have hs := hpos s
    have ht := hpos t
    simp only [initPeers, map_cons, sum_cons] at hn
    omega

/-- The groups of an upstream built from servers are configured for their divisors. -/
theorem vnConf_of_init {checkAdd : UpstreamServer → Sockaddr × String → ℕ} {host : String}
    {up : Upstream} (h : upstreamInitRoundRobin checkAdd (.servers host servers) = some up)
    {g : Group} (hg : g = .backup → up.next = true) :
    VnConf (up.peers g) (serversGcd (groupServers servers g)) := by
  have hup := upstreamInitRoundRobin_fresh h
  refine ⟨?_, serversGcd_pos _, ?_, ?_⟩
  · cases g with
    | primary => exact hup.primary
    | backup => exact hup.backup (hg rfl)
  · intro i hi
    obtain ⟨single, heq⟩ := peers_eq_initPeers h hg
    rw [heq] at hi ⊢
    obtain ⟨s, hs, a, -, hp⟩ := initPeers_peer checkAdd host _ single hi
    rw [hp]
    exact Int.natCast_dvd_natCast.mpr (serversGcd_dvd hs)
  · intro hs
    obtain ⟨single, heq⟩ := peers_eq_initPeers h hg
    have hn : (up.peers g).number = 1 := by
      cases g with
      | primary => exact (hup.single.mp hs).1
      | backup => simp [hup.backup_single] at hs
    rw [heq] at hn ⊢
    exact ⟨hn, initPeers_one hn⟩

section Conf

variable {ps : RrPeers} {gcd : ℕ} (hc : VnConf ps gcd)

include hc

/-- No weight is below the common divisor. -/
theorem VnConf.number_mul_le : ps.number * gcd ≤ ps.totalWeight := by
  have hle : ∑ _i ∈ Finset.range ps.number, (gcd : ℤ)
      ≤ ∑ i ∈ Finset.range ps.number, (ps.peer i).weight := by
    refine Finset.sum_le_sum ?_
    intro i hi
    have hi := Finset.mem_range.mp hi
    exact Int.le_of_dvd (hc.fresh.peer i hi).weight_pos (hc.dvd i hi)
  rw [← hc.fresh.total, Finset.sum_const, Finset.card_range, nsmul_eq_mul] at hle
  exact_mod_cast hle

theorem VnConf.number_le : ps.number ≤ ps.totalWeight / gcd :=
  (Nat.le_div_iff_mul_le hc.gcd_pos).mpr hc.number_mul_le

/-- A sum of weights that fits in a word is the total weight. -/
theorem VnConf.wrapTotal (h : ps.totalWeight < 2 ^ 64) : VnConf ps.wrapTotal gcd := by
  have htotal : ps.wrapTotal.totalWeight = ps.totalWeight := Nat.mod_eq_of_lt h
  refine ⟨⟨hc.fresh.number_pos, hc.fresh.initNumber, hc.fresh.peer, ?_⟩, hc.gcd_pos, hc.dvd, ?_⟩
  · rw [htotal]
    exact hc.fresh.total
  · rw [htotal]
    exact hc.single

end Conf

/-- **The condition** on the configuration: without a table nothing is required; with one,
the size of the table does not wrap, and the first batch reaches every peer number and ends
within the table. -/
def VnFits (ps : RrPeers) (gcd maxInit : ℕ) : Prop :=
  ps.weighted = true → ps.totalWeight < 2 ^ 60 ∧ ps.number ≤ effectiveMaxInit ps maxInit ∧
    effectiveMaxInit ps maxInit ≤ ps.totalWeight / gcd

/-- A weighted group starts with the first batch built. -/
theorem initVnGroup_weighted (gcd maxInit : ℕ) (hw : ps.weighted = true) :
    initVnGroup ps gcd maxInit = upstreamInitVirtualPeers
      { ps := ps, maxInit := effectiveMaxInit ps maxInit, gcd := gcd } 0
      (effectiveMaxInit ps maxInit) := by
  simp [initVnGroup, hw]

/-- The capacity of a fresh group is the total weight over the divisor. -/
theorem initVnGroup_capacity (gcd maxInit : ℕ) (hn : 0 < ps.number) :
    (initVnGroup ps gcd maxInit).capacity = ps.totalWeight / gcd := by
  cases hw : ps.weighted with
  | false => simp [initVnGroup, hw, VnGroup.capacity]
  | true =>
    rw [initVnGroup_weighted gcd maxInit hw]
    exact (initVirtualPeers_keep _ hn (Nat.zero_le _)).capacity

/-- A configured group that meets the condition starts in the invariant. -/
theorem initVnGroup_inv {gcd : ℕ} (hn : 0 < ps.number) {maxInit : ℕ}
    (h : VnFits ps gcd maxInit) : VnInv (initVnGroup ps gcd maxInit) := by
  set s₀ : VnGroup := { ps := ps, maxInit := effectiveMaxInit ps maxInit, gcd := gcd } with hs₀
  have hsafe : VnSafe s₀ := ⟨Nat.zero_le _, by simp [hs₀]⟩
  cases hw : ps.weighted with
  | false =>
    have hdef : initVnGroup ps gcd maxInit = s₀ := by
      simp [initVnGroup, hw, hs₀]
    rw [hdef]
    have hnot : s₀.ps.weighted ≠ true := by simp [hs₀, hw]
    exact ⟨hsafe, hn, fun hw' => absurd hw' hnot, fun hw' => absurd hw' hnot⟩
  | true =>
    obtain ⟨hsize, hnum, hcap⟩ := h hw
    have hroom : s₀.capacity ≤ s₀.allocated := VnGroup.capacity_le_allocated hsize
    rw [initVnGroup_weighted gcd maxInit hw, ← hs₀]
    have hk := initVirtualPeers_keep s₀ hn (b := 0)
      (e := effectiveMaxInit ps maxInit) (Nat.zero_le _)
    refine ⟨initVirtualPeers_safe hsafe hn (Nat.zero_le _) (hcap.trans hroom),
      by rw [hk.number]; exact hn, fun _ => ?_, fun _ => ⟨?_, ?_⟩⟩
    · rw [hk.capacity, hk.allocated]
      exact hroom
    · rw [hk.number]
      simpa [upstreamInitVirtualPeers] using hnum
    · rw [hk.lastNumber]
      simp [hs₀]

/-! ### Why the condition is needed -/

section Get

variable (env : RrEnv) (tried : List Word) (hn : 0 < s.ps.number) (hs : s.ps.single = false)
  (hw : s.ps.weighted = true)

include hw in
/-- What a start sets. -/
theorem start_fields : (s.start env).ps = s.ps ∧ (s.start env).gcd = s.gcd ∧
    (s.start env).maxInit = s.maxInit ∧ (s.start env).vnumber = s.vnumber ∧
    (s.lastNumber = none → .read (env.random % s.ps.number) s.vnumber ∈ (s.start env).log) := by
  unfold VnGroup.start
  cases s.lastNumber <;> simp [hw, VnGroup.note]

include hn hs hw

/-- A call on a weighted group that is not a single peer is a walk from the state `t` its
beginning leaves; behind the walk only the peer found is written. -/
theorem vnGet_walk : ∃ b peer t, VnKeep (s.start env) t ∧
    (vnGet env tried s).ps.conf = (vnLoop env tried b t.turns b peer t).2.ps.conf ∧
    (vnGet env tried s).gcd = (vnLoop env tried b t.turns b peer t).2.gcd ∧
    (vnGet env tried s).maxInit = (vnLoop env tried b t.turns b peer t).2.maxInit ∧
    (vnGet env tried s).vnumber = (vnLoop env tried b t.turns b peer t).2.vnumber ∧
    (vnGet env tried s).log = (vnLoop env tried b t.turns b peer t).2.log := by
  obtain ⟨hps, -⟩ := start_fields env hw
  have hkeep : VnKeep (s.start env) (s.start env).beginNumber.2.2 := by
    simp only [VnGroup.beginNumber, hps, hw, if_true]
    split_ifs
    · exact ((s.start env).nextBatch_keep (by rw [hps]; exact hn)).trans (keep_note _ _)
    · exact keep_note _ _
  rcases hbegin : (s.start env).beginNumber with ⟨b, peer, t⟩
  rw [hbegin] at hkeep
  refine ⟨b, peer, t, hkeep, ?_⟩
  simp only [vnGet, hs, Bool.false_eq_true, if_false, upstreamGetVnswrr, hbegin]
  rcases vnLoop env tried b t.turns b peer t with ⟨_ | ⟨i, best⟩, u⟩
  · exact ⟨rfl, rfl, rfl, rfl, rfl⟩
  · refine ⟨?_, rfl, rfl, rfl, rfl⟩
    have hwin : (u.ps.setPeer best ((u.ps.peer best).win 0 env.now)).conf = u.ps.conf :=
      RrPeers.conf_setPeer (RrPeer.conf_win _ _ _)
    exact Eq.trans (RrPeers.conf_setPeer rfl) hwin

/-- The first call reads the entry of a random peer number. -/
theorem vnGet_first_read (hlast : s.lastNumber = none) :
    VnAccess.read (env.random % s.ps.number) s.vnumber ∈ (vnGet env tried s).log := by
  obtain ⟨hps, -, -, -, hread⟩ := start_fields env hw
  obtain ⟨b, peer, t, hkeep, -, -, -, -, hlog⟩ := vnGet_walk env tried hn hs hw
  have hwalk : VnKeep t (vnLoop env tried b t.turns b peer t).2 :=
    vnLoop_keep (by rw [hkeep.number, hps]; exact hn)
  rw [hlog]
  exact hwalk.log _ (hkeep.log _ (hread hlast))

end Get

/-- A batch of an incomplete table has an entry. -/
theorem VnGroup.nextBatch_grows (hm : 0 < s.maxInit) (hv : s.vnumber ≤ s.capacity) :
    min s.capacity (s.vnumber + 1) ≤ s.nextBatch.vnumber := by
  have hsub : uintSub s.capacity s.vnumber = s.capacity - s.vnumber := if_pos hv
  have hsize : s.batchSize = min (s.capacity - s.vnumber) s.maxInit := by
    simp only [VnGroup.batchSize, hsub]
    split_ifs <;> omega
  simp only [VnGroup.nextBatch]
  split_ifs with hpos
  · simp only [upstreamInitVirtualPeers, VnGroup.note]
    omega
  · simp only [VnGroup.note]
    omega

/-- The first entry a walk looks at builds the next batch. -/
theorem vnLoop_grows {env : RrEnv} {tried : List Word} {b fuel i peer : ℕ}
    (hn : 0 < s.ps.number) (hw : s.ps.weighted = true) :
    s.nextBatch.vnumber ≤ (vnLoop env tried b (fuel + 1) i peer s).2.vnumber := by
  have hk := s.nextBatch_keep hn
  set t := s.nextBatch.note (.read i s.nextBatch.vnumber) with ht
  have hkt : VnKeep s t := hk.trans (keep_note _ _)
  have hwt : t.ps.weighted = true := hkt.weighted.trans hw
  have hvn : s.nextBatch.vnumber = t.vnumber := rfl
  simp only [vnLoop, hw, if_true, ← ht, hwt]
  rw [hvn]
  split_ifs
  · exact le_refl t.vnumber
  · exact (keep_note t _).vnumber.trans (vnLoop_keep (hkt.number ▸ hn)).vnumber
  · exact le_refl t.vnumber

/-- **A request builds the next batch** of an incomplete table, and keeps the
configuration. -/
theorem vnGet_grows (env : RrEnv) (tried : List Word) (hn : 0 < s.ps.number)
    (hs : s.ps.single = false) (hw : s.ps.weighted = true) (hm : 0 < s.maxInit)
    (hv : s.vnumber ≤ s.capacity) :
    (vnGet env tried s).ps.conf = s.ps.conf ∧ (vnGet env tried s).gcd = s.gcd ∧
      (vnGet env tried s).maxInit = s.maxInit ∧
      min s.capacity (s.vnumber + 1) ≤ (vnGet env tried s).vnumber := by
  obtain ⟨hps, hgcd, hmax, hvn, -⟩ := start_fields env hw
  obtain ⟨b, peer, t, hk, hconf', hgcd', hmax', hvn', -⟩ := vnGet_walk env tried hn hs hw
  have hnt : 0 < t.ps.number := by rw [hk.number, hps]; exact hn
  have hwt : t.ps.weighted = true := by rw [hk.weighted, hps]; exact hw
  have hcap : t.capacity = s.capacity := by
    rw [hk.capacity, VnGroup.capacity, VnGroup.capacity, hps, hgcd]
  have hwalk : VnKeep t (vnLoop env tried b t.turns b peer t).2 := vnLoop_keep hnt
  refine ⟨by rw [hconf', hwalk.conf, hk.conf, hps], by rw [hgcd', hwalk.gcd, hk.gcd, hgcd],
    by rw [hmax', hwalk.maxInit, hk.maxInit, hmax], ?_⟩
  rw [hvn']
  have htv := hk.vnumber
  rw [hvn] at htv
  have hkept := hwalk.vnumber
  rcases Nat.lt_or_ge s.vnumber t.vnumber with hlt | hge
  · omega
  · -- the beginning built nothing, so the first step of the walk does
    rcases Nat.lt_or_ge s.vnumber s.capacity with hopen | hdone
    · have hturns : t.turns = t.capacity - 1 + 1 := by
        rw [VnGroup.turns, if_pos hwt]
        omega
      have hbatch := VnGroup.nextBatch_grows (s := t) (by rw [hk.maxInit, hmax]; exact hm)
        (by omega)
      have hloop : t.nextBatch.vnumber ≤
          (vnLoop env tried b (t.capacity - 1 + 1) b peer t).2.vnumber := vnLoop_grows hnt hwt
      rw [hturns]
      omega
    · omega

section Needed

variable {gcd maxInit : ℕ} (hc : VnConf ps gcd) (h : ∀ tr s,
  (vnMachine (initVnGroup ps.wrapTotal gcd maxInit)).Run tr s → Machine.Everywhere VnSafe tr s)
  (hw : ps.wrapTotal.weighted = true)
include hc h hw

/-- In a group that is always safe the first batch reaches every peer number and ends within
the room. -/
theorem vnFirst_of_safe : ps.number ≤ effectiveMaxInit ps.wrapTotal maxInit ∧
    effectiveMaxInit ps.wrapTotal maxInit ≤ (initVnGroup ps.wrapTotal gcd maxInit).allocated := by
  have hn := hc.fresh.number_pos
  set m := effectiveMaxInit ps.wrapTotal maxInit with hm
  set s₀ := initVnGroup ps.wrapTotal gcd maxInit with hs₀
  have hdef := initVnGroup_weighted gcd maxInit hw
  have hk := initVirtualPeers_keep { ps := ps.wrapTotal, maxInit := m, gcd := gcd } hn
    (b := 0) (e := m) (Nat.zero_le _)
  rw [← hdef, ← hs₀] at hk
  have hv : s₀.vnumber = m := by
    rw [hs₀, hdef]
    simp [upstreamInitVirtualPeers, hm]
  have hrun : (vnMachine s₀).Run [] s₀ := .start rfl
  refine ⟨?_, by rw [← hv]; exact (h _ _ hrun).2.vnumber⟩
  -- otherwise the first request may read the first entry that was not built
  by_contra hlt
  have hsingle : ps.single = false := by
    rw [← Bool.not_eq_true]
    intro hs
    obtain ⟨hone, htotal, hfit⟩ := hc.single hs
    have hpos := hc.gcd_pos
    have hwrap : ps.wrapTotal.totalWeight = gcd := by
      rw [← htotal] at hfit ⊢
      exact Nat.mod_eq_of_lt hfit
    have hmpos : 0 < m := by
      rw [hm]
      unfold effectiveMaxInit
      split_ifs
      · exact hn
      · omega
      · omega
    omega
  let env : RrEnv := { now := 0, random := m, checkPeerDown := fun _ => false }
  have hnum : s₀.ps.number = ps.number := hk.number
  have hread := vnGet_first_read (s := s₀) env [] (by rw [hnum]; omega)
    ((RrPeers.conf_fields hk.conf).2.2.2.1.trans hsingle) (hk.weighted.trans hw) hk.lastNumber
  have hsafe := (h _ _ (hrun.snoc (e := .get env []) rfl)).2.log _ hread
  rw [hnum, hv, Nat.mod_eq_of_lt (by simp only [env]; omega)] at hsafe
  exact absurd hsafe (lt_irrefl _)

/-- In a group that is always safe the size of the table does not wrap: otherwise requests
build entries until they are past the room. -/
theorem vnTotal_of_safe : ps.wrapTotal.totalWeight < 2 ^ 60 := by
  by_contra hbig
  have hn := hc.fresh.number_pos
  obtain ⟨hready, hroom⟩ := vnFirst_of_safe hc h hw
  set s₀ := initVnGroup ps.wrapTotal gcd maxInit with hs₀
  have hk := initVirtualPeers_keep
    { ps := ps.wrapTotal, maxInit := effectiveMaxInit ps.wrapTotal maxInit, gcd := gcd } hn
    (b := 0) (e := effectiveMaxInit ps.wrapTotal maxInit) (Nat.zero_le _)
  rw [← initVnGroup_weighted gcd maxInit hw, ← hs₀] at hk
  obtain ⟨hnum, htotal, hwt, hsingle, -⟩ := RrPeers.conf_fields hk.conf
  have hlt : s₀.allocated < s₀.capacity :=
    VnGroup.allocated_lt (by rw [htotal]; exact not_lt.mp hbig) (by omega)
  have hnot : s₀.ps.single = false := by
    rw [← Bool.not_eq_true, hsingle]
    intro hs
    obtain ⟨-, hone, hfit⟩ := hc.single hs
    have hcap : s₀.capacity = gcd % 2 ^ 64 / gcd := by
      rw [VnGroup.capacity, htotal, hk.gcd, ← hone]
      rfl
    rw [Nat.mod_eq_of_lt hfit, Nat.div_self hc.gcd_pos] at hcap
    omega
  have hgrow : ∀ k, ∃ tr s, (vnMachine s₀).Run tr s ∧ s.ps.conf = s₀.ps.conf ∧
      s.gcd = s₀.gcd ∧ s.maxInit = s₀.maxInit ∧ min s₀.capacity k ≤ s.vnumber := by
    intro k
    induction k with
    | zero => exact ⟨[], s₀, .start rfl, rfl, rfl, rfl, by omega⟩
    | succ k ih =>
      obtain ⟨tr, s, hrun, hconf, hgcd, hmax, hv⟩ := ih
      obtain ⟨hnum', htotal', hwt', hsingle', -⟩ := RrPeers.conf_fields hconf
      have hcap : s.capacity = s₀.capacity := by
        rw [VnGroup.capacity, VnGroup.capacity, htotal', hgcd]
      have hsafe := (h _ _ hrun).2.vnumber.trans s.allocated_le
      let env : RrEnv := { now := 0, random := 0, checkPeerDown := fun _ => false }
      obtain ⟨hconf'', hgcd'', hmax'', hv''⟩ := vnGet_grows (s := s) env []
        (by rw [hnum', hnum]; exact hn) (hsingle'.trans hnot) (hwt'.trans (hwt.trans hw))
        (by rw [hmax, hk.maxInit]; exact hn.trans_le hready) hsafe
      exact ⟨_, vnGet env [] s, hrun.snoc (e := VnEvent.get env []) rfl, hconf''.trans hconf,
        hgcd''.trans hgcd, hmax''.trans hmax, by omega⟩
  obtain ⟨tr, s, hrun, hconf, hgcd, -, hv⟩ := hgrow s₀.capacity
  have hsafe := (h _ _ hrun).2.vnumber
  have hsame : s.allocated = s₀.allocated := by
    rw [VnGroup.allocated, VnGroup.allocated, (RrPeers.conf_fields hconf).2.1, hgcd]
  omega

end Needed

/-- **The table stays in bounds**, in every run and for every group built from servers, if
and only if the condition holds of the configuration. -/
theorem vnswrr_safe {checkAdd : UpstreamServer → Sockaddr × String → ℕ} {host : String}
    {servers : List UpstreamServer} {up : Upstream}
    (hinit : upstreamInitRoundRobin checkAdd (.servers host servers) = some up) {g : Group}
    (hg : g = .backup → up.next = true) (maxInit : ℕ) :
    (∀ tr s, (vnMachine (upstreamInitVnswrr up servers maxInit g)).Run tr s →
      Machine.Everywhere VnSafe tr s) ↔
    VnFits (up.peers g).wrapTotal (serversGcd (groupServers servers g)) maxInit := by
  have hc := vnConf_of_init hinit hg
  constructor
  · intro h hw
    have hready := vnFirst_of_safe hc h hw
    refine ⟨vnTotal_of_safe hc h hw, hready.1, hready.2.trans ?_⟩
    exact (VnGroup.allocated_le _).trans_eq (initVnGroup_capacity _ _ hc.fresh.number_pos)
  · intro hfits tr s hrun
    have hinv := hrun.invariant_of_steps (P := VnInv) (C := fun _ _ => True)
      (by
        rintro s rfl
        exact initVnGroup_inv (show 0 < (up.peers g).wrapTotal.number from hc.fresh.number_pos)
          hfits)
      (by
        rintro s e s' h - rfl
        exact vnStep_inv e h) (fun _ _ => trivial)
    exact ⟨fun p hp => (hinv.1 p hp).safe, hinv.2.safe⟩

/-- Two servers of weight two. -/
def evenServers : List UpstreamServer :=
  [{ name := "a", addrs := [([1], "a:81")], weight := 2
     weight_pos := Nat.two_pos, addrs_ne := cons_ne_nil _ _ },
   { name := "b", addrs := [([2], "b:81")], weight := 2
     weight_pos := Nat.two_pos, addrs_ne := cons_ne_nil _ _ }]

/-- The even pair as configuration leaves it. -/
def evenUpstream : Upstream :=
  (upstreamInitRoundRobin (fun _ _ => checkIndexError) (.servers "backend" evenServers)).getD
    { peers := fun _ => {}, next := false }

theorem evenUpstream_init :
    upstreamInitRoundRobin (fun _ _ => checkIndexError) (.servers "backend" evenServers)
      = some evenUpstream := rfl

/-- **Out of bounds.** With weights two and two and `max_init=4` the table has two entries
and configuration builds four. -/
theorem vnswrr_overflow :
    (upstreamInitVnswrr evenUpstream evenServers 4 .primary).allocated = 2 ∧
      (upstreamInitVnswrr evenUpstream evenServers 4 .primary).vnumber = 4 ∧
      ¬ ∀ tr s, (vnMachine (upstreamInitVnswrr evenUpstream evenServers 4 .primary)).Run tr s →
        Machine.Everywhere VnSafe tr s := by
  refine ⟨by decide, by decide, ?_⟩
  intro h
  have hsafe := (h [] _ (.start rfl)).2.vnumber
  revert hsafe
  decide

/-- With `max_init=2` every run over the even pair is safe. -/
theorem vnswrr_safe_even :
    VnFits (evenUpstream.peers .primary).wrapTotal
      (serversGcd (groupServers evenServers .primary)) 2 ∧
    ∀ tr s, (vnMachine (upstreamInitVnswrr evenUpstream evenServers 2 .primary)).Run tr s →
      Machine.Everywhere VnSafe tr s := by
  have hfits : VnFits (evenUpstream.peers .primary).wrapTotal
      (serversGcd (groupServers evenServers .primary)) 2 := fun _ => by decide
  exact ⟨hfits, (vnswrr_safe evenUpstream_init (by simp) 2).mpr hfits⟩

end Hengine
