import Hengine.Upstream.Retry

/-!
# The Hash Balancers

`ngx_http_upstream_get_hash_peer` and the consistent `ngx_http_upstream_get_chash_peer` of
`ngx_http_upstream_hash_module.c`. Both try up to twenty-one positions of their own and
then leave the request to round robin.

The checksum `ngx_crc32_long` and the table of points that
`ngx_http_upstream_init_chash` builds from it are parameters: nothing below depends on
their values. Both loops end because every turn counts `tries`; the fuel of the model is
enough for all of them.

The scan of the consistent hash has its own copy of the eligibility tests, and that copy
lacks the one on `ngx_http_upstream_check_peer_down`.
-/

namespace Hengine

open List Function

/-- What the balancers keep in `ngx_http_upstream_hash_peer_data_t`. -/
structure HashPeerData where
  key : List UInt8
  tries : ℕ
  rehash : ℕ
  hash : ℕ

variable {crc32 : List UInt8 → UInt32} {env : RrEnv} {ps : RrPeers} {tried : List Word}

/-! ### Hash -/

/-- `ngx_sprintf(buf, "%ui", n)`. -/
def sprintfUi (n : ℕ) : List UInt8 :=
  (Nat.toDigits 10 n).map fun c => c.toNat.toUInt8

/-- The next value of `hash`: `((crc32([REHASH] KEY) >> 16) & 0x7fff) + PREV_HASH`, with
`REHASH` omitted at the first iteration. -/
def HashPeerData.next (crc32 : List UInt8 → UInt32) (hp : HashPeerData) : HashPeerData :=
  let text := if hp.rehash > 0 then sprintfUi hp.rehash ++ hp.key else hp.key
  let hash := (crc32 text >>> 16) &&& 0x7fff
  { hp with hash := (hp.hash + hash.toNat) % 2 ^ 32, rehash := hp.rehash + 1 }

/-- The loop `while (w >= peer->weight)` over the peers from `p` on. -/
@[grind =]
def hashWalk (peer : ℕ → RrPeer) : ℕ → ℕ → ℤ → ℕ
  | 0, p, _ => p
  | fuel + 1, p, w =>
    if w ≥ (peer p).weight then hashWalk peer fuel (p + 1) (w - (peer p).weight) else p

/-- The peer of the present hash value. -/
def hashPeer (ps : RrPeers) (hp : HashPeerData) : ℕ :=
  hashWalk ps.peer ps.number 0 ((hp.hash % ps.totalWeight : ℕ) : ℤ)

/-- The loop of `ngx_http_upstream_get_hash_peer`: the peer it breaks with, or `none` when
the tries are used up. -/
@[grind =]
def hashLoop (crc32 : List UInt8 → UInt32) (env : RrEnv) (ps : RrPeers) (tried : List Word) :
    ℕ → HashPeerData → Option ℕ × HashPeerData
  | 0, hp => (none, hp)
  | fuel + 1, hp =>
    let hp := hp.next crc32
    let p := hashPeer ps hp
    if peerSkip env tried p (ps.peer p) then
      let hp := { hp with tries := hp.tries + 1 }
      if hp.tries > 20 then (none, hp) else hashLoop crc32 env ps tried fuel hp
    else (some p, hp)

/-- `ngx_http_upstream_get_hash_peer`. -/
def upstreamGetHashPeer (crc32 : List UInt8 → UInt32) (env : RrEnv)
    (s : GetState HashPeerData) : Rc × GetState HashPeerData :=
  let ps := s.up.peers s.rrp.group
  if s.priv.tries > 20 || ps.single || s.priv.key.isEmpty then upstreamGetRoundRobinPeer env s
  else
    match hashLoop crc32 env ps s.rrp.tried 21 s.priv with
    | (none, hp) => upstreamGetRoundRobinPeer env { s.begin with priv := hp }
    | (some p, hp) =>
      (.ok, { s.begin with priv := hp }.grant
        { ps with peer := update ps.peer p ((ps.peer p).win 0 env.now) } p)

/-- The hash balancer; a request comes with the value of its key. -/
def hash (crc32 : List UInt8 → UInt32) : Balancer (List UInt8) HashPeerData where
  start := fun key => { key := key, tries := 0, rehash := 0, hash := 0 }
  get := upstreamGetHashPeer crc32

/-! ### Consistent hash -/

/-- `ngx_http_upstream_chash_point_t`. -/
structure ChashPoint where
  hash : ℕ
  server : String

/-- The loop of `ngx_http_upstream_find_chash_point` on `[i, j)`. -/
@[grind =]
def chashSearch (points : List ChashPoint) (hash : ℕ) : ℕ → ℕ → ℕ → ℕ
  | 0, i, _ => i
  | fuel + 1, i, j =>
    if i < j then
      let k := (i + j) / 2
      let point := (points.getD k { hash := 0, server := "" }).hash
      if hash > point then chashSearch points hash fuel (k + 1) j
      else if hash < point then chashSearch points hash fuel i k
      else k
    else i

/-- `ngx_http_upstream_find_chash_point`: the first point at or after the hash. -/
def upstreamFindChashPoint (points : List ChashPoint) (hash : ℕ) : ℕ :=
  chashSearch points hash points.length 0 points.length

/-- The server of the point a hash value stands for. -/
def chashServerAt (points : List ChashPoint) (hash : ℕ) : String :=
  (points.getD (hash % points.length) { hash := 0, server := "" }).server

/-- The tests of the scan: tried, down, failing, full, or another server. There is none on
the health check. -/
def chashSkip (env : RrEnv) (tried : List Word) (server : String) (i : ℕ) (p : RrPeer) :
    Bool :=
  testBit tried i || p.down || p.failing env.now || p.full || p.server != server

/-- The loop of `ngx_http_upstream_get_chash_peer`: the peer found with the group as the
scan leaves it, or `none` when the tries are used up. A scan that finds no peer has changed
none. -/
@[grind =]
def chashLoop (points : List ChashPoint) (env : RrEnv) (ps : RrPeers) (tried : List Word) :
    ℕ → HashPeerData → Option (ℕ × RrPeers) × HashPeerData
  | 0, hp => (none, hp)
  | fuel + 1, hp =>
    let server := chashServerAt points hp.hash
    let scan := swrrScan RrPeer.bump (chashSkip env tried server) (List.range ps.number) ps.peer
    match scan.best with
    | some b =>
      (some (b, { ps with
        peer := update scan.peer b ((scan.peer b).win scan.total env.now) }), hp)
    | none =>
      let hp := { hp with hash := (hp.hash + 1) % 2 ^ 32, tries := hp.tries + 1 }
      if hp.tries > 20 then (none, hp) else chashLoop points env ps tried fuel hp

/-- `ngx_http_upstream_get_chash_peer`. -/
def upstreamGetChashPeer (points : List ChashPoint) (env : RrEnv)
    (s : GetState HashPeerData) : Rc × GetState HashPeerData :=
  let ps := s.up.peers s.rrp.group
  if s.priv.tries > 20 || ps.single || s.priv.key.isEmpty then upstreamGetRoundRobinPeer env s
  else
    match chashLoop points env ps s.rrp.tried 21 s.priv with
    | (none, hp) => upstreamGetRoundRobinPeer env { s.begin with priv := hp }
    | (some (b, ps), hp) => (.ok, { s.begin with priv := hp }.grant ps b)

/-- The consistent-hash balancer; a request comes with the value of its key and starts at
the point of its checksum. -/
def chash (crc32 : List UInt8 → UInt32) (points : List ChashPoint) :
    Balancer (List UInt8) HashPeerData where
  start := fun key =>
    { key := key, tries := 0, rehash := 0
      hash := upstreamFindChashPoint points (crc32 key).toNat }
  get := upstreamGetChashPeer points

/-! ### The walk and the loops -/

/-- The walk stays within the group while the weights ahead exceed what is left to walk. -/
theorem hashWalk_lt {peer : ℕ → RrPeer} {n fuel p : ℕ} {w : ℤ} (hn : n = p + fuel)
    (hw : w < ∑ i ∈ Finset.range fuel, (peer (p + i)).weight) (h0 : 0 ≤ w) :
    hashWalk peer fuel p w < n := by
  induction fuel generalizing p w with
  | zero =>
    simp at hw
    omega
  | succ fuel ih =>
    simp only [hashWalk]
    split_ifs with hge
    · refine ih (by omega) ?_ (by omega)
      rw [Finset.sum_range_succ'] at hw
      simp only [Nat.add_zero, add_comm, add_left_comm] at hw ⊢
      omega
    · omega

/-- A group whose total weight is that of its peers. -/
structure Weighed (ps : RrPeers) : Prop where
  number_pos : 0 < ps.number
  weight_pos : ∀ i < ps.number, 0 < (ps.peer i).weight
  total : (ps.totalWeight : ℤ) = ∑ i ∈ Finset.range ps.number, (ps.peer i).weight

/-- A fresh group, and any group of its configuration, is weighed. -/
theorem FreshPeers.weighed {ps ps₀ : RrPeers} (h : FreshPeers ps) (hconf : ps₀.conf = ps.conf) :
    Weighed ps₀ := by
  have hnum : ps₀.number = ps.number := by
    have hn := congrArg RrPeers.number hconf
    exact hn
  have htotal : ps₀.totalWeight = ps.totalWeight := by
    have ht := congrArg RrPeers.totalWeight hconf
    exact ht
  have hweight : ∀ i, (ps₀.peer i).weight = (ps.peer i).weight := by
    intro i
    have hw := congrArg (fun q : RrPeers => (q.peer i).weight) hconf
    exact hw
  refine ⟨by rw [hnum]; exact h.number_pos, ?_, ?_⟩
  · intro i hi
    rw [hweight i]
    exact (h.peer i (by rw [← hnum]; exact hi)).weight_pos
  · simp only [htotal, hnum, hweight]
    exact h.total

/-- The hash gives a peer that is there. -/
theorem hashPeer_lt (h : Weighed ps) (hp : HashPeerData) : hashPeer ps hp < ps.number := by
  have hsum : 0 < ∑ i ∈ Finset.range ps.number, (ps.peer i).weight :=
    Finset.sum_pos (fun i hi => h.weight_pos i (Finset.mem_range.mp hi))
      ⟨0, Finset.mem_range.mpr h.number_pos⟩
  have hpos : 0 < ps.totalWeight := by
    have ht := h.total
    omega
  have hlt : hp.hash % ps.totalWeight < ps.totalWeight := Nat.mod_lt _ hpos
  refine hashWalk_lt (by omega) ?_ (by omega)
  simp only [Nat.zero_add]
  rw [← h.total]
  exact_mod_cast hlt

variable {hp hp' : HashPeerData}

/-- The peer the hash loop breaks with is one of the group and not to be skipped. -/
theorem hashLoop_some (h : Weighed ps) {fuel p : ℕ}
    (hres : hashLoop crc32 env ps tried fuel hp = (some p, hp')) :
    p < ps.number ∧ Eligible env ps tried p := by
  induction fuel generalizing hp with
  | zero => simp [hashLoop] at hres
  | succ fuel ih =>
    simp only [hashLoop] at hres
    split_ifs at hres with hskip htries
    · simp at hres
    · exact ih hres
    · rw [Prod.mk.injEq, Option.some.injEq] at hres
      obtain ⟨rfl, -⟩ := hres
      refine ⟨hashPeer_lt h _, ?_⟩
      simpa [Eligible] using hskip

/-- The server of the first point, within `k` tries, that has a peer for the scan. -/
@[grind =]
def chashServer (points : List ChashPoint) (env : RrEnv) (ps : RrPeers) (tried : List Word) :
    ℕ → ℕ → Option String
  | 0, _ => none
  | k + 1, hash =>
    let server := chashServerAt points hash
    if (List.range ps.number).any fun i => !chashSkip env tried server i (ps.peer i)
      then some server
      else chashServer points env ps tried k ((hash + 1) % 2 ^ 32)

/-- The consistent-hash loop ends at the first server that has a peer for the scan, with a
pick among that server's peers. -/
theorem chashLoop_some {points : List ChashPoint} {fuel b : ℕ} {ps' : RrPeers}
    (hfuel : 20 < hp.tries + fuel) (htries : hp.tries ≤ 20)
    (hres : chashLoop points env ps tried fuel hp = (some (b, ps'), hp')) :
    ∃ server A, chashServer points env ps tried (21 - hp.tries) hp.hash = some server ∧
      chashSkip env tried server b (ps.peer b) = false ∧ SwrrPick ps ps' A b env.now := by
  induction fuel generalizing hp with
  | zero => simp [chashLoop] at hres
  | succ fuel ih =>
    obtain ⟨k, hk⟩ : ∃ k, 21 - hp.tries = k + 1 := ⟨20 - hp.tries, by omega⟩
    have hspec := swrrScan_spec RrPeer.bump
      (chashSkip env tried (chashServerAt points hp.hash)) ps.peer (nodup_range (n := ps.number))
    simp only [chashLoop] at hres
    rw [hk]
    simp only [chashServer]
    split at hres
    · rename_i c hbest
      rw [Prod.mk.injEq, Option.some.injEq, Prod.mk.injEq] at hres
      obtain ⟨⟨rfl, rfl⟩, -⟩ := hres
      obtain ⟨hcl, hcs, -⟩ := hspec.best_some c hbest
      refine ⟨chashServerAt points hp.hash, _, ?_, hcs,
        hspec.pick (fun i hi => mem_range.mp hi) hbest ps.initNumber env.now⟩
      rw [if_pos]
      exact any_eq_true.mpr ⟨c, hcl, by simp [hcs]⟩
    · rename_i hbest
      have hnone : ¬ ((List.range ps.number).any fun i =>
          !chashSkip env tried (chashServerAt points hp.hash) i (ps.peer i)) = true := by
        rw [any_eq_true]
        rintro ⟨i, hi, hskip⟩
        simp [hspec.best_none hbest i hi] at hskip
      rw [if_neg hnone]
      split_ifs at hres with hover
      · simp at hres
      · obtain ⟨server, A, hserver, hskip, hpick⟩ :=
          ih (by simp only; omega) (by simp only; omega) hres
        refine ⟨server, A, ?_, hskip, hpick⟩
        have hk' : 21 - (hp.tries + 1) = k := by omega
        simp only [hk'] at hserver
        exact hserver

/-! ### Selection -/

/-- What a strategy picks, the call selects. -/
theorem PickSelect.getSelect {ρ : Type} {Q : RrPeers → List Word → ℕ → Prop} {s t : GetState ρ}
    (h : PickSelect Q s (true, t)) : GetSelect Q s (.ok, t) := by
  have hgroup : t.rrp.group = s.rrp.group := h.group
  have hsame : s.triedAt s.rrp.group = s.rrp.tried := if_pos rfl
  refine ⟨h.conf, Or.inl hgroup, by simp, fun _ => ?_⟩
  simp only [hgroup, hsame]
  exact h.ok rfl

section Select

variable {up : Upstream} {s : GetState HashPeerData} (hup : FreshUpstream up)
  (hconf : s.up.conf = up.conf) (hs : (up.peers .primary).single = false)

include hup hconf hs

/-- The fall-back to round robin selects an eligible peer. -/
theorem roundRobin_select_priv (env : RrEnv) (hp : HashPeerData) :
    GetSelect (Eligible env) s
      (upstreamGetRoundRobinPeer env { s.begin with priv := hp }) := by
  have h := upstreamGetRoundRobinPeer_select (s := { s.begin with priv := hp }) env hup hconf hs
  exact ⟨h.conf, h.move, h.busy, h.ok⟩

/-- **Selection** of the hash `get`. -/
theorem upstreamGetHashPeer_select (env : RrEnv)
    (hback : s.rrp.group = .backup → up.next = true) :
    GetSelect (Eligible env) s (upstreamGetHashPeer crc32 env s) := by
  have hweighed : Weighed (s.up.peers s.rrp.group) := by
    have hpeers : (s.up.peers s.rrp.group).conf = (up.peers s.rrp.group).conf := by
      have hc := congrArg (fun u : Upstream => u.peers s.rrp.group) hconf
      exact hc
    cases hg : s.rrp.group with
    | primary => exact hup.primary.weighed (hg ▸ hpeers)
    | backup => exact (hup.backup (hback hg)).weighed (hg ▸ hpeers)
  simp only [upstreamGetHashPeer]
  split_ifs
  · exact upstreamGetRoundRobinPeer_select env hup hconf hs
  · rcases hres : hashLoop crc32 env (s.up.peers s.rrp.group) s.rrp.tried 21 s.priv
      with ⟨_ | p, hp⟩
    · exact roundRobin_select_priv hup hconf hs env hp
    · obtain ⟨hlt, hel⟩ := hashLoop_some hweighed hres
      have hpick : SwrrPick (s.up.peers s.rrp.group)
          { s.up.peers s.rrp.group with
            peer := update (s.up.peers s.rrp.group).peer p
              (((s.up.peers s.rrp.group).peer p).win 0 env.now) } ∅ p env.now := by
        refine ⟨hlt, by simp, rfl, ?_⟩
        intro i
        by_cases hip : i = p
        · subst hip
          simp
        · simp [hip]
      have h := (grant_select (s := { s.begin with priv := hp }) hpick hel).getSelect
      exact ⟨h.conf, h.move, h.busy, h.ok⟩

/-- **Selection** of the consistent-hash `get`: the one test it lacks is on the health
check. -/
theorem upstreamGetChashPeer_select {points : List ChashPoint} (env : RrEnv)
    (hcheck : s.priv.key ≠ [] → ∀ server,
      chashServer points env (s.up.peers s.rrp.group) s.rrp.tried (21 - s.priv.tries)
        s.priv.hash = some server →
      ∀ i < (s.up.peers s.rrp.group).number,
        chashSkip env s.rrp.tried server i ((s.up.peers s.rrp.group).peer i) = false →
        env.checkPeerDown ((s.up.peers s.rrp.group).peer i).checkIndex = false) :
    GetSelect (Eligible env) s (upstreamGetChashPeer points env s) := by
  simp only [upstreamGetChashPeer]
  split_ifs with hrr
  · exact upstreamGetRoundRobinPeer_select env hup hconf hs
  · simp only [Bool.or_eq_true, decide_eq_true_eq, List.isEmpty_iff, not_or, not_lt] at hrr
    obtain ⟨⟨htries, -⟩, hkey⟩ := hrr
    rcases hres : chashLoop points env (s.up.peers s.rrp.group) s.rrp.tried 21 s.priv
      with ⟨_ | ⟨b, ps⟩, hp⟩
    · exact roundRobin_select_priv hup hconf hs env hp
    · obtain ⟨server, A, hserver, hskip, hpick⟩ := chashLoop_some (by omega) htries hres
      have hel : Eligible env (s.up.peers s.rrp.group) s.rrp.tried b := by
        have hdown := hcheck hkey server hserver b hpick.lt hskip
        simp only [chashSkip, Bool.or_eq_false_iff] at hskip
        simp [Eligible, peerSkip, RrPeer.unavailable, hskip, hdown]
      have h := (grant_select (s := { s.begin with priv := hp }) hpick hel).getSelect
      exact ⟨h.conf, h.move, h.busy, h.ok⟩

end Select

end Hengine
