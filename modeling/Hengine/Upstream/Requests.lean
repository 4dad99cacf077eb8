import Hengine.Lib.Machine
import Hengine.Upstream.RoundRobin

/-!
# Requests over a Shared Upstream

Any number of requests work on one shared upstream: each is initialised, gets a peer
through the balancer, frees it, retries, and may end and be replaced by another. The
machine below interleaves these calls in any order, at any times and with any health-check
reports. The balancer is a parameter: its `get`, with the balancer's own per-request data.

The caller's discipline is the one of `ngx_http_upstream.c`: `peer.sockaddr` is set while a
request holds a peer; `get` is called only while it is `NULL`, `free` only while it is set,
and `free` is followed by `peer.sockaddr = NULL`.

Three fields of a request are ghosts, written by the machine and read by no function: the
peers returned to it so far, the moment at which it fell over to the backup group, and the
result of its last `get`.

A balancer enters through contracts on one call: what it does to the connection counts
(`GetAccount`), which peer it returns (`GetSelect`) and when it gives up (`GetComplete`).
Each contract carries over to all runs.
-/

namespace Hengine

open Function List Option

variable {n : ℕ} {ι ρ : Type}

/-- A balancer: the request data `ρ` its `init` builds from what it reads of the request,
and its `get`. -/
structure Balancer (ι ρ : Type) where
  start : ι → ρ
  get : RrEnv → GetState ρ → Rc × GetState ρ

/-- The primary group, the outside and the peers already returned at the moment a request
moved to the backup group. -/
structure FallOver where
  peers : RrPeers
  env : RrEnv
  hist : List (Group × ℕ)

/-- A request. `hist`, `fell` and `last` are ghosts. -/
structure Request (ρ : Type) where
  active : Bool
  pc : PeerConnection
  rrp : RrPeerData
  priv : ρ
  hist : List (Group × ℕ)
  fell : Option FallOver
  last : Option Rc

/-- The shared upstream and `n` request slots. -/
structure UpstreamState (n : ℕ) (ρ : Type) where
  up : Upstream
  req : Fin n → Request ρ

/-- The calls of the requests. -/
inductive RequestEvent (n : ℕ) (ι : Type)
  | init (r : Fin n) (arg : ι)
  | get (r : Fin n) (env : RrEnv)
  | free (r : Fin n) (failed : Bool) (now : ℤ)

/-- The peers returned to a request, with the one its current data names added after a
success. -/
def Request.record (q : Request ρ) (rc : Rc) (rrp : RrPeerData) : List (Group × ℕ) :=
  match rc, rrp.current with
  | .ok, some gi => gi :: q.hist
  | _, _ => q.hist

/-- The moment of fall-over, recorded by the call that moves to the backup group. -/
def Request.recordFell (q : Request ρ) (up : Upstream) (env : RrEnv) (rrp : RrPeerData) :
    Option FallOver :=
  if q.rrp.group = .primary ∧ rrp.group = .backup
    then some { peers := up.peers .primary, env := env, hist := q.hist }
    else q.fell

/-- A request after a call of `get`. -/
def Request.afterGet (q : Request ρ) (up : Upstream) (env : RrEnv) (rc : Rc)
    (t : GetState ρ) : Request ρ :=
  { q with
    pc := t.pc, rrp := t.rrp, priv := t.priv
    hist := q.record rc t.rrp
    fell := q.recordFell up env t.rrp
    last := some rc }

/-- A freshly initialised request. -/
def Request.fresh (up : Upstream) (priv : ρ) : Request ρ :=
  { active := true, priv := priv
    rrp := (upstreamInitRoundRobinPeer up).1
    pc := (upstreamInitRoundRobinPeer up).2
    hist := [], fell := none, last := none }

/-- One call of one request. -/
def requestStep (b : Balancer ι ρ) (s : UpstreamState n ρ) :
    RequestEvent n ι → Option (UpstreamState n ρ)
  | .init r arg =>
    if (s.req r).pc.sockaddr.isSome then none
    else some { s with
      req := update s.req r (Request.fresh s.up (b.start arg)) }
  | .get r env =>
    let q := s.req r
    if q.active = false ∨ q.pc.sockaddr.isSome then none
    else
      let res := b.get env { up := s.up, pc := q.pc, rrp := q.rrp, priv := q.priv }
      some { up := res.2.up
             req := update s.req r (q.afterGet s.up env res.1 res.2) }
  | .free r failed now =>
    let q := s.req r
    if q.pc.sockaddr.isNone then none
    else
      let res := upstreamFreeRoundRobinPeer s.up q.pc q.rrp failed now
      some { up := res.1
             req := update s.req r
               { q with pc := { res.2 with sockaddr := none } } }

/-- No request is active and none holds a peer. -/
def Idle (up : Upstream) (s : UpstreamState n ρ) : Prop :=
  s.up = up ∧ ∀ r, (s.req r).active = false ∧ (s.req r).pc.sockaddr = none

/-- The state before the first call. -/
def UpstreamState.idle (up : Upstream) (priv : ρ) : UpstreamState n ρ where
  up := up
  req := fun _ =>
    { active := false, pc := {}, rrp := {}, priv := priv, hist := [], fell := none
      last := none }

/-- The requests over an upstream that starts as `up`. -/
def requestMachine (n : ℕ) (b : Balancer ι ρ) (up : Upstream) :
    Machine (UpstreamState n ρ) (RequestEvent n ι) :=
  Machine.ofStep (Idle up) (requestStep b)

/-! ### Inversion of a step -/

/-- The state a `get` call starts from. -/
def UpstreamState.call (s : UpstreamState n ρ) (r : Fin n) : GetState ρ :=
  { up := s.up, pc := (s.req r).pc, rrp := (s.req r).rrp, priv := (s.req r).priv }

variable {b : Balancer ι ρ} {tr : List (UpstreamState n ρ × RequestEvent n ι)}
  {e : RequestEvent n ι} {env : RrEnv} {g : Group} {i : ℕ} {failed : Bool}

/-- What the start of a request does. -/
theorem requestStep_init {s s' : UpstreamState n ρ} {r : Fin n} {arg : ι}
    (h : requestStep b s (.init r arg) = some s') :
    (s.req r).pc.sockaddr = none ∧
      s' = { s with
        req := update s.req r (Request.fresh s.up (b.start arg)) } := by
  simp only [requestStep] at h
  split_ifs at h with hsome
  refine ⟨?_, (Option.some.inj h).symm⟩
  simpa using hsome

/-- What a request that gets a peer does. -/
theorem requestStep_get {s s' : UpstreamState n ρ} {r : Fin n}
    (h : requestStep b s (.get r env) = some s') :
    (s.req r).active = true ∧ (s.req r).pc.sockaddr = none ∧
      ∃ rc t, b.get env (s.call r) = (rc, t) ∧
        s' = { up := t.up
               req := update s.req r ((s.req r).afterGet s.up env rc t) } := by
  simp only [requestStep] at h
  split_ifs at h with hc
  simp only [not_or, Bool.not_eq_false, Bool.not_eq_true, isSome_eq_false_iff,
    isNone_iff_eq_none] at hc
  exact ⟨hc.1, hc.2, _, _, rfl, (Option.some.inj h).symm⟩

/-- What a request that frees its peer does. -/
theorem requestStep_free {s s' : UpstreamState n ρ} {r : Fin n} {now : ℤ}
    (h : requestStep b s (.free r failed now) = some s') :
    (s.req r).pc.sockaddr.isSome ∧
      ∃ up pc, upstreamFreeRoundRobinPeer s.up (s.req r).pc (s.req r).rrp failed now
          = (up, pc) ∧
        s' = { up := up
               req := update s.req r
                 { s.req r with pc := { pc with sockaddr := none } } } := by
  simp only [requestStep] at h
  split_ifs at h with hc
  refine ⟨?_, _, _, rfl, (Option.some.inj h).symm⟩
  simpa [isSome_iff_ne_none] using hc

/-! ### Configuration -/

section

variable {up up' : Upstream} (h : up'.conf = up.conf)
include h

theorem number_of_conf (g : Group) : (up'.peers g).number = (up.peers g).number := by
  have hn := congrArg (fun u : Upstream => (u.peers g).number) h
  exact hn

theorem next_of_conf : up'.next = up.next := by
  have hn := congrArg Upstream.next h
  exact hn

theorem triedWords_of_conf : triedWords up' = triedWords up := by
  have ht := congrArg triedWords h
  exact ht

end

/-- Freeing a peer keeps the configuration. -/
theorem conf_upstreamFreeRoundRobinPeer (up : Upstream) (pc : PeerConnection)
    (rrp : RrPeerData) (failed : Bool) (now : ℤ) :
    (upstreamFreeRoundRobinPeer up pc rrp failed now).1.conf = up.conf := by
  unfold upstreamFreeRoundRobinPeer
  split
  · rfl
  · simp only
    split_ifs
    · exact Upstream.conf_setPeer rfl
    · exact Upstream.conf_setPeer (RrPeer.conf_settle _ failed now)

/-! ### Connection accounting -/

/-- The request holds peer `i` of group `g`. -/
def Request.Holds (q : Request ρ) (g : Group) (i : ℕ) : Prop :=
  q.pc.sockaddr.isSome = true ∧ q.rrp.current = some (g, i)

instance (q : Request ρ) (g : Group) (i : ℕ) : Decidable (q.Holds g i) :=
  inferInstanceAs (Decidable (_ ∧ _))

/-- The number of requests that hold a peer. -/
def UpstreamState.holders (s : UpstreamState n ρ) (g : Group) (i : ℕ) : ℕ :=
  (Finset.univ.filter fun r => (s.req r).Holds g i).card

/-- The connection count of a peer. -/
def Upstream.conns (up : Upstream) (g : Group) (i : ℕ) : ℕ :=
  ((up.peers g).peer i).conns

/-- **The accounting contract** of a `get` call: a success hands out a peer and counts one
connection on it and on no other, a failure hands out nothing and counts nothing. -/
structure GetAccount (s : GetState ρ) (res : Rc × GetState ρ) : Prop where
  conf : res.2.up.conf = s.up.conf
  ok : res.1 = .ok → res.2.pc.sockaddr.isSome = true ∧ ∃ g i,
    res.2.rrp.current = some (g, i) ∧ i < (s.up.peers g).number ∧
    ∀ h j, res.2.up.conns h j = s.up.conns h j + if h = g ∧ j = i then 1 else 0
  busy : res.1 = .busy → res.2.pc.sockaddr = s.pc.sockaddr ∧
    ∀ h j, res.2.up.conns h j = s.up.conns h j

/-- The step, if it is a `get`, keeps the accounting contract. -/
def StepAccount (b : Balancer ι ρ) (s : UpstreamState n ρ) (e : RequestEvent n ι) : Prop :=
  ∀ r env, e = .get r env → GetAccount (s.call r) (b.get env (s.call r))

/-- Every count is the number of holders, and whoever holds a peer knows which. -/
structure Accounted (s : UpstreamState n ρ) : Prop where
  conns : ∀ g i, i < (s.up.peers g).number → s.up.conns g i = s.holders g i
  known : ∀ r, (s.req r).pc.sockaddr.isSome = true →
    ∃ g i, (s.req r).rrp.current = some (g, i) ∧ i < (s.up.peers g).number

/-- Replacing one request moves at most that request in or out of a counted set. -/
theorem card_filter_update {α : Type*} (f : Fin n → α) (r : Fin n) (v : α) (P : α → Prop)
    [DecidablePred P] :
    (Finset.univ.filter fun x => P (update f r v x)).card + (if P (f r) then 1 else 0)
      = (Finset.univ.filter fun x => P (f x)).card + (if P v then 1 else 0) := by
  have hrest : ∑ x ∈ Finset.univ.erase r, (if P (update f r v x) then 1 else 0)
      = ∑ x ∈ Finset.univ.erase r, (if P (f x) then 1 else 0) := by
    refine Finset.sum_congr rfl ?_
    intro x hx
    rw [update_of_ne (Finset.ne_of_mem_erase hx)]
  rw [Finset.card_filter, Finset.card_filter,
    ← Finset.add_sum_erase _ _ (Finset.mem_univ r),
    ← Finset.add_sum_erase (Finset.univ) (fun x => if P (f x) then 1 else 0)
      (Finset.mem_univ r), hrest, update_self]
  omega

/-- The holders of a peer after a step of one request. -/
theorem holders_update (s : UpstreamState n ρ) (up : Upstream) (r : Fin n) (q : Request ρ)
    (g : Group) (i : ℕ) :
    ({ up := up, req := update s.req r q } : UpstreamState n ρ).holders g i
        + (if (s.req r).Holds g i then 1 else 0)
      = s.holders g i + (if q.Holds g i then 1 else 0) :=
  card_filter_update s.req r q fun q => q.Holds g i

theorem Request.not_holds {q : Request ρ} (h : q.pc.sockaddr = none) (g : Group) (i : ℕ) :
    ¬ q.Holds g i := by
  simp [Request.Holds, h]

/-- A request with a peer holds this one only. -/
theorem Request.holds_iff {q : Request ρ} (hs : q.pc.sockaddr.isSome = true)
    (hc : q.rrp.current = some (g, i)) (h : Group) (j : ℕ) : q.Holds h j ↔ h = g ∧ j = i := by
  rw [Request.Holds, hc, Option.some.injEq, Prod.mk.injEq]
  exact ⟨fun hh => ⟨hh.2.1.symm, hh.2.2.symm⟩, fun hh => ⟨hs, hh.1.symm, hh.2.symm⟩⟩

/-- The counts after a free: one less on the freed peer. -/
theorem conns_upstreamFreeRoundRobinPeer {up up' : Upstream} {pc pc' : PeerConnection}
    {rrp : RrPeerData} {now : ℤ} (h : upstreamFreeRoundRobinPeer up pc rrp failed now = (up', pc'))
    (hc : rrp.current = some (g, i)) (k : Group) (j : ℕ) :
    up'.conns k j = if k = g ∧ j = i then uintDec (up.conns k j) else up.conns k j := by
  simp only [upstreamFreeRoundRobinPeer, hc] at h
  split_ifs at h
  · obtain ⟨rfl, -⟩ := Prod.mk.inj h
    rw [Upstream.conns, Upstream.peer_setPeer]
    split_ifs with heq
    · rw [heq.1, heq.2]
      rfl
    · rfl
  · obtain ⟨rfl, -⟩ := Prod.mk.inj h
    rw [Upstream.conns, Upstream.peer_setPeer]
    split_ifs with heq
    · rw [heq.1, heq.2]
      exact congrArg uintDec (RrPeer.conns_settle _ _ _)
    · rfl

section

variable {s s' : UpstreamState n ρ} (ha : Accounted s)
include ha

/-- An initialisation keeps the accounts: the request held nothing and holds nothing. -/
theorem Accounted.init {r : Fin n} {arg : ι} (h : requestStep b s (.init r arg) = some s') :
    Accounted s' := by
  obtain ⟨hnone, rfl⟩ := requestStep_init h
  refine ⟨?_, ?_⟩
  · intro g i hi
    have hupd := holders_update s s.up r (Request.fresh s.up (b.start arg)) g i
    rw [if_neg (Request.not_holds hnone g i), if_neg (Request.not_holds rfl g i)] at hupd
    rw [ha.conns g i hi]
    exact hupd.symm
  · intro x hx
    by_cases hxr : x = r
    · subst hxr
      simp [Request.fresh, upstreamInitRoundRobinPeer] at hx
    · simp only [update_of_ne hxr] at hx ⊢
      exact ha.known x hx

/-- A `get` under the contract keeps the accounts. -/
theorem Accounted.get {r : Fin n} (hget : GetAccount (s.call r) (b.get env (s.call r)))
    (h : requestStep b s (.get r env) = some s') : Accounted s' := by
  obtain ⟨-, hnone, rc, t, hb, rfl⟩ := requestStep_get h
  rw [hb] at hget
  have hnum : ∀ g, (t.up.peers g).number = (s.up.peers g).number :=
    number_of_conf hget.conf
  have hothers : ∀ x, x ≠ r → (s.req x).pc.sockaddr.isSome = true →
      ∃ g i, (s.req x).rrp.current = some (g, i) ∧ i < (t.up.peers g).number := by
    intro x _ hx
    obtain ⟨g, i, hc, hi⟩ := ha.known x hx
    exact ⟨g, i, hc, by rw [hnum g]; exact hi⟩
  cases hrc : rc with
  | ok =>
    subst hrc
    obtain ⟨hsome, g, i, hcur, hi, hconns⟩ := hget.ok rfl
    refine ⟨?_, ?_⟩
    · intro k j hj
      have hupd := holders_update s t.up r ((s.req r).afterGet s.up env .ok t) k j
      have hholds := Request.holds_iff (q := (s.req r).afterGet s.up env .ok t) hsome hcur k j
      rw [if_neg (Request.not_holds hnone k j), if_congr hholds rfl rfl,
        ← ha.conns k j (by rw [← hnum k]; exact hj)] at hupd
      exact (hconns k j).trans hupd.symm
    · intro x hx
      by_cases hxr : x = r
      · subst hxr
        simp only [update_self]
        exact ⟨g, i, hcur, by rw [hnum g]; exact hi⟩
      · simp only [update_of_ne hxr] at hx ⊢
        exact hothers x hxr hx
  | busy =>
    subst hrc
    obtain ⟨hkeep, hconns⟩ := hget.busy rfl
    have hsock : t.pc.sockaddr = none := hkeep.trans hnone
    refine ⟨?_, ?_⟩
    · intro k j hj
      have hupd := holders_update s t.up r ((s.req r).afterGet s.up env .busy t) k j
      rw [if_neg (Request.not_holds hnone k j),
        if_neg (Request.not_holds (q := (s.req r).afterGet s.up env .busy t) hsock k j),
        ← ha.conns k j (by rw [← hnum k]; exact hj)] at hupd
      exact (hconns k j).trans hupd.symm
    · intro x hx
      by_cases hxr : x = r
      · subst hxr
        simp only [update_self, Request.afterGet] at hx
        rw [hsock] at hx
        exact absurd hx (by simp)
      · simp only [update_of_ne hxr] at hx ⊢
        exact hothers x hxr hx

/-- A free keeps the accounts: the freed peer had at least this holder, so the decrement
does not wrap. -/
theorem Accounted.free {r : Fin n} {now : ℤ} (h : requestStep b s (.free r failed now) = some s') :
    Accounted s' := by
  obtain ⟨hsome, up, pc, hfree, rfl⟩ := requestStep_free h
  obtain ⟨g, i, hcur, hi⟩ := ha.known r hsome
  have hnum : ∀ k, (up.peers k).number = (s.up.peers k).number := by
    have hconf := conf_upstreamFreeRoundRobinPeer s.up (s.req r).pc (s.req r).rrp failed now
    rw [hfree] at hconf
    exact number_of_conf hconf
  refine ⟨?_, ?_⟩
  · intro k j hj
    rw [hnum k] at hj
    have hupd := holders_update s up r { s.req r with pc := { pc with sockaddr := none } } k j
    rw [if_congr (Request.holds_iff hsome hcur k j) rfl rfl,
      if_neg (Request.not_holds rfl k j), ← ha.conns k j hj] at hupd
    rw [conns_upstreamFreeRoundRobinPeer hfree hcur k j]
    split_ifs at hupd ⊢
    · rw [uintDec, if_neg (by omega)]
      omega
    · omega
  · intro x hx
    by_cases hxr : x = r
    · subst hxr
      simp at hx
    · simp only [update_of_ne hxr] at hx ⊢
      obtain ⟨k, j, hc, hj⟩ := ha.known x hx
      exact ⟨k, j, hc, by rw [hnum k]; exact hj⟩

/-- A step that accounts for its calls keeps the account. -/
theorem Accounted.step (he : StepAccount b s e) (h : requestStep b s e = some s') :
    Accounted s' := by
  cases e with
  | init r arg => exact ha.init h
  | get r env => exact ha.get (he r env rfl) h
  | free r failed now => exact ha.free h

end

/-- Before the first call all accounts are empty. -/
theorem Idle.accounted {up : Upstream} {s : UpstreamState n ρ} (hup : FreshUpstream up)
    (h : Idle up s) : Accounted s := by
  obtain ⟨rfl, hidle⟩ := h
  have hnone : ∀ r, (s.req r).pc.sockaddr = none := fun r => (hidle r).2
  refine ⟨?_, ?_⟩
  · intro g i hi
    have hzero : s.holders g i = 0 := by
      simp [UpstreamState.holders, fun r => Request.not_holds (hnone r) g i]
    rw [hzero]
    cases g with
    | primary => exact (hup.primary.peer i hi).conns
    | backup =>
      cases hnext : s.up.next with
      | false =>
        rw [hup.no_backup hnext] at hi
        exact absurd hi (by omega)
      | true => exact ((hup.backup hnext).peer i hi).conns
  · intro r hr
    rw [hnone r] at hr
    exact absurd hr (by simp)

/-- A step under the contract keeps the configuration. -/
theorem StepAccount.conf_eq {s s' : UpstreamState n ρ} (he : StepAccount b s e)
    (h : requestStep b s e = some s') : s'.up.conf = s.up.conf := by
  cases e with
  | init r arg =>
    obtain ⟨-, rfl⟩ := requestStep_init h
    rfl
  | get r env =>
    obtain ⟨-, -, rc, t, hb, rfl⟩ := requestStep_get h
    have hget := he r env rfl
    rw [hb] at hget
    exact hget.conf
  | free r failed now =>
    obtain ⟨-, up, pc, hfree, rfl⟩ := requestStep_free h
    have hconf := conf_upstreamFreeRoundRobinPeer s.up (s.req r).pc (s.req r).rrp failed now
    rw [hfree] at hconf
    exact hconf

/-- **Accounting over runs.** Along a run whose `get`s keep the contract, every connection
count is the number of requests that hold the peer. -/
theorem run_account {up : Upstream} (hup : FreshUpstream up) {s : UpstreamState n ρ}
    (hrun : (requestMachine n b up).Run tr s)
    (hget : ∀ p ∈ tr, p.1.up.conf = up.conf → StepAccount b p.1 p.2) :
    Machine.Everywhere (fun s => s.up.conf = up.conf ∧ Accounted s) tr s := by
  refine hrun.invariant_of_steps (C := fun s e => s.up.conf = up.conf → StepAccount b s e)
    ?_ ?_ hget
  · intro s h
    exact ⟨congrArg Upstream.conf h.1, h.accounted hup⟩
  · rintro s e s' ⟨hconf, ha⟩ hC hst
    exact ⟨((hC hconf).conf_eq hst).trans hconf, ha.step (hC hconf) hst⟩

/-! ### Selection -/

/-- The bitmap a `get` tests in group `g`: the request's own, with the words of the backup
group cleared when the call moves there. -/
def GetState.triedAt (s : GetState ρ) (g : Group) : List Word :=
  if g = s.rrp.group then s.rrp.tried
  else clearWords s.rrp.tried (groupWords (s.up.peers g))

/-- The peer is not to be skipped. -/
def Eligible (env : RrEnv) (ps : RrPeers) (tried : List Word) (i : ℕ) : Prop :=
  peerSkip env tried i (ps.peer i) = false

/-- **The selection contract** of a `get` call: it stays in its group or moves to the
backup group, and a success returns a peer of that group which has `Q` there and is marked
as tried. -/
structure GetSelect (Q : RrPeers → List Word → ℕ → Prop) (s : GetState ρ)
    (res : Rc × GetState ρ) : Prop where
  conf : res.2.up.conf = s.up.conf
  move : res.2.rrp.group = s.rrp.group ∨
    s.rrp.group = .primary ∧ res.2.rrp.group = .backup ∧ s.up.next = true
  busy : res.1 = .busy → res.2.rrp.tried = s.triedAt res.2.rrp.group
  ok : res.1 = .ok → ∃ i, i < (s.up.peers res.2.rrp.group).number ∧
    res.2.rrp.current = some (res.2.rrp.group, i) ∧
    Q (s.up.peers res.2.rrp.group) (s.triedAt res.2.rrp.group) i ∧
    res.2.rrp.tried = setBit (s.triedAt res.2.rrp.group) i

/-- **The completeness contract**: a call leaves a group, or gives up in it, only when all
its peers are to be skipped. -/
structure GetComplete (env : RrEnv) (s : GetState ρ) (res : Rc × GetState ρ) : Prop where
  fell : res.2.rrp.group ≠ s.rrp.group → ∀ i < (s.up.peers s.rrp.group).number,
    peerSkip env s.rrp.tried i ((s.up.peers s.rrp.group).peer i) = true
  busy : res.1 = .busy → ∀ i < (s.up.peers res.2.rrp.group).number,
    peerSkip env (s.triedAt res.2.rrp.group) i ((s.up.peers res.2.rrp.group).peer i) = true

/-- The bitmap and the history of a request tell the same. -/
structure Request.Marked (up : Upstream) (q : Request ρ) : Prop where
  length : q.rrp.tried.length = triedWords up
  bits : ∀ i < (up.peers q.rrp.group).number,
    (testBit q.rrp.tried i = true ↔ (q.rrp.group, i) ∈ q.hist)
  nodup : q.hist.Nodup
  backup : q.rrp.group = .backup → up.next = true
  primary : q.rrp.group = .primary → ∀ gi ∈ q.hist, gi.1 = .primary

/-- All active requests are marked, over an upstream configured as `up`. -/
structure Tracked (up : Upstream) (s : UpstreamState n ρ) : Prop where
  conf : s.up.conf = up.conf
  marked : ∀ r, (s.req r).active = true → (s.req r).Marked up

variable {up : Upstream} {s : UpstreamState n ρ} {r : Fin n}

/-- A selection meets every weaker condition on the peer. -/
theorem GetSelect.mono {Q Q' : RrPeers → List Word → ℕ → Prop} {s : GetState ρ}
    {res : Rc × GetState ρ} (h : GetSelect Q s res) (hQ : ∀ ps tried i, Q ps tried i → Q' ps tried i) :
    GetSelect Q' s res := by
  refine ⟨h.conf, h.move, h.busy, fun hok => ?_⟩
  obtain ⟨i, hi, hcur, hq, htried⟩ := h.ok hok
  exact ⟨i, hi, hcur, hQ _ _ _ hq, htried⟩

/-- The backup group is asked where there is one. -/
theorem GetSelect.backup_next {Q : RrPeers → List Word → ℕ → Prop} {s : GetState ρ}
    {res : Rc × GetState ρ} (h : GetSelect Q s res) (hs : s.rrp.group = .backup → s.up.next = true) :
    res.2.rrp.group = .backup → s.up.next = true := by
  intro hg
  rcases h.move with hm | ⟨-, -, hn⟩
  · exact hs (hm ▸ hg)
  · exact hn

theorem length_triedAt (s : GetState ρ) (g : Group) :
    (s.triedAt g).length = s.rrp.tried.length := by
  unfold GetState.triedAt
  split_ifs
  · rfl
  · exact length_clearWords _ _

/-- The bitmap tested in the group a call ends in marks the peers already returned by that
group: after a move nothing is marked and nothing was returned. -/
theorem Tracked.triedAt_bits (ht : Tracked up s) (hact : (s.req r).active = true)
    (hg : g = (s.req r).rrp.group ∨ (s.req r).rrp.group = .primary ∧ g = .backup) :
    ∀ i < (up.peers g).number,
      (testBit ((s.call r).triedAt g) i = true ↔ (g, i) ∈ (s.req r).hist) := by
  intro i hi
  have hm := ht.marked r hact
  by_cases hsame : g = (s.req r).rrp.group
  · have htried : (s.call r).triedAt g = (s.req r).rrp.tried := if_pos hsame
    rw [htried, hsame]
    exact hm.bits i (hsame ▸ hi)
  · obtain ⟨hprim, hback⟩ := hg.resolve_left hsame
    have htried : (s.call r).triedAt g
        = clearWords (s.req r).rrp.tried (groupWords (s.up.peers g)) := if_neg hsame
    have hi' : i < (s.up.peers g).number := by
      rw [number_of_conf ht.conf g]
      exact hi
    rw [htried, testBit_clearWords (div_lt_groupWords hi')]
    refine ⟨by simp, ?_⟩
    intro hmem
    have hgp : g = .primary := hm.primary hprim _ hmem
    rw [hback] at hgp
    exact absurd hgp (by simp)

/-- The bitmap of a request has a word for each peer. -/
theorem Tracked.div_lt_length (ht : Tracked up s) (hact : (s.req r).active = true)
    (hg : g = .backup → up.next = true) (hi : i < (up.peers g).number) :
    i / 64 < (s.req r).rrp.tried.length := by
  rw [(ht.marked r hact).length]
  exact lt_of_lt_of_le (div_lt_groupWords hi) (groupWords_le_triedWords up g hg)

/-- **No peer is given twice** to a request. -/
theorem Tracked.not_mem_hist (ht : Tracked up s) (hact : (s.req r).active = true)
    (hg : g = (s.req r).rrp.group ∨ (s.req r).rrp.group = .primary ∧ g = .backup)
    (hi : i < (up.peers g).number) (hskip : Eligible env (s.up.peers g) ((s.call r).triedAt g) i) :
    (g, i) ∉ (s.req r).hist := by
  intro hmem
  have hbit := (ht.triedAt_bits hact hg i hi).mpr hmem
  simp [Eligible, peerSkip, hbit] at hskip

/-- A `get` under the selection contract keeps a request marked. -/
theorem Tracked.marked_afterGet (ht : Tracked up s) (hact : (s.req r).active = true) {rc : Rc}
    {t : GetState ρ} (h : GetSelect (Eligible env) (s.call r) (rc, t)) :
    ((s.req r).afterGet s.up env rc t).Marked up := by
  have hm := ht.marked r hact
  have hnum := number_of_conf ht.conf
  have hnext : s.up.next = up.next := next_of_conf ht.conf
  have hgroup : t.rrp.group = (s.req r).rrp.group ∨
      (s.req r).rrp.group = .primary ∧ t.rrp.group = .backup :=
    h.move.imp id fun hmv => ⟨hmv.1, hmv.2.1⟩
  have hback : t.rrp.group = .backup → up.next = true := by
    rw [← hnext]
    exact h.backup_next fun hg => hnext.trans (hm.backup hg)
  have hbits := ht.triedAt_bits hact hgroup
  have hlen : ((s.call r).triedAt t.rrp.group).length = triedWords up :=
    (length_triedAt _ _).trans hm.length
  have hprim : t.rrp.group = .primary → (s.req r).rrp.group = .primary := by
    intro hg
    rcases hgroup with hgr | ⟨hgr, -⟩
    · rw [← hgr]
      exact hg
    · exact hgr
  cases rc with
  | busy =>
    have htried : t.rrp.tried = (s.call r).triedAt t.rrp.group := h.busy rfl
    refine ⟨?_, ?_, hm.nodup, hback, fun hg => hm.primary (hprim hg)⟩
    · rw [← hlen, ← htried]
      rfl
    · intro i hi
      have hbit := hbits i hi
      rw [← htried] at hbit
      exact hbit
  | ok =>
    obtain ⟨i, hi, hcur, hskip, htried⟩ := h.ok rfl
    simp only at htried
    have hi' : i < (up.peers t.rrp.group).number := by
      rw [← hnum]
      exact hi
    have hhist : ((s.req r).afterGet s.up env .ok t).hist
        = (t.rrp.group, i) :: (s.req r).hist := by
      simp only [Request.afterGet, Request.record]
      rw [show t.rrp.current = some (t.rrp.group, i) from hcur]
    have hnew := ht.not_mem_hist hact hgroup hi' hskip
    have hword : i / 64 < ((s.call r).triedAt t.rrp.group).length := by
      rw [length_triedAt]
      exact ht.div_lt_length hact hback hi'
    refine ⟨?_, ?_, ?_, hback, ?_⟩
    · have hlen' : t.rrp.tried.length = triedWords up := by
        rw [htried, length_setBit, hlen]
      exact hlen'
    · intro j hj
      have hbit : testBit t.rrp.tried j
          = (decide (j = i) || testBit ((s.call r).triedAt t.rrp.group) j) := by
        rw [htried, testBit_setBit hword]
      have hgrp : ((s.req r).afterGet s.up env .ok t).rrp = t.rrp := rfl
      rw [hhist, hgrp, hbit, Bool.or_eq_true, hbits j hj]
      simp [eq_comm]
    · rw [hhist]
      exact nodup_cons.mpr ⟨hnew, hm.nodup⟩
    · intro hg gi hgi
      rw [hhist] at hgi
      rcases mem_cons.mp hgi with rfl | hgi
      · exact hg
      · exact hm.primary (hprim hg) gi hgi

/-- A new request has tried nothing. -/
theorem Request.fresh_marked {up₀ up : Upstream} (h : up₀.conf = up.conf) (priv : ρ) :
    (Request.fresh up₀ priv).Marked up := by
  refine ⟨?_, ?_, nodup_nil, ?_, ?_⟩
  · simp [Request.fresh, upstreamInitRoundRobinPeer, triedWords_of_conf h]
  · intro i _
    simp [Request.fresh, upstreamInitRoundRobinPeer, testBit_replicate_zero]
  · simp [Request.fresh, upstreamInitRoundRobinPeer]
  · simp [Request.fresh]

/-- The step, if it is a `get`, keeps the selection contract. -/
def StepSelect (b : Balancer ι ρ) (s : UpstreamState n ρ) (e : RequestEvent n ι) : Prop :=
  ∀ r env, e = .get r env → (s.req r).active = true →
    GetSelect (Eligible env) (s.call r) (b.get env (s.call r))

/-- One step under the contract keeps the requests marked. -/
theorem Tracked.step {s' : UpstreamState n ρ} (ht : Tracked up s) (he : StepSelect b s e)
    (h : requestStep b s e = some s') : Tracked up s' := by
  cases e with
  | init r arg =>
    obtain ⟨-, rfl⟩ := requestStep_init h
    refine ⟨ht.conf, ?_⟩
    intro x hx
    by_cases hxr : x = r
    · subst hxr
      simp only [update_self]
      exact Request.fresh_marked ht.conf _
    · simp only [update_of_ne hxr] at hx ⊢
      exact ht.marked x hx
  | get r env =>
    obtain ⟨hact, -, rc, t, hb, rfl⟩ := requestStep_get h
    have hsel := he r env rfl hact
    rw [hb] at hsel
    refine ⟨hsel.conf.trans ht.conf, ?_⟩
    intro x hx
    by_cases hxr : x = r
    · subst hxr
      simp only [update_self]
      exact ht.marked_afterGet hact hsel
    · simp only [update_of_ne hxr] at hx ⊢
      exact ht.marked x hx
  | free r failed now =>
    obtain ⟨-, up', pc, hfree, rfl⟩ := requestStep_free h
    refine ⟨?_, ?_⟩
    · have hconf := conf_upstreamFreeRoundRobinPeer s.up (s.req r).pc (s.req r).rrp failed now
      rw [hfree] at hconf
      exact hconf.trans ht.conf
    · intro x hx
      by_cases hxr : x = r
      · subst hxr
        simp only [update_self] at hx ⊢
        obtain ⟨h₁, h₂, h₃, h₄, h₅⟩ := ht.marked x hx
        exact ⟨h₁, h₂, h₃, h₄, h₅⟩
      · simp only [update_of_ne hxr] at hx ⊢
        exact ht.marked x hx

theorem Idle.tracked (h : Idle up s) : Tracked up s := by
  obtain ⟨rfl, hidle⟩ := h
  refine ⟨rfl, ?_⟩
  intro r hr
  rw [(hidle r).1] at hr
  exact absurd hr (by simp)

/-- **Selection over runs.** Along a run whose `get`s keep the contract, bitmaps and
histories agree and no peer was returned twice to one request. -/
theorem run_select (hrun : (requestMachine n b up).Run tr s)
    (hget : ∀ p ∈ tr, Tracked up p.1 → StepSelect b p.1 p.2) :
    Machine.Everywhere (Tracked up) tr s :=
  hrun.invariant_of_steps (C := fun s e => Tracked up s → StepSelect b s e)
    (fun _ h => h.tracked) (fun _ _ _ ht hC hst => ht.step (hC ht) hst) hget

/-! ### Fall-over -/

/-- Every primary peer was, when the snapshot was taken, already returned or unavailable. -/
def FallOver.Exhausted (f : FallOver) : Prop :=
  ∀ i < f.peers.number,
    (Group.primary, i) ∈ f.hist ∨ (f.peers.peer i).unavailable f.env = true

/-- Every request of the backup group left an exhausted primary group. -/
def FellOver (s : UpstreamState n ρ) : Prop :=
  ∀ r, (s.req r).active = true → (s.req r).rrp.group = .backup →
    ∃ f, (s.req r).fell = some f ∧ f.Exhausted

/-- A peer that is skipped was given before or is not available. -/
theorem Tracked.skipped (ht : Tracked up s) (hact : (s.req r).active = true)
    (hg : g = (s.req r).rrp.group ∨ (s.req r).rrp.group = .primary ∧ g = .backup)
    (hi : i < (s.up.peers g).number)
    (hskip : peerSkip env ((s.call r).triedAt g) i ((s.up.peers g).peer i) = true) :
    (g, i) ∈ (s.req r).hist ∨ ((s.up.peers g).peer i).unavailable env = true := by
  rw [number_of_conf ht.conf] at hi
  rw [peerSkip, Bool.or_eq_true, ht.triedAt_bits hact hg i hi] at hskip
  exact hskip

/-- After a `get` that ends in the backup group the record of fall-over is there: it was
there before, or this call moved and took it. -/
theorem FellOver.fell_afterGet (hf : FellOver s) (ht : Tracked up s)
    (hact : (s.req r).active = true) {rc : Rc} {t : GetState ρ}
    (hcomp : GetComplete env (s.call r) (rc, t)) (hgroup : t.rrp.group = .backup) :
    ∃ f, ((s.req r).afterGet s.up env rc t).fell = some f ∧ f.Exhausted := by
  cases hold : (s.req r).rrp.group with
  | backup =>
    obtain ⟨f, hfell, hex⟩ := hf r hact hold
    refine ⟨f, ?_, hex⟩
    simp only [Request.afterGet, Request.recordFell, hold]
    rw [if_neg (by simp), hfell]
  | primary =>
    refine ⟨{ peers := s.up.peers .primary, env := env, hist := (s.req r).hist }, ?_, ?_⟩
    · simp [Request.afterGet, Request.recordFell, hold, hgroup]
    · intro i hi
      have hold' : (s.call r).rrp.group = .primary := hold
      have hmoved : t.rrp.group ≠ (s.call r).rrp.group := by
        rw [hold', hgroup]
        simp
      have htried : (s.call r).triedAt .primary = (s.call r).rrp.tried := if_pos hold'.symm
      have hskip := hcomp.fell hmoved i (by rw [hold']; exact hi)
      rw [hold', ← htried] at hskip
      exact ht.skipped hact (Or.inl hold.symm) hi hskip

/-- The step, if it is a `get`, keeps the completeness contract. -/
def StepComplete (b : Balancer ι ρ) (s : UpstreamState n ρ) (e : RequestEvent n ι) : Prop :=
  ∀ r env, e = .get r env → (s.req r).active = true →
    GetComplete env (s.call r) (b.get env (s.call r))

/-- One step under both contracts keeps the records of fall-over right. -/
theorem FellOver.step {s' : UpstreamState n ρ} (hf : FellOver s) (ht : Tracked up s)
    (hcomp : StepComplete b s e) (h : requestStep b s e = some s') : FellOver s' := by
  intro x hx hgroup
  cases e with
  | init r arg =>
    obtain ⟨-, rfl⟩ := requestStep_init h
    by_cases hxr : x = r
    · subst hxr
      simp [Request.fresh, upstreamInitRoundRobinPeer] at hgroup
    · simp only [update_of_ne hxr] at hx hgroup ⊢
      exact hf x hx hgroup
  | free r failed now =>
    obtain ⟨-, up', pc, -, rfl⟩ := requestStep_free h
    by_cases hxr : x = r
    · subst hxr
      simp only [update_self] at hx hgroup ⊢
      exact hf x hx hgroup
    · simp only [update_of_ne hxr] at hx hgroup ⊢
      exact hf x hx hgroup
  | get r env =>
    obtain ⟨hact, -, rc, t, hb, rfl⟩ := requestStep_get h
    have hcomp := hcomp r env rfl hact
    rw [hb] at hcomp
    by_cases hxr : x = r
    · subst hxr
      simp only [update_self] at hgroup ⊢
      exact hf.fell_afterGet ht hact hcomp hgroup
    · simp only [update_of_ne hxr] at hx hgroup ⊢
      exact hf x hx hgroup

/-- **Fall-over in runs.** Along a run whose `get`s keep both contracts, a request picks from
the backup group only after every primary peer was tried or unavailable. -/
theorem run_fell (hrun : (requestMachine n b up).Run tr s)
    (hget : ∀ p ∈ tr, Tracked up p.1 → StepSelect b p.1 p.2 ∧ StepComplete b p.1 p.2) :
    Machine.Everywhere (fun s => Tracked up s ∧ FellOver s) tr s := by
  refine hrun.invariant_of_steps
    (C := fun s e => Tracked up s → StepSelect b s e ∧ StepComplete b s e) ?_ ?_ hget
  · intro s h
    refine ⟨h.tracked, ?_⟩
    intro r hr
    rw [(h.2 r).1] at hr
    exact absurd hr (by simp)
  · intro s e s' hs hC hst
    exact ⟨hs.1.step (hC hs.1).1 hst, hs.2.step hs.1 (hC hs.1).2 hst⟩

end Hengine
