import Hengine.Http.Bytes
import Hengine.Upstream.Retry

/-!
# The Session-Sticky Balancer and Connection Accounting

`ngx_http_upstream_session_sticky_get_peer`: a request whose cookie names a server of the
upstream is sent there, any other is balanced by round robin. Both ways end in the shared
`ngx_http_upstream_free_round_robin_peer`, which takes one connection off the peer. Only
round robin has put one on: **the cookie hit does not count its connection**.

Session ids and names hold no zero byte, so `ngx_strncmp` over equal lengths is equality.
The hash of a server name (`ngx_md5`) is a parameter.
-/

namespace Hengine

open List

/-- `ngx_http_ss_server_t`; `peer` is the index of the peer in the primary group. -/
structure SsServer where
  sid : List UInt8
  name : String
  sockaddr : Sockaddr
  peer : ℕ
  checkIndex : ℕ

/-- What the balancer reads of `ngx_http_upstream_ss_srv_conf_t`: whether the flag
`NGX_HTTP_SESSION_STICKY_FALLBACK_OFF` is set, and the table of servers. -/
structure SsConf where
  fallbackOff : Bool
  server : List SsServer

/-- What the balancer uses of `ngx_http_ss_ctx_t`. -/
structure SsCtx where
  frist : Bool
  sid : List UInt8
  tries : ℤ

/-- The session id of a peer: its `id` or name in plain mode, the hash of its name
otherwise. -/
def sessionStickySid (plain : Bool) (md5 : String → List UInt8) (p : RrPeer) : List UInt8 :=
  if plain then str (if p.id = "" then p.name else p.id) else md5 p.name

/-- `ngx_http_upstream_session_sticky_init_upstream`: one entry for each primary peer. -/
def sessionStickyConf (fallbackOff plain : Bool) (md5 : String → List UInt8) (up : Upstream) :
    SsConf where
  fallbackOff := fallbackOff
  server := (List.range (up.peers .primary).number).map fun i =>
    let peer := (up.peers .primary).peer i
    { sid := sessionStickySid plain md5 peer, name := peer.name, sockaddr := peer.sockaddr
      peer := i, checkIndex := peer.checkIndex }

/-- The context `ngx_http_session_sticky_get_cookie` leaves: the session id of the cookie,
or a first visit. -/
def sessionStickyCtx : Option (List UInt8) → SsCtx
  | none => { frist := true, sid := [], tries := 1 }
  | some sid => { frist := false, sid := sid, tries := 1 }

/-- The server entry the loop over the table stops at, if the loop is reached. -/
def stickyServer (sscf : SsConf) (ctx : SsCtx) : Option SsServer :=
  if ctx.frist || ctx.sid == [] then none
  else if ctx.tries == 0 && !sscf.fallbackOff then none
  else sscf.server.find? fun server => ctx.sid == server.sid

/-- What follows the label `failed`: round robin, after which the request belongs to the
session of the peer it got. -/
def stickyFailed (sscf : SsConf) (env : RrEnv) (s : GetState SsCtx) : Rc × GetState SsCtx :=
  if !s.priv.frist && sscf.fallbackOff then (.busy, s)
  else
    match upstreamGetRoundRobinPeer env s with
    | (.busy, s) => (.busy, s)
    | (.ok, s) =>
      let sid := match sscf.server.find? fun server => server.name == s.pc.name with
        | some server => server.sid
        | none => s.priv.sid
      (.ok, { s with priv := { s.priv with sid := sid, frist := true } })

/-- `ngx_http_upstream_session_sticky_get_peer`. -/
def upstreamSessionStickyGetPeer (sscf : SsConf) (env : RrEnv) (s : GetState SsCtx) :
    Rc × GetState SsCtx :=
  match stickyServer sscf s.priv with
  | none => stickyFailed sscf env s
  | some server =>
    if env.checkPeerDown server.checkIndex then
      if sscf.fallbackOff then (.busy, s) else stickyFailed sscf env s
    else
      (.ok, { s with
        pc := { s.pc with name := server.name, sockaddr := some server.sockaddr }
        rrp := { s.rrp with current := some (.primary, server.peer) }
        priv := { s.priv with sid := server.sid, tries := s.priv.tries - 1 } })

/-- The session-sticky balancer. -/
def sessionSticky (sscf : SsConf) : Balancer (Option (List UInt8)) SsCtx where
  start := sessionStickyCtx
  get := upstreamSessionStickyGetPeer sscf

/-! ### Hits -/

/-- The call is served from the cookie: the session is known, its one try is left or
fall-back is off, and the server of the session is not reported down. -/
def stickyHit (sscf : SsConf) (env : RrEnv) (ctx : SsCtx) : Bool :=
  match stickyServer sscf ctx with
  | none => false
  | some server => !env.checkPeerDown server.checkIndex

/-- The step is a call served from the cookie. -/
def StickyHit {n : ℕ} (sscf : SsConf) (s : UpstreamState n SsCtx)
    (e : RequestEvent n (Option (List UInt8))) : Prop :=
  ∃ r env, e = .get r env ∧ stickyHit sscf env (s.req r).priv = true

variable {n : ℕ} {sscf : SsConf} {env : RrEnv} {up : Upstream}

variable {s : GetState SsCtx}

/-- What a hit does: it hands out the server of the session and touches no peer. -/
theorem upstreamSessionStickyGetPeer_hit (h : stickyHit sscf env s.priv = true) :
    ∃ server ∈ sscf.server, ∃ t, upstreamSessionStickyGetPeer sscf env s = (.ok, t) ∧
      t.up = s.up ∧ t.pc.sockaddr = some server.sockaddr ∧
      t.rrp.current = some (.primary, server.peer) := by
  cases hserver : stickyServer sscf s.priv with
  | none => simp [stickyHit, hserver] at h
  | some server =>
    have hdown : env.checkPeerDown server.checkIndex = false := by
      simpa [stickyHit, hserver] using h
    have hmem : server ∈ sscf.server := by
      unfold stickyServer at hserver
      split_ifs at hserver
      exact mem_of_find?_eq_some hserver
    have hres := upstreamSessionStickyGetPeer.eq_def sscf env s
    simp only [hserver, hdown] at hres
    exact ⟨server, hmem, _, hres, rfl, rfl, rfl⟩

/-- Without a hit the request fails over or is refused. -/
theorem upstreamSessionStickyGetPeer_miss (h : stickyHit sscf env s.priv = false) :
    upstreamSessionStickyGetPeer sscf env s = (.busy, s) ∨
      upstreamSessionStickyGetPeer sscf env s = stickyFailed sscf env s := by
  cases hserver : stickyServer sscf s.priv with
  | none => simp [upstreamSessionStickyGetPeer, hserver]
  | some server =>
    have hdown : env.checkPeerDown server.checkIndex = true := by
      simpa [stickyHit, hserver] using h
    cases hoff : sscf.fallbackOff with
    | true => simp [upstreamSessionStickyGetPeer, hserver, hdown, hoff]
    | false => simp [upstreamSessionStickyGetPeer, hserver, hdown, hoff]

theorem getAccount_refused (s : GetState SsCtx) : GetAccount s (.busy, s) :=
  ⟨rfl, by simp, fun _ => ⟨rfl, fun _ _ => rfl⟩⟩

/-- The failover accounts for its peer. -/
theorem stickyFailed_account (hup : FreshUpstream up) (hconf : s.up.conf = up.conf) :
    GetAccount s (stickyFailed sscf env s) := by
  have hrr := upstreamGetRoundRobinPeer_account env hup hconf
  unfold stickyFailed
  split_ifs
  · exact getAccount_refused s
  · rcases hres : upstreamGetRoundRobinPeer env s with ⟨rc, t⟩
    rw [hres] at hrr
    cases rc with
    | ok => exact ⟨hrr.conf, fun _ => hrr.ok rfl, by simp⟩
    | busy => exact ⟨hrr.conf, by simp, fun _ => hrr.busy rfl⟩

/-- Without a hit, the connections are counted as for round robin. -/
theorem sessionSticky_account_miss (hup : FreshUpstream up) (hconf : s.up.conf = up.conf)
    (h : stickyHit sscf env s.priv = false) :
    GetAccount s (upstreamSessionStickyGetPeer sscf env s) := by
  rcases upstreamSessionStickyGetPeer_miss h with hres | hres
  · rw [hres]
    exact getAccount_refused s
  · rw [hres]
    exact stickyFailed_account hup hconf

/-! ### Exact accounts -/

/-- Every peer has as many connections as holders, and whoever holds a peer can give it
back: the peer exists and its count is not zero. -/
structure ConnsExact {ρ : Type} (s : UpstreamState n ρ) : Prop where
  conns : ∀ g i, i < (s.up.peers g).number → s.up.conns g i = s.holders g i
  free : ∀ r g i, (s.req r).Holds g i → i < (s.up.peers g).number ∧ 0 < s.up.conns g i

/-- Where calls are accounted for, the counts are exact. -/
theorem Accounted.exact {ρ : Type} {s : UpstreamState n ρ} (h : Accounted s) :
    ConnsExact s := by
  refine ⟨h.conns, ?_⟩
  intro r g i hr
  obtain ⟨g', i', hcur, hi⟩ := h.known r hr.1
  rw [hr.2, Option.some.injEq, Prod.mk.injEq] at hcur
  obtain ⟨rfl, rfl⟩ := hcur
  refine ⟨hi, ?_⟩
  rw [h.conns g i hi]
  exact Finset.card_pos.mpr ⟨r, by simpa using hr⟩

/-- **A hit breaks exact accounts**: the peer gains a holder and no connection. -/
theorem ConnsExact.not_hit {s s' : UpstreamState n SsCtx}
    {e : RequestEvent n (Option (List UInt8))} (hserver : ∀ server ∈ sscf.server,
      server.peer < (s.up.peers .primary).number)
    (h : ConnsExact s) (h' : ConnsExact s')
    (hstep : requestStep (sessionSticky sscf) s e = some s') : ¬ StickyHit sscf s e := by
  rintro ⟨r, env, rfl, hhit⟩
  obtain ⟨-, hnone, rc, t, hget, rfl⟩ := requestStep_get hstep
  obtain ⟨server, hmem, t', hget', hup, hsock, hcur⟩ :=
    upstreamSessionStickyGetPeer_hit (s := s.call r) hhit
  obtain ⟨rfl, rfl⟩ : rc = .ok ∧ t = t' := by
    rw [show (sessionSticky sscf).get env (s.call r) = _ from hget'] at hget
    simpa [eq_comm] using hget
  have hi := hserver server hmem
  have hholds : ((s.req r).afterGet s.up env .ok t).Holds .primary server.peer := by
    refine ⟨?_, hcur⟩
    have hpc : ((s.req r).afterGet s.up env .ok t).pc = t.pc := rfl
    rw [hpc, hsock]
    rfl
  have hold := h.conns .primary server.peer hi
  have hnew := h'.conns .primary server.peer (by rw [hup]; exact hi)
  have hupd := holders_update s t.up r ((s.req r).afterGet s.up env .ok t) .primary server.peer
  rw [if_pos hholds, if_neg (Request.not_holds hnone _ _), ← hnew, ← hold] at hupd
  have hsame : t.up.conns .primary server.peer = s.up.conns .primary server.peer := by
    rw [hup]
    rfl
  simp only at hupd
  omega

/-- Every step of the session-sticky machine keeps the configuration. -/
theorem sessionSticky_conf (hup : FreshUpstream up) {s s' : UpstreamState n SsCtx}
    {e : RequestEvent n (Option (List UInt8))} (hconf : s.up.conf = up.conf)
    (hstep : requestStep (sessionSticky sscf) s e = some s') : s'.up.conf = up.conf := by
  cases e with
  | init r arg =>
    obtain ⟨-, rfl⟩ := requestStep_init hstep
    exact hconf
  | get r env =>
    obtain ⟨-, -, rc, t, hget, rfl⟩ := requestStep_get hstep
    have hget : upstreamSessionStickyGetPeer sscf env (s.call r) = (rc, t) := hget
    cases hhit : stickyHit sscf env (s.call r).priv with
    | true =>
      obtain ⟨-, -, t', hget', hup', -, -⟩ := upstreamSessionStickyGetPeer_hit hhit
      rw [hget, Prod.mk.injEq] at hget'
      rw [hget'.2, hup']
      exact hconf
    | false =>
      have hacc := sessionSticky_account_miss hup (s := s.call r) hconf hhit
      rw [hget] at hacc
      exact hacc.conf.trans hconf
  | free r failed now =>
    obtain ⟨-, up', pc, hfree, rfl⟩ := requestStep_free hstep
    have hfconf := conf_upstreamFreeRoundRobinPeer s.up (s.req r).pc (s.req r).rrp failed now
    rw [hfree] at hfconf
    exact hfconf.trans hconf

/-- Every configured server is a peer. -/
theorem sessionStickyConf_peer {fallbackOff plain : Bool} {md5 : String → List UInt8}
    {server : SsServer} (h : server ∈ (sessionStickyConf fallbackOff plain md5 up).server) :
    server.peer < (up.peers .primary).number := by
  obtain ⟨i, hi, rfl⟩ := mem_map.mp h
  exact mem_range.mp hi

/-- Along every run of the session-sticky machine: as long as no call was a hit all states
are accounted, and a hit makes the next state inexact. -/
theorem sessionSticky_run (hup : FreshUpstream up)
    (hserver : ∀ server ∈ sscf.server, server.peer < (up.peers .primary).number)
    {tr : List (UpstreamState n SsCtx × RequestEvent n (Option (List UInt8)))}
    {s : UpstreamState n SsCtx}
    (hrun : (requestMachine n (sessionSticky sscf) up).Run tr s) :
    s.up.conf = up.conf ∧
      ((∀ p ∈ tr, ¬ StickyHit sscf p.1 p.2) → Accounted s) ∧
      (Machine.Everywhere ConnsExact tr s ↔ ∀ p ∈ tr, ¬ StickyHit sscf p.1 p.2) := by
  induction hrun with
  | start h =>
    have hacc := h.accounted hup
    exact ⟨congrArg Upstream.conf h.1, fun _ => hacc, by simp, fun _ => ⟨by simp, hacc.exact⟩⟩
  | @snoc tr s s' e _ hstep ih =>
    obtain ⟨hconf, hacc, hiff⟩ := ih
    have hmem : (∀ p ∈ tr ++ [(s, e)], ¬ StickyHit sscf p.1 p.2) ↔
        (∀ p ∈ tr, ¬ StickyHit sscf p.1 p.2) ∧ ¬ StickyHit sscf s e := by
      simp only [mem_append, mem_singleton]
      constructor
      · intro h
        exact ⟨fun p hp => h p (Or.inl hp), h (s, e) (Or.inr rfl)⟩
      · rintro ⟨h, he⟩ p (hp | rfl)
        · exact h p hp
        · exact he
    have hacc' : (∀ p ∈ tr ++ [(s, e)], ¬ StickyHit sscf p.1 p.2) → Accounted s' := by
      intro h
      obtain ⟨hprev, hlast⟩ := hmem.mp h
      refine (hacc hprev).step ?_ hstep
      rintro r env rfl
      refine sessionSticky_account_miss hup hconf ?_
      exact Bool.eq_false_iff.mpr fun hhit => hlast ⟨r, env, rfl, hhit⟩
    refine ⟨sessionSticky_conf hup hconf hstep, hacc', ?_⟩
    rw [Machine.everywhere_snoc, hiff]
    constructor
    · rintro ⟨hprev, hexact'⟩
      refine hmem.mpr ⟨hprev, (hacc hprev).exact.not_hit ?_ hexact' hstep⟩
      intro server hs
      rw [number_of_conf hconf]
      exact hserver server hs
    · intro h
      exact ⟨(hmem.mp h).1, (hacc' h).exact⟩

/-- **Connection accounting.** Over every run of any number of requests, round robin keeps
every `conns` equal to the number of requests that hold the peer; session-sticky does so
exactly in the runs in which no call is served from the session cookie. -/
theorem sessionSticky_account {checkAdd : UpstreamServer → Sockaddr × String → ℕ}
    {conf : UpstreamConf} (hinit : upstreamInitRoundRobin checkAdd conf = some up) (n : ℕ)
    (fallbackOff plain : Bool) (md5 : String → List UInt8) :
    (∀ tr s, (requestMachine n roundRobin up).Run tr s → Machine.Everywhere ConnsExact tr s) ∧
    ∀ tr s, (requestMachine n
        (sessionSticky (sessionStickyConf fallbackOff plain md5 up)) up).Run tr s →
      (Machine.Everywhere ConnsExact tr s ↔
        ∀ p ∈ tr, ¬ StickyHit (sessionStickyConf fallbackOff plain md5 up) p.1 p.2) := by
  have hup := upstreamInitRoundRobin_fresh hinit
  refine ⟨?_, ?_⟩
  · intro tr s hrun
    have hacc := run_account hup hrun fun p _ hconf =>
      fun r env _ => upstreamGetRoundRobinPeer_account (s := p.1.call r) env hup hconf
    exact ⟨fun p hp => (hacc.1 p hp).2.exact, hacc.2.2.exact⟩
  · intro tr s hrun
    exact (sessionSticky_run hup (fun _ => sessionStickyConf_peer) hrun).2.2

/-- The pair under session-sticky, with plain session ids. -/
def pairSticky : SsConf :=
  sessionStickyConf false true str pairUpstream

/-- **A hit and its free.** A request with the cookie `a:80` is sent to the first peer and
freed: the peer then counts `2 ^ 64 - 1` connections, and no request holds it. -/
theorem sessionSticky_account_hit :
    ∃ tr s, (requestMachine 1 (sessionSticky pairSticky) pairUpstream).Run tr s ∧
      s.up.conns .primary 0 = 2 ^ 64 - 1 ∧ s.holders .primary 0 = 0 ∧
      ¬ Machine.Everywhere ConnsExact tr s := by
  have hidle : Idle pairUpstream
      (UpstreamState.idle (n := 1) pairUpstream (sessionStickyCtx none)) :=
    ⟨rfl, fun _ => ⟨rfl, rfl⟩⟩
  have hrun := Machine.run_of_replay (f := requestStep (sessionSticky pairSticky))
    [.init 0 (some (str "a:80")), .get 0 quietEnv, .free 0 false 0] hidle rfl
  refine ⟨_, _, hrun, by decide, by decide, ?_⟩
  intro h
  have hconns := h.2.conns .primary 0 (by decide)
  revert hconns
  decide

/-- The runs of the pair under session-sticky that see no cookie are exact; here is one
with a request in service. -/
theorem sessionSticky_account_pair :
    ∃ tr s, (requestMachine 1 (sessionSticky pairSticky) pairUpstream).Run tr s ∧
      s.up.conns .primary 0 = 1 ∧ Machine.Everywhere ConnsExact tr s := by
  have hidle : Idle pairUpstream
      (UpstreamState.idle (n := 1) pairUpstream (sessionStickyCtx none)) :=
    ⟨rfl, fun _ => ⟨rfl, rfl⟩⟩
  have hrun := Machine.run_of_replay (f := requestStep (sessionSticky pairSticky))
    [.init 0 none, .get 0 quietEnv] hidle rfl
  refine ⟨_, _, hrun, by decide, ?_⟩
  refine ((sessionSticky_account pairUpstream_init 1 false true str).2 _ _ hrun).mpr ?_
  intro p hp
  simp only [nil_append, cons_append, mem_cons, not_mem_nil, or_false] at hp
  rcases hp with rfl | rfl
  · rintro ⟨r, env, he, -⟩
    exact absurd he (by simp)
  · rintro ⟨r, env, he, hhit⟩
    cases he
    revert hhit
    decide

end Hengine
