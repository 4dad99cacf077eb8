import Mathlib.Algebra.Ring.Nat
import Mathlib.Data.List.Perm.Basic
import Mathlib.Data.List.Range
import Mathlib.Order.BooleanAlgebra.Set
import Hengine.Lib.Machine
import Hengine.Upstream.ConnLife

/-!
# The Cache of Idle Upstream Connections

`ngx_http_upstream_keepalive_module` keeps connections that a request is done with in a
fixed array of items. Each item is linked into one of two queues, `cache` (most recently
saved first) and `free`; an item moves when a connection is saved or evicted, when it is
handed to a request, and when its close handler finds it dead. A request owns its
connection through its `ngx_peer_connection_t`; who else may touch a connection is
decided by its read handler, so the model keeps the handler of every open connection.

The module runs in one worker process. A run of `keepaliveMachine` is any interleaving
of calls and events of any number of requests; what the balancer chooses and what the
sockets report is arbitrary.
-/

namespace Hengine

open List Function Option

/-- A socket address, as the bytes `ngx_memn2cmp` compares. -/
abbrev SockAddr := List UInt8

/-- `ngx_memcmp` on two strings of one length: the sign of the first difference. -/
@[grind =]
def memcmp : SockAddr → SockAddr → ℤ
  | x :: xs, y :: ys => if x = y then memcmp xs ys else (x.toNat : ℤ) - y.toNat
  | _, _ => 0

/-- `ngx_memn2cmp`: compare up to the shorter length, then the lengths. -/
def memn2cmp (s₁ s₂ : SockAddr) : ℤ :=
  let n := if s₁.length ≤ s₂.length then s₁.length else s₂.length
  let z : ℤ := if s₁.length ≤ s₂.length then -1 else 1
  let m := memcmp (s₁.take n) (s₂.take n)
  if m ≠ 0 ∨ s₁.length = s₂.length then m else z

/-- Strings of one length compare equal only when they are. -/
theorem memcmp_eq_zero {s₁ : SockAddr} :
    ∀ {s₂ : SockAddr}, s₁.length = s₂.length → (memcmp s₁ s₂ = 0 ↔ s₁ = s₂) := by
  induction s₁ with
  | nil =>
    intro s₂ hlen
    have hs₂ : s₂ = [] := length_eq_zero_iff.mp hlen.symm
    simp [hs₂, memcmp]
  | cons x xs ih =>
    intro s₂ hlen
    cases s₂ with
    | nil => simp at hlen
    | cons y ys =>
      simp only [length_cons, Nat.add_right_cancel_iff] at hlen
      simp only [memcmp, List.cons.injEq]
      by_cases hxy : x = y
      · simp [hxy, ih hlen]
      · have hne : x.toNat ≠ y.toNat := fun h => hxy (UInt8.toNat_inj.mp h)
        simp only [hxy, if_false, false_and, iff_false]
        omega

/-- Only equal addresses compare as equal. -/
theorem memn2cmp_eq_zero {s₁ s₂ : SockAddr} : memn2cmp s₁ s₂ = 0 ↔ s₁ = s₂ := by
  by_cases hlen : s₁.length = s₂.length
  · simp [memn2cmp, hlen, ← memcmp_eq_zero hlen, take_of_length_le (Nat.le_of_eq hlen)]
  · have hne : s₁ ≠ s₂ := fun h => hlen (congrArg List.length h)
    simp only [memn2cmp, hlen, or_false, hne, iff_false]
    split_ifs with hle hm hm
    · exact hm
    · decide
    · exact hm
    · decide

/-! ### The state -/

/-- The `keepalive` directives of an upstream: `max_cached`, which the directive does
not accept as `0`, `keepalive_requests` and `keepalive_time`. -/
structure KeepaliveConf where
  maxCached : ℕ
  requests : ℕ
  time : ℕ
  pos : 0 < maxCached

/-- An item, zeroed by `ngx_pcalloc`. Its `queue` link is in the two queues. -/
structure KeepaliveItem (κ : Type) where
  connection : Option κ := none
  sockaddr : SockAddr := []
  deriving DecidableEq

/-- The read handler of an open connection, with the `c->data` it reads. -/
inductive ReadHandler (ρ : Type)
  | upstream (r : ρ)
  | keepaliveClose (item : ℕ)
  | sslShutdown
  deriving DecidableEq

/-- The part of a request's `ngx_peer_connection_t` the module uses. -/
structure KeepalivePeer (κ : Type) where
  connection : Option κ := none
  sockaddr : Option SockAddr := none
  cached : Bool := false
  deriving DecidableEq

/-- The module, its requests and the connections of the worker. `conn c` is `none` while
`c` is closed, and `remote c` is the address its socket is connected to. The log is the
history of the connections, newest first; no function reads it. -/
structure KeepaliveState (κ ρ : Type) where
  cache : List ℕ
  free : List ℕ
  item : ℕ → KeepaliveItem κ
  peer : ρ → KeepalivePeer κ
  conn : κ → Option (ReadHandler ρ)
  remote : κ → SockAddr
  log : List (ConnAction κ ρ SockAddr)

/-- What `ngx_http_upstream_free_keepalive_peer` reads besides the queues: the state
argument, the flags and counters of the connection and the request, the process flags,
whether `ngx_handle_read_event` succeeds, and what the close handler will see if it is
called at once. `evictAgain` is the shutdown of an evicted connection. -/
structure FreeEnv where
  failed : Bool
  readEof : Bool
  readError : Bool
  readTimedout : Bool
  writeError : Bool
  writeTimedout : Bool
  requests : ℕ
  startTime : ℕ
  currentMsec : ℕ
  keepalive : Bool
  requestBodySent : Bool
  terminate : Bool
  exiting : Bool
  handleReadEvent : Bool
  evictAgain : Bool
  readReady : Bool

/-- What the close handler sees: `c->close`, the timeout flag, whether the peek reports
`NGX_EAGAIN`, whether the event is armed again, and whether `ngx_ssl_shutdown` has to be
continued (never, on a connection without TLS). -/
structure CloseEnv where
  close : Bool
  timedout : Bool
  recvAgain : Bool
  handleReadEvent : Bool
  shutdownAgain : Bool

/-- A call of one of the functions below, or an event of the worker. `get` carries the
address the balancer chose, or `none` for a return code other than `NGX_OK`. -/
inductive KeepaliveEvent (κ ρ : Type)
  | get (r : ρ) (chosen : Option SockAddr)
  | connect (r : ρ) (c : κ)
  | free (r : ρ) (env : FreeEnv) (closeEnv : CloseEnv)
  | close (r : ρ)
  | read (c : κ) (env : CloseEnv)
  | shutdown (c : κ) (again : Bool)

section Functions

variable {κ ρ : Type} [DecidableEq κ] [DecidableEq ρ]

/-- `ngx_http_upstream_init_keepalive`: every item at the head of `free` in turn. -/
def initKeepalive (conf : KeepaliveConf) (remote : κ → SockAddr) : KeepaliveState κ ρ where
  cache := []
  free := (List.range conf.maxCached).foldl (fun q i => i :: q) []
  item := fun _ => {}
  peer := fun _ => {}
  conn := fun _ => none
  remote := remote
  log := []

/-- `ngx_queue_remove`: unlink an item from the queue it is in. -/
def KeepaliveState.queueRemove (q : ℕ) (s : KeepaliveState κ ρ) : KeepaliveState κ ρ :=
  { s with cache := s.cache.erase q, free := s.free.erase q }

/-- The loop of `ngx_http_upstream_get_keepalive_peer` over the cache. -/
@[grind =]
def keepaliveFind (item : ℕ → KeepaliveItem κ) (sockaddr : SockAddr) : List ℕ → Option ℕ
  | [] => none
  | q :: qs =>
    if memn2cmp (item q).sockaddr sockaddr = 0 then some q
    else keepaliveFind item sockaddr qs

/-- `ngx_http_upstream_get_keepalive_peer`, after the balancer. On `NGX_DONE` the caller,
`ngx_http_upstream_connect`, makes the connection its own. -/
def getKeepalivePeer (r : ρ) (chosen : Option SockAddr) (s : KeepaliveState κ ρ) :
    Option (KeepaliveState κ ρ) :=
  match chosen with
  | none => some s
  | some a =>
    match keepaliveFind s.item a s.cache with
    | none =>
      some { s with peer := update s.peer r ⟨none, some a, false⟩ }
    | some q =>
      (s.item q).connection.bind fun c =>
        let s' := s.queueRemove q
        some { s' with
          free := q :: s'.free
          peer := update s.peer r ⟨some c, some a, true⟩
          conn := update s.conn c (some (.upstream r))
          log := .handOut r c a :: s.log }

/-- `ngx_event_connect_peer` after `NGX_OK`: a connection object not in use is opened to
the chosen address. -/
def connectPeer (r : ρ) (c : κ) (s : KeepaliveState κ ρ) : Option (KeepaliveState κ ρ) :=
  (s.peer r).sockaddr.bind fun a =>
    some { s with
      peer := update s.peer r { s.peer r with connection := some c }
      conn := update s.conn c (some (.upstream r))
      remote := update s.remote c a
      log := .connect r c a :: s.log }

/-- `ngx_http_upstream_keepalive_close`. While TLS is shutting down the connection waits
for `ngx_ssl_shutdown_handler`, which calls this function again. -/
def keepaliveClose (again : Bool) (c : κ) (s : KeepaliveState κ ρ) : KeepaliveState κ ρ :=
  if again then
    { s with conn := update s.conn c (some .sslShutdown) }
  else
    { s with
      conn := update s.conn c none
      log := .destroy c :: s.log }

/-- Close a cached connection: it leaves the cache. -/
def keepaliveRetire (again : Bool) (c : κ) (s : KeepaliveState κ ρ) : KeepaliveState κ ρ :=
  keepaliveClose again c { s with log := .retire c :: s.log }

/-- `ngx_http_upstream_keepalive_close_handler` on `c`, with `item = c->data`. -/
def keepaliveCloseHandler (env : CloseEnv) (c : κ) (item : ℕ) (s : KeepaliveState κ ρ) :
    KeepaliveState κ ρ :=
  if ¬ (env.close || env.timedout) ∧ env.recvAgain ∧ env.handleReadEvent then s
  else
    let s' := (keepaliveRetire env.shutdownAgain c s).queueRemove item
    { s' with free := item :: s'.free }

/-- The `goto invalid` tests on a connection, in the order of the source. Milliseconds
are unsigned machine words. -/
def FreeEnv.invalid (conf : KeepaliveConf) (env : FreeEnv) : Bool :=
  env.failed || env.readEof || env.readError || env.readTimedout || env.writeError ||
    env.writeTimedout || decide (conf.requests ≤ env.requests) ||
    decide (conf.time < (2 ^ 64 + env.currentMsec - env.startTime) % 2 ^ 64) ||
    !env.keepalive || !env.requestBodySent || (env.terminate || env.exiting) ||
    !env.handleReadEvent

/-- The item a connection is saved in: the head of `free`, or the oldest of the cache,
whose connection is closed. -/
def keepaliveTake (again : Bool) (s : KeepaliveState κ ρ) :
    Option (ℕ × KeepaliveState κ ρ) :=
  match s.free with
  | [] =>
    s.cache.getLast?.bind fun q =>
      (s.item q).connection.bind fun old =>
        some (q, keepaliveRetire again old (s.queueRemove q))
  | q :: _ => some (q, s.queueRemove q)

/-- Link a connection into the cache: the head of the queue, its item and its handler. -/
def keepaliveSave (r : ρ) (c : κ) (a : SockAddr) (q : ℕ) (s : KeepaliveState κ ρ) :
    KeepaliveState κ ρ :=
  { s with
    cache := q :: s.cache
    item := update s.item q ⟨some c, a⟩
    peer := update s.peer r { s.peer r with connection := none }
    conn := update s.conn c (some (.keepaliveClose q))
    log := .save r c a :: s.log }

/-- `ngx_http_upstream_free_keepalive_peer`, without the balancer's own `free`. -/
def freeKeepalivePeer (conf : KeepaliveConf) (r : ρ) (env : FreeEnv) (closeEnv : CloseEnv)
    (s : KeepaliveState κ ρ) : Option (KeepaliveState κ ρ) :=
  match (s.peer r).connection, (s.peer r).sockaddr with
  | some c, some a =>
    if env.invalid conf then some s
    else
      (keepaliveTake env.evictAgain s).bind fun (q, s₁) =>
        let s₂ := keepaliveSave r c a q s₁
        some (if env.readReady then keepaliveCloseHandler closeEnv c q s₂ else s₂)
  | _, _ => some s

/-- `u->peer.sockaddr = NULL`, which the callers of `peer.free` do next. -/
def clearSockaddr (r : ρ) (s : KeepaliveState κ ρ) : KeepaliveState κ ρ :=
  { s with peer := update s.peer r { s.peer r with sockaddr := none } }

/-- The request closes the connection it still has, in `ngx_http_upstream_next` and
`ngx_http_upstream_finalize_request`. -/
def closePeer (r : ρ) (s : KeepaliveState κ ρ) : Option (KeepaliveState κ ρ) :=
  (s.peer r).connection.bind fun c =>
    some { s with
      peer := update s.peer r { s.peer r with connection := none }
      conn := update s.conn c none
      log := .drop r c :: s.log }

/-- When an event can happen: `ngx_http_upstream_connect` is called without a connection,
a connection object is taken only when it is closed, `peer.free` only with an address,
and an event only reaches the handler that is installed. -/
def KeepaliveEvent.Possible (s : KeepaliveState κ ρ) : KeepaliveEvent κ ρ → Prop
  | get r _ => (s.peer r).connection = none
  | connect r c =>
    (s.peer r).connection = none ∧ (s.peer r).sockaddr ≠ none ∧ s.conn c = none
  | free r _ _ => (s.peer r).sockaddr ≠ none
  | close r => (s.peer r).connection ≠ none
  | read c _ => ∃ i, s.conn c = some (.keepaliveClose i)
  | shutdown c _ => s.conn c = some .sslShutdown

/-- The handler of a connection decides whether its event is one of the cache's. -/
instance decidablePossible (s : KeepaliveState κ ρ) :
    (e : KeepaliveEvent κ ρ) → Decidable (e.Possible s)
  | .get r _ => inferInstanceAs (Decidable ((s.peer r).connection = none))
  | .connect r c => inferInstanceAs (Decidable
      ((s.peer r).connection = none ∧ (s.peer r).sockaddr ≠ none ∧ s.conn c = none))
  | .free r _ _ => inferInstanceAs (Decidable ((s.peer r).sockaddr ≠ none))
  | .close r => inferInstanceAs (Decidable ((s.peer r).connection ≠ none))
  | .read c _ =>
    match h : s.conn c with
    | some (.keepaliveClose i) => isTrue ⟨i, h⟩
    | some (.upstream _) | some .sslShutdown | none =>
      isFalse (by simp [KeepaliveEvent.Possible, h])
  | .shutdown c _ => inferInstanceAs (Decidable (s.conn c = some .sslShutdown))

/-- The work of an event. It is `none` where the code would follow a null pointer or take
an item from two empty queues. -/
def keepaliveExec (conf : KeepaliveConf) (s : KeepaliveState κ ρ) :
    KeepaliveEvent κ ρ → Option (KeepaliveState κ ρ)
  | .get r chosen => getKeepalivePeer r chosen s
  | .connect r c => connectPeer r c s
  | .free r env closeEnv => (freeKeepalivePeer conf r env closeEnv s).map (clearSockaddr r)
  | .close r => closePeer r s
  | .read c env =>
    match s.conn c with
    | some (.keepaliveClose i) => some (keepaliveCloseHandler env c i s)
    | _ => some s
  | .shutdown c again => some (keepaliveClose again c s)

/-- A step: a possible event and its work. -/
def keepaliveStep (conf : KeepaliveConf) (s : KeepaliveState κ ρ) (e : KeepaliveEvent κ ρ) :
    Option (KeepaliveState κ ρ) :=
  if e.Possible s then keepaliveExec conf s e else none

/-- The cache of one upstream under every interleaving of its events. -/
def keepaliveMachine (κ ρ : Type) [DecidableEq κ] [DecidableEq ρ] (conf : KeepaliveConf) :
    Machine (KeepaliveState κ ρ) (KeepaliveEvent κ ρ) :=
  Machine.ofStep (fun s => ∃ remote, s = initKeepalive conf remote) (keepaliveStep conf)

/-! ### The invariant -/

/-- The phase of a connection, as its handler has it. -/
def KeepaliveState.phase (s : KeepaliveState κ ρ) (c : κ) : ConnPhase ρ SockAddr :=
  match s.conn c with
  | none => .closed
  | some (.upstream r) => .used r (s.remote c)
  | some (.keepaliveClose i) => .cached (s.item i).sockaddr
  | some .sslShutdown => .closing

/-- The invariant of the cache while the items `I` are linked. The handler of a
connection names its owner, a request or an item of the cache, and the log has followed
the life cycle of every connection to its present phase. -/
structure KeepaliveInv (I : Set ℕ) (s : KeepaliveState κ ρ) : Prop where
  nodup : (s.cache ++ s.free).Nodup
  linked : ∀ i, i ∈ s.cache ++ s.free ↔ i ∈ I
  used : ∀ r c, (s.peer r).connection = some c ↔ s.conn c = some (.upstream r)
  cached : ∀ i c, i ∈ s.cache ∧ (s.item i).connection = some c ↔
    s.conn c = some (.keepaliveClose i)
  filled : ∀ i ∈ s.cache, (s.item i).connection ≠ none
  address : ∀ r c a, (s.peer r).connection = some c → (s.peer r).sockaddr = some a →
    s.remote c = a
  stored : ∀ i c, s.conn c = some (.keepaliveClose i) → s.remote c = (s.item i).sockaddr
  life : ∀ c, phaseAfter c s.log = some (s.phase c)

variable {conf : KeepaliveConf} {I : Set ℕ} {s : KeepaliveState κ ρ} {r : ρ} {c : κ}
  {a : SockAddr} {q : ℕ}

omit [DecidableEq κ] [DecidableEq ρ] in
/-- The phase of a connection is read off a few fields. -/
theorem phase_congr {s' : KeepaliveState κ ρ} (hconn : s'.conn c = s.conn c)
    (hremote : s'.remote c = s.remote c)
    (hitem : ∀ i, s.conn c = some (.keepaliveClose i) →
      (s'.item i).sockaddr = (s.item i).sockaddr) : s'.phase c = s.phase c := by
  rw [KeepaliveState.phase, KeepaliveState.phase, hconn]
  cases h : s.conn c with
  | none => rfl
  | some handler =>
    cases handler with
    | upstream r => simp only [hremote]
    | keepaliveClose i => simp only [hitem i h]
    | sslShutdown => rfl

namespace KeepaliveInv

section

variable (h : KeepaliveInv I s)
include h

/-- An item in the cache has its connection, which knows it. -/
theorem conn_of_mem (hq : q ∈ s.cache) :
    ∃ c, (s.item q).connection = some c ∧ s.conn c = some (.keepaliveClose q) := by
  obtain ⟨c, hc⟩ := ne_none_iff_exists'.mp (h.filled q hq)
  exact ⟨c, hc, (h.cached q c).mp ⟨hq, hc⟩⟩

theorem not_mem_free (hq : q ∈ s.cache) : q ∉ s.free :=
  fun hf => (nodup_append.mp h.nodup).2.2 q hq q hf rfl

/-- An item that is taken out is in neither queue. -/
theorem queueRemove_linked :
    (s.cache.erase q ++ s.free.erase q).Nodup ∧
      ∀ i, i ∈ s.cache.erase q ++ s.free.erase q ↔ i ∈ I \ {q} := by
  obtain ⟨hcache, hfree, hdisj⟩ := nodup_append.mp h.nodup
  constructor
  · refine nodup_append.mpr ⟨hcache.erase q, hfree.erase q, ?_⟩
    intro i hi j hj
    exact hdisj i (mem_of_mem_erase hi) j (mem_of_mem_erase hj)
  · intro i
    rw [mem_append, hcache.mem_erase_iff, hfree.mem_erase_iff, Set.mem_sdiff,
      Set.mem_singleton_iff, ← h.linked i, mem_append]
    tauto

/-- Link an item at the head of `free`. -/
theorem linkFree (hq : q ∉ I) :
    KeepaliveInv (insert q I) { s with free := q :: s.free } where
  nodup := by
    have hperm : (s.cache ++ q :: s.free).Perm (q :: (s.cache ++ s.free)) :=
      perm_middle
    rw [hperm.nodup_iff]
    exact nodup_cons.mpr ⟨fun hmem => hq ((h.linked q).mp hmem), h.nodup⟩
  linked i := by
    have hperm : (s.cache ++ q :: s.free).Perm (q :: (s.cache ++ s.free)) :=
      perm_middle
    rw [hperm.mem_iff, mem_cons, h.linked i, Set.mem_insert_iff]
  used := h.used
  cached := h.cached
  filled := h.filled
  address := h.address
  stored := h.stored
  life := h.life

/-- Unlink a free item. -/
theorem unlinkFree (hq : q ∈ s.free) : KeepaliveInv (I \ {q}) (s.queueRemove q) := by
  have hcache : s.cache.erase q = s.cache :=
    erase_of_not_mem fun hc => h.not_mem_free hc hq
  obtain ⟨hnodup, hlinked⟩ := h.queueRemove_linked (q := q)
  exact
    { nodup := hnodup
      linked := hlinked
      used := h.used
      cached := by simpa only [KeepaliveState.queueRemove, hcache] using h.cached
      filled := by simpa only [KeepaliveState.queueRemove, hcache] using h.filled
      address := h.address
      stored := h.stored
      life := h.life }

/-- A connection that leaves the cache takes its item out of the handlers. -/
theorem cached_of_leave (hc : s.conn c = some (.keepaliveClose q)) {w : Option (ReadHandler ρ)}
    (hw : ∀ j, w ≠ some (.keepaliveClose j)) (i : ℕ) (c' : κ) :
    i ∈ s.cache.erase q ∧ (s.item i).connection = some c' ↔
      update s.conn c w c' = some (.keepaliveClose i) := by
  obtain ⟨hq, hitem⟩ := (h.cached q c).mpr hc
  have hnodup : s.cache.Nodup := (nodup_append.mp h.nodup).1
  rw [hnodup.mem_erase_iff]
  by_cases hcc : c' = c
  · subst hcc
    rw [update_self]
    refine ⟨?_, fun hclose => absurd hclose (hw i)⟩
    rintro ⟨⟨hne, hi⟩, hci⟩
    have hclose := (h.cached i c').mp ⟨hi, hci⟩
    rw [hc, Option.some.injEq, ReadHandler.keepaliveClose.injEq] at hclose
    exact absurd hclose.symm hne
  · rw [update_of_ne hcc, ← h.cached i c']
    constructor
    · rintro ⟨⟨-, hi⟩, hci⟩
      exact ⟨hi, hci⟩
    · rintro ⟨hi, hci⟩
      refine ⟨⟨?_, hi⟩, hci⟩
      rintro rfl
      rw [hitem, Option.some.injEq] at hci
      exact hcc hci.symm

/-- A connection that leaves the queue was stored with its address. -/
theorem stored_of_leave {w : Option (ReadHandler ρ)} (hw : ∀ j, w ≠ some (.keepaliveClose j))
    (i : ℕ) (c' : κ) (hclose : update s.conn c w c' = some (.keepaliveClose i)) :
    s.remote c' = (s.item i).sockaddr := by
  by_cases hcc : c' = c
  · subst hcc
    rw [update_self] at hclose
    exact absurd hclose (hw i)
  · rw [update_of_ne hcc] at hclose
    exact h.stored i c' hclose

/-- **Other connections** go on with their lives. -/
theorem life_frame {s' : KeepaliveState κ ρ} {c' : κ} (acts : List (ConnAction κ ρ SockAddr))
    (hlog : s'.log = acts ++ s.log) (hacts : ∀ x ∈ acts, x.conn ≠ c')
    (hconn : s'.conn c' = s.conn c') (hremote : s'.remote c' = s.remote c')
    (hitem : ∀ i, s.conn c' = some (.keepaliveClose i) → (s'.item i).sockaddr = (s.item i).sockaddr) :
    phaseAfter c' s'.log = some (s'.phase c') := by
  rw [hlog, phaseAfter_append_ne hacts, h.life c', phase_congr hconn hremote hitem]

/-- A connection leaves the cache with its item unlinked, for another handler `w`. -/
theorem leave (hc : s.conn c = some (.keepaliveClose q)) {w : Option (ReadHandler ρ)}
    (hw : ∀ j, w ≠ some (.keepaliveClose j)) (peer : ρ → KeepalivePeer κ)
    (acts : List (ConnAction κ ρ SockAddr)) {s' : KeepaliveState κ ρ}
    (hs' : s' = { s.queueRemove q with peer := peer, conn := update s.conn c w, log := acts ++ s.log })
    (hused : ∀ r c', (peer r).connection = some c' ↔ update s.conn c w c' = some (.upstream r))
    (haddress : ∀ r c' a, (peer r).connection = some c' → (peer r).sockaddr = some a → s.remote c' = a)
    (hacts : ∀ x ∈ acts, x.conn = c) (hlife : phaseAfter c (acts ++ s.log) = some (s'.phase c)) :
    KeepaliveInv (I \ {q}) s' := by
  obtain ⟨hnodup, hlinked⟩ := h.queueRemove_linked (q := q)
  subst hs'
  exact
    { nodup := hnodup
      linked := hlinked
      used := hused
      cached := h.cached_of_leave hc hw
      filled := fun i hi => h.filled i (mem_of_mem_erase hi)
      address := haddress
      stored := h.stored_of_leave hw
      life := by
        intro c'
        by_cases hcc : c' = c
        · rw [hcc]
          exact hlife
        · refine h.life_frame acts rfl (fun x hx => ?_) (update_of_ne hcc _ _) rfl
            fun _ _ => rfl
          rw [hacts x hx]
          exact fun heq => hcc heq.symm }

/-- A connection of the cache is closed and its item unlinked. -/
theorem retire (again : Bool) (hc : s.conn c = some (.keepaliveClose q)) :
    KeepaliveInv (I \ {q}) ((keepaliveRetire again c s).queueRemove q) := by
  have hphase : phaseAfter c s.log = some (.cached (s.item q).sockaddr) := by
    rw [h.life c, KeepaliveState.phase, hc]
  have hretired : phaseAfter c (.retire c :: s.log) = some .closing :=
    phaseAfter_cons_eq rfl hphase rfl
  -- no request has the connection, before or after
  have hused : ∀ w : Option (ReadHandler ρ), (∀ r, w ≠ some (.upstream r)) → ∀ r c',
      (s.peer r).connection = some c' ↔ update s.conn c w c' = some (.upstream r) := by
    intro w hw r c'
    rw [h.used r c']
    by_cases hcc : c' = c
    · subst hcc
      rw [update_self, hc]
      exact ⟨fun hclose => by simp at hclose, fun hup => absurd hup (hw r)⟩
    · rw [update_of_ne hcc]
  cases again with
  | false =>
    refine h.leave (w := none) hc (by simp) s.peer [.destroy c, .retire c] rfl
      (hused none (by simp)) h.address (by simp [ConnAction.conn]) ?_
    refine phaseAfter_cons_eq rfl hretired ?_
    simp [KeepaliveState.phase, KeepaliveState.queueRemove, keepaliveRetire,
      keepaliveClose, ConnPhase.next]
  | true =>
    refine h.leave (w := some .sslShutdown) hc (by simp) s.peer [.retire c] rfl
      (hused _ (by simp)) h.address (by simp [ConnAction.conn]) ?_
    refine hretired.trans ?_
    simp [KeepaliveState.phase, KeepaliveState.queueRemove, keepaliveRetire,
      keepaliveClose]

/-- Giving `c` to a request that had no connection. -/
theorem used_update (hr : (s.peer r).connection = none) (hc : ∀ r', s.conn c ≠ some (.upstream r'))
    {pc : KeepalivePeer κ} (hpc : pc.connection = some c) (r' : ρ) (c' : κ) :
    (update s.peer r pc r').connection = some c' ↔
      update s.conn c (some (.upstream r)) c' = some (.upstream r') := by
  by_cases hrr : r' = r
  · subst hrr
    rw [update_self, hpc]
    by_cases hcc : c' = c
    · simp [hcc]
    · have hne : c ≠ c' := fun heq => hcc heq.symm
      rw [update_of_ne hcc, ← h.used r' c', hr]
      simp [hne]
  · rw [update_of_ne hrr, h.used r' c']
    by_cases hcc : c' = c
    · subst hcc
      have hne : r ≠ r' := fun heq => hrr heq.symm
      rw [update_self]
      simp [hc r', hne]
    · rw [update_of_ne hcc]

/-- A cached connection goes to a request that asks for its address. -/
theorem handOut (hc : s.conn c = some (.keepaliveClose q)) (hr : (s.peer r).connection = none)
    (ha : (s.item q).sockaddr = a) :
    KeepaliveInv (I \ {q}) { s.queueRemove q with
      peer := update s.peer r ⟨some c, some a, true⟩
      conn := update s.conn c (some (.upstream r))
      log := .handOut r c a :: s.log } := by
  have hremote : s.remote c = a := (h.stored q c hc).trans ha
  refine h.leave hc (by simp) _ [.handOut r c a] rfl
    (h.used_update hr (by simp [hc]) rfl) ?_ (by simp [ConnAction.conn]) ?_
  · intro r' c' b hconn hsock
    by_cases hrr : r' = r
    · subst hrr
      simp only [update_self, Option.some.injEq] at hconn hsock
      rw [← hconn, ← hsock, hremote]
    · rw [update_of_ne hrr] at hconn hsock
      exact h.address r' c' b hconn hsock
  · have hphase : phaseAfter c s.log = some (.cached a) := by
      simp only [h.life c, KeepaliveState.phase, hc, ha]
    refine phaseAfter_cons_eq rfl hphase ?_
    simp [KeepaliveState.phase, KeepaliveState.queueRemove, ConnPhase.next, hremote]

/-- A request opens a connection. -/
theorem connect (hc : s.conn c = none) (hr : (s.peer r).connection = none)
    (ha : (s.peer r).sockaddr = some a) :
    KeepaliveInv I { s with
      peer := update s.peer r { s.peer r with connection := some c }
      conn := update s.conn c (some (.upstream r))
      remote := update s.remote c a
      log := .connect r c a :: s.log } where
  nodup := h.nodup
  linked := h.linked
  used := h.used_update hr (by simp [hc]) rfl
  cached i c' := by
    rw [h.cached i c']
    by_cases hcc : c' = c
    · simp [hcc, hc]
    · simp only [update_of_ne hcc]
  filled := h.filled
  address r' c' b hconn hsock := by
    by_cases hrr : r' = r
    · subst hrr
      simp only [update_self, Option.some.injEq] at hconn hsock
      simp only [← hconn, update_self]
      exact Option.some.inj (ha.symm.trans hsock)
    · simp only [update_of_ne hrr] at hconn hsock
      have hcc : c' ≠ c := by
        rintro rfl
        simp [(h.used r' c').mp hconn] at hc
      simp only [update_of_ne hcc]
      exact h.address r' c' b hconn hsock
  stored i c' hclose := by
    by_cases hcc : c' = c
    · subst hcc
      simp [update_self] at hclose
    · simp only [update_of_ne hcc] at hclose ⊢
      exact h.stored i c' hclose
  life c' := by
    by_cases hcc : c' = c
    · subst hcc
      have hphase : phaseAfter c' s.log = some .closed := by
        rw [h.life c', KeepaliveState.phase, hc]
      refine phaseAfter_cons_eq rfl hphase ?_
      simp [KeepaliveState.phase, ConnPhase.next]
    · refine h.life_frame [.connect r c a] rfl ?_ (update_of_ne hcc _ _)
        (update_of_ne hcc _ _) fun _ _ => rfl
      have hne : c ≠ c' := fun heq => hcc heq.symm
      simpa [ConnAction.conn] using hne

/-- Taking its connection from a request. -/
theorem used_release (hr : (s.peer r).connection = some c) {w : Option (ReadHandler ρ)}
    (hw : ∀ r', w ≠ some (.upstream r')) (r' : ρ) (c' : κ) :
    (update s.peer r { s.peer r with connection := none } r').connection = some c' ↔
      update s.conn c w c' = some (.upstream r') := by
  have hc : s.conn c = some (.upstream r) := (h.used r c).mp hr
  by_cases hcc : c' = c
  · subst hcc
    rw [update_self]
    simp only [hw r', iff_false]
    by_cases hrr : r' = r
    · simp [hrr]
    · rw [update_of_ne hrr, h.used r' c', hc]
      have hne : r ≠ r' := fun heq => hrr heq.symm
      simp [hne]
  · rw [update_of_ne hcc, ← h.used r' c']
    by_cases hrr : r' = r
    · have hne : c ≠ c' := fun heq => hcc heq.symm
      simp [hrr, hr, hne]
    · rw [update_of_ne hrr]

/-- A request that lets its connection go. -/
theorem address_release (r' : ρ) (c' : κ) (b : SockAddr)
    (hconn : (update s.peer r { s.peer r with connection := none } r').connection = some c')
    (hsock : (update s.peer r { s.peer r with connection := none } r').sockaddr = some b) :
    s.remote c' = b := by
  by_cases hrr : r' = r
  · simp [hrr] at hconn
  · rw [update_of_ne hrr] at hconn hsock
    exact h.address r' c' b hconn hsock

/-- A request saves its connection in an unlinked item. -/
theorem save (hq : q ∉ I) (hr : (s.peer r).connection = some c)
    (ha : (s.peer r).sockaddr = some a) : KeepaliveInv (insert q I) (keepaliveSave r c a q s) := by
  have hc : s.conn c = some (.upstream r) := (h.used r c).mp hr
  have hremote : s.remote c = a := h.address r c a hr ha
  have hold : ∀ i c', s.conn c' = some (.keepaliveClose i) → i ≠ q := by
    rintro i c' hclose rfl
    exact hq ((h.linked i).mp (mem_append_left _ ((h.cached i c').mpr hclose).1))
  refine ⟨?_, ?_, h.used_release hr (by simp), ?_, ?_, h.address_release, ?_, ?_⟩
  · exact nodup_cons.mpr ⟨fun hmem => hq ((h.linked q).mp hmem), h.nodup⟩
  · intro i
    rw [keepaliveSave, cons_append, mem_cons, h.linked i, Set.mem_insert_iff]
  · intro i c'
    simp only [keepaliveSave, mem_cons]
    by_cases hiq : i = q
    · subst hiq
      by_cases hcc : c' = c
      · simp [hcc]
      · have hne : c ≠ c' := fun heq => hcc heq.symm
        have hclose : s.conn c' ≠ some (.keepaliveClose i) := fun hcl => hold i c' hcl rfl
        simp [update_of_ne hcc, hne, hclose]
    · have hqi : q ≠ i := fun heq => hiq heq.symm
      rw [update_of_ne hiq]
      simp only [hiq, false_or]
      by_cases hcc : c' = c
      · subst hcc
        rw [h.cached i c', hc]
        simp [hqi]
      · rw [update_of_ne hcc, h.cached i c']
  · intro i hi
    simp only [keepaliveSave, mem_cons] at hi ⊢
    by_cases hiq : i = q
    · simp [hiq]
    · rw [update_of_ne hiq]
      exact h.filled i (hi.resolve_left hiq)
  · intro i c' hclose
    simp only [keepaliveSave] at hclose ⊢
    by_cases hcc : c' = c
    · subst hcc
      simp only [update_self, Option.some.injEq,
        ReadHandler.keepaliveClose.injEq] at hclose
      rw [← hclose, update_self, hremote]
    · rw [update_of_ne hcc] at hclose
      rw [update_of_ne (hold i c' hclose)]
      exact h.stored i c' hclose
  · intro c'
    by_cases hcc : c' = c
    · subst hcc
      have hphase : phaseAfter c' s.log = some (.used r a) := by
        simp only [h.life c', KeepaliveState.phase, hc, hremote]
      refine phaseAfter_cons_eq rfl hphase ?_
      simp [KeepaliveState.phase, keepaliveSave, ConnPhase.next]
    · refine h.life_frame [.save r c a] rfl ?_ (update_of_ne hcc _ _) rfl ?_
      · have hne : c ≠ c' := fun heq => hcc heq.symm
        simpa [ConnAction.conn] using hne
      · intro i hclose
        simp only [keepaliveSave, update_of_ne (hold i c' hclose)]

theorem mem_of_conn (hc : s.conn c = some (.keepaliveClose q)) : q ∈ I :=
  (h.linked q).mp (mem_append_left _ ((h.cached q c).mpr hc).1)

/-- The close handler keeps the invariant. -/
theorem closeHandler (env : CloseEnv) (hc : s.conn c = some (.keepaliveClose q)) :
    KeepaliveInv I (keepaliveCloseHandler env c q s) := by
  rw [keepaliveCloseHandler]
  split
  · exact h
  · have hlink := (h.retire env.shutdownAgain hc).linkFree (q := q) (by simp)
    rwa [Set.insert_sdiff_self_of_mem (h.mem_of_conn hc)] at hlink

/-- There is always an item to save a connection in, and taking it unlinks it. -/
theorem take (hI : I.Nonempty) (again : Bool) :
    ∃ q s', keepaliveTake again s = some (q, s') ∧ q ∈ I ∧ s'.peer = s.peer ∧
      KeepaliveInv (I \ {q}) s' := by
  cases hfree : s.free with
  | cons q qs =>
    have hmem : q ∈ s.free := by simp [hfree]
    refine ⟨q, s.queueRemove q, ?_, ?_, rfl, h.unlinkFree hmem⟩
    · simp [keepaliveTake, hfree]
    · exact (h.linked q).mp (mem_append_right _ hmem)
  | nil =>
    have hcache : s.cache ≠ [] := by
      rintro hnil
      obtain ⟨i, hi⟩ := hI
      simpa [hnil, hfree] using (h.linked i).mpr hi
    have hmem := getLast_mem hcache
    obtain ⟨old, hitem, hconn⟩ := h.conn_of_mem hmem
    refine ⟨s.cache.getLast hcache,
      keepaliveRetire again old (s.queueRemove (s.cache.getLast hcache)), ?_,
      (h.linked _).mp (mem_append_left _ hmem), ?_, ?_⟩
    · simp [keepaliveTake, hfree, getLast?_eq_some_getLast hcache, hitem]
    · cases again <;> rfl
    · have hretire := h.retire again hconn
      cases again <;> exact hretire

/-- A request drops its connection. -/
theorem drop (hr : (s.peer r).connection = some c) :
    KeepaliveInv I { s with
      peer := update s.peer r { s.peer r with connection := none }
      conn := update s.conn c none
      log := .drop r c :: s.log } := by
  have hc : s.conn c = some (.upstream r) := (h.used r c).mp hr
  refine ⟨h.nodup, h.linked, h.used_release hr (by simp), ?_, h.filled, h.address_release,
    h.stored_of_leave (by simp), ?_⟩
  · intro i c'
    rw [h.cached i c']
    by_cases hcc : c' = c
    · simp [hcc, hc]
    · simp only [update_of_ne hcc]
  · intro c'
    by_cases hcc : c' = c
    · subst hcc
      have hphase : phaseAfter c' s.log = some (.used r (s.remote c')) := by
        simp only [h.life c', KeepaliveState.phase, hc]
      refine phaseAfter_cons_eq rfl hphase ?_
      simp [KeepaliveState.phase, ConnPhase.next]
    · refine h.life_frame [.drop r c] rfl ?_ (update_of_ne hcc _ _) rfl fun _ _ => rfl
      have hne : c ≠ c' := fun heq => hcc heq.symm
      simpa [ConnAction.conn] using hne

/-- The shutdown of a retired connection goes on, or ends in its destruction. -/
theorem shutdown (again : Bool) (hc : s.conn c = some .sslShutdown) :
    KeepaliveInv I (keepaliveClose again c s) := by
  cases again with
  | true =>
    have hself : update s.conn c (some .sslShutdown) = s.conn := by
      rw [← hc, update_eq_self]
    simpa [keepaliveClose, hself] using h
  | false =>
    refine ⟨h.nodup, h.linked, ?_, ?_, h.filled, h.address, h.stored_of_leave (by simp), ?_⟩
    · intro r c'
      rw [keepaliveClose]
      simp only [Bool.false_eq_true, if_false]
      rw [h.used r c']
      by_cases hcc : c' = c
      · simp [hcc, hc]
      · rw [update_of_ne hcc]
    · intro i c'
      simp only [keepaliveClose, Bool.false_eq_true, if_false]
      rw [h.cached i c']
      by_cases hcc : c' = c
      · simp [hcc, hc]
      · rw [update_of_ne hcc]
    · intro c'
      by_cases hcc : c' = c
      · subst hcc
        have hphase : phaseAfter c' s.log = some .closing := by
          simp only [h.life c', KeepaliveState.phase, hc]
        refine phaseAfter_cons_eq rfl hphase ?_
        simp [KeepaliveState.phase, keepaliveClose, ConnPhase.next]
      · refine h.life_frame [.destroy c] rfl ?_ (update_of_ne hcc _ _) rfl
          fun _ _ => rfl
        have hne : c ≠ c' := fun heq => hcc heq.symm
        simpa [ConnAction.conn] using hne

/-- The caller's bookkeeping after `peer.free`. -/
theorem clearSockaddr (r : ρ) :
    KeepaliveInv I (clearSockaddr r s) where
  nodup := h.nodup
  linked := h.linked
  used r' c := by
    simp only [Hengine.clearSockaddr]
    rw [← h.used r' c]
    by_cases hrr : r' = r
    · simp [hrr]
    · simp only [update_of_ne hrr]
  cached := h.cached
  filled := h.filled
  address r' c a hconn hsock := by
    simp only [Hengine.clearSockaddr] at hconn hsock
    by_cases hrr : r' = r
    · simp [hrr] at hsock
    · rw [update_of_ne hrr] at hconn hsock
      exact h.address r' c a hconn hsock
  stored := h.stored
  life := h.life

/-- The balancer chose an address that is not cached. -/
theorem chosen (hr : (s.peer r).connection = none) (pc : KeepalivePeer κ)
    (hpc : pc.connection = none) :
    KeepaliveInv I { s with peer := update s.peer r pc } where
  nodup := h.nodup
  linked := h.linked
  used r' c := by
    rw [← h.used r' c]
    by_cases hrr : r' = r
    · simp [hrr, hr, hpc]
    · simp only [update_of_ne hrr]
  cached := h.cached
  filled := h.filled
  address r' c a hconn hsock := by
    by_cases hrr : r' = r
    · simp [hrr, hpc] at hconn
    · simp only [update_of_ne hrr] at hconn hsock
      exact h.address r' c a hconn hsock
  stored := h.stored
  life := h.life

end

omit [DecidableEq κ] in
/-- The loop finds an item of the cache saved for the address. -/
theorem mem_of_keepaliveFind {item : ℕ → KeepaliveItem κ} {l : List ℕ}
    (h : keepaliveFind item a l = some q) : q ∈ l ∧ (item q).sockaddr = a := by
  induction l with
  | nil => simp [keepaliveFind] at h
  | cons i l ih =>
    rw [keepaliveFind] at h
    split at h
    case isTrue hcmp =>
      obtain rfl := Option.some.inj h
      exact ⟨mem_cons_self, memn2cmp_eq_zero.mp hcmp⟩
    case isFalse =>
      obtain ⟨hmem, haddr⟩ := ih h
      exact ⟨mem_cons_of_mem _ hmem, haddr⟩

/-- `ngx_http_upstream_get_keepalive_peer` keeps the invariant. -/
theorem get (h : KeepaliveInv I s) (hr : (s.peer r).connection = none)
    (chosen : Option SockAddr) :
    ∃ s', getKeepalivePeer r chosen s = some s' ∧ KeepaliveInv I s' := by
  cases chosen with
  | none => exact ⟨s, rfl, h⟩
  | some a =>
    cases hfind : keepaliveFind s.item a s.cache with
    | none =>
      refine ⟨_, ?_, h.chosen hr ⟨none, some a, false⟩ rfl⟩
      simp only [getKeepalivePeer, hfind]
    | some q =>
      obtain ⟨hq, ha⟩ := mem_of_keepaliveFind hfind
      obtain ⟨c, hitem, hconn⟩ := h.conn_of_mem hq
      have hlink := (h.handOut hconn hr ha).linkFree (q := q) (by simp)
      rw [Set.insert_sdiff_self_of_mem (h.mem_of_conn hconn)] at hlink
      refine ⟨_, ?_, hlink⟩
      simp [getKeepalivePeer, hfind, hitem]

/-- `ngx_http_upstream_free_keepalive_peer` keeps the invariant. -/
theorem free (h : KeepaliveInv I s) (hI : I.Nonempty) (conf : KeepaliveConf) (r : ρ)
    (env : FreeEnv) (closeEnv : CloseEnv) :
    ∃ s', freeKeepalivePeer conf r env closeEnv s = some s' ∧ KeepaliveInv I s' := by
  cases hr : (s.peer r).connection with
  | none => exact ⟨s, by simp only [freeKeepalivePeer, hr], h⟩
  | some c =>
    cases ha : (s.peer r).sockaddr with
    | none => exact ⟨s, by simp only [freeKeepalivePeer, hr, ha], h⟩
    | some a =>
      simp only [freeKeepalivePeer, hr, ha]
      by_cases hinv : env.invalid conf
      · exact ⟨s, by rw [if_pos hinv], h⟩
      · obtain ⟨q, s₁, htake, hq, hpeer, h₁⟩ := h.take hI env.evictAgain
        rw [if_neg hinv, htake]
        rw [← hpeer] at hr ha
        have hsave := h₁.save (q := q) (by simp) hr ha
        rw [Set.insert_sdiff_self_of_mem hq] at hsave
        refine ⟨_, rfl, ?_⟩
        split
        · exact hsave.closeHandler closeEnv (by simp [keepaliveSave])
        · exact hsave

/-- **The step lemma.** A possible event never follows a null pointer, and keeps the
invariant. -/
theorem exec (h : KeepaliveInv I s) (conf : KeepaliveConf) (hI : I.Nonempty)
    {e : KeepaliveEvent κ ρ} (he : e.Possible s) : ∃ s', keepaliveExec conf s e = some s' ∧ KeepaliveInv I s' := by
  cases e with
  | get r chosen => exact h.get he chosen
  | connect r c =>
    obtain ⟨hr, hsock, hc⟩ := he
    obtain ⟨a, ha⟩ := ne_none_iff_exists'.mp hsock
    refine ⟨_, ?_, h.connect hc hr ha⟩
    simp [keepaliveExec, connectPeer, ha]
  | free r env closeEnv =>
    obtain ⟨s', hs', h'⟩ := h.free hI conf r env closeEnv
    refine ⟨_, ?_, h'.clearSockaddr r⟩
    simp [keepaliveExec, hs']
  | close r =>
    obtain ⟨c, hr⟩ := ne_none_iff_exists'.mp he
    refine ⟨_, ?_, h.drop hr⟩
    simp [keepaliveExec, closePeer, hr]
  | read c env =>
    obtain ⟨i, hc⟩ := he
    refine ⟨_, ?_, h.closeHandler env hc⟩
    simp only [keepaliveExec, hc]
  | shutdown c again => exact ⟨_, rfl, h.shutdown again he⟩

/-- A connection is on the books while an item holds it or its shutdown is going on. -/
theorem kept_phase (h : KeepaliveInv I s) (c : κ) :
    (s.phase c).kept =
      if (∃ i ∈ s.cache, (s.item i).connection = some c) ∨ s.conn c = some .sslShutdown
      then 1 else 0 := by
  have hcached : (∃ i ∈ s.cache, (s.item i).connection = some c) ↔
      ∃ i, s.conn c = some (.keepaliveClose i) :=
    exists_congr fun i => h.cached i c
  rw [KeepaliveState.phase]
  split_ifs with hkept
  · rw [hcached] at hkept
    rcases hkept with ⟨i, hclose⟩ | hdown
    · rw [hclose]
      rfl
    · rw [hdown]
      rfl
  · rw [hcached, not_or, not_exists] at hkept
    obtain ⟨hclose, hdown⟩ := hkept
    cases hconn : s.conn c with
    | none => rfl
    | some handler =>
      cases handler with
      | upstream r => rfl
      | keepaliveClose i => exact absurd hconn (hclose i)
      | sslShutdown => exact absurd hconn hdown

end KeepaliveInv

/-- The invariant holds at the start. -/
theorem initKeepalive_inv (conf : KeepaliveConf) (remote : κ → SockAddr) :
    KeepaliveInv {i | i < conf.maxCached} (initKeepalive conf remote : KeepaliveState κ ρ) := by
  have hfree : (List.range conf.maxCached).foldl (fun q i => i :: q) [] =
      (List.range conf.maxCached).reverse := by
    rw [foldl_flip_cons_eq_append', append_nil]
  refine ⟨?_, ?_, ?_, ?_, ?_, ?_, ?_, ?_⟩
  · simp only [initKeepalive, hfree, nil_append]
    exact pairwise_reverse.mpr (nodup_range.imp Ne.symm)
  · intro i
    simp [initKeepalive, hfree]
  all_goals simp [initKeepalive, KeepaliveState.phase, phaseAfter]

/-- The invariant holds in every reachable state. -/
theorem keepalive_inv (h : (keepaliveMachine κ ρ conf).Reachable s) :
    KeepaliveInv {i | i < conf.maxCached} s := by
  refine h.invariant (P := KeepaliveInv {i | i < conf.maxCached}) ?_ ?_
  · rintro s ⟨remote, rfl⟩
    exact initKeepalive_inv conf remote
  · intro s e s' hs hstep
    change keepaliveStep conf s e = some s' at hstep
    by_cases he : e.Possible s
    · rw [keepaliveStep, if_pos he] at hstep
      obtain ⟨s₁, h₁, hs₁⟩ := hs.exec conf ⟨0, conf.pos⟩ he
      rw [hstep, Option.some.injEq] at h₁
      exact h₁ ▸ hs₁
    · simp [keepaliveStep, if_neg he] at hstep

/-- **The keepalive cache.** In every state reached by any interleaving of the events of
any number of requests:
* the queues `cache` and `free` together hold each of the `max_cached` items once;
* no two items of the cache hold one connection;
* no connection of the cache belongs to a request;
* every hand-out of a connection was for the address it was last saved under;
* the saves of a connection are its hand-outs and its destructions, and one more exactly
  while it is in the cache or its TLS session is being shut down;
* no event makes the code follow a null pointer. -/
theorem keepalive_cache (h : (keepaliveMachine κ ρ conf).Reachable s) :
    (s.cache ++ s.free).Perm (List.range conf.maxCached) ∧
    (∀ i ∈ s.cache, ∀ j ∈ s.cache,
      (s.item i).connection = (s.item j).connection → i = j) ∧
    (∀ i ∈ s.cache, ∀ r, (s.item i).connection ≠ (s.peer r).connection) ∧
    (∀ newer older r c a, s.log = newer ++ .handOut r c a :: older →
      ∃ r', older.find? (fun x => decide (x.conn = c)) = some (.save r' c a)) ∧
    (∀ c, countOf ConnAction.isSave c s.log =
      countOf ConnAction.isHandOut c s.log + countOf ConnAction.isDestroy c s.log +
        if (∃ i ∈ s.cache, (s.item i).connection = some c) ∨ s.conn c = some .sslShutdown
        then 1 else 0) ∧
    ∀ e : KeepaliveEvent κ ρ, e.Possible s → (keepaliveExec conf s e).isSome := by
  have hinv : KeepaliveInv {i | i < conf.maxCached} s := keepalive_inv h
  refine ⟨?_, ?_, ?_, ?_, ?_, ?_⟩
  · refine (perm_ext_iff_of_nodup hinv.nodup nodup_range).mpr fun i => ?_
    rw [hinv.linked i, mem_range, Set.mem_ofPred_eq]
  · intro i hi j hj hij
    obtain ⟨c, hc, hclose⟩ := hinv.conn_of_mem hi
    have hclose' := (hinv.cached j c).mp ⟨hj, hij ▸ hc⟩
    rw [hclose, Option.some.injEq, ReadHandler.keepaliveClose.injEq] at hclose'
    exact hclose'
  · intro i hi r hir
    obtain ⟨c, hc, hclose⟩ := hinv.conn_of_mem hi
    have hup := (hinv.used r c).mp (hir ▸ hc)
    simp [hclose] at hup
  · intro newer older r c a hlog
    have hlife := hinv.life c
    rw [hlog] at hlife
    exact saved_of_handOut hlife
  · intro c
    rw [count_of_phaseAfter (hinv.life c), hinv.kept_phase c]
  · intro e he
    obtain ⟨s', hs', -⟩ := hinv.exec conf ⟨0, conf.pos⟩ he
    rw [hs', isSome_some]

end Functions

/-- A worker with one item: request `0` saves its connection and request `1`, sent to the
same address, gets it. -/
theorem keepalive_cache_reuse :
    ∃ s : KeepaliveState ℕ ℕ,
      (keepaliveMachine ℕ ℕ ⟨1, 1000, 3600000, by decide⟩).Reachable s ∧
      s.log = [.handOut 1 7 [2, 80], .save 0 7 [2, 80], .connect 0 7 [2, 80]] ∧
      (s.cache ++ s.free).Perm (List.range 1) := by
  let env : FreeEnv :=
    ⟨false, false, false, false, false, false, 1, 0, 0, true, true, false, false, true, false,
      false⟩
  let closeEnv : CloseEnv := ⟨false, false, true, true, false⟩
  let events : List (KeepaliveEvent ℕ ℕ) :=
    [.get 0 (some [2, 80]), .connect 0 7, .free 0 env closeEnv, .get 1 (some [2, 80])]
  have hlog : (Machine.replay (keepaliveStep ⟨1, 1000, 3600000, by decide⟩) []
      (initKeepalive ⟨1, 1000, 3600000, by decide⟩ fun _ => []) events).map (·.2.log) =
      some [.handOut 1 7 [2, 80], .save 0 7 [2, 80], .connect 0 7 [2, 80]] := by
    decide
  obtain ⟨⟨tr, s⟩, hreplay, hlog⟩ := map_eq_some_iff.mp hlog
  have hrun : (keepaliveMachine ℕ ℕ ⟨1, 1000, 3600000, by decide⟩).Run tr s :=
    Machine.run_of_replay events ⟨fun _ => [], rfl⟩ hreplay
  exact ⟨s, ⟨tr, hrun⟩, hlog, (keepalive_cache ⟨tr, hrun⟩).1⟩

end Hengine
