import Hengine.Lib.Machine
import Hengine.Upstream.Dyups

/-!
# The Workers and Their Messages

Several workers run the dyups module. A step is one section under the lock of the shared memory: a
worker reads the messages, updates or deletes an upstream, or starts in the place of one that has
died. Between these, requests take and give back upstreams, and workers die, in the middle of
reading too.

All memory suffices here. What a body gives, and whether the balancer takes it, is looked up anew by
each worker that parses it, for the trial and for the upstream itself: the names in a body may be
resolved in another way the next time. So a step has a `Parsing` for each of these. The workers start
with the table of the configuration, and so does one that takes the place of another, since it is
forked from the master process, which reads no messages.

The state has, besides what the processes have, the list of all commands published so far, each with
the servers that its publisher got, the numbers of the messages that each worker has carried out (its
own ones when it publishes them), and the number of messages that were marked as read for it before
it started.

## Main definitions

* `initProcess`: `ngx_http_dyups_init_process` with `ngx_dyups_purge_msg`.
* `effects`: what a list of commands makes of the live upstreams.
* `dyups`: the machine.
-/

namespace Hengine.Dyups

open Broadcast Function

/-! ### A new worker -/

/-- The index of the status with the earliest time, the first of these. -/
def oldest (status : List ProcStatus) : ℕ :=
  (List.range status.length).foldl (fun best i =>
    if (status.getD best ⟨0, 0⟩).time > (status.getD i ⟨0, 0⟩).time then i else best) 0

/-- The pid that `ngx_http_dyups_init_process` takes for the one of the dead worker. -/
def oldestPid (status : List ProcStatus) : ℕ := (status.getD (oldest status) ⟨0, 0⟩).pid

/-- `ngx_dyups_purge_msg`. -/
def purgeMsg (opid npid : ℕ) (queue : List Msg) : List Msg := queue.map (Post.rename opid npid)

/-- `ngx_http_dyups_init_process`, when the array `status` is there. -/
def initProcess (pid now : ℕ) (sh : Shctx) : Shctx :=
  if sh.version ≠ 0 then
    { sh with
      status := sh.status.set (oldest sh.status) ⟨pid, now⟩
      msgQueue := purgeMsg (oldestPid sh.status) pid sh.msgQueue }
  else sh

/-! ### The commands, abstractly -/

/-- The table that the configuration makes, in which no two live upstreams have the same name and all
have servers. -/
structure Conf where
  table : Table
  distinct : ∀ (i j : ℕ) (d e : SrvConf), table.dyUpstreams[i]? = some d →
    table.dyUpstreams[j]? = some e → d.live = true → e.live = true →
    hostKey d.upstream.host = hostKey e.upstream.host → i = j
  servers : ∀ key u, table.live key = some u → u.servers.isSome = true

/-- What a worker makes of the bodies at one time: the servers and whether a body is parsed to the
end, and whether the balancer takes the servers. -/
structure Parsing where
  parse : List UInt8 → List Server × Bool
  peers : List Server → Bool

/-- The body can be used. -/
def Parsing.Takes (parsing : Parsing) (body : List UInt8) : Prop :=
  (parsing.parse body).2 = true ∧ parsing.peers (parsing.parse body).1 = true

/-- A command with the servers that one worker gets from it. -/
structure Change where
  cmd : Cmd
  servers : List Server
deriving DecidableEq, Repr

/-- What a worker makes of a command. -/
def Cmd.parsed (cmd : Cmd) (parsing : Parsing) : Change :=
  ⟨cmd, match cmd.flag with
    | .delete => []
    | .add => (parsing.parse cmd.content).1⟩

/-- Live upstreams by the names. -/
abbrev Lives := ℕ × List UInt8 → Option Upstream

/-- What a change makes of the live upstreams. -/
def Change.effect (lives : Lives) (change : Change) : Lives :=
  update lives (hostKey change.cmd.name) <|
    match change.cmd.flag with
    | .delete => none
    | .add => some ⟨change.cmd.name, some change.servers⟩

/-- What a list of changes makes of the live upstreams, the oldest first. -/
def effects (lives : Lives) (changes : List Change) : Lives := changes.foldl Change.effect lives

/-! ### The machine -/

/-- All memory suffices. -/
def Parsing.luck (parsing : Parsing) : Luck where
  dyPush := true
  upPush := true
  garbage := SrvConf.zero
  init := .done
  servers := true
  args := true
  parse := parsing.parse
  peers := parsing.peers

/-- What a worker makes of the bodies in one call: those of the messages, by their numbers, and its
own one in the trial and after it. -/
structure Parsings where
  sync : ℕ → Parsing
  trial : Parsing
  real : Parsing

/-- All memory suffices, in all of a call. -/
def Parsings.chance (parsings : Parsings) : Chance :=
  ⟨true, fun n => (parsings.sync n).luck, parsings.trial.luck, parsings.real.luck, true⟩

/-- The state of all processes. `workers` are the pids, one for each of `worker_processes`; a dead
worker keeps its place until another one takes it. -/
structure Sys where
  sh : Shctx
  workers : List ℕ
  alive : ℕ → Bool
  table : ℕ → Table
  log : List Change
  seen : ℕ → List ℕ
  missed : ℕ → ℕ

/-- The steps. The counts of the requests that hold an upstream may change at any time. A worker dies
outside the lock, or after it has dealt with the first `some j` messages of the queue; what it does
after the last message is known to nobody else until it has published a message. -/
inductive Event
  | read (p now : ℕ) (parsings : Parsings)
  | update (p now : ℕ) (api busy : Bool) (name body : List UInt8) (parsings : Parsings)
  | delete (p now : ℕ) (api busy : Bool) (name : List UInt8) (parsings : Parsings)
  | requests (p : ℕ) (refs : ℕ → ℕ)
  | die (p now : ℕ) (part : Option ℕ)
  | respawn (old new now : ℕ)

/-- A worker that calls. -/
def Sys.caller (s : Sys) (p now : ℕ) (api busy : Bool) : Caller :=
  ⟨s.workers.length, p, now, api, busy⟩

/-- The messages that a worker gets when it reads now. -/
def Sys.unread (s : Sys) (p : ℕ) : List Msg :=
  (Broadcast.scan s.workers.length p s.sh.msgQueue).2

/-- A worker has read, and perhaps called, with the shared memory and the table it has left; `change`
is what it has published if it has. -/
def Sys.after (s : Sys) (p : ℕ) (sh : Shctx) (t : Table) (drained : Bool) (change : Change) : Sys :=
  let sent := s.sh.sent < sh.sent
  { s with
    sh := sh
    table := update s.table p t
    log := if sent then s.log ++ [change] else s.log
    seen := update s.seen p
      (s.seen p ++ (if drained then (s.unread p).map Post.serial else []) ++
        if sent then [s.sh.sent] else []) }

/-- The requests that hold the upstreams of a worker change. -/
def Table.withRefs (t : Table) (refs : ℕ → ℕ) : Table :=
  { t with dyUpstreams := t.dyUpstreams.mapIdx fun i d => { d with ref := refs i } }

/-- A worker dies in the middle of reading. -/
def Shctx.readPart (sh : Shctx) (full p now j : ℕ) : Shctx :=
  { sh with
    status := touch p now sh.status
    msgQueue := (Broadcast.scan full p (sh.msgQueue.take j)).1 ++ sh.msgQueue.drop j }

/-- A step, where it is possible. -/
def Sys.step (conf : Conf) (s : Sys) : Event → Option Sys
  | .read p now parsings =>
    if p ∈ s.workers ∧ s.alive p = true then
      (readMsgLocked s.workers.length p now true parsings.chance.sync s.sh (s.table p)).map
        fun r => s.after p r.1 r.2 true ⟨⟨[], [], .delete⟩, []⟩
    else none
  | .update p now api busy name body parsings =>
    if p ∈ s.workers ∧ s.alive p = true then
      (updateUpstream (s.caller p now api busy) parsings.chance s.sh (s.table p) name body).map
        fun r => s.after p r.1 r.2.1 (api && !busy) (Cmd.parsed ⟨name, body, .add⟩ parsings.real)
    else none
  | .delete p now api busy name parsings =>
    if p ∈ s.workers ∧ s.alive p = true then
      (deleteUpstream (s.caller p now api busy) parsings.chance s.sh (s.table p) name).map
        fun r => s.after p r.1 r.2.1 (api && !busy) ⟨⟨name, [], .delete⟩, []⟩
    else none
  | .requests p refs =>
    some { s with table := update s.table p ((s.table p).withRefs refs) }
  | .die p now part =>
    if p ∈ s.workers ∧ s.alive p = true then
      some { s with
        alive := update s.alive p false
        sh := match part with
          | none => s.sh
          | some j => s.sh.readPart s.workers.length p now j }
    else none
  | .respawn old new now =>
    if old ∈ s.workers ∧ s.alive old = false ∧ new ∉ s.workers then
      some { s with
        sh := initProcess new now s.sh
        workers := s.workers.map fun p => if p = old then new else p
        alive := update s.alive new true
        table := update s.table new conf.table
        seen := update s.seen new []
        missed := update s.missed new
          (s.log.length - (s.sh.msgQueue.filter fun m => old ∉ m.readers).length) }
    else none

/-- At first nothing has been published, and all workers have the table of the configuration. -/
def Sys.Initial (conf : Conf) (s : Sys) : Prop :=
  s.sh.msgQueue = [] ∧ s.sh.version = 0 ∧ s.sh.sent = 0 ∧ s.workers.Nodup ∧
    (∀ p, s.alive p = true) ∧ (∀ p, s.table p = conf.table) ∧ s.log = [] ∧
    (∀ p, s.seen p = []) ∧ ∀ p, s.missed p = 0

/-- The machine. -/
def dyups (conf : Conf) : Machine Sys Event := Machine.ofStep (Sys.Initial conf) (Sys.step conf)

end Hengine.Dyups
