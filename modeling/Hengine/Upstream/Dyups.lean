import Hengine.Http.Bytes
import Hengine.Lib.Broadcast

/-!
# Dynamic Upstreams

The model of `ngx_http_dyups_module.c`: a worker's table of upstreams, the commands that change it,
and the messages by which the workers tell each other of the changes.

The table is the array `dy_upstreams`. An entry that is replaced or deleted is only marked, and is
used again when no request holds its upstream any more, so the place of an upstream in the array is
not the same in all workers. `umcf->upstreams` is the list of what its slots show: the host of an
upstream, or `none` for the dummy of the deleted ones.

What can go wrong is an argument, `Luck`: the allocations, the parsing of the body and the
initialisation of the balancer. A result is `none` where the process dies of a null pointer. In the
shared memory, the queue of messages is listed with the oldest message first, and the used part of
the array `pid` is the list of the readers of a message; its length is `count`. The number of a
message and `sent` are not in the source: they tell the messages apart.

## Main definitions

* `Table.findUpstream`, `Table.doUpdate`, `Table.doDelete`, `Table.sandboxUpdate`.
* `readMsgLocked`, `sendMsg`: the messages.
* `updateUpstream`, `deleteUpstream`: the calls of the interface.
-/

namespace Hengine.Dyups

open Broadcast

/-- What `ngx_http_dyups_show_detail` shows of an `ngx_http_upstream_server_t`. -/
structure Server where
  name : List UInt8
  weight : ℤ
  maxConns : ℤ
  maxFails : ℤ
  failTimeout : ℤ
  backup : Bool
  down : Bool
deriving DecidableEq, Repr

/-- `ngx_http_upstream_srv_conf_t`; `servers` is `none` for the null pointer. -/
structure Upstream where
  host : List UInt8
  servers : Option (List Server)
deriving DecidableEq, Repr

/-- `0`, `NGX_DYUPS_DELETING` and `NGX_DYUPS_DELETED`. -/
inductive Deleted
  | no
  | deleting
  | deleted
deriving DecidableEq, Repr

/-- `ngx_http_dyups_srv_conf_t`: `ref` is the count it points to, and `pool` says whether there is
one. -/
structure SrvConf where
  idx : ℕ
  ref : ℕ
  deleted : Deleted
  dynamic : Bool
  pool : Bool
  upstream : Upstream
deriving DecidableEq, Repr

/-- `ngx_memzero(duscf, sizeof(ngx_http_dyups_srv_conf_t))`. -/
def SrvConf.zero : SrvConf := ⟨0, 0, .no, false, false, ⟨[], none⟩⟩

/-- The arrays of a worker: `dumcf->dy_upstreams` and what the slots of `umcf->upstreams` show. -/
structure Table where
  dyUpstreams : List SrvConf
  upstreams : List (Option (List UInt8))
deriving DecidableEq, Repr

/-- The status codes of the replies. -/
inductive Status
  | ok
  | notFound
  | notAllowed
  | conflict
  | error
deriving DecidableEq, Repr

/-- A reply: the status and the text `rv`, which is empty where the source sets none. -/
structure Reply where
  status : Status
  rv : String
deriving DecidableEq, Repr

/-- Where `ngx_dyups_init_upstream` runs out of memory: before it has a pool, before it shows the
upstream, before it has all configurations of the modules, or not at all. -/
inductive InitStop
  | pool
  | host
  | conf
  | done
deriving DecidableEq, Repr

/-- What one call of `ngx_dyups_do_update` depends on besides the table: whether the two arrays can
grow and what the new entry holds before it is cleared, the allocations, what the body gives (the
servers and whether it is parsed to the end), and whether the balancer takes the servers. -/
structure Luck where
  dyPush : Bool
  upPush : Bool
  garbage : SrvConf
  init : InitStop
  servers : Bool
  args : Bool
  parse : List UInt8 → List Server × Bool
  peers : List Server → Bool

/-! ### Finding an upstream -/

/-- `ngx_strncasecmp(s1, s2, n) == 0`: a null byte in both ends the comparison. -/
@[grind =]
def strncaseEq : ℕ → List UInt8 → List UInt8 → Bool
  | n + 1, a :: as, b :: bs =>
    if tolower a = tolower b then
      if tolower a ≠ 0 then strncaseEq n as bs else true
    else false
  | _, _, _ => true

/-- The comparison of a host with a name. -/
def sameHost (host name : List UInt8) : Bool :=
  host.length = name.length && strncaseEq host.length host name

/-- An upstream that is being deleted and that no request holds is deleted, and its pool destroyed. -/
def SrvConf.release (d : SrvConf) : SrvConf :=
  if d.deleted = .deleting ∧ d.ref = 0 then { d with deleted := .deleted, pool := false } else d

/-- The loop of `ngx_dyups_find_upstream` from the entry `i` on; `del` is the last deleted entry
before it. The result is the index `*idx`, and `none` is `-1` and `NULL`. -/
@[grind =]
def findLoop (name : List UInt8) : List SrvConf → ℕ → Option ℕ → List SrvConf × Option ℕ
  | [], _, del => ([], del)
  | d :: ds, i, del =>
    if !d.dynamic then
      let r := findLoop name ds (i + 1) del
      (d :: r.1, r.2)
    else
      match d.release.deleted with
      | .deleting =>
        let r := findLoop name ds (i + 1) del
        (d.release :: r.1, r.2)
      | .deleted =>
        let r := findLoop name ds (i + 1) (some i)
        (d.release :: r.1, r.2)
      | .no =>
        if sameHost d.upstream.host name then (d.release :: ds, some i)
        else
          let r := findLoop name ds (i + 1) del
          (d.release :: r.1, r.2)

/-- `ngx_dyups_find_upstream`. -/
def Table.findUpstream (t : Table) (name : List UInt8) : Table × Option ℕ :=
  let r := findLoop name t.dyUpstreams 0 none
  ({ t with dyUpstreams := r.1 }, r.2)

/-- The entry `i`, for an index that `findUpstream` has returned. -/
def Table.entry (t : Table) (i : ℕ) : SrvConf := t.dyUpstreams.getD i SrvConf.zero

/-- `ngx_dyups_mark_upstream_delete`. -/
def Table.markUpstreamDelete (t : Table) (i : ℕ) : Option Table :=
  let d := t.entry i
  d.upstream.servers.map fun us =>
    { dyUpstreams := t.dyUpstreams.set i
        { d with
          upstream := { d.upstream with servers := some (us.map fun u => { u with down := true }) }
          deleted := .deleting }
      upstreams := t.upstreams.set d.idx none }

/-! ### Making an upstream -/

/-- `ngx_dyups_init_upstream`, but for the slot. -/
def SrvConf.initUpstream (stop : InitStop) (name : List UInt8) (d : SrvConf) : SrvConf × Bool :=
  match stop with
  | .pool => ({ d with pool := false }, false)
  | .host => ({ d with pool := true }, false)
  | .conf => ({ d with pool := true, dynamic := true, upstream := ⟨name, none⟩ }, false)
  | .done =>
    ({ d with pool := true, dynamic := true, upstream := ⟨name, none⟩, ref := 0, deleted := .no },
      true)

/-- Whether `ngx_dyups_init_upstream` comes to `uscfp[index] = uscf`. -/
def InitStop.shows : InitStop → Bool
  | .pool | .host => false
  | .conf | .done => true

/-- `ngx_dyups_add_server`. -/
def SrvConf.addServer (luck : Luck) (body : List UInt8) (d : SrvConf) : SrvConf × Bool :=
  match if d.upstream.servers.isNone && luck.servers then some [] else d.upstream.servers with
  | none => (d, false)
  | some us =>
    if !luck.args then ({ d with upstream := { d.upstream with servers := some us } }, false)
    else
      let parsed := luck.parse body
      let servers := us ++ parsed.1
      ({ d with upstream := { d.upstream with servers := some servers } },
        parsed.2 && luck.peers servers)

/-- The end of `ngx_dyups_do_update`, with the entry `i` and the slot `idx`. -/
def Table.renew (luck : Luck) (t : Table) (i idx : ℕ) (name body : List UInt8) : Table × Reply :=
  let initial := SrvConf.initUpstream luck.init name { t.entry i with idx := idx }
  let upstreams := if luck.init.shows then t.upstreams.set idx (some name) else t.upstreams
  if !initial.2 then
    (⟨t.dyUpstreams.set i initial.1, upstreams⟩, ⟨.error, "init upstream failed"⟩)
  else
    let added := initial.1.addServer luck body
    (⟨t.dyUpstreams.set i added.1, upstreams⟩,
      if added.2 then ⟨.ok, "success"⟩ else ⟨.error, "add server failed"⟩)

/-- An upstream of that name is deleted first, and the search repeated. -/
def Table.deleteFirst (t : Table) (name : List UInt8) (found : Option ℕ) :
    Option (Table × Option ℕ) :=
  match found with
  | none => some (t, none)
  | some i =>
    if (t.entry i).deleted = .no then
      (t.markUpstreamDelete i).map fun t => t.findUpstream name
    else some (t, some i)

/-- `ngx_dyups_do_update`. -/
def Table.doUpdate (luck : Luck) (t : Table) (name body : List UInt8) : Option (Table × Reply) :=
  let first := t.findUpstream name
  (first.1.deleteFirst name first.2).map fun r =>
    let t := r.1
    match r.2 with
    | some i => t.renew luck i i name body
    | none =>
      if !luck.dyPush then (t, ⟨.error, "out of memory"⟩)
      else if !luck.upPush then
        -- the first array has grown already, and nobody clears the new entry
        (⟨t.dyUpstreams ++ [luck.garbage], t.upstreams⟩, ⟨.error, "out of memory"⟩)
      else
        Table.renew luck ⟨t.dyUpstreams ++ [SrvConf.zero], t.upstreams ++ [none]⟩
          t.dyUpstreams.length t.upstreams.length name body

/-- `ngx_dyups_do_delete`. -/
def Table.doDelete (t : Table) (name : List UInt8) : Option (Table × Reply) :=
  let first := t.findUpstream name
  match first.2 with
  | none => some (first.1, ⟨.notFound, "not found uptream"⟩)
  | some i =>
    if (first.1.entry i).deleted ≠ .no then some (first.1, ⟨.notFound, "not found uptream"⟩)
    else (first.1.markUpstreamDelete i).map fun t => (t, ⟨.ok, "success"⟩)

/-- The name under which a body is tried. -/
def sandbox : List UInt8 := str "_dyups_upstream_sandbox_"

/-- `ngx_dyups_sandbox_update`. -/
def Table.sandboxUpdate (luck : Luck) (t : Table) (body : List UInt8) : Option (Table × Reply) :=
  (t.doUpdate luck sandbox body).bind fun r =>
    (r.1.doDelete sandbox).map fun deleted => (deleted.1, r.2)

/-! ### Messages -/

/-- `NGX_DYUPS_DELETE` and `NGX_DYUPS_ADD`. -/
inductive Flag
  | delete
  | add
deriving DecidableEq, Repr

/-- What an `ngx_dyups_msg_t` says. -/
structure Cmd where
  name : List UInt8
  content : List UInt8
  flag : Flag
deriving DecidableEq, Repr

/-- `ngx_dyups_msg_t`. -/
abbrev Msg := Post Cmd

/-- `ngx_dyups_status_t`. -/
structure ProcStatus where
  pid : ℕ
  time : ℕ
deriving DecidableEq, Repr

/-- `ngx_dyups_shctx_t`; `sent` is the number of messages so far. -/
structure Shctx where
  msgQueue : List Msg
  version : UInt64
  status : List ProcStatus
  sent : ℕ
deriving DecidableEq, Repr

/-- `ngx_dyups_sync_cmd`; the error is only logged. -/
def syncCmd (luck : Luck) (t : Table) (cmd : Cmd) : Option Table :=
  match cmd.flag with
  | .delete => (t.doDelete cmd.name).map Prod.fst
  | .add => (t.doUpdate luck cmd.name cmd.content).map Prod.fst

/-- The worker's place in the array `status`: the first that is free or its own. -/
@[grind =]
def touch (pid now : ℕ) : List ProcStatus → List ProcStatus
  | [] => []
  | s :: ss => if s.pid = 0 ∨ s.pid = pid then ⟨pid, now⟩ :: ss else s :: touch pid now ss

/-- The loop of `ngx_http_dyups_read_msg_locked` over the messages. -/
@[grind =]
def readLoop (workerProcesses pid : ℕ) (luck : ℕ → Luck) :
    List Msg → Table → Option (List Msg × Table)
  | [], t => some ([], t)
  | msg :: msgs, t =>
    if msg.readers.length = workerProcesses then readLoop workerProcesses pid luck msgs t
    else if pid ∈ msg.readers then
      (readLoop workerProcesses pid luck msgs t).map fun r => (msg :: r.1, r.2)
    else
      (syncCmd (luck msg.serial) t msg.body).bind fun t =>
        (readLoop workerProcesses pid luck msgs t).map fun r =>
          ({ msg with readers := msg.readers ++ [pid] } :: r.1, r.2)

/-- `ngx_http_dyups_read_msg_locked`; `pool` says whether the pool can be created. -/
def readMsgLocked (workerProcesses pid now : ℕ) (pool : Bool) (luck : ℕ → Luck) (sh : Shctx)
    (t : Table) : Option (Shctx × Table) :=
  let sh := { sh with status := touch pid now sh.status }
  if !pool then some (sh, t)
  else
    (readLoop workerProcesses pid luck sh.msgQueue t).map fun r =>
      ({ sh with msgQueue := r.1 }, r.2)

/-- `sh->version++`, which skips zero. -/
def nextVersion (v : UInt64) : UInt64 := if v + 1 = 0 then 1 else v + 1

/-- `ngx_http_dyups_send_msg`; `memory` says whether the shared memory has room for the message. -/
def sendMsg (memory : Bool) (pid : ℕ) (sh : Shctx) (cmd : Cmd) : Shctx × Bool :=
  if memory then
    ({ sh with
        msgQueue := sh.msgQueue ++ [⟨sh.sent, [pid], cmd⟩]
        version := nextVersion sh.version
        sent := sh.sent + 1 }, true)
  else (sh, false)

/-! ### The interface -/

/-- Who calls, and when: `ccf->worker_processes`, `ngx_pid`, the time,
`ngx_http_dyups_api_enable`, and whether `ngx_shmtx_trylock` is used and fails. -/
structure Caller where
  workerProcesses : ℕ
  pid : ℕ
  now : ℕ
  api : Bool
  busy : Bool

/-- What a call depends on: the memory for reading and the luck with each message, the luck with the
sandbox and with the upstream itself, and the shared memory for the message. -/
structure Chance where
  pool : Bool
  sync : ℕ → Luck
  trial : Luck
  real : Luck
  memory : Bool

/-- The calls of the interface: a new body for an upstream, or its deletion. -/
inductive Call
  | update (name body : List UInt8)
  | delete (name : List UInt8)

/-- `ngx_dyups_update_upstream` after the lock and the messages of the others. -/
def updateLocked (caller : Caller) (chance : Chance) (sh : Shctx) (t : Table)
    (name body : List UInt8) : Option (Shctx × Table × Reply) :=
  (t.sandboxUpdate chance.trial body).bind fun trial =>
    if trial.2.status ≠ .ok then some (sh, trial.1, trial.2)
    else
      (trial.1.doUpdate chance.real name body).map fun r =>
        if r.2.status = .ok then
          let sent := sendMsg chance.memory caller.pid sh ⟨name, body, .add⟩
          (sent.1, r.1, if sent.2 then r.2 else
            ⟨.error, "alert: update success but not sync to other process"⟩)
        else (sh, r.1, r.2)

/-- `ngx_dyups_delete_upstream` after the lock and the messages of the others. -/
def deleteLocked (caller : Caller) (chance : Chance) (sh : Shctx) (t : Table)
    (name : List UInt8) : Option (Shctx × Table × Reply) :=
  (t.doDelete name).map fun r =>
    if r.2.status = .ok then
      let sent := sendMsg chance.memory caller.pid sh ⟨name, [], .delete⟩
      (sent.1, r.1, if sent.2 then r.2 else
        ⟨.error, "alert: delte success but not sync to other process"⟩)
    else (sh, r.1, r.2)

/-- Reading the messages of the others, at the start of a call. -/
def Caller.drain (caller : Caller) (chance : Chance) (sh : Shctx) (t : Table) :
    Option (Shctx × Table) :=
  readMsgLocked caller.workerProcesses caller.pid caller.now chance.pool chance.sync sh t

/-- `ngx_dyups_update_upstream`. -/
def updateUpstream (caller : Caller) (chance : Chance) (sh : Shctx) (t : Table)
    (name body : List UInt8) : Option (Shctx × Table × Reply) :=
  if !caller.api then some (sh, t, ⟨.notAllowed, "API disabled\n"⟩)
  else if caller.busy then some (sh, t, ⟨.conflict, "wait and try again\n"⟩)
  else
    (caller.drain chance sh t).bind fun r => updateLocked caller chance r.1 r.2 name body

/-- `ngx_dyups_delete_upstream`. -/
def deleteUpstream (caller : Caller) (chance : Chance) (sh : Shctx) (t : Table)
    (name : List UInt8) : Option (Shctx × Table × Reply) :=
  if !caller.api then some (sh, t, ⟨.notAllowed, "API disabled\n"⟩)
  else if caller.busy then some (sh, t, ⟨.conflict, ""⟩)
  else
    (caller.drain chance sh t).bind fun r => deleteLocked caller chance r.1 r.2 name

/-- A call of the interface. -/
def Call.run (caller : Caller) (chance : Chance) (sh : Shctx) (t : Table) :
    Call → Option (Shctx × Table × Reply)
  | .update name body => updateUpstream caller chance sh t name body
  | .delete name => deleteUpstream caller chance sh t name

/-! ### The live upstreams -/

/-- What `sameHost` compares: the length, and the folded bytes before the first null byte. -/
def hostKey (name : List UInt8) : ℕ × List UInt8 :=
  (name.length, (name.map tolower).takeWhile (· ≠ 0))

/-- An entry that `ngx_dyups_find_upstream` compares with the name. -/
def SrvConf.live (d : SrvConf) : Bool := d.dynamic && d.deleted = .no

/-- The live upstream of a name, as `ngx_dyups_find_upstream` finds it. -/
def Table.live (t : Table) (key : ℕ × List UInt8) : Option Upstream :=
  (t.dyUpstreams.find? fun d => d.live && hostKey d.upstream.host = key).map SrvConf.upstream

end Hengine.Dyups
