import Hengine.Upstream.DyupsErrors
import Hengine.Upstream.DyupsMachine

/-!
# What All Workers Agree On

Each worker has read a number of messages, `known`, and those from `missed` on have made its table
what it is, starting from the table of the configuration. One step lemma for each kind of event
keeps this.
-/

namespace Hengine.Dyups

open List Function Option

open Broadcast

variable {conf : Conf} {t t' : Table} {name body : List UInt8}

/-! ### No null pointers -/

/-- All live upstreams have servers. -/
def Ready (lives : Lives) : Prop := ∀ key u, lives key = some u → u.servers.isSome = true

/-- A change leaves upstreams with servers. -/
theorem Ready.effect {lives : Lives} (h : Ready lives) (change : Change) :
    Ready (change.effect lives) := by
  intro key u hu
  unfold Change.effect at hu
  rcases eq_or_ne key (hostKey change.cmd.name) with rfl | hne
  · rw [update_self] at hu
    cases hflag : change.cmd.flag with
    | delete =>
      rw [hflag] at hu
      cases hu
    | add =>
      rw [hflag] at hu
      rw [← Option.some.inj hu]
      rfl
  · rw [update_of_ne hne] at hu
    exact h key u hu

/-- Changes keep all tables ready. -/
theorem Ready.effects {lives : Lives} (h : Ready lives) (changes : List Change) :
    Ready (effects lives changes) := by
  induction changes generalizing lives with
  | nil => exact h
  | cons change changes ih => exact ih (h.effect change)

/-- A live upstream can be marked. -/
theorem markUpstreamDelete_isSome (h : t.Wf) (hready : Ready t.live) {i : ℕ} {d : SrvConf}
    (hd : t.dyUpstreams[i]? = some d) (hlive : d.live = true) :
    ∃ t', t.markUpstreamDelete i = some t' := by
  have hsome := (Distinct.liveIn_eq_some h).mpr ⟨i, d, hd, hlive, rfl, rfl⟩
  obtain ⟨us, hus⟩ := isSome_iff_exists.mp (hready _ _ hsome)
  exact ⟨_, by rw [Table.markUpstreamDelete, entry_eq hd, hus]; rfl⟩

/-- **Deleting does not fail.** -/
theorem doDelete_isSome (h : t.Wf) (hready : Ready t.live) (name : List UInt8) :
    ∃ t' r, t.doDelete name = some (t', r) := by
  have hfound := (findUpstream_spec t name).2
  have hready' : Ready (t.findUpstream name).1.live := by rwa [live_findUpstream]
  unfold Table.doDelete
  cases hr : (t.findUpstream name).2 with
  | none =>
    simp only [hr]
    exact ⟨_, _, rfl⟩
  | some i =>
    rw [hr] at hfound
    cases hfound with
    | live hd hlive hkey =>
      obtain ⟨t', ht'⟩ := markUpstreamDelete_isSome (h.findUpstream name) hready' hd hlive
      have hno : ((t.findUpstream name).1.entry i).deleted = .no := by
        rw [entry_eq hd]
        simp only [SrvConf.live, Bool.and_eq_true, decide_eq_true_eq] at hlive
        exact hlive.2
      simp only [hr, hno, ht', ne_eq, not_true_eq_false, if_false, map_some]
      exact ⟨_, _, rfl⟩
    | reuse hd hdel _ =>
      simp only [hr, entry_eq hd, hdel, ne_eq, reduceCtorEq, not_false_eq_true, if_true]
      exact ⟨_, _, rfl⟩

/-- **Updating does not fail** for a null pointer. -/
theorem doUpdate_isSome (luck : Luck) (h : t.Wf) (hready : Ready t.live) (name body : List UInt8) :
    ∃ t' r, t.doUpdate luck name body = some (t', r) := by
  have hfound := (findUpstream_spec t name).2
  have hready' : Ready (t.findUpstream name).1.live := by rwa [live_findUpstream]
  suffices hfirst : ∃ r, (t.findUpstream name).1.deleteFirst name (t.findUpstream name).2 = some r by
    obtain ⟨r, hr⟩ := hfirst
    simp only [Table.doUpdate, hr, map_some]
    exact ⟨_, _, rfl⟩
  cases hr : (t.findUpstream name).2 with
  | none => exact ⟨_, rfl⟩
  | some i =>
    rw [hr] at hfound
    cases hfound with
    | live hd hlive hkey =>
      obtain ⟨t', ht'⟩ := markUpstreamDelete_isSome (h.findUpstream name) hready' hd hlive
      have hno : ((t.findUpstream name).1.entry i).deleted = .no := by
        rw [entry_eq hd]
        simp only [SrvConf.live, Bool.and_eq_true, decide_eq_true_eq] at hlive
        exact hlive.2
      simp only [Table.deleteFirst, hno, ht', if_true, map_some]
      exact ⟨_, rfl⟩
    | reuse hd hdel _ =>
      simp only [Table.deleteFirst, entry_eq hd, hdel, reduceCtorEq, if_false]
      exact ⟨_, rfl⟩

/-! ### The commands of a worker -/

theorem Parsing.luck_fine (parsing : Parsing) : parsing.luck.Fine := ⟨rfl, rfl, rfl, rfl, rfl⟩

theorem Parsing.luck_whole (parsing : Parsing) : parsing.luck.Whole := Or.inl rfl

/-- **An update with enough memory** has the effect of the command, and succeeds if the body can be
used. -/
theorem doUpdate_fine {parsing : Parsing} (h : t.Wf) {r : Reply}
    (hup : t.doUpdate parsing.luck name body = some (t', r)) :
    t'.Wf ∧ t'.live = (Cmd.parsed ⟨name, body, .add⟩ parsing).effect t.live ∧
      (r.status = .ok ↔ parsing.Takes body) := by
  obtain ⟨hwf, left, hlive, hleaves⟩ := doUpdate_spec h parsing.luck_whole hup
  obtain ⟨rfl, hok⟩ := hleaves.fine parsing.luck_fine
  exact ⟨hwf, hlive, hok⟩

/-- **A command of another worker** has the effect that the worker gets from it. -/
theorem syncCmd_spec (parsing : Parsing) (h : t.Wf) (hready : Ready t.live) (cmd : Cmd) :
    ∃ t', syncCmd parsing.luck t cmd = some t' ∧ t'.Wf ∧
      t'.live = (cmd.parsed parsing).effect t.live := by
  unfold syncCmd
  obtain ⟨name, content, flag⟩ := cmd
  cases flag with
  | delete =>
    obtain ⟨t', r, hdel⟩ := doDelete_isSome h hready name
    obtain ⟨hwf, hlive, -⟩ := doDelete_spec h hdel
    exact ⟨t', by simp [hdel], hwf, hlive⟩
  | add =>
    obtain ⟨t', r, hup⟩ := doUpdate_isSome parsing.luck h hready name content
    obtain ⟨hwf, hlive, -⟩ := doUpdate_fine h hup
    exact ⟨t', by simp [hup], hwf, hlive⟩

/-- What a worker makes of a message. -/
def Parsings.heard (parsings : Parsings) (m : Msg) : Change :=
  m.body.parsed (parsings.sync m.serial)

/-- **Reading** carries out what the board delivers, in the order of the queue. -/
theorem readLoop_spec (parsings : Parsings) (full p : ℕ) (msgs : List Msg) (h : t.Wf)
    (hready : Ready t.live) :
    ∃ t', readLoop full p parsings.chance.sync msgs t
        = some ((Broadcast.scan full p msgs).1, t') ∧ t'.Wf ∧
      t'.live = effects t.live ((Broadcast.scan full p msgs).2.map parsings.heard) := by
  induction msgs generalizing t with
  | nil => exact ⟨t, rfl, h, rfl⟩
  | cons m msgs ih =>
    unfold readLoop Broadcast.scan
    by_cases hfull : m.readers.length = full
    · simp only [hfull, if_true]
      exact ih h hready
    · by_cases hp : p ∈ m.readers
      · obtain ⟨t', hread, hwf, hlive⟩ := ih h hready
        simp only [hfull, hp, if_true, if_false, hread, map_some]
        exact ⟨t', rfl, hwf, hlive⟩
      · obtain ⟨t₁, hsync, hwf₁, hlive₁⟩ := syncCmd_spec (parsings.sync m.serial) h hready m.body
        have hready₁ : Ready t₁.live := by
          rw [hlive₁]
          exact hready.effect _
        obtain ⟨t', hread, hwf, hlive⟩ := ih hwf₁ hready₁
        have hsync' : syncCmd (parsings.chance.sync m.serial) t m.body = some t₁ := hsync
        simp only [hfull, hp, if_false, hsync', bind_some, hread, map_some]
        refine ⟨t', ?_, hwf, by rw [hlive, hlive₁]; rfl⟩
        simp [Post.sign, hp]

/-- **Reading the queue** marks the messages as read and carries out those that are new. -/
theorem readMsgLocked_spec (parsings : Parsings) (full p now : ℕ) (sh : Shctx) (h : t.Wf)
    (hready : Ready t.live) :
    ∃ t', readMsgLocked full p now true parsings.chance.sync sh t
        = some ({ sh with
            status := touch p now sh.status
            msgQueue := (Broadcast.scan full p sh.msgQueue).1 }, t') ∧ t'.Wf ∧
      t'.live = effects t.live ((Broadcast.scan full p sh.msgQueue).2.map parsings.heard) := by
  obtain ⟨t', hread, hwf, hlive⟩ := readLoop_spec parsings full p sh.msgQueue h hready
  refine ⟨t', ?_, hwf, hlive⟩
  simp [readMsgLocked, hread]

/-! ### The invariant -/

/-- `known p` is the number of messages that the worker `p` has read or published. -/
structure Sys.Good (conf : Conf) (s : Sys) (known : ℕ → ℕ) : Prop where
  fair : Fair s.workers known (s.log.map Change.cmd) s.sh.msgQueue
  sent : s.sh.sent = s.log.length
  version : s.sh.version = 0 → s.log = []
  wf : ∀ p ∈ s.workers, s.alive p = true → (s.table p).Wf
  live : ∀ p ∈ s.workers, s.alive p = true → (s.table p).live
    = effects conf.table.live ((s.log.take (known p)).drop (s.missed p))
  seen : ∀ p ∈ s.workers, s.alive p = true →
    s.seen p = List.range' (s.missed p) (known p - s.missed p)
  missed : ∀ p ∈ s.workers, s.alive p = true → s.missed p ≤ known p

/-- The invariant holds at the start. -/
theorem Sys.Initial.good {s : Sys} (h : s.Initial conf) : s.Good conf fun _ => 0 := by
  obtain ⟨hqueue, hversion, hsent, hnodup, halive, htable, hlog, hseen, hmissed⟩ := h
  refine ⟨?_, by rw [hsent, hlog]; rfl, fun _ => hlog, fun p _ _ => ?_, fun p _ _ => ?_,
    fun p _ _ => by rw [hseen, hmissed]; rfl, fun p _ _ => by rw [hmissed]⟩
  · rw [hlog, hqueue]
    exact fair_nil hnodup
  · rw [htable]
    exact conf.distinct
  · rw [htable, take_zero, drop_nil]
    rfl

variable {s : Sys} {known : ℕ → ℕ}

variable {p : ℕ} {s' : Sys}

theorem Sys.Good.ready (h : s.Good conf known) (hp : p ∈ s.workers) (halive : s.alive p = true) :
    Ready (s.table p).live := by
  rw [h.live p hp halive]
  exact Ready.effects conf.servers _

theorem Sys.Good.known_le (h : s.Good conf known) (hp : p ∈ s.workers) :
    known p ≤ s.log.length := by
  simpa using h.fair.known_le p hp

theorem Sys.Good.unread (h : s.Good conf known) (hp : p ∈ s.workers) :
    (s.unread p).map Post.serial = List.range' (known p) (s.log.length - known p) := by
  simpa [Sys.unread] using (h.fair.delivered hp).1

/-- The worker gets from each message that it reads now the servers that the publisher has got. -/
def Sys.Hears (s : Sys) (p : ℕ) (parsings : Parsings) : Prop :=
  ∀ m ∈ s.unread p, s.log[m.serial]? = some (parsings.heard m)

/-- What a worker hears is what has been logged since. -/
theorem Sys.Good.heard (h : s.Good conf known) (hp : p ∈ s.workers) {parsings : Parsings}
    (hhears : s.Hears p parsings) : (s.unread p).map parsings.heard = s.log.drop (known p) := by
  have hserial := h.unread hp
  have hlen : (s.unread p).length = s.log.length - known p := by
    simpa using congrArg List.length hserial
  refine List.ext_getElem? fun i => ?_
  rw [List.getElem?_map, getElem?_drop]
  rcases Nat.lt_or_ge i (s.unread p).length with hi | hi
  · have hat : (s.unread p)[i].serial = known p + i := by
      have hi' := congrArg (fun l => l[i]?) hserial
      simpa [hi, hlen ▸ hi] using hi'
    rw [List.getElem?_eq_getElem hi, map_some, ← hhears _ (getElem_mem hi), hat]
  · rw [List.getElem?_eq_none hi, List.getElem?_eq_none (by omega), map_none]

/-- **A worker that has read all** has done all changes since it was started. -/
theorem Sys.Good.drained (h : s.Good conf known) (hp : p ∈ s.workers) (halive : s.alive p = true)
    {parsings : Parsings} (hhears : s.Hears p parsings) :
    effects (s.table p).live ((s.unread p).map parsings.heard)
      = effects conf.table.live (s.log.drop (s.missed p)) := by
  rw [h.heard hp hhears, h.live p hp halive, effects, effects, ← foldl_append, effects,
    ← drop_append_of_le_length, take_append_drop]
  rw [length_take]
  exact le_min (h.missed p hp halive) ((h.missed p hp halive).trans (h.known_le hp))

/-- The messages a worker has seen are all since it was started, in order. -/
theorem Sys.Good.seen_append (h : s.Good conf known) (hp : p ∈ s.workers)
    (halive : s.alive p = true) :
    s.seen p ++ (s.unread p).map Post.serial
      = List.range' (s.missed p) (s.log.length - s.missed p) := by
  have hle := h.missed p hp halive
  have hlen := h.known_le hp
  rw [h.seen p hp halive, h.unread hp]
  conv_lhs => rw [show List.range' (known p) (s.log.length - known p)
    = List.range' (s.missed p + (known p - s.missed p)) (s.log.length - known p) by congr 1; omega]
  rw [range'_append_1]
  congr 1
  omega

/-! ### Steps -/

@[simp] theorem Sys.after_workers (p : ℕ) (sh : Shctx) (t : Table) (drained : Bool) (change : Change) :
    (s.after p sh t drained change).workers = s.workers := rfl

@[simp] theorem Sys.after_alive (p : ℕ) (sh : Shctx) (t : Table) (drained : Bool) (change : Change) :
    (s.after p sh t drained change).alive = s.alive := rfl

@[simp] theorem Sys.after_missed (p : ℕ) (sh : Shctx) (t : Table) (drained : Bool) (change : Change) :
    (s.after p sh t drained change).missed = s.missed := rfl

@[simp] theorem Sys.after_sh (p : ℕ) (sh : Shctx) (t : Table) (drained : Bool) (change : Change) :
    (s.after p sh t drained change).sh = sh := rfl

@[simp] theorem Sys.after_table (p : ℕ) (sh : Shctx) (t : Table) (drained : Bool) (change : Change) :
    (s.after p sh t drained change).table = update s.table p t := rfl

/-- **After reading.** -/
theorem Sys.Good.after_read (h : s.Good conf known) (hp : p ∈ s.workers)
    (halive : s.alive p = true) {sh : Shctx}
    (hqueue : sh.msgQueue = (Broadcast.scan s.workers.length p s.sh.msgQueue).1)
    (hsent : sh.sent = s.sh.sent) (hversion : sh.version = s.sh.version) (hwf : t.Wf)
    (hlive : t.live = effects conf.table.live (s.log.drop (s.missed p))) (change : Change) :
    (s.after p sh t true change).Good conf (update known p s.log.length) := by
  have hlog : (s.after p sh t true change).log = s.log := by simp [Sys.after, hsent]
  have hseen : (s.after p sh t true change).seen
      = update s.seen p (s.seen p ++ (s.unread p).map Post.serial) := by
    simp [Sys.after, hsent]
  refine ⟨?_, ?_, ?_, fun q hq hqa => ?_, fun q hq hqa => ?_, fun q hq hqa => ?_, fun q hq hqa => ?_⟩
  · rw [hlog]
    have hfair := h.fair.scan hp
    rw [length_map] at hfair
    exact hqueue ▸ hfair
  · rw [hlog]
    exact hsent.trans h.sent
  · rw [hlog]
    exact fun hv => h.version (hversion ▸ hv)
  · rcases eq_or_ne q p with rfl | hne
    · simpa using hwf
    · simpa [hne] using h.wf q hq hqa
  · rw [hlog]
    rcases eq_or_ne q p with rfl | hne
    · simpa using hlive
    · simpa [hne] using h.live q hq hqa
  · rw [hseen]
    rcases eq_or_ne q p with rfl | hne
    · simpa using h.seen_append hq hqa
    · simpa [hne] using h.seen q hq hqa
  · rcases eq_or_ne q p with rfl | hne
    · rw [update_self]
      exact (h.missed q hq hqa).trans (h.known_le hq)
    · rw [update_of_ne hne]
      exact h.missed q hq hqa

theorem nextVersion_ne_zero (v : UInt64) : nextVersion v ≠ 0 := by
  unfold nextVersion
  split
  · decide
  · assumption

/-- **After reading and publishing.** -/
theorem Sys.Good.after_publish (h : s.Good conf known) (hp : p ∈ s.workers)
    (halive : s.alive p = true) {sh : Shctx}
    (hqueue : sh.msgQueue = (Broadcast.scan s.workers.length p s.sh.msgQueue).1)
    (hsent : sh.sent = s.sh.sent) (hwf : t.Wf) (change : Change)
    (hlive : t.live = change.effect (effects conf.table.live (s.log.drop (s.missed p)))) :
    (s.after p (sendMsg true p sh change.cmd).1 t true change).Good conf
      (update known p (s.log.length + 1)) := by
  have hlt : s.sh.sent < (sendMsg true p sh change.cmd).1.sent := by simp [sendMsg, hsent]
  have hlog : (s.after p (sendMsg true p sh change.cmd).1 t true change).log
      = s.log ++ [change] := by
    simp [Sys.after, hlt]
  have hseen : (s.after p (sendMsg true p sh change.cmd).1 t true change).seen
      = update s.seen p (s.seen p ++ (s.unread p).map Post.serial ++ [s.log.length]) := by
    rw [← h.sent]
    simp [Sys.after, hlt]
  have hmissed := h.missed p hp halive
  have hknown := h.known_le hp
  refine ⟨?_, ?_, fun hv => ?_, fun q hq hqa => ?_, fun q hq hqa => ?_, fun q hq hqa => ?_,
    fun q hq hqa => ?_⟩
  · rw [hlog, map_append, map_singleton]
    have hfair := (h.fair.scan hp).publish hp (update_self ..) change.cmd
    rw [update_idem, ← hqueue, length_map, ← h.sent, ← hsent] at hfair
    rw [← h.sent, ← hsent]
    exact hfair
  · rw [hlog]
    simp [sendMsg, hsent, h.sent]
  · exact absurd hv (nextVersion_ne_zero _)
  · rcases eq_or_ne q p with rfl | hne
    · simpa using hwf
    · simpa [hne] using h.wf q hq hqa
  · rw [hlog]
    rcases eq_or_ne q p with rfl | hne
    · have hall : ((s.log ++ [change]).take (s.log.length + 1)).drop (s.missed q)
          = s.log.drop (s.missed q) ++ [change] := by
        rw [take_of_length_le (by simp),
          drop_append_of_le_length (hmissed.trans hknown)]
      simp only [Sys.after_missed, Sys.after_table, update_self]
      rw [hall, hlive, effects, effects, foldl_append]
      rfl
    · have htake : (s.log ++ [change]).take (known q) = s.log.take (known q) :=
        take_append_of_le_length (h.known_le hq)
      simp only [Sys.after_missed, Sys.after_table, update_of_ne hne, htake]
      exact h.live q hq hqa
  · rw [hseen]
    rcases eq_or_ne q p with rfl | hne
    · simp only [Sys.after_missed, update_self]
      rw [h.seen_append hq hqa, Nat.sub_add_comm (hmissed.trans hknown), range'_concat,
        one_mul, Nat.add_sub_cancel' (hmissed.trans hknown)]
    · simpa [hne] using h.seen q hq hqa
  · rcases eq_or_ne q p with rfl | hne
    · rw [update_self]
      exact (hmissed.trans hknown).trans (Nat.le_succ _)
    · rw [update_of_ne hne]
      exact h.missed q hq hqa

/-- **A refused call** changes nothing. -/
theorem Sys.after_refused (s : Sys) (p : ℕ) (change : Change) :
    s.after p s.sh (s.table p) false change = s := by
  simp [Sys.after]

/-! ### The conditions -/

/-- The call is not refused. -/
def Accepted (api busy : Bool) : Prop := api = true ∧ busy = false

/-- The condition on the names in the bodies: a worker gets from each message the servers that the
publisher has got, and a body that passes the trial can be used after it. -/
def SameNames (s : Sys) : Event → Prop
  | .read p _ parsings => s.Hears p parsings
  | .update p _ api busy _ body parsings => Accepted api busy →
      s.Hears p parsings ∧ (parsings.trial.Takes body → parsings.real.Takes body)
  | .delete p _ api busy _ parsings => Accepted api busy → s.Hears p parsings
  | _ => True

/-- The condition on an update: after the messages of the others, the worker that is called has no
live upstream with the name of the sandbox, or it is given that name, and the body passes the
trial. -/
def SandboxFree (s : Sys) : Event → Prop
  | .update p now api busy name body parsings => Accepted api busy → ∀ sh t,
      (s.caller p now api busy).drain parsings.chance s.sh (s.table p) = some (sh, t) →
        t.live (hostKey sandbox) = none ∨
          (hostKey name = hostKey sandbox ∧ parsings.trial.Takes body)
  | _ => True

/-- The condition on a new worker: it takes the worker with the oldest status for the dead one, and
that is the one whose place it takes. -/
def RightPid (s : Sys) : Event → Prop
  | .respawn old _ _ => s.sh.version ≠ 0 → oldestPid s.sh.status = old
  | _ => True

/-! ### The kinds of steps -/

/-- **A worker reads**, and always can. -/
theorem Sys.Good.read_isSome (h : s.Good conf known) (hp : p ∈ s.workers)
    (halive : s.alive p = true) (now : ℕ) (parsings : Parsings) :
    ∃ s', s.step conf (.read p now parsings) = some s' ∧ s'.log = s.log ∧
      s'.seen p = List.range' (s.missed p) (s.log.length - s.missed p) ∧
      (s.Hears p parsings → s'.Good conf (update known p s.log.length)) := by
  obtain ⟨t', hread, hwf, hlive⟩ := readMsgLocked_spec parsings s.workers.length p now s.sh
    (h.wf p hp halive) (h.ready hp halive)
  have hstep : s.step conf (.read p now parsings) = some (s.after p { s.sh with
      status := touch p now s.sh.status
      msgQueue := (Broadcast.scan s.workers.length p s.sh.msgQueue).1 }
      t' true ⟨⟨[], [], .delete⟩, []⟩) := by
    simp [Sys.step, hp, halive, hread]
  refine ⟨_, hstep, by simp [Sys.after], ?_, fun hhears => ?_⟩
  · rw [← h.seen_append hp halive]
    simp [Sys.after]
  · refine h.after_read hp halive ?_ ?_ ?_ hwf (hlive.trans (h.drained hp halive hhears)) _ <;> rfl

/-- What a request does first: it reads the queue. -/
theorem Sys.Good.drain (h : s.Good conf known) {p now : ℕ} (api : Bool) {busy : Bool}
    (hp : p ∈ s.workers) (halive : s.alive p = true) {parsings : Parsings}
    (hhears : s.Hears p parsings) {sh : Shctx}
    (hdrain : (s.caller p now api busy).drain parsings.chance s.sh (s.table p) = some (sh, t)) :
    sh.msgQueue = (Broadcast.scan s.workers.length p s.sh.msgQueue).1 ∧ sh.sent = s.sh.sent ∧
      sh.version = s.sh.version ∧ t.Wf ∧
      t.live = effects conf.table.live (s.log.drop (s.missed p)) := by
  obtain ⟨t', hread, hwf, hlive⟩ := readMsgLocked_spec parsings s.workers.length p now s.sh
    (h.wf p hp halive) (h.ready hp halive)
  change readMsgLocked s.workers.length p now true parsings.chance.sync s.sh (s.table p) = _
    at hdrain
  rw [hread] at hdrain
  obtain ⟨rfl, rfl⟩ := Prod.mk.inj (Option.some.inj hdrain)
  exact ⟨rfl, rfl, rfl, hwf, hlive.trans (h.drained hp halive hhears)⟩

/-- **A worker deletes.** -/
theorem Sys.Good.delete (h : s.Good conf known) {p now : ℕ} {api busy : Bool} {name : List UInt8}
    {parsings : Parsings} (hnames : SameNames s (.delete p now api busy name parsings))
    (hstep : s.step conf (.delete p now api busy name parsings) = some s') :
    ∃ known', s'.Good conf known' := by
  simp only [Sys.step] at hstep
  split at hstep
  · rename_i hguard
    obtain ⟨hp, halive⟩ := hguard
    obtain ⟨⟨sh, t, r⟩, hrun, rfl⟩ := map_eq_some_iff.mp hstep
    unfold deleteUpstream at hrun
    cases api with
    | false =>
      simp only [Sys.caller, Bool.not_false, if_true, Option.some.injEq, Prod.mk.injEq] at hrun
      obtain ⟨rfl, rfl, -⟩ := hrun
      exact ⟨known, by simpa [Sys.after_refused] using h⟩
    | true =>
      cases busy with
      | true =>
        simp only [Sys.caller, Bool.not_true, Bool.false_eq_true, if_false, if_true,
          Option.some.injEq, Prod.mk.injEq] at hrun
        obtain ⟨rfl, rfl, -⟩ := hrun
        exact ⟨known, by simpa [Sys.after_refused] using h⟩
      | false =>
        simp only [Sys.caller, Bool.not_true, Bool.false_eq_true, if_false] at hrun
        obtain ⟨⟨sh₁, t₁⟩, hdrain, hlocked⟩ := bind_eq_some_iff.mp hrun
        obtain ⟨hqueue, hsent, hversion, hwf, hlive⟩ :=
          h.drain true hp halive (hnames ⟨rfl, rfl⟩) hdrain
        obtain ⟨⟨t₂, r₂⟩, hdel, hrest⟩ := map_eq_some_iff.mp hlocked
        obtain ⟨hwf₂, hlive₂, hstatus⟩ := doDelete_spec hwf hdel
        by_cases hok : r₂.status = .ok
        · simp only [hok, if_true, Prod.mk.injEq] at hrest
          obtain ⟨rfl, rfl, -⟩ := hrest
          exact ⟨_, h.after_publish hp halive hqueue hsent hwf₂ ⟨⟨name, [], .delete⟩, []⟩
            (by rw [hlive₂, hlive]; rfl)⟩
        · simp only [hok, if_false, Prod.mk.injEq] at hrest
          obtain ⟨rfl, rfl, -⟩ := hrest
          have hnone : t₁.live (hostKey name) = none := by
            by_contra hsome
            rw [if_neg hsome] at hstatus
            exact hok hstatus
          refine ⟨_, h.after_read hp halive hqueue hsent hversion hwf₂ ?_ _⟩
          rw [hlive₂, update_eq_self_iff.mpr hnone.symm, hlive]
  · cases hstep

/-- **A worker updates.** A body that passes the trial can be used, and one that does not is not
tried further. -/
theorem Sys.Good.update (h : s.Good conf known) {p now : ℕ} {api busy : Bool}
    {name body : List UInt8} {parsings : Parsings}
    (hnames : SameNames s (.update p now api busy name body parsings))
    (hfree : SandboxFree s (.update p now api busy name body parsings))
    (hstep : s.step conf (.update p now api busy name body parsings) = some s') :
    ∃ known', s'.Good conf known' := by
  simp only [Sys.step] at hstep
  split at hstep
  · rename_i hguard
    obtain ⟨hp, halive⟩ := hguard
    obtain ⟨⟨sh, t, r⟩, hrun, rfl⟩ := map_eq_some_iff.mp hstep
    unfold updateUpstream at hrun
    cases api with
    | false =>
      simp only [Sys.caller, Bool.not_false, if_true, Option.some.injEq, Prod.mk.injEq] at hrun
      obtain ⟨rfl, rfl, -⟩ := hrun
      exact ⟨known, by simpa [Sys.after_refused] using h⟩
    | true =>
      cases busy with
      | true =>
        simp only [Sys.caller, Bool.not_true, Bool.false_eq_true, if_false, if_true,
          Option.some.injEq, Prod.mk.injEq] at hrun
        obtain ⟨rfl, rfl, -⟩ := hrun
        exact ⟨known, by simpa [Sys.after_refused] using h⟩
      | false =>
        simp only [Sys.caller, Bool.not_true, Bool.false_eq_true, if_false] at hrun
        obtain ⟨⟨sh₁, t₁⟩, hdrain, hlocked⟩ := bind_eq_some_iff.mp hrun
        obtain ⟨hhears, hagain⟩ := hnames ⟨rfl, rfl⟩
        have hfree := hfree ⟨rfl, rfl⟩ sh₁ t₁ hdrain
        obtain ⟨hqueue, hsent, hversion, hwf, hlive⟩ := h.drain true hp halive hhears hdrain
        obtain ⟨⟨t₂, r₂⟩, htrial, hrest⟩ := bind_eq_some_iff.mp hlocked
        obtain ⟨hwf₂, hlive₂, -, hfine⟩ := sandboxUpdate_spec hwf (Parsing.luck_whole _) htrial
        have htakes : r₂.status = .ok ↔ parsings.trial.Takes body := hfine (Parsing.luck_fine _)
        by_cases hok : r₂.status = .ok
        · simp only [hok, ne_eq, not_true_eq_false, if_false] at hrest
          obtain ⟨⟨t₃, r₃⟩, hup, hpair⟩ := map_eq_some_iff.mp hrest
          obtain ⟨hwf₃, hlive₃, hok₃⟩ := doUpdate_fine hwf₂ hup
          simp only [hok₃.mpr (hagain (htakes.mp hok)), if_true, Prod.mk.injEq] at hpair
          obtain ⟨rfl, rfl, -⟩ := hpair
          refine ⟨_, h.after_publish hp halive hqueue hsent hwf₃
            (Cmd.parsed ⟨name, body, .add⟩ parsings.real) ?_⟩
          -- what the trial has removed was not there, or is what the update puts there
          rw [hlive₃, hlive₂, ← hlive]
          rcases hfree with hnone | ⟨hkey, -⟩
          · rw [update_eq_self_iff.mpr hnone.symm]
          · simp only [Change.effect, Cmd.parsed, hkey, update_idem]
        · simp only [hok, ne_eq, not_false_eq_true, if_true, Option.some.injEq,
            Prod.mk.injEq] at hrest
          obtain ⟨rfl, rfl, -⟩ := hrest
          have hnone := hfree.resolve_right fun hsame => hok (htakes.mpr hsame.2)
          rw [update_eq_self_iff.mpr hnone.symm, hlive] at hlive₂
          exact ⟨_, h.after_read hp halive hqueue hsent hversion hwf₂ hlive₂ _⟩
  · cases hstep

/-- **Requests** do not show. -/
theorem withRefs_spec (t : Table) (refs : ℕ → ℕ) :
    (t.withRefs refs).live = t.live ∧ (t.Wf → (t.withRefs refs).Wf) := by
  have hshow : (t.withRefs refs).dyUpstreams.map SrvConf.shows = t.dyUpstreams.map SrvConf.shows := by
    refine List.ext_getElem? fun i => ?_
    simp only [Table.withRefs, List.getElem?_map, List.getElem?_mapIdx, Option.map_map]
    rfl
  exact ⟨liveIn_congr hshow, fun h => Distinct.congr h hshow.symm⟩

/-- Requests that use an upstream do not disturb the invariant. -/
theorem Sys.Good.requests (h : s.Good conf known) (p : ℕ) (refs : ℕ → ℕ) :
    ({ s with table := Function.update s.table p ((s.table p).withRefs refs) } : Sys).Good conf
      known := by
  refine ⟨h.fair, h.sent, h.version, fun q hq hqa => ?_, fun q hq hqa => ?_, h.seen, h.missed⟩
  · rcases eq_or_ne q p with rfl | hne
    · simpa using (withRefs_spec _ refs).2 (h.wf q hq hqa)
    · simpa [hne] using h.wf q hq hqa
  · rcases eq_or_ne q p with rfl | hne
    · simpa [(withRefs_spec _ refs).1] using h.live q hq hqa
    · simpa [hne] using h.live q hq hqa

/-- **A worker dies.** What it has read counts as read. -/
theorem Sys.Good.die (h : s.Good conf known) (hp : p ∈ s.workers) (now : ℕ) (part : Option ℕ) :
    ∃ known', ({ s with
      alive := Function.update s.alive p false
      sh := match part with
        | none => s.sh
        | some j => s.sh.readPart s.workers.length p now j } : Sys).Good conf known' := by
  have hne : ∀ q, Function.update s.alive p false q = true → q ≠ p ∧ s.alive q = true := by
    intro q hq
    rcases eq_or_ne q p with rfl | hne
    · rw [update_self] at hq
      cases hq
    · exact ⟨hne, by rwa [update_of_ne hne] at hq⟩
  cases part with
  | none =>
    exact ⟨known, h.fair, h.sent, h.version, fun q hq hqa => h.wf q hq (hne q hqa).2,
      fun q hq hqa => h.live q hq (hne q hqa).2, fun q hq hqa => h.seen q hq (hne q hqa).2,
      fun q hq hqa => h.missed q hq (hne q hqa).2⟩
  | some j =>
    obtain ⟨low, hwindow, hle, hlow⟩ := h.fair.window
    have hfair := h.fair.scan_take hwindow hle hlow hp j
    dsimp only
    refine ⟨_, hfair, h.sent, h.version, fun q hq hqa => h.wf q hq (hne q hqa).2,
      fun q hq hqa => ?_, fun q hq hqa => ?_, fun q hq hqa => ?_⟩
    · rw [update_of_ne (hne q hqa).1]
      exact h.live q hq (hne q hqa).2
    · rw [update_of_ne (hne q hqa).1]
      exact h.seen q hq (hne q hqa).2
    · rw [update_of_ne (hne q hqa).1]
      exact h.missed q hq (hne q hqa).2

/-- **A new worker** has the table of the configuration and counts as having read what the dead one
had. -/
theorem Sys.Good.respawn (h : s.Good conf known) {old new now : ℕ}
    (hright : RightPid s (.respawn old new now))
    (hstep : s.step conf (.respawn old new now) = some s') : ∃ known', s'.Good conf known' := by
  simp only [Sys.step] at hstep
  split at hstep
  · rename_i hguard
    obtain ⟨hold, hdead, hnew⟩ := hguard
    obtain rfl := Option.some.inj hstep
    have hmissed : s.log.length - (s.sh.msgQueue.filter fun m => old ∉ m.readers).length
        = known old := by
      rw [h.fair.length_unread hold]
      have hle := h.fair.known_le old hold
      rw [length_map] at hle ⊢
      omega
    have hsh : (initProcess new now s.sh).msgQueue = s.sh.msgQueue.map (Post.rename old new) ∧
        (initProcess new now s.sh).sent = s.sh.sent ∧
        (initProcess new now s.sh).version = s.sh.version := by
      unfold initProcess
      by_cases hversion : s.sh.version = 0
      · have hlog := h.version hversion
        have hqueue : s.sh.msgQueue = [] := by
          obtain ⟨low, hwindow, -, -⟩ := h.fair.window
          simpa [hlog] using hwindow
        simp [hversion, hqueue]
      · simp [hversion, purgeMsg, hright hversion]
    -- a worker of before keeps its name and what it has
    have hother : ∀ q ∈ s.workers.map (fun p => if p = old then new else p), q ≠ new →
        q ∈ s.workers := by
      intro q hq hne
      obtain ⟨p, hp, rfl⟩ := mem_map.mp hq
      by_cases hpo : p = old
      · exact absurd (if_pos hpo) hne
      · rwa [if_neg hpo]
    refine ⟨Function.update known new (known old), ?_, hsh.2.1.trans h.sent,
      fun hv => h.version (hsh.2.2 ▸ hv), fun q hq hqa => ?_, fun q hq hqa => ?_,
      fun q hq hqa => ?_, fun q hq hqa => ?_⟩
    · rw [hsh.1]
      exact h.fair.rename hnew
    · rcases eq_or_ne q new with rfl | hne
      · simp only [update_self]
        exact conf.distinct
      · simp only [update_of_ne hne] at hqa ⊢
        exact h.wf q (hother q hq hne) hqa
    · rcases eq_or_ne q new with rfl | hne
      · simp only [update_self, hmissed]
        rw [drop_of_length_le (length_take_le _ _)]
        rfl
      · simp only [update_of_ne hne] at hqa ⊢
        exact h.live q (hother q hq hne) hqa
    · rcases eq_or_ne q new with rfl | hne
      · simp only [update_self, hmissed, Nat.sub_self, range'_zero]
      · simp only [update_of_ne hne] at hqa ⊢
        exact h.seen q (hother q hq hne) hqa
    · rcases eq_or_ne q new with rfl | hne
      · simp only [update_self, hmissed, le_refl]
      · simp only [update_of_ne hne] at hqa ⊢
        exact h.missed q (hother q hq hne) hqa
  · cases hstep

/-- **The step lemma.** -/
theorem Sys.Good.step (h : s.Good conf known) {e : Event} (hnames : SameNames s e)
    (hfree : SandboxFree s e) (hright : RightPid s e) (hstep : s.step conf e = some s') :
    ∃ known', s'.Good conf known' := by
  cases e with
  | read p now parsings =>
    have hguard : p ∈ s.workers ∧ s.alive p = true := by
      by_contra hnot
      simp only [Sys.step, if_neg hnot] at hstep
      cases hstep
    obtain ⟨s₁, hread, -, -, hgood⟩ := h.read_isSome hguard.1 hguard.2 now parsings
    obtain rfl := Option.some.inj (hread.symm.trans hstep)
    exact ⟨_, hgood hnames⟩
  | update p now api busy name body parsings => exact h.update hnames hfree hstep
  | delete p now api busy name parsings => exact h.delete hnames hstep
  | requests p refs =>
    obtain rfl := Option.some.inj hstep
    exact ⟨_, h.requests p refs⟩
  | die p now part =>
    simp only [Sys.step] at hstep
    split at hstep
    · rename_i hguard
      obtain rfl := Option.some.inj hstep
      exact h.die hguard.1 now part
    · cases hstep
  | respawn old new now => exact h.respawn hright hstep

end Hengine.Dyups
