import Hengine.Upstream.DyupsInvariant

/-!
# The Workers Agree

What the invariant of the workers says about their tables.

As long as all workers stay alive, the table of each is the effect of the first commands of the one
sequence of all commands. An update on the sandbox name is an exception: the next update that the
same worker is asked for takes the upstream away again, and tells nobody. The names in a body are
another one: each worker looks them up for itself, and an upstream that it cannot make is logged and
forgotten.

A worker that takes the place of a dead one starts with the configuration, and is not told of what
the dead one has read. It agrees with the others only as far as later commands say the same again.
-/

namespace Hengine.Dyups

open List Function Option

open Broadcast

variable {conf : Conf} {s : Sys} {known : ℕ → ℕ}

/-! ### Two workers -/

/-- A configuration with the upstream `a`. -/
def someConf : Conf where
  table := oneUpstream
  distinct := oneUpstream_wf
  servers key u hu := by
    obtain ⟨i, d, hd, -, -, rfl⟩ := (Distinct.liveIn_eq_some oneUpstream_wf).mp hu
    have hmem := mem_of_getElem? hd
    rw [mem_singleton.mp hmem]
    rfl

/-- The workers with the pids 1 and 2, before any message. -/
def twoWorkers : Sys :=
  ⟨noMessages, [1, 2], fun _ => true, fun _ => oneUpstream, [], fun _ => [], fun _ => 0⟩

/-- Each body gives the server `b`, and the balancer wants a server. -/
def resolved : Parsing := ⟨fun _ => ([serverOf "b"], true), fun us => !us.isEmpty⟩

/-- The name in the body is not found. -/
def unresolved : Parsing := ⟨fun _ => ([], false), fun us => !us.isEmpty⟩

/-- All bodies of a call give the server `b`. -/
def allResolved : Parsings := ⟨fun _ => resolved, resolved, resolved⟩

theorem twoWorkers_initial : twoWorkers.Initial someConf :=
  ⟨rfl, rfl, rfl, by decide, fun _ => rfl, fun _ => rfl, rfl, fun _ => rfl, fun _ => rfl⟩

/-! ### Broadcast -/

/-- Steps in which no worker dies. -/
def Event.stays : Event → Bool
  | .die .. | .respawn .. => false
  | _ => true

/-- What holds while all workers stay alive. Each has carried out the first so many messages, each of
them once, and they have made its table; a message that is not in the queue any more has been carried
out by all; and a worker that reads has then carried out all. -/
structure Sys.Broadcast (conf : Conf) (s : Sys) : Prop where
  inOrder : ∀ p ∈ s.workers, ∃ k ≤ s.log.length, s.seen p = List.range k ∧
    (s.table p).live = effects conf.table.live (s.log.take k)
  messages : ∀ m ∈ s.sh.msgQueue, (s.log[m.serial]?).map Change.cmd = some m.body
  destroyed : ∀ n < s.log.length, (∀ m ∈ s.sh.msgQueue, m.serial ≠ n) →
    ∀ p ∈ s.workers, n ∈ s.seen p
  reads : ∀ p ∈ s.workers, ∀ now parsings, ∃ s', s.step conf (.read p now parsings) = some s' ∧
    s'.log = s.log ∧ s'.seen p = List.range s.log.length

/-- The invariant with all workers alive. -/
structure Sys.Together (conf : Conf) (s : Sys) : Prop where
  good : ∃ known, s.Good conf known
  alive : ∀ p ∈ s.workers, s.alive p = true
  missed : ∀ p, s.missed p = 0

/-- **From the invariant to the messages.** -/
theorem Sys.Together.broadcast (h : s.Together conf) : s.Broadcast conf := by
  obtain ⟨⟨known, hgood⟩, halive, hmissed⟩ := h
  have hseen : ∀ p ∈ s.workers, s.seen p = List.range (known p) := fun p hp => by
    rw [hgood.seen p hp (halive p hp), hmissed, Nat.sub_zero, range_eq_range']
  refine ⟨fun p hp => ⟨known p, hgood.known_le hp, hseen p hp, ?_⟩, fun m hm => ?_,
    fun n hn hgone p hp => ?_, fun p hp now parsings => ?_⟩
  · rw [hgood.live p hp (halive p hp), hmissed, drop_zero]
  · rw [← List.getElem?_map]
    exact hgood.fair.body m hm
  · rw [hseen p hp]
    refine mem_range.mpr (hgood.fair.gone (by simpa using hn) (fun hmem => ?_) hp)
    obtain ⟨m, hm, rfl⟩ := mem_map.mp hmem
    exact hgone m hm rfl
  · obtain ⟨s', hstep, hlog, hread, -⟩ := hgood.read_isSome hp (halive p hp) now parsings
    refine ⟨s', hstep, hlog, ?_⟩
    rw [hread, hmissed, Nat.sub_zero, range_eq_range']

/-- What a step in which nobody dies leaves alone. -/
theorem step_stays {s' : Sys} {e : Event} (he : e.stays = true) (hstep : s.step conf e = some s') :
    s'.workers = s.workers ∧ s'.alive = s.alive ∧ s'.missed = s.missed := by
  cases e with
  | read p now parsings =>
    simp only [Sys.step] at hstep
    split at hstep
    · obtain ⟨r, -, rfl⟩ := map_eq_some_iff.mp hstep
      exact ⟨rfl, rfl, rfl⟩
    · cases hstep
  | update p now api busy name body parsings =>
    simp only [Sys.step] at hstep
    split at hstep
    · obtain ⟨r, -, rfl⟩ := map_eq_some_iff.mp hstep
      exact ⟨rfl, rfl, rfl⟩
    · cases hstep
  | delete p now api busy name parsings =>
    simp only [Sys.step] at hstep
    split at hstep
    · obtain ⟨r, -, rfl⟩ := map_eq_some_iff.mp hstep
      exact ⟨rfl, rfl, rfl⟩
    · cases hstep
  | requests p refs =>
    obtain rfl := Option.some.inj hstep
    exact ⟨rfl, rfl, rfl⟩
  | die p now part => cases he
  | respawn old new now => cases he

/-- **Broadcast.** In every run in which no worker dies, none is asked for an update while it has a
live upstream with the name of the sandbox, and the names in the bodies are resolved in the same way
by all workers, the messages reach all workers, once and in order. -/
theorem dyups_broadcast {tr : List (Sys × Event)} (hrun : (dyups conf).Run tr s)
    (hsteps : ∀ x ∈ tr, x.2.stays = true ∧ SameNames x.1 x.2 ∧ SandboxFree x.1 x.2) :
    Machine.Everywhere (Sys.Broadcast conf) tr s := by
  have hall : Machine.Everywhere (Sys.Together conf) tr s := by
    refine hrun.invariant_of_steps
      (C := fun s e => e.stays = true ∧ SameNames s e ∧ SandboxFree s e) ?_ ?_ hsteps
    · intro s₀ hinit
      exact ⟨⟨_, hinit.good⟩, fun p _ => hinit.2.2.2.2.1 p, hinit.2.2.2.2.2.2.2.2⟩
    · rintro s₁ e s₂ ⟨⟨known, hgood⟩, halive, hmissed⟩ ⟨hstays, hnames, hfree⟩ hstep
      obtain ⟨hworkers, halive', hmissed'⟩ := step_stays hstays hstep
      have hright : RightPid s₁ e := by
        cases e with
        | respawn old new now => cases hstays
        | _ => trivial
      exact ⟨hgood.step hnames hfree hright hstep, by rwa [hworkers, halive'], by rwa [hmissed']⟩
  exact ⟨fun x hx => (hall.1 x hx).broadcast, hall.2.broadcast⟩

/-- A test of the conditions on a step, in which a call is taken for accepted. -/
def Event.fine (s : Sys) : Event → Bool
  | .read p _ parsings => (s.unread p).all fun m => s.log[m.serial]? = some (parsings.heard m)
  | .update p now api busy _ body parsings =>
    ((s.unread p).all fun m => s.log[m.serial]? = some (parsings.heard m)) &&
      ((parsings.real.parse body).2 && parsings.real.peers (parsings.real.parse body).1) &&
      ((s.caller p now api busy).drain parsings.chance s.sh (s.table p)).map
        (fun r => r.2.live (hostKey sandbox)) == some none
  | .delete p _ _ _ _ parsings =>
    (s.unread p).all fun m => s.log[m.serial]? = some (parsings.heard m)
  | .respawn old _ _ => oldestPid s.sh.status == old
  | _ => true

/-- The conditions of an event, from their executable form. -/
theorem conditions {e : Event} (h : e.fine s = true) :
    SameNames s e ∧ SandboxFree s e ∧ RightPid s e := by
  have hhears : ∀ {p parsings}, ((s.unread p).all fun m =>
      s.log[m.serial]? = some (Parsings.heard parsings m)) = true → s.Hears p parsings :=
    fun hall m hm => of_decide_eq_true (all_eq_true.mp hall m hm)
  cases e with
  | read p now parsings => exact ⟨hhears h, trivial, trivial⟩
  | update p now api busy name body parsings =>
    simp only [Event.fine, Bool.and_eq_true, beq_iff_eq] at h
    obtain ⟨⟨hall, hreal⟩, hnone⟩ := h
    refine ⟨fun _ => ⟨hhears hall, fun _ => hreal⟩, fun _ sh t hdrain => Or.inl ?_, trivial⟩
    rw [hdrain] at hnone
    exact Option.some.inj hnone
  | delete p now api busy name parsings => exact ⟨fun _ => hhears h, trivial, trivial⟩
  | respawn old new now => exact ⟨trivial, trivial, fun _ => beq_iff_eq.mp h⟩
  | requests p refs => exact ⟨trivial, trivial, trivial⟩
  | die p now part => exact ⟨trivial, trivial, trivial⟩

/-- The deletion of `a` and a new upstream `c` reach the other worker. -/
theorem dyups_broadcast_two :
    ∃ tr s, Machine.replay (Sys.step someConf) [] twoWorkers
        [.delete 1 10 true false (str "a") allResolved,
          .update 2 11 true false (str "c") [] allResolved, .read 1 12 allResolved]
          = some (tr, s) ∧
      Machine.Everywhere (Sys.Broadcast someConf) tr s := by
  have hsome : (Machine.replay (Sys.step someConf) [] twoWorkers
      [.delete 1 10 true false (str "a") allResolved,
        .update 2 11 true false (str "c") [] allResolved, .read 1 12 allResolved]).map
        (fun r => r.1.all fun x => x.2.stays && x.2.fine x.1) = some true := by decide
  obtain ⟨⟨tr, s⟩, hreplay, hall⟩ := map_eq_some_iff.mp hsome
  refine ⟨tr, s, hreplay, dyups_broadcast
    (Machine.run_of_replay _ twoWorkers_initial hreplay) fun x hx => ?_⟩
  have hx := all_eq_true.mp hall x hx
  rw [Bool.and_eq_true] at hx
  obtain ⟨hnames, hfree, -⟩ := conditions hx.2
  exact ⟨hx.1, hnames, hfree⟩

/-- The table of the worker is the effect of no first part of the log, as far as these names show. -/
def Sys.strays (s : Sys) (p : ℕ) (names : List (List UInt8)) : Bool :=
  (List.range (s.log.length + 1)).all fun k => names.any fun name =>
    (s.table p).live (hostKey name) ≠
      effects someConf.table.live (s.log.take k) (hostKey name)

/-- A stray name shows that a table is not what the changes make. -/
theorem Sys.not_effects (s : Sys) {p : ℕ} {names : List (List UInt8)} (h : s.strays p names = true)
    (k : ℕ) : (s.table p).live ≠ effects someConf.table.live (s.log.take k) := by
  intro hlive
  have hall := all_eq_true.mp h (min k s.log.length) (mem_range.mpr (by omega))
  obtain ⟨name, -, hne⟩ := any_eq_true.mp hall
  rw [← take_eq_take_min, ← hlive] at hne
  exact of_decide_eq_true hne rfl

/-- **Updates that do not reach all.** A worker is asked for an upstream with the name of the sandbox,
and then for the upstream `c`: it has lost the first one, which is still there for all others. Or the
upstream `c` is published, and the other worker does not find the name in its body: that worker has
an upstream without servers. -/
theorem dyups_updates_lost :
    (∃ tr s, Machine.replay (Sys.step someConf) [] twoWorkers
        [.update 1 10 true false sandbox [] allResolved,
          .update 1 11 true false (str "c") [] allResolved] = some (tr, s) ∧
      (dyups someConf).Run tr s ∧ (∀ x ∈ tr, x.2.stays = true) ∧ 1 ∈ s.workers ∧
      ∀ k, (s.table 1).live ≠ effects someConf.table.live (s.log.take k)) ∧
    ∃ tr s, Machine.replay (Sys.step someConf) [] twoWorkers
        [.update 1 10 true false (str "c") [] allResolved,
          .read 2 11 { allResolved with sync := fun _ => unresolved }] = some (tr, s) ∧
      (dyups someConf).Run tr s ∧ (∀ x ∈ tr, x.2.stays = true) ∧ 2 ∈ s.workers ∧
      ∀ k, (s.table 2).live ≠ effects someConf.table.live (s.log.take k) := by
  have hrun : ∀ (p : ℕ) (events : List Event), (Machine.replay (Sys.step someConf) [] twoWorkers
      events).map (fun r => (r.1.all fun x => x.2.stays) && decide (p ∈ r.2.workers) &&
        r.2.strays p [sandbox, str "c"]) = some true →
      ∃ tr s, Machine.replay (Sys.step someConf) [] twoWorkers events = some (tr, s) ∧
        (dyups someConf).Run tr s ∧ (∀ x ∈ tr, x.2.stays = true) ∧ p ∈ s.workers ∧
        ∀ k, (s.table p).live ≠ effects someConf.table.live (s.log.take k) := by
    intro p events hsome
    obtain ⟨⟨tr, s⟩, hreplay, hvalues⟩ := map_eq_some_iff.mp hsome
    simp only [Bool.and_eq_true, decide_eq_true_eq] at hvalues
    obtain ⟨⟨hstays, hp⟩, hstrays⟩ := hvalues
    exact ⟨tr, s, hreplay, Machine.run_of_replay _ twoWorkers_initial hreplay,
      all_eq_true.mp hstays, hp, s.not_effects hstrays⟩
  exact ⟨hrun 1 _ (by decide), hrun 2 _ (by decide)⟩

/-! ### New workers -/

/-- The worker has no unread message. -/
def Sys.Done (s : Sys) (p : ℕ) : Prop := ∀ m ∈ s.sh.msgQueue, p ∈ m.readers

/-- Changes of other names do not concern a name. -/
theorem effects_unnamed (lives : Lives) {changes : List Change} {key : ℕ × List UInt8}
    (h : ¬ ∃ c ∈ changes, hostKey c.cmd.name = key) : effects lives changes key = lives key := by
  induction changes generalizing lives with
  | nil => rfl
  | cons c changes ih =>
    have hne : key ≠ hostKey c.cmd.name := fun hk => h ⟨c, mem_cons_self, hk.symm⟩
    have hrest : ¬ ∃ c ∈ changes, hostKey c.cmd.name = key := fun ⟨c, hc, hk⟩ =>
      h ⟨c, mem_cons_of_mem _ hc, hk⟩
    calc effects lives (c :: changes) key
        = effects (c.effect lives) changes key := rfl
      _ = c.effect lives key := ih _ hrest
      _ = lives key := update_of_ne hne _ _

/-- A name that a change is about has what the last of these changes says. -/
theorem effects_named (lives lives' : Lives) {changes : List Change} {key : ℕ × List UInt8}
    (h : ∃ c ∈ changes, hostKey c.cmd.name = key) :
    effects lives changes key = effects lives' changes key := by
  induction changes generalizing lives lives' with
  | nil =>
    obtain ⟨c, hc, -⟩ := h
    cases hc
  | cons c changes ih =>
    by_cases hrest : ∃ c ∈ changes, hostKey c.cmd.name = key
    · exact ih _ _ hrest
    · have hkey : hostKey c.cmd.name = key := by
        obtain ⟨c', hc', hk⟩ := h
        rcases mem_cons.mp hc' with rfl | hc'
        · exact hk
        · exact absurd ⟨c', hc', hk⟩ hrest
      have hlast : ∀ lives : Lives, effects lives (c :: changes) key
          = c.effect (fun _ => none) key := by
        intro lives
        calc effects lives (c :: changes) key
            = c.effect lives key := effects_unnamed _ hrest
          _ = c.effect (fun _ => none) key := by
              rw [Change.effect, Change.effect, hkey, update_self, update_self]
      rw [hlast, hlast]

/-- The changes from the number `m` up to the number `n` leave no trace: each name they are about is
the subject of a later one, or has again what the configuration says. -/
def Covered (conf : Conf) (log : List Change) (m n : ℕ) : Prop :=
  ∀ key, (∃ c ∈ log.drop n, hostKey c.cmd.name = key) ∨
    effects conf.table.live ((log.take n).drop m) key = conf.table.live key

/-- Changes that one worker has missed and the other has not. -/
theorem effects_drop_eq_iff {log : List Change} {m n : ℕ} (hmn : m ≤ n) (hn : n ≤ log.length) :
    effects conf.table.live (log.drop n) = effects conf.table.live (log.drop m) ↔
      Covered conf log m n := by
  have hsplit : effects conf.table.live (log.drop m)
      = effects (effects conf.table.live ((log.take n).drop m)) (log.drop n) := by
    have hdrop : log.drop m = (log.take n).drop m ++ log.drop n := by
      rw [← drop_append_of_le_length (by rw [length_take]; omega), take_append_drop]
    rw [hdrop, effects, foldl_append]
    rfl
  rw [hsplit, funext_iff]
  refine forall_congr' fun key => ?_
  by_cases hnamed : ∃ c ∈ log.drop n, hostKey c.cmd.name = key
  · exact iff_of_true (effects_named _ _ hnamed) (Or.inl hnamed)
  · rw [effects_unnamed _ hnamed, effects_unnamed _ hnamed, or_iff_right hnamed]
    exact eq_comm

/-- Two workers without an unread message, of which `p` has missed at least as much as `q`, agree
exactly when what only `p` has missed left no trace. -/
def Sys.Agree (conf : Conf) (s : Sys) : Prop :=
  ∀ p ∈ s.workers, ∀ q ∈ s.workers, s.alive p = true → s.alive q = true → s.Done p → s.Done q →
    s.missed q ≤ s.missed p →
    ((s.table p).live = (s.table q).live ↔ Covered conf s.log (s.missed q) (s.missed p))

/-- **From the invariant to the tables.** -/
theorem Sys.Good.agree (h : s.Good conf known) : s.Agree conf := by
  intro p hp q hq hpa hqa hpd hqd hle
  have hknown : ∀ {w}, w ∈ s.workers → s.Done w → known w = s.log.length := fun hw hd => by
    simpa using h.fair.not_unread hw hd
  rw [h.live p hp hpa, h.live q hq hqa, hknown hp hpd, hknown hq hqd, take_length]
  exact effects_drop_eq_iff hle ((h.missed p hp hpa).trans (h.known_le hp))

/-- **A new worker agrees with the others** exactly when the messages that count as read for it, since
the dead worker had read them, left no trace, in every run in which the worker with the oldest status
is the dead one when a new worker starts, no update meets a live upstream with the name of the
sandbox, and the names in the bodies are resolved in the same way by all workers. -/
theorem dyups_converges_iff {tr : List (Sys × Event)} (hrun : (dyups conf).Run tr s)
    (hsteps : ∀ x ∈ tr, SameNames x.1 x.2 ∧ SandboxFree x.1 x.2 ∧ RightPid x.1 x.2) :
    Machine.Everywhere (Sys.Agree conf) tr s := by
  have hall : Machine.Everywhere (fun s => ∃ known, s.Good conf known) tr s :=
    hrun.invariant_of_steps (C := fun s e => SameNames s e ∧ SandboxFree s e ∧ RightPid s e)
      (fun s hinit => ⟨_, hinit.good⟩)
      (fun s e s' ⟨_, hgood⟩ ⟨hnames, hfree, hright⟩ hstep =>
        hgood.step hnames hfree hright hstep) hsteps
  exact ⟨fun x hx => (hall.1 x hx).elim fun _ hgood => hgood.agree,
    hall.2.elim fun _ hgood => hgood.agree⟩

/-- A worker that dies, and the messages after which it is replaced: the upstream `c` that it has read
of is named again. -/
theorem dyups_converges_iff_again :
    ∃ tr s, Machine.replay (Sys.step someConf) [] twoWorkers
        [.update 1 10 true false (str "c") [] allResolved, .read 2 11 allResolved, .die 2 11 none,
          .update 1 20 true false (str "c") [] allResolved, .respawn 2 3 30,
          .read 3 31 allResolved] = some (tr, s) ∧
      Machine.Everywhere (Sys.Agree someConf) tr s := by
  have hsome : (Machine.replay (Sys.step someConf) [] twoWorkers
      [.update 1 10 true false (str "c") [] allResolved, .read 2 11 allResolved, .die 2 11 none,
        .update 1 20 true false (str "c") [] allResolved, .respawn 2 3 30,
        .read 3 31 allResolved]).map
        (fun r => r.1.all fun x => x.2.fine x.1) = some true := by decide
  obtain ⟨⟨tr, s⟩, hreplay, hall⟩ := map_eq_some_iff.mp hsome
  exact ⟨tr, s, hreplay, dyups_converges_iff (Machine.run_of_replay _ twoWorkers_initial hreplay)
    fun x hx => conditions (all_eq_true.mp hall x hx)⟩

/-- **A new worker that differs.** Worker 2 has read that there is an upstream `c`, and dies. Worker 3
takes its place, and nobody tells it. -/
theorem dyups_respawn_differs :
    ∃ tr s, Machine.replay (Sys.step someConf) [] twoWorkers
        [.update 1 10 true false (str "c") [] allResolved, .read 2 11 allResolved, .die 2 11 none,
          .read 1 20 allResolved, .respawn 2 3 30, .read 3 31 allResolved] = some (tr, s) ∧
      (dyups someConf).Run tr s ∧ s.workers = [1, 3] ∧ s.alive 1 = true ∧ s.alive 3 = true ∧
      s.Done 1 ∧ s.Done 3 ∧ (s.table 3).live ≠ (s.table 1).live := by
  have hsome : (Machine.replay (Sys.step someConf) [] twoWorkers
      [.update 1 10 true false (str "c") [] allResolved, .read 2 11 allResolved, .die 2 11 none,
        .read 1 20 allResolved, .respawn 2 3 30, .read 3 31 allResolved]).map
        (fun r => (r.2.workers, r.2.alive 1 && r.2.alive 3 && r.2.sh.msgQueue.isEmpty,
          (r.2.table 1).live (hostKey (str "c")), (r.2.table 3).live (hostKey (str "c"))))
      = some ([1, 3], true, some ⟨str "c", some [serverOf "b"]⟩, none) := by
    decide
  obtain ⟨⟨tr, s⟩, hreplay, hvalues⟩ := map_eq_some_iff.mp hsome
  simp only [Prod.mk.injEq, Bool.and_eq_true] at hvalues
  obtain ⟨hworkers, ⟨⟨hone, hthree⟩, hqueue⟩, hlive, hlive'⟩ := hvalues
  refine ⟨tr, s, hreplay, Machine.run_of_replay _ twoWorkers_initial hreplay, hworkers, hone, hthree,
    fun m hm => ?_, fun m hm => ?_, fun heq => ?_⟩
  · rw [isEmpty_iff.mp hqueue] at hm
    cases hm
  · rw [isEmpty_iff.mp hqueue] at hm
    cases hm
  · have hsame := congrFun heq (hostKey (str "c"))
    rw [hlive, hlive'] at hsame
    cases hsame

end Hengine.Dyups
