import Hengine.Lib.Machine
import Hengine.Lib.Tally

/-!
# The Mutex in Shared Memory

The model of `ngx_shmtx.c` for a build with atomic operations and semaphores. Each process is at
some place in one of the functions, or outside; a read of a shared word, an atomic operation and a
call of the semaphore are one step each, and the processes take their steps in any order. How
often `ngx_shmtx_lock` spins before it waits depends on `mtx->spin` and `ngx_ncpu` and is left
open: the event of the step says whether it tries once more.

`ngx_shmtx_force_unlock`, for a process that has died with the lock, takes the steps that
`ngx_shmtx_unlock` takes for the process itself.
-/

namespace Hengine.Shmtx

open Function Tally

/-- Where a process is. The names are those of the next step. -/
inductive Place
  | outside
  /-- `ngx_shmtx_trylock` -/
  | tryRead | tryCas
  /-- a turn of the loop of `ngx_shmtx_lock` -/
  | read | cas
  /-- `ngx_atomic_fetch_add(mtx->wait, 1)`, the test behind it, and the `-1` of who gets the lock -/
  | add | waitRead | waitCas | sub
  /-- `sem_wait` -/
  | sleep
  | held
  /-- `ngx_shmtx_wakeup` -/
  | wake | wakeCas (wait : ℤ) | post
  deriving DecidableEq

/-- The places of the processes and the shared words. `lock` is `none` for zero, and else the
process whose `ngx_pid` it is; `sem` is the value of the semaphore. -/
structure State (P : Type) where
  place : P → Place
  lock : Option P
  wait : ℤ
  sem : ℕ

/-- A process calls one of the functions, takes a step in it, or finds that `sem_wait` fails. -/
inductive Event (P : Type)
  | trylock (p : P)
  | lock (p : P)
  | unlock (p : P)
  | move (p : P) (again : Bool)
  | fail (p : P)

variable {P : Type} [DecidableEq P]

def State.put (s : State P) (p : P) (c : Place) : State P := { s with place := update s.place p c }

/-- `ngx_atomic_cmp_set(mtx->lock, 0, ngx_pid)`. -/
def State.acquire (s : State P) (p : P) (won lost : Place) : State P :=
  if s.lock = none then { s.put p won with lock := some p } else s.put p lost

/-- The next step of `p`. -/
def State.move (s : State P) (p : P) (again : Bool) : Option (State P) :=
  match s.place p with
  | .outside | .held => none
  | .tryRead => some (s.put p (if s.lock = none then .tryCas else .outside))
  | .tryCas => some (s.acquire p .held .outside)
  | .read => some (s.put p (if s.lock = none then .cas else if again then .read else .add))
  | .cas => some (s.acquire p .held (if again then .read else .add))
  | .add => some { s.put p .waitRead with wait := s.wait + 1 }
  | .waitRead => some (s.put p (if s.lock = none then .waitCas else .sleep))
  | .waitCas => some (s.acquire p .sub .sleep)
  | .sub => some { s.put p .held with wait := s.wait - 1 }
  | .sleep => if s.sem = 0 then none else some { s.put p .read with sem := s.sem - 1 }
  | .wake => some (s.put p (if s.wait ≤ 0 then .outside else .wakeCas s.wait))
  | .wakeCas wait =>
    some (if s.wait = wait then { s.put p .post with wait := wait - 1 } else s.put p .wake)
  | .post => some { s.put p .outside with sem := s.sem + 1 }

/-- One event. -/
def State.step (s : State P) : Event P → Option (State P)
  | .trylock p => if s.place p = .outside then some (s.put p .tryRead) else none
  | .lock p => if s.place p = .outside then some (s.put p .read) else none
  | .unlock p =>
    if s.place p ≠ .held then none
    else if s.lock = some p then some { s.put p .wake with lock := none }
    else some (s.put p .outside)
  | .move p again => s.move p again
  | .fail p => if s.place p = .sleep then some (s.put p .read) else none

/-- The mutex that `ngx_shmtx_create` makes, and any number of processes. -/
def machine (P : Type) [DecidableEq P] : Machine (State P) (Event P) :=
  .ofStep (fun s => s = ⟨fun _ => .outside, none, 0, 0⟩) State.step

/-! ### The invariant -/

/-- The process has the lock. -/
def Place.Holds (c : Place) : Prop := c = .held ∨ c = .sub

instance (c : Place) : Decidable c.Holds := inferInstanceAs (Decidable (_ ∨ _))

/-- The process is on its way: it neither sleeps nor holds the lock nor is it outside. -/
def Place.Moving (c : Place) : Prop := c ≠ .outside ∧ c ≠ .held ∧ c ≠ .sleep

instance (c : Place) : Decidable c.Moving := inferInstanceAs (Decidable (_ ∧ _ ∧ _))

/-- How many awakenings are due for a process: one for each that has added itself to `mtx->wait`, and
less one for each that has taken one off to call `sem_post`. -/
def due : Place → ℤ
  | .waitRead | .waitCas | .sub | .sleep => 1
  | .post => -1
  | _ => 0

variable [Fintype P]

/-- No awakening is missing, and while the lock is free a process that sleeps can count on another. -/
structure Inv (s : State P) : Prop where
  holder : ∀ p, (s.place p).Holds ↔ s.lock = some p
  enough : total due s.place ≤ s.wait + s.sem
  awake : s.lock = none → ∀ p, s.place p = .sleep → 0 < s.sem ∨ ∃ q, (s.place q).Moving

variable {s s' : State P} {p : P} {c : Place}

theorem moving_of_due (h : due c < 0) : c.Moving := by
  cases c <;> simp_all [due, Place.Moving]

/-- **One process goes to `c`.** -/
theorem Inv.goes (h : Inv s) (hplace : s'.place = update s.place p c)
    (hp : c.Holds ↔ s'.lock = some p) (hq : ∀ q, q ≠ p → (s'.lock = some q ↔ s.lock = some q))
    (hdue : due c + (s.wait + s.sem) ≤ due (s.place p) + (s'.wait + s'.sem))
    (hfree : s'.lock = none → c.Moving ∨ 0 < s'.sem ∨ s'.wait ≤ 0) : Inv s' := by
  have henough : total due s'.place ≤ s'.wait + s'.sem := by
    have := h.enough
    rw [hplace, total_update]
    omega
  refine ⟨fun q => ?_, henough, fun hlock q hsleep => ?_⟩
  · rw [hplace]
    by_cases hqp : q = p
    · rw [hqp, update_self]
      exact hp
    · rw [update_of_ne hqp, h.holder, hq q hqp]
  · obtain hmoving | hsem | hwait := hfree hlock
    · exact Or.inr ⟨p, by rwa [hplace, update_self]⟩
    · exact Or.inl hsem
    · by_cases hsem : 0 < s'.sem
      · exact Or.inl hsem
      -- the sleeper is counted, so another has taken one off to wake it
      have hq : 0 < due (s'.place q) := by
        rw [hsleep]
        decide
      obtain ⟨r, hr⟩ := exists_neg hq (by omega)
      exact Or.inr ⟨r, moving_of_due hr⟩

/-- A process that neither holds the lock nor gets it goes on, and no wake-up is lost. -/
theorem Inv.goes_free (h : Inv s) (hp : ¬ (s.place p).Holds) (hc : ¬ c.Holds) {wait : ℤ} {sem : ℕ}
    (hdue : due c + (s.wait + s.sem) ≤ due (s.place p) + (wait + sem))
    (hfree : s.lock = none → c.Moving ∨ 0 < sem ∨ wait ≤ 0) :
    Inv { s.put p c with wait := wait, sem := sem } :=
  h.goes rfl (iff_of_false hc fun hlock => hp ((h.holder p).2 hlock)) (fun _ _ => Iff.rfl) hdue hfree

/-- Moving a process that holds nothing keeps the invariant, if nobody is forgotten. -/
theorem Inv.put (h : Inv s) (hp : ¬ (s.place p).Holds) (hc : ¬ c.Holds)
    (hdue : due c ≤ due (s.place p)) (hfree : s.lock = none → c.Moving ∨ 0 < s.sem ∨ s.wait ≤ 0) :
    Inv (s.put p c) :=
  h.goes_free hp hc (by omega) hfree

/-- **The atomic operation on the lock.** -/
theorem Inv.acquire (h : Inv s) {won lost : Place} (hp : ¬ (s.place p).Holds) (hwon : won.Holds)
    (hlost : ¬ lost.Holds) (hdue : due won ≤ due (s.place p) ∧ due lost ≤ due (s.place p)) :
    Inv (s.acquire p won lost) := by
  rw [State.acquire]
  split_ifs with hlock
  · refine h.goes rfl (iff_of_true hwon rfl) (fun q hq => ?_) (by simp only [State.put]; omega) (by simp)
    rw [hlock]
    simpa using hq.symm
  · exact h.put hp hlost hdue.2 fun hnone => absurd hnone hlock

/-- **One atomic step** of a process keeps the invariant. -/
theorem Inv.move (h : Inv s) {again : Bool} (hs : s.move p again = some s') : Inv s' := by
  have hno : s.place p ≠ .held → s.place p ≠ .sub → ¬ (s.place p).Holds := fun h h' hor =>
    hor.elim h h'
  rw [State.move] at hs
  cases hc : s.place p <;> rw [hc] at hno hs <;> simp only [Option.some.injEq, reduceCtorEq] at hs
  case sub =>
    subst hs
    have hp : s.lock = some p := (h.holder p).1 (by simp [hc, Place.Holds])
    refine h.goes rfl (iff_of_true (Or.inl rfl) hp) (fun _ _ => Iff.rfl) ?_ ?_
    · simp only [hc, due, State.put]
      omega
    · simp [State.put, hp]
  all_goals have hp : ¬ (s.place p).Holds := by rw [hc]; exact hno (by simp) (by simp)
  case tryCas | cas | waitCas =>
    subst hs
    refine h.acquire hp (by decide) ?_ ?_ <;> cases again <;> simp [hc, due, Place.Holds]
  case tryRead | read | waitRead =>
    subst hs
    apply h.put hp <;> split_ifs <;> simp_all [due, Place.Holds, Place.Moving]
  case add | post =>
    subst hs
    refine h.goes_free hp (by decide) ?_ ?_ <;> simp [hc, due, Place.Moving, State.put]
    omega
  case sleep =>
    split_ifs at hs with hsem
    cases hs
    refine h.goes_free hp (by decide) ?_ (fun _ => Or.inl (by decide))
    simp only [hc, due, State.put]
    omega
  case wake =>
    subst hs
    apply h.put hp <;> split_ifs <;> simp_all [due, Place.Holds, Place.Moving]
  case wakeCas wait =>
    split_ifs at hs with hwait <;> subst hs
    · refine h.goes_free hp (by decide) ?_ (fun _ => Or.inl (by decide))
      simp only [hc, due, State.put]
      omega
    · exact h.put hp (by decide) (by simp [hc, due]) fun _ => Or.inl (by decide)

/-- A call that begins keeps it as well. -/
theorem Inv.step (h : Inv s) {e : Event P} (hs : s.step e = some s') : Inv s' := by
  cases e with
  | trylock p | lock p =>
    simp only [State.step] at hs
    split_ifs at hs with hc
    cases hs
    exact h.put (by simp [hc, Place.Holds]) (by decide) (by simp [hc, due]) fun _ => Or.inl (by decide)
  | unlock p =>
    simp only [State.step] at hs
    split_ifs at hs with hc hlock <;> cases hs
    · refine h.goes rfl (iff_of_false (by decide) (by simp)) (fun q hq => ?_) ?_
        fun _ => Or.inl (by decide)
      · rw [hlock]
        simpa using hq.symm
      · simp only [not_not.1 hc, due, State.put]
        omega
    · exact absurd ((h.holder p).1 (Or.inl (not_not.1 hc))) hlock
  | move p again => exact h.move hs
  | fail p =>
    simp only [State.step] at hs
    split_ifs at hs with hc
    cases hs
    exact h.put (by simp [hc, Place.Holds]) (by decide) (by simp [hc, due]) fun _ => Or.inl (by decide)

theorem inv_reachable (h : (machine P).Reachable s) : Inv s := by
  refine h.invariant (fun s h0 => ?_) fun s e s' h hs => h.step hs
  cases h0
  refine ⟨by simp [Place.Holds], ?_, by simp⟩
  simp [total, due]

/-- **The mutex**, however the processes take their steps. The word of the lock names the one
process that has it. And no awakening is lost: while a process sleeps, another holds the lock or
is on its way, or the semaphore lets the process go on. -/
theorem shmtx_safe (h : (machine P).Reachable s) :
    (∀ p q, (s.place p).Holds → (s.place q).Holds → p = q) ∧
    (∀ p, (s.place p).Holds ↔ s.lock = some p) ∧
    ∀ p, s.place p = .sleep → 0 < s.sem ∨ ∃ q, (s.place q).Holds ∨ (s.place q).Moving := by
  have hinv := inv_reachable h
  refine ⟨fun p q hp hq => ?_, hinv.holder, fun p hp => ?_⟩
  · rw [hinv.holder] at hp hq
    exact Option.some.inj (hp.symm.trans hq)
  · cases hlock : s.lock with
    | none =>
      obtain hsem | ⟨q, hq⟩ := hinv.awake hlock p hp
      · exact Or.inl hsem
      · exact Or.inr ⟨q, Or.inr hq⟩
    | some q => exact Or.inr ⟨q, Or.inl ((hinv.holder q).2 hlock)⟩

/-- One of two processes sleeps while the lock is free: it is about to be woken. -/
theorem shmtx_safe_pair : ∃ s, (machine Bool).Reachable s ∧ s.lock = none ∧
    s.place true = .sleep ∧ (0 < s.sem ∨ ∃ q, (s.place q).Holds ∨ (s.place q).Moving) := by
  have hrun : (machine Bool).Run _ _ := Machine.run_of_replay [.lock false, .move false true,
    .move false true, .lock true, .move true false, .move true true, .move true true,
    .unlock false] rfl rfl
  have hreach : (machine Bool).Reachable _ := ⟨_, hrun⟩
  exact ⟨_, hreach, rfl, rfl, (shmtx_safe hreach).2.2 true rfl⟩

end Hengine.Shmtx
