import Hengine.Lib.Machine
import Hengine.Lib.Tally
import Mathlib.Algebra.BigOperators.Ring.Finset

/-!
# The Readers-Writer Lock

The model of `ngx_rwlock.c`. The lock is one shared word: the number of readers, or
`NGX_RWLOCK_WLOCK` for a writer. A read of the word, a write to it and an atomic operation are one
step each, and the processes take their steps in any order; how often they spin shows only in
how often they try.

The functions do not know what a process holds: `ngx_rwlock_unlock` goes by the word. In the model a
process remembers what it was given, for the statement; no step in a function looks at it.
-/

namespace Hengine.Rwlock

open Function Tally

/-- `NGX_RWLOCK_WLOCK`, which is `(ngx_atomic_uint_t) -1`. -/
def wlock : ℕ := 2 ^ 64 - 1

/-- Where a process is. `writer` is what it was given; the other names are those of the next step. -/
inductive Place
  | outside
  /-- `ngx_rwlock_wlock` -/
  | wlockRead | wlockCas
  /-- `ngx_rwlock_rlock` -/
  | rlockRead | rlockCas (readers : ℕ)
  | held (writer : Bool)
  /-- `ngx_rwlock_unlock` -/
  | unlockRead (writer : Bool) | unlockCas (writer : Bool) | unlockAdd (writer : Bool)
  /-- `ngx_rwlock_downgrade` -/
  | downRead (writer : Bool) | downWrite (writer : Bool)
  deriving DecidableEq

/-- The places of the processes and the word. -/
structure State (P : Type) where
  place : P → Place
  lock : ℕ

/-- A process calls one of the functions, or takes a step in it. Only who holds the lock calls the
last two, and only a writer the last one. -/
inductive Event (P : Type)
  | wlock (p : P)
  | rlock (p : P)
  | unlock (p : P)
  | downgrade (p : P)
  | move (p : P)

section

variable {P : Type} [DecidableEq P]

/-- The process goes on to `c`, and the word becomes `lock`. -/
def State.put (s : State P) (p : P) (c : Place) (lock : ℕ) : State P :=
  ⟨update s.place p c, lock⟩

/-- `ngx_atomic_cmp_set(lock, old, set)`. -/
def State.cmpSet (s : State P) (p : P) (old set : ℕ) (won lost : Place) : State P :=
  if s.lock = old then s.put p won set else s.put p lost s.lock

/-- The next step of `p`. -/
def State.move (s : State P) (p : P) : Option (State P) :=
  match s.place p with
  | .outside | .held _ => none
  | .wlockRead => some (s.put p (if s.lock = 0 then .wlockCas else .wlockRead) s.lock)
  | .wlockCas => some (s.cmpSet p 0 wlock (.held true) .wlockRead)
  | .rlockRead =>
    some (s.put p (if s.lock = wlock then .rlockRead else .rlockCas s.lock) s.lock)
  | .rlockCas readers =>
    some (s.cmpSet p readers ((readers + 1) % 2 ^ 64) (.held false) .rlockRead)
  | .unlockRead writer =>
    some (s.put p (if s.lock = wlock then .unlockCas writer else .unlockAdd writer) s.lock)
  | .unlockCas _ => some (s.cmpSet p wlock 0 .outside .outside)
  | .unlockAdd _ => some (s.put p .outside ((s.lock + wlock) % 2 ^ 64))
  | .downRead writer =>
    some (s.put p (if s.lock = wlock then .downWrite writer else .held writer) s.lock)
  | .downWrite _ => some (s.put p (.held false) 1)

/-- One event. -/
def State.step (s : State P) : Event P → Option (State P)
  | .wlock p => if s.place p = .outside then some (s.put p .wlockRead s.lock) else none
  | .rlock p => if s.place p = .outside then some (s.put p .rlockRead s.lock) else none
  | .unlock p =>
    match s.place p with
    | .held writer => some (s.put p (.unlockRead writer) s.lock)
    | _ => none
  | .downgrade p =>
    match s.place p with
    | .held true => some (s.put p (.downRead true) s.lock)
    | _ => none
  | .move p => s.move p

/-- A new lock, and any number of processes. -/
def machine (P : Type) [DecidableEq P] : Machine (State P) (Event P) :=
  .ofStep (fun s => s = ⟨fun _ => .outside, 0⟩) State.step

end

/-! ### The invariant -/

/-- What a process holds, if it holds the lock. -/
def Place.holds : Place → Option Bool
  | .held writer | .unlockRead writer | .unlockCas writer | .unlockAdd writer
  | .downRead writer | .downWrite writer => some writer
  | _ => none

/-- What a process knows of what it holds by the way it took. -/
def Place.Sound : Place → Prop
  | .rlockCas readers => readers ≠ wlock
  | .unlockCas writer | .downRead writer | .downWrite writer => writer = true
  | .unlockAdd writer => writer = false
  | _ => True

/-- A reader counts for one. -/
def reads (c : Place) : ℤ := if c.holds = some false then 1 else 0

/-- A writer counts for one. -/
def writes (c : Place) : ℤ := if c.holds = some true then 1 else 0

theorem reads_nonneg (c : Place) : 0 ≤ reads c := by
  rw [reads]
  split_ifs <;> decide

theorem writes_nonneg (c : Place) : 0 ≤ writes c := by
  rw [writes]
  split_ifs <;> decide

variable {P : Type} [Fintype P]

/-- The word is the number of readers and there is no writer, or there is one, and no reader. -/
structure Inv (s : State P) : Prop where
  sound : ∀ p, (s.place p).Sound
  word : total writes s.place = 0 ∧ s.lock = total reads s.place ∨
    total writes s.place = 1 ∧ total reads s.place = 0 ∧ s.lock = wlock

variable {s s' : State P} {p : P} {c : Place}

/-- While a writer holds the lock, it is alone. -/
theorem Inv.writer (h : Inv s) (hp : (s.place p).holds = some true) :
    total writes s.place = 1 ∧ total reads s.place = 0 ∧ s.lock = wlock := by
  have hone : writes (s.place p) = 1 := if_pos hp
  have hle : writes (s.place p) ≤ total writes s.place := le_total writes_nonneg p
  refine h.word.resolve_left ?_
  omega

/-- While a reader holds the lock, there is no writer, and the word counts the readers. -/
theorem Inv.reader (h : Inv s) (hp : (s.place p).holds = some false) :
    total writes s.place = 0 ∧ s.lock = total reads s.place ∧ 0 < s.lock := by
  have hone : reads (s.place p) = 1 := if_pos hp
  have hle : reads (s.place p) ≤ total reads s.place := le_total reads_nonneg p
  have := h.word
  omega

/-- The readers are fewer than the value of a writer. -/
theorem reads_lt (hfew : Fintype.card P < wlock) (place : P → Place) :
    total reads place < wlock := by
  have hle : total reads place ≤ Fintype.card P := total_le_card fun c => by
    rw [reads]
    split_ifs <;> decide
  omega

variable [DecidableEq P]

/-- One process goes to another place, and the word counts it there. -/
theorem Inv.put (h : Inv s) (hc : c.Sound) {lock : ℕ}
    (hword : total writes s.place - writes (s.place p) + writes c = 0 ∧
        lock = total reads s.place - reads (s.place p) + reads c ∨
      total writes s.place - writes (s.place p) + writes c = 1 ∧
        total reads s.place - reads (s.place p) + reads c = 0 ∧ lock = wlock) :
    Inv (s.put p c lock) := by
  refine ⟨fun q => ?_, by simpa only [State.put, total_update] using hword⟩
  by_cases hq : q = p
  · simpa [State.put, hq] using hc
  · simpa [State.put, hq] using h.sound q

theorem Inv.keep (h : Inv s) (hc : c.Sound) (hholds : c.holds = (s.place p).holds) :
    Inv (s.put p c s.lock) := by
  apply h.put hc
  simpa [reads, writes, hholds] using h.word

/-- **One atomic step** of a process keeps the invariant. -/
theorem Inv.move (hfew : Fintype.card P < wlock) (h : Inv s) (hs : s.move p = some s') :
    Inv s' := by
  have hsound := h.sound p
  have hreads := reads_lt hfew s.place
  have hlock : wlock = 2 ^ 64 - 1 := rfl
  rw [State.move] at hs
  cases hc : s.place p <;> rw [hc] at hsound hs <;> simp only [Option.some.injEq, reduceCtorEq] at hs
  case wlockRead =>
    subst hs
    apply h.keep <;> split_ifs <;> simp [Place.Sound, Place.holds, hc]
  case rlockRead =>
    subst hs
    apply h.keep <;> split_ifs with hw <;> simp [Place.Sound, Place.holds, hc, hw]
  case wlockCas =>
    subst hs
    rw [State.cmpSet]
    split_ifs with hzero
    · apply h.put
      · trivial
      have := h.word
      simp [reads, writes, Place.holds, hc]
      omega
    · exact h.keep trivial (by rw [hc]; rfl)
  case rlockCas readers =>
    subst hs
    rw [State.cmpSet]
    split_ifs with heq
    · apply h.put
      · trivial
      have := h.word
      have hne : readers ≠ wlock := hsound
      simp [reads, writes, Place.holds, hc]
      omega
    · exact h.keep trivial (by rw [hc]; rfl)
  case unlockRead writer =>
    subst hs
    apply h.keep
    · cases writer with
      | true => rw [if_pos (h.writer (by rw [hc]; rfl)).2.2]; rfl
      | false =>
        have := h.reader (p := p) (by rw [hc]; rfl)
        rw [if_neg (by omega)]
        rfl
    · split_ifs <;> simp [Place.holds, hc]
  case unlockCas writer =>
    subst hs
    obtain rfl : writer = true := hsound
    obtain ⟨hw, hr, hword⟩ := h.writer (p := p) (by rw [hc]; rfl)
    rw [State.cmpSet, if_pos hword]
    apply h.put
    · trivial
    simp [reads, writes, Place.holds, hc, hw, hr]
  case unlockAdd writer =>
    subst hs
    obtain rfl : writer = false := hsound
    have := h.reader (p := p) (by rw [hc]; rfl)
    apply h.put
    · trivial
    rw [show writes (s.place p) = 0 by rw [hc]; rfl, show reads (s.place p) = 1 by rw [hc]; rfl]
    simp only [reads, writes, Place.holds, reduceCtorEq, if_false]
    omega
  case downRead writer =>
    subst hs
    obtain rfl : writer = true := hsound
    rw [if_pos (h.writer (p := p) (by rw [hc]; rfl)).2.2]
    exact h.keep rfl (by rw [hc]; rfl)
  case downWrite writer =>
    subst hs
    obtain rfl : writer = true := hsound
    obtain ⟨hw, hr, hword⟩ := h.writer (p := p) (by rw [hc]; rfl)
    apply h.put
    · trivial
    simp [reads, writes, Place.holds, hc, hw, hr]

/-- A call that begins keeps it as well. -/
theorem Inv.step (hfew : Fintype.card P < wlock) (h : Inv s) {e : Event P}
    (hs : s.step e = some s') : Inv s' := by
  cases e with
  | wlock p | rlock p =>
    simp only [State.step] at hs
    split_ifs at hs with hc
    cases hs
    exact h.keep trivial (by rw [hc]; rfl)
  | unlock p =>
    simp only [State.step] at hs
    split at hs <;> cases hs
    next writer hc => exact h.keep trivial (by rw [hc]; rfl)
  | downgrade p =>
    simp only [State.step] at hs
    split at hs <;> cases hs
    next hc => exact h.keep rfl (by rw [hc]; rfl)
  | move p => exact h.move hfew hs

/-- **The word of the lock** tells its holders in every reachable state. -/
theorem inv_reachable (hfew : Fintype.card P < wlock) (h : (machine P).Reachable s) : Inv s := by
  refine h.invariant (fun s h0 => ?_) fun s e s' h hs => h.step hfew hs
  cases h0
  refine ⟨fun _ => trivial, Or.inl ⟨?_, ?_⟩⟩
  · simp [total, writes, Place.holds]
  · simp [total, reads, Place.holds]

/-- **The readers-writer lock**, for fewer than `2 ^ 64 - 1` processes and however they take their
steps: who writes is alone, the word is `NGX_RWLOCK_WLOCK` exactly while there is a writer, and else
it is the number of readers. -/
theorem rwlock_safe (hfew : Fintype.card P < wlock) (h : (machine P).Reachable s) :
    (∀ p q, (s.place p).holds = some true → (s.place q).holds ≠ none → p = q) ∧
    (s.lock = wlock ↔ ∃ p, (s.place p).holds = some true) ∧
    (s.lock ≠ wlock → s.lock = (Finset.univ.filter fun p => (s.place p).holds = some false).card) := by
  have hinv := inv_reachable hfew h
  have hreads := reads_lt hfew s.place
  refine ⟨fun p q hp hq => ?_, ⟨fun hword => ?_, fun ⟨p, hp⟩ => (hinv.writer hp).2.2⟩, fun hword => ?_⟩
  · have hw := (hinv.writer hp).1
    cases hc : (s.place q).holds with
    | none => exact absurd hc hq
    | some writer =>
      cases writer with
      | false =>
        have := (hinv.reader hc).1
        omega
      | true =>
        by_contra hpq
        have hle : writes (s.place p) + writes (s.place q) ≤ total writes s.place :=
          add_le_total writes_nonneg hpq
        rw [writes, writes, if_pos hp, if_pos hc] at hle
        omega
  · obtain ⟨p, hp⟩ : ∃ p, writes (s.place p) ≠ 0 := by
      by_contra hall
      push Not at hall
      have hzero : total writes s.place = 0 := Finset.sum_eq_zero fun p _ => hall p
      have := hinv.word
      omega
    exact ⟨p, by_contra fun hno => hp (if_neg hno)⟩
  · have hsum : total reads s.place =
        (Finset.univ.filter fun p => (s.place p).holds = some false).card := Finset.sum_boole _ _
    have := hinv.word
    omega

/-- Two readers hold the lock at once, and the word says two. -/
theorem rwlock_safe_pair : ∃ s, (machine Bool).Reachable s ∧ s.lock = 2 ∧
    s.lock = (Finset.univ.filter fun p => (s.place p).holds = some false).card := by
  have hrun : (machine Bool).Run _ _ := Machine.run_of_replay [.wlock false, .move false,
    .move false, .rlock true, .move true, .downgrade false, .move false, .move false,
    .move true, .move true] rfl rfl
  have hreach : (machine Bool).Reachable _ := ⟨_, hrun⟩
  exact ⟨_, hreach, rfl, (rwlock_safe (by decide) hreach).2.2 (by decide)⟩

end Hengine.Rwlock
