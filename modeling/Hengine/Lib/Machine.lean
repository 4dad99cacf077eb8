import Mathlib.Data.List.Basic

/-!
# Labelled Transition Systems and Their Runs

A `Machine` is a set of initial states and a labelled step relation. A run is recorded
by its **trace**: the list of pairs `(s, e)` of the state before each step and the event
taken there, oldest first. Keeping the states in the trace is what lets a statement
speak about every state of one run, and about runs whose steps all meet a condition.

## Main results

* `Machine.Run.invariant`: a predicate that holds initially and is kept by every step
  holds in every reachable state.
* `Machine.Run.invariant_of_steps`: the same along a run whose steps all meet a
  condition on the state before the step and the event.
* `Machine.run_of_replay`: a machine given by an executable step function can be
  replayed on a list of events, and a successful replay is a run.
-/

namespace Hengine

open List

/-- A labelled transition system: initial states and steps `s --e--> s'`. -/
structure Machine (σ ε : Type*) where
  init : σ → Prop
  step : σ → ε → σ → Prop

namespace Machine

variable {σ ε : Type*} {M : Machine σ ε}

/-- `M.Run tr s`: some initial state leads to `s` through the trace `tr`. -/
inductive Run (M : Machine σ ε) : List (σ × ε) → σ → Prop
  | start {s : σ} : M.init s → Run M [] s
  | snoc {tr : List (σ × ε)} {s s' : σ} {e : ε} :
      Run M tr s → M.step s e s' → Run M (tr ++ [(s, e)]) s'

/-- A state some run ends in. -/
def Reachable (M : Machine σ ε) (s : σ) : Prop :=
  ∃ tr, M.Run tr s

/-- Every state of a run: the ones its steps leave, and the one it ends in. -/
def Everywhere (P : σ → Prop) (tr : List (σ × ε)) (s : σ) : Prop :=
  (∀ p ∈ tr, P p.1) ∧ P s

variable {tr : List (σ × ε)} {P : σ → Prop}

/-- Everywhere in a longer run. -/
theorem everywhere_snoc {s s' : σ} {e : ε} :
    Everywhere P (tr ++ [(s, e)]) s' ↔ Everywhere P tr s ∧ P s' := by
  simp only [Everywhere, mem_append, mem_singleton]
  constructor
  · rintro ⟨h, h'⟩
    exact ⟨⟨fun p hp => h p (Or.inl hp), h (s, e) (Or.inr rfl)⟩, h'⟩
  · rintro ⟨⟨h, hs⟩, h'⟩
    refine ⟨?_, h'⟩
    rintro p (hp | rfl)
    · exact h p hp
    · exact hs

/-- **The conditional invariant rule.** Along a run whose steps all meet `C`, a
predicate that holds initially and is kept by the steps meeting `C` holds everywhere. -/
theorem Run.invariant_of_steps {C : σ → ε → Prop} {s : σ} (h : M.Run tr s)
    (hinit : ∀ s, M.init s → P s) (hstep : ∀ s e s', P s → C s e → M.step s e s' → P s')
    (hC : ∀ p ∈ tr, C p.1 p.2) : Everywhere P tr s := by
  induction h with
  | start h0 =>
    refine ⟨?_, hinit _ h0⟩
    intro p hp
    simp at hp
  | @snoc tr s s' e _ hst ih =>
    have hev : Everywhere P tr s := ih fun p hp => hC p (mem_append_left _ hp)
    have hCe : C s e := hC (s, e) (by simp)
    exact everywhere_snoc.mpr ⟨hev, hstep s e s' hev.2 hCe hst⟩

/-- **The invariant rule.** -/
theorem Run.invariant {s : σ} (h : M.Run tr s) (hinit : ∀ s, M.init s → P s)
    (hstep : ∀ s e s', P s → M.step s e s' → P s') : P s :=
  (h.invariant_of_steps (C := fun _ _ => True) hinit
    (fun s e s' hs _ hst => hstep s e s' hs hst) (fun _ _ => trivial)).2

theorem Reachable.invariant {s : σ} (h : M.Reachable s) (hinit : ∀ s, M.init s → P s)
    (hstep : ∀ s e s', P s → M.step s e s' → P s') : P s := by
  obtain ⟨tr, hrun⟩ := h
  exact hrun.invariant hinit hstep

/-! ### Executable machines -/

/-- The machine of a guarded, executable step function: `none` where the event is not
possible. -/
def ofStep (init : σ → Prop) (f : σ → ε → Option σ) : Machine σ ε where
  init := init
  step s e s' := f s e = some s'

/-- Replay a list of events from `s`, with the trace so far. -/
@[grind =]
def replay (f : σ → ε → Option σ) : List (σ × ε) → σ → List ε → Option (List (σ × ε) × σ)
  | tr, s, [] => some (tr, s)
  | tr, s, e :: es => (f s e).bind fun s' => replay f (tr ++ [(s, e)]) s' es

/-- A successful replay extends a run. -/
theorem Run.replay {init : σ → Prop} {f : σ → ε → Option σ} {es : List ε} :
    ∀ {tr tr' : List (σ × ε)} {s s' : σ}, (ofStep init f).Run tr s →
      Machine.replay f tr s es = some (tr', s') → (ofStep init f).Run tr' s' := by
  induction es with
  | nil =>
    intro tr tr' s s' hrun h
    simp only [Machine.replay, Option.some.injEq, Prod.mk.injEq] at h
    obtain ⟨rfl, rfl⟩ := h
    exact hrun
  | cons e es ih =>
    intro tr tr' s s' hrun h
    simp only [Machine.replay, Option.bind_eq_some_iff] at h
    obtain ⟨s₁, hstep, hrest⟩ := h
    exact ih (hrun.snoc hstep) hrest

/-- **Replay.** A successful replay from an initial state is a run. -/
theorem run_of_replay {init : σ → Prop} {f : σ → ε → Option σ} (es : List ε) {s s' : σ}
    (h0 : init s) (h : Machine.replay f [] s es = some (tr, s')) : (ofStep init f).Run tr s' :=
  Run.replay (Run.start h0) h

end Machine

end Hengine
