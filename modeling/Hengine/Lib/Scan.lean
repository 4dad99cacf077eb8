import Mathlib.Logic.Equiv.Defs

/-!
# Resumable Scanners

A scanner reads its input one item at a time. With each item it sees everything that
came before it in the buffer, and it either goes on in a new loop state or stops with a
result. A **resumable** scanner is called again and again on a buffer that grows: what
its loop carries in local variables is loaded from a saved record when the call starts
and written back when the input runs out. Fragmentation independence is then one fact,
proved here once: if nothing is lost between saving and loading, two calls are one call on
the two pieces.
-/

namespace Hengine

open List

/-- What one item of the input leads to: the loop goes on, or the call returns. -/
inductive Verdict (σ ρ : Type*)
  | more (s : σ)
  | stop (r : ρ)
deriving Repr, DecidableEq

/-- How a scan ends: the input ran out in some loop state, or the scanner stopped at an
item; `rest` starts with that item. -/
inductive Scanned (α σ ρ : Type*)
  | again (s : σ)
  | stopped (r : ρ) (rest : List α)
deriving Repr, DecidableEq

section Scan

variable {α σ ρ : Type*}

/-- The loop over the input: `seen` is what stands before it in the buffer. -/
@[grind =]
def scan (f : List α → σ → α → Verdict σ ρ) : List α → σ → List α → Scanned α σ ρ
  | _, s, [] => .again s
  | seen, s, c :: cs =>
    match f seen s c with
    | .more s' => scan f (seen ++ [c]) s' cs
    | .stop r => .stopped r (c :: cs)

/-- Go on with more input where a scan ran out of it. -/
def Scanned.andThen (r : Scanned α σ ρ) (more : List α) (k : σ → Scanned α σ ρ) :
    Scanned α σ ρ :=
  match r with
  | .again s => k s
  | .stopped r rest => .stopped r (rest ++ more)

/-- **Scanning in two parts.** -/
theorem scan_append (f : List α → σ → α → Verdict σ ρ) (xs ys : List α) :
    ∀ (seen : List α) (s : σ),
      scan f seen s (xs ++ ys)
        = (scan f seen s xs).andThen ys fun s' => scan f (seen ++ xs) s' ys := by
  induction xs with
  | nil =>
    intro seen s
    simp [scan, Scanned.andThen]
  | cons c cs ih =>
    intro seen s
    rw [cons_append, scan, scan]
    cases f seen s c with
    | more s' => simpa [append_assoc] using ih (seen ++ [c]) s'
    | stop r => rfl

/-- **The invariant rule of a scan.** A predicate on the items read and the loop state
that every step keeps holds where the input runs out, and just before the item at which
the scanner stops. -/
theorem scan_invariant {f : List α → σ → α → Verdict σ ρ} {P : List α → σ → Prop}
    (hstep : ∀ seen s c s', P seen s → f seen s c = .more s' → P (seen ++ [c]) s') :
    ∀ (input seen : List α) (s : σ), P seen s →
      (∀ s', scan f seen s input = .again s' → P (seen ++ input) s') ∧
      ∀ r rest, scan f seen s input = .stopped r rest →
        ∃ read s' c cs, input = read ++ rest ∧ rest = c :: cs ∧ P (seen ++ read) s' ∧
          f (seen ++ read) s' c = .stop r := by
  intro input
  induction input with
  | nil =>
    intro seen s hP
    refine ⟨?_, ?_⟩
    · intro s' h
      cases h
      rwa [append_nil]
    · intro r rest h
      cases h
  | cons c cs ih =>
    intro seen s hP
    rw [scan]
    cases hc : f seen s c with
    | more s₁ =>
      obtain ⟨hagain, hstop⟩ := ih (seen ++ [c]) s₁ (hstep seen s c s₁ hP hc)
      refine ⟨?_, ?_⟩
      · intro s' h
        have := hagain s' h
        rwa [append_assoc, singleton_append] at this
      · intro r rest h
        obtain ⟨read, s', d, ds, hin, hrest, hP', hf⟩ := hstop r rest h
        refine ⟨c :: read, s', d, ds, ?_, hrest, ?_, ?_⟩
        · rw [hin, cons_append]
        · rwa [append_assoc, singleton_append] at hP'
        · rwa [append_assoc, singleton_append] at hf
    | stop r₁ =>
      refine ⟨?_, ?_⟩
      · intro s' h
        cases h
      · intro r rest h
        cases h
        refine ⟨[], s, c, cs, rfl, rfl, ?_, ?_⟩
        · rwa [append_nil]
        · rwa [append_nil]

/-! ### Scanners that do not look back -/

/-- The loop of a scanner that does not look at what came before. -/
def scanFrom (f : σ → α → Verdict σ ρ) (s : σ) (input : List α) : Scanned α σ ρ :=
  scan (fun _ => f) [] s input

/-- What stands before the input does not matter to it. -/
theorem scan_seen (f : σ → α → Verdict σ ρ) (input : List α) :
    ∀ (seen : List α) (s : σ), scan (fun _ => f) seen s input = scanFrom f s input := by
  induction input with
  | nil =>
    intro seen s
    rfl
  | cons c cs ih =>
    intro seen s
    rw [scanFrom, scan, scan]
    cases f s c with
    | more s' =>
      simp only
      rw [ih, ih]
    | stop r => rfl

@[simp]
theorem scanFrom_nil (f : σ → α → Verdict σ ρ) (s : σ) : scanFrom f s [] = .again s := rfl

variable {f : σ → α → Verdict σ ρ}

theorem scanFrom_more {s s' : σ} {c : α} (h : f s c = .more s') (cs : List α) :
    scanFrom f s (c :: cs) = scanFrom f s' cs := by
  rw [scanFrom, scan, h]
  exact scan_seen f cs _ s'

theorem scanFrom_stop {s : σ} {r : ρ} {c : α} (h : f s c = .stop r) (cs : List α) :
    scanFrom f s (c :: cs) = .stopped r (c :: cs) := by
  rw [scanFrom, scan, h]

/-- A scan of two parts scans one after the other. -/
theorem scanFrom_append (f : σ → α → Verdict σ ρ) (s : σ) (xs ys : List α) :
    scanFrom f s (xs ++ ys)
      = (scanFrom f s xs).andThen ys fun s' => scanFrom f s' ys := by
  rw [scanFrom, scan_append]
  simp only [scan_seen]

theorem scanFrom_append_again {s s' : σ} {xs : List α} (h : scanFrom f s xs = .again s')
    (ys : List α) : scanFrom f s (xs ++ ys) = scanFrom f s' ys := by
  rw [scanFrom_append, h]
  rfl

/-- **The invariant rule** of a scanner. -/
theorem scanFrom_invariant {P : σ → Prop} (hstep : ∀ s c s', P s → f s c = .more s' → P s') {s : σ}
    (hs : P s) (input : List α) :
    (∀ s', scanFrom f s input = .again s' → P s') ∧
      ∀ r rest, scanFrom f s input = .stopped r rest →
        ∃ read s' c cs, input = read ++ rest ∧ rest = c :: cs ∧ P s' ∧ f s' c = .stop r :=
  scan_invariant (P := fun _ => P) (fun _ s c s' => hstep s c s') input [] s hs

end Scan

/-- A resumable scanner: the loop, and how its state is saved between calls. That the
two are in bijection is what "nothing is kept only locally" means. -/
structure Resumable (α κ σ ρ : Type*) where
  saved : κ ≃ σ
  step : List α → σ → α → Verdict σ ρ

namespace Resumable

variable {α κ σ ρ : Type*} (R : Resumable α κ σ ρ)

/-- One call: load, loop, and save where the input runs out. -/
def call (k : κ) (seen input : List α) : Scanned α κ ρ :=
  match scan R.step seen (R.saved k) input with
  | .again s => .again (R.saved.symm s)
  | .stopped r rest => .stopped r rest

/-- A scanner stops at a byte that it leaves. -/
theorem call_stopped {k : κ} {seen input rest : List α} {r : ρ}
    (h : R.call k seen input = .stopped r rest) :
    ∃ read c cs, input = read ++ rest ∧ rest = c :: cs := by
  rw [call] at h
  split at h
  · cases h
  · rename_i r' rest' hscan
    cases h
    obtain ⟨read, _, c, cs, hin, hrest, _⟩ :=
      (scan_invariant (P := fun _ _ => True) (fun _ _ _ _ _ _ => trivial) input seen _ trivial).2
        _ _ hscan
    exact ⟨read, c, cs, hin, hrest⟩

/-- Where a call stops, it has read less than its input. -/
theorem call_stopped_length {k : κ} {seen input rest : List α} {r : ρ}
    (h : R.call k seen input = .stopped r rest) :
    0 < rest.length ∧ rest.length ≤ input.length := by
  obtain ⟨read, c, cs, hin, hrest⟩ := R.call_stopped h
  rw [hin, length_append, hrest, length_cons]
  omega

/-- **Two calls are one.** -/
theorem call_append (k : κ) (seen xs ys : List α) :
    R.call k seen (xs ++ ys)
      = (R.call k seen xs).andThen ys fun k' => R.call k' (seen ++ xs) ys := by
  rw [call, call, scan_append]
  cases scan R.step seen (R.saved k) xs with
  | again s =>
    simp only [Scanned.andThen]
    rw [call, Equiv.apply_symm_apply]
  | stopped r rest => rfl

end Resumable

end Hengine
