import Mathlib.Data.List.Basic

/-!
# The Life Cycle of an Upstream Connection

What a pool of idle connections is for, said of one connection at a time. A connection
is opened for a request, which may save it under the address it is connected to; a
saved connection is either handed to another request that wants this address, or
retired, and a retired connection is destroyed. The log of a whole pool is a list of
such actions, newest first, and `phaseAfter c` replays the part of it about `c`: it is
`none` as soon as the log does something to `c` that its phase does not allow.
-/

namespace Hengine

open List

variable {κ ρ α : Type}

/-- Where a connection is in its life. -/
inductive ConnPhase (ρ α : Type)
  | closed
  | used (r : ρ) (a : α)
  | cached (a : α)
  | closing
  deriving DecidableEq

/-- What happens to a connection `c`: opened, saved or dropped by a request `r`, handed
out to it, and retired or destroyed by the pool. -/
inductive ConnAction (κ ρ α : Type)
  | connect (r : ρ) (c : κ) (a : α)
  | save (r : ρ) (c : κ) (a : α)
  | handOut (r : ρ) (c : κ) (a : α)
  | retire (c : κ)
  | destroy (c : κ)
  | drop (r : ρ) (c : κ)
  deriving DecidableEq

namespace ConnAction

/-- The connection an action is about. -/
def conn : ConnAction κ ρ α → κ
  | connect _ c _ | save _ c _ | handOut _ c _ | retire c | destroy c | drop _ c => c

/-- A connection enters the pool. -/
def isSave : ConnAction κ ρ α → Bool
  | save .. => true
  | _ => false

/-- A connection leaves the pool for a request. -/
def isHandOut : ConnAction κ ρ α → Bool
  | handOut .. => true
  | _ => false

/-- The pool destroys a connection. -/
def isDestroy : ConnAction κ ρ α → Bool
  | destroy .. => true
  | _ => false

end ConnAction

/-- The transitions of the life cycle. Only its own request saves or drops a connection,
only under the address it is connected to, and only that address brings it back. -/
def ConnPhase.next [DecidableEq ρ] [DecidableEq α] :
    ConnPhase ρ α → ConnAction κ ρ α → Option (ConnPhase ρ α)
  | closed, .connect r _ a => some (used r a)
  | used r a, .save r' _ a' => if r' = r ∧ a' = a then some (cached a) else none
  | used r _, .drop r' _ => if r' = r then some closed else none
  | cached a, .handOut r _ a' => if a' = a then some (used r a) else none
  | cached _, .retire _ => some closing
  | closing, .destroy _ => some closed
  | _, _ => none

/-- In the pool, or taken from it to be destroyed. -/
def ConnPhase.kept : ConnPhase ρ α → ℕ
  | cached _ | closing => 1
  | closed | used .. => 0

section Replay

variable [DecidableEq κ] [DecidableEq ρ] [DecidableEq α]

/-- The phase of `c` after a log, newest action first. -/
@[grind =]
def phaseAfter (c : κ) : List (ConnAction κ ρ α) → Option (ConnPhase ρ α)
  | [] => some .closed
  | x :: log => (phaseAfter c log).bind fun p => if x.conn = c then p.next x else some p

/-- The actions of one kind a log holds about `c`. -/
def countOf (kind : ConnAction κ ρ α → Bool) (c : κ) (log : List (ConnAction κ ρ α)) : ℕ :=
  log.countP fun x => decide (x.conn = c) && kind x

variable {c : κ} {a : α} {x : ConnAction κ ρ α} {p p' : ConnPhase ρ α}
  {log log' : List (ConnAction κ ρ α)}

/-- One action more, by cases on whether it is about `c`. -/
theorem phaseAfter_cons :
    phaseAfter c (x :: log) = some p' ↔
      ∃ p, phaseAfter c log = some p ∧
        (x.conn = c ∧ p.next x = some p' ∨ x.conn ≠ c ∧ p' = p) := by
  simp only [phaseAfter, Option.bind_eq_some_iff]
  constructor
  · rintro ⟨p, hp, h⟩
    refine ⟨p, hp, ?_⟩
    by_cases hx : x.conn = c
    · rw [if_pos hx] at h
      exact Or.inl ⟨hx, h⟩
    · rw [if_neg hx, Option.some.injEq] at h
      exact Or.inr ⟨hx, h.symm⟩
  · rintro ⟨p, hp, ⟨hx, h⟩ | ⟨hx, rfl⟩⟩
    · exact ⟨p, hp, by rw [if_pos hx, h]⟩
    · exact ⟨p', hp, by rw [if_neg hx]⟩

theorem phaseAfter_cons_ne (hx : x.conn ≠ c) :
    phaseAfter c (x :: log) = phaseAfter c log := by
  rw [phaseAfter]
  cases phaseAfter c log with
  | none => rfl
  | some p => simp [hx]

/-- Steps of other connections do not concern a connection. -/
theorem phaseAfter_append_ne {acts : List (ConnAction κ ρ α)}
    (hacts : ∀ x ∈ acts, x.conn ≠ c) :
    phaseAfter c (acts ++ log) = phaseAfter c log := by
  induction acts with
  | nil => rfl
  | cons x acts ih =>
    rw [cons_append, phaseAfter_cons_ne (hacts x mem_cons_self)]
    exact ih fun y hy => hacts y (mem_cons_of_mem _ hy)

theorem phaseAfter_cons_eq (hx : x.conn = c) (hp : phaseAfter c log = some p)
    (hn : p.next x = some p') : phaseAfter c (x :: log) = some p' :=
  phaseAfter_cons.mpr ⟨p, hp, Or.inl ⟨hx, hn⟩⟩

/-- A log that is allowed was allowed all the way. -/
theorem phaseAfter_of_append (h : phaseAfter c (log' ++ log) = some p') :
    ∃ p, phaseAfter c log = some p := by
  induction log' generalizing p' with
  | nil => exact ⟨p', h⟩
  | cons x log' ih =>
    obtain ⟨p, hp, -⟩ := phaseAfter_cons.mp h
    exact ih hp

omit [DecidableEq κ] in
/-- A connection gets into the cache by being saved. -/
theorem next_eq_cached (h : p.next x = some (.cached a)) :
    ∃ r, x = .save r x.conn a := by
  cases p <;> cases x <;> simp only [ConnPhase.next, reduceCtorEq] at h
  case used.save r a' r' c b =>
    split at h
    case isTrue hr =>
      rw [Option.some.injEq, ConnPhase.cached.injEq] at h
      exact ⟨r', by rw [hr.2, h]; rfl⟩
    case isFalse => simp at h
  all_goals simp_all

/-- **The last action on a cached connection is its save**, under the address it is
cached for. -/
theorem find_of_phaseAfter_cached (h : phaseAfter c log = some (.cached a)) :
    ∃ r, log.find? (fun x => decide (x.conn = c)) = some (.save r c a) := by
  induction log with
  | nil => simp [phaseAfter] at h
  | cons x log ih =>
    obtain ⟨p, hp, ⟨hx, hn⟩ | ⟨hx, rfl⟩⟩ := phaseAfter_cons.mp h
    · obtain ⟨r, hsave⟩ := next_eq_cached hn
      rw [hx] at hsave
      refine ⟨r, ?_⟩
      rw [find?_cons_of_pos (by simp [hx]), hsave]
    · obtain ⟨r, hr⟩ := ih hp
      refine ⟨r, ?_⟩
      rw [find?_cons_of_neg (by simp [hx]), hr]

/-- **Hand-outs are for the saved address.** In an allowed log the action on `c` before
a hand-out is a save of `c` under the same address. -/
theorem saved_of_handOut {r : ρ}
    (h : phaseAfter c (log' ++ .handOut r c a :: log) = some p') :
    ∃ r', log.find? (fun x => decide (x.conn = c)) = some (.save r' c a) := by
  obtain ⟨p₁, h₁⟩ := phaseAfter_of_append h
  obtain ⟨p, hp, ⟨-, hn⟩ | ⟨hx, -⟩⟩ := phaseAfter_cons.mp h₁
  · cases p with
    | cached b =>
      simp only [ConnPhase.next] at hn
      split at hn
      case isTrue hab => exact find_of_phaseAfter_cached (hab ▸ hp)
      case isFalse => simp at hn
    | closed => simp [ConnPhase.next] at hn
    | used => simp [ConnPhase.next] at hn
    | closing => simp [ConnPhase.next] at hn
  · exact absurd rfl hx

omit [DecidableEq κ] in
/-- The references to a connection, before and after a step. -/
theorem next_kept (h : p.next x = some p') :
    p.kept + (if x.isSave then 1 else 0) =
      (if x.isHandOut then 1 else 0) + (if x.isDestroy then 1 else 0) + p'.kept := by
  cases p <;> cases x <;> simp only [ConnPhase.next, reduceCtorEq] at h
  all_goals try split at h
  all_goals try simp only [reduceCtorEq] at h
  all_goals
    obtain rfl := Option.some.inj h
    rfl

/-- **Every save is undone once.** The saves of a connection are its hand-outs and its
destructions, and one more while it is cached or being shut down. -/
theorem count_of_phaseAfter (h : phaseAfter c log = some p) :
    countOf ConnAction.isSave c log =
      countOf ConnAction.isHandOut c log + countOf ConnAction.isDestroy c log + p.kept := by
  induction log generalizing p with
  | nil =>
    obtain rfl := Option.some.inj h
    rfl
  | cons x log ih =>
    obtain ⟨q, hq, ⟨hx, hn⟩ | ⟨hx, rfl⟩⟩ := phaseAfter_cons.mp h
    · have hlog := ih hq
      have hstep := next_kept hn
      simp only [countOf, countP_cons, hx, decide_true, Bool.true_and] at hlog ⊢
      omega
    · have hlog := ih hq
      simpa [countOf, countP_cons, hx] using hlog

end Replay

end Hengine
