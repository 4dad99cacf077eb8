import Mathlib.Data.Int.Notation
import Mathlib.Data.List.Perm.Basic

/-!
# Recycling a Chain of Buffers

The model of `ngx_http_tfs_free_chains` in `ngx_tfs_common.c`. The links and the buffers of a
pool are numbered; a chain is a pointer to its first link. The loop puts the link under the
cursor in front of the free chain and reads the cursor again, which it has not moved, so it
comes back to the same link for ever.
-/

namespace Hengine.FreeChains

open Function

/-- `ngx_buf_t`, with the fields the loop writes. -/
structure Buf where
  start : ℕ
  pos : ℕ
  last : ℕ
  filePos : ℤ
deriving Repr, DecidableEq

/-- `ngx_chain_t`. -/
structure Link where
  buf : ℕ
  next : Option ℕ
deriving Repr, DecidableEq

/-- The memory, and the two heads that the caller passes by address. -/
structure State where
  bufs : ℕ → Buf
  links : ℕ → Link
  free : Option ℕ
  out : Option ℕ

/-- The body of the loop, with the cursor at `cl`. -/
def State.recycle (s : State) (cl : ℕ) : State :=
  let b := (s.links cl).buf
  { s with
    bufs := update s.bufs b
      { s.bufs b with pos := (s.bufs b).start, last := (s.bufs b).start, filePos := 0 }
    links := update s.links cl { s.links cl with next := s.free }
    free := some cl }

/-- The loop, for at most as many tests of its condition as the first argument says. -/
def freeLoop : ℕ → Option ℕ → State → Option State
  | 0, _, _ => none
  | _ + 1, none, s => some s
  | fuel + 1, some cl, s => freeLoop fuel (some cl) (s.recycle cl)

/-- `ngx_http_tfs_free_chains`. -/
def freeChains (fuel : ℕ) (s : State) : Option State := freeLoop fuel s.out s

/-- The links of a chain, from its first to the one that has no next. -/
def IsChain (links : ℕ → Link) : Option ℕ → List ℕ → Prop
  | none, ls => ls = []
  | some _, [] => False
  | some cl, l :: ls => l = cl ∧ IsChain links (links cl).next ls

/-- Two finite chains in one memory: what is free, and what is to be recycled. -/
structure Chains where
  state : State
  free : List ℕ
  out : List ℕ
  free_chain : IsChain state.links state.free free
  out_chain : IsChain state.links state.out out

/-- The call returns, the chain to recycle is empty, and the free chain has every link of both
chains once. -/
def Chains.Recycled (c : Chains) : Prop :=
  ∃ fuel s ls, freeChains fuel c.state = some s ∧ s.out = none ∧
    IsChain s.links s.free ls ∧ ls.Perm (c.out ++ c.free)

/-! ### The loop -/

theorem free_of_some (cl : ℕ) : ∀ (fuel : ℕ) (s : State), freeLoop fuel (some cl) s = none
  | 0, _ => rfl
  | fuel + 1, s => free_of_some cl fuel (s.recycle cl)

theorem isChain_none {links : ℕ → Link} {head : Option ℕ} {ls : List ℕ}
    (h : IsChain links head ls) : head = none ↔ ls = [] := by
  cases head with
  | none => simpa [IsChain] using h
  | some cl =>
    cases ls with
    | nil => exact h.elim
    | cons l ls => simp

/-- **Nothing is recycled but nothing.** -/
theorem Chains.recycled_iff (c : Chains) : c.Recycled ↔ c.out = [] := by
  rw [← isChain_none c.out_chain]
  constructor
  · rintro ⟨fuel, s, ls, hrun, -⟩
    rw [freeChains] at hrun
    cases hout : c.state.out with
    | none => rfl
    | some cl =>
      rw [hout, free_of_some] at hrun
      cases hrun
  · intro hout
    have hempty : c.out = [] := (isChain_none c.out_chain).mp hout
    refine ⟨1, c.state, c.free, ?_, hout, c.free_chain, ?_⟩
    · rw [freeChains, hout, freeLoop]
    · rw [hempty, List.nil_append]

/-- One buffer in a chain of its own, and no free one. -/
def single : Chains where
  state :=
    { bufs := fun _ => ⟨0, 4, 4, 0⟩
      links := fun _ => ⟨0, none⟩
      free := none
      out := some 0 }
  free := []
  out := [0]
  free_chain := rfl
  out_chain := ⟨rfl, rfl⟩

theorem single_hangs : ¬ single.Recycled := by
  rintro ⟨fuel, s, ls, hrun, -⟩
  rw [freeChains, show single.state.out = some 0 from rfl, free_of_some] at hrun
  cases hrun

end Hengine.FreeChains
