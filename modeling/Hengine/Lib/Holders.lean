import Mathlib.Algebra.Order.BigOperators.Group.List
import Mathlib.Algebra.Order.Ring.Nat

/-!
# Who Holds What

Actors that each hold one resource or none, and how many of them hold a given one. A
reference count is right when it is this number; so the lemmas say how the number
changes when one actor takes a resource, lets it go, or keeps what it has.
-/

namespace Hengine

open List Function

variable {α ι : Type*} [DecidableEq ι] {held : α → Option ι}

/-- How many of the actors hold `i`. -/
def holders (held : α → Option ι) (as : List α) (i : ι) : ℕ :=
  as.countP fun a => held a = some i

/-- Counts when one holder of `old` becomes a holder of `new`. -/
def moveHold (h : ι → ℕ) (old new : Option ι) (i : ι) : ℕ :=
  h i - (if old = some i then 1 else 0) + (if new = some i then 1 else 0)

theorem holders_pos {as : List α} {a : α} {i : ι} (ha : a ∈ as) (h : held a = some i) :
    holders held as i ≠ 0 := by
  have hpos : 0 < holders held as i := countP_pos_iff.mpr ⟨a, ha, by simpa using h⟩
  omega

theorem holders_concat (as : List α) {a : α} (h : held a = none) :
    holders held (as ++ [a]) = holders held as := by
  funext i
  simp [holders, h]

/-- **One actor changes.** -/
theorem holders_set {as : List α} {k : ℕ} {a : α} (ha : as[k]? = some a) (b : α) :
    holders held (as.set k b) = moveHold (holders held as) (held a) (held b) := by
  obtain ⟨hk, hak⟩ := List.getElem?_eq_some_iff.mp ha
  funext i
  simp only [holders, moveHold]
  rw [countP_set hk, hak]
  simp

section Move

variable {h : ι → ℕ} {i : ι}

theorem moveHold_take : moveHold h none (some i) = update h i (h i + 1) := by
  funext j
  by_cases hj : j = i
  · subst hj
    simp [moveHold]
  · rw [update_of_ne hj]
    simp [moveHold, Ne.symm hj]

theorem moveHold_release : moveHold h (some i) none = update h i (h i - 1) := by
  funext j
  by_cases hj : j = i
  · subst hj
    simp [moveHold]
  · rw [update_of_ne hj]
    simp [moveHold, Ne.symm hj]

theorem moveHold_trans (o p : Option ι) :
    moveHold (moveHold h o none) none p = moveHold h o p := by
  funext j
  simp [moveHold]

@[simp]
theorem moveHold_none : moveHold h none none = h := by
  funext j
  simp [moveHold]

theorem moveHold_same {o : Option ι} (ho : ∀ i, o = some i → h i ≠ 0) : moveHold h o o = h := by
  funext j
  simp only [moveHold]
  by_cases hj : o = some j
  · have := ho j hj
    simp only [if_pos hj]
    omega
  · simp [if_neg hj]

end Move

/-! ### Groups of actors -/

/-- How many of the actors hold `i`, when they come in groups. -/
def holdersIn (held : α → Option ι) (groups : List (List α)) (i : ι) : ℕ :=
  (groups.map fun as => holders held as i).sum

/-- One member of a sum is replaced. -/
theorem sum_set_add {β : Type*} (f : β → ℕ) {l : List β} {k : ℕ} {b : β} (h : l[k]? = some b)
    (c : β) : ((l.set k c).map f).sum + f b = (l.map f).sum + f c := by
  induction l generalizing k with
  | nil => simp at h
  | cons d l ih =>
    cases k with
    | zero =>
      obtain rfl : d = b := by simpa using h
      simp only [set_cons_zero, map_cons, sum_cons]
      omega
    | succ k =>
      have hrest := ih (k := k) (by simpa using h)
      simp only [set_cons_succ, map_cons, sum_cons]
      omega

/-- **One group changes** as one of its actors does. -/
theorem holdersIn_set {groups : List (List α)} {k : ℕ} {as bs : List α} {old new : Option ι}
    (has : groups[k]? = some as) (hbs : holders held bs = moveHold (holders held as) old new)
    (hold : ∀ i, old = some i → holders held as i ≠ 0) :
    holdersIn held (groups.set k bs) = moveHold (holdersIn held groups) old new := by
  funext i
  have hsum := sum_set_add (fun as => holders held as i) has bs
  have hle : holders held as i ≤ holdersIn held groups i :=
    single_le_sum (fun _ _ => Nat.zero_le _) _
      (mem_map_of_mem (mem_of_getElem? has))
  have hmove := congrFun hbs i
  simp only [moveHold, holdersIn] at *
  split_ifs at hmove ⊢ with h₁ h₂ h₂
  · have := hold i h₁
    omega
  · have := hold i h₁
    omega
  · omega
  · omega

end Hengine
