import Mathlib.Data.List.Basic

/-!
# Rewriters That Hold Text Back

A rewriter reads its input item by item. With each item it may first give out some text that is
**due**, and then it keeps the item or skips it. Text is due when items were skipped that turn out
to belong to the output: the rewriter held them back. What it gives out for an input is `out`, and
the input may be cut anywhere, since the state is all that goes from one part to the next.

A rewriter that works in place writes over the input it has read. It may do so as long as the text
that is due was held back before: `Holds` bounds the text by a number that grows only with the items
skipped. `Room` is then the invariant of a pass over one piece of memory. The text of a comment that
began in an earlier piece does not fit; it is due at most once, and before anything is written.
-/

namespace Hengine

/-- What a state does with an item: the text that is due before it, whether it is kept, and the next
state. -/
structure Rewriter (σ α : Type*) where
  next : σ → α → σ
  due : σ → α → List α
  keep : σ → α → Bool

namespace Rewriter

variable {σ α : Type*} (R : Rewriter σ α)

/-- What one item leads to in the output. -/
def give (s : σ) (a : α) : List α := R.due s a ++ if R.keep s a then [a] else []

/-- The output for an input. -/
@[grind =]
def out : σ → List α → List α
  | _, [] => []
  | s, a :: as => R.give s a ++ out (R.next s a) as

/-- The state after an input. -/
def after (s : σ) (as : List α) : σ := as.foldl R.next s

@[simp] theorem after_nil (s : σ) : R.after s [] = s := rfl

@[simp] theorem after_cons (s : σ) (a : α) (as : List α) :
    R.after s (a :: as) = R.after (R.next s a) as := rfl

theorem after_append (s : σ) (as bs : List α) :
    R.after s (as ++ bs) = R.after (R.after s as) bs := List.foldl_append

/-- **The input may be cut anywhere.** -/
theorem out_append (s : σ) (as bs : List α) :
    R.out s (as ++ bs) = R.out s as ++ R.out (R.after s as) bs := by
  induction as generalizing s with
  | nil => rfl
  | cons a as ih => simp [out, ih]

theorem out_concat (s : σ) (as : List α) (a : α) :
    R.out s (as ++ [a]) = R.out s as ++ R.give (R.after s as) a := by
  simp [out_append, out]

/-! ### Held-back text -/

/-- `hold` bounds the text that a good state may have due: nothing is held back behind an item that
is kept, and a skipped item adds one to what is. -/
structure Holds (Good : σ → Prop) (hold : σ → ℕ) : Prop where
  good {s : σ} (a : α) : Good s → Good (R.next s a)
  due {s : σ} (a : α) : Good s → (R.due s a).length ≤ hold s
  kept {s : σ} {a : α} : Good s → R.keep s a = true → hold (R.next s a) = 0
  skipped {s : σ} {a : α} : Good s → R.keep s a = false → R.due s a = [] →
    hold (R.next s a) ≤ hold s + 1
  passed {s : σ} {a : α} : Good s → R.keep s a = false → R.due s a ≠ [] → hold (R.next s a) ≤ 1

variable {R}

variable {Good : σ → Prop} {hold : σ → ℕ}

theorem Holds.after (h : R.Holds Good hold) (as : List α) :
    ∀ {s : σ}, Good s → Good (R.after s as) := by
  induction as with
  | nil => exact id
  | cons a as ih => exact fun hs => ih (h.good a hs)

/-- The invariant of a pass over a piece of memory: `read` items of it are read and `write` written,
and text was left to others if `left`. What is held back fits behind what is written, or was not read
here; then nothing is written yet. -/
structure Room (held read write : ℕ) (left : Bool) : Prop where
  fits : write + min held read ≤ read
  first : read < held → write = 0 ∧ left = false

theorem Room.start (held : ℕ) : Room held 0 0 false := ⟨by simp, fun _ => ⟨rfl, rfl⟩⟩

/-- A turn whose text was all read here: it is written. -/
theorem Room.written (h : R.Holds Good hold) {s : σ} {a : α} {i w : ℕ} {left : Bool} (hs : Good s)
    (hr : Room (hold s) i w left) (hfit : (R.due s a).length ≤ i) :
    w + (R.due s a).length ≤ i ∧
      Room (hold (R.next s a)) (i + 1) (w + (R.due s a).length + (R.keep s a).toNat) left := by
  have hdue := h.due a hs
  have hfits := hr.fits
  have hle : w + (R.due s a).length ≤ i := by omega
  refine ⟨hle, ?_⟩
  cases hk : R.keep s a with
  | true =>
    rw [h.kept hs hk, Bool.toNat_true]
    exact ⟨by omega, by omega⟩
  | false =>
    rw [Bool.toNat_false, Nat.add_zero]
    by_cases hd : R.due s a = []
    · have := h.skipped hs hk hd
      rw [hd, List.length_nil]
      exact ⟨by omega, fun hlt => ⟨(hr.first (by omega)).1, (hr.first (by omega)).2⟩⟩
    · have := h.passed hs hk hd
      exact ⟨by omega, by omega⟩

/-- A turn whose text began before this memory: it is left to others, and nothing was before. -/
theorem Room.left (h : R.Holds Good hold) {s : σ} {a : α} {i w : ℕ} {left : Bool} (hs : Good s)
    (hr : Room (hold s) i w left) (hfit : i < (R.due s a).length) :
    (w = 0 ∧ left = false) ∧
      Room (hold (R.next s a)) (i + 1) (R.keep s a).toNat true := by
  have hdue := h.due a hs
  refine ⟨hr.first (by omega), ?_⟩
  cases hk : R.keep s a with
  | true =>
    rw [h.kept hs hk, Bool.toNat_true]
    exact ⟨by omega, by omega⟩
  | false =>
    have hd : R.due s a ≠ [] := by rintro hd; simp [hd] at hfit
    have := h.passed hs hk hd
    rw [Bool.toNat_false]
    exact ⟨by omega, by omega⟩

end Rewriter

end Hengine
