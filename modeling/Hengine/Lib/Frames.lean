import Mathlib.Data.List.Basic

/-!
# Streams of Frames

A frame is a header of a fixed size and a body of which the header tells the length. A stream is cut
into whole frames and a rest, the frame that has only begun (`cut`). What comes later never changes the
frames that are whole, and what has been cut off needs no second look: only the rest goes on.
-/

namespace Hengine

open List

/-- The size of a header, and the length that it tells. -/
structure FrameFormat (β : Type*) where
  size : ℕ
  len : List β → ℕ
  pos : 0 < size

namespace FrameFormat

variable {β : Type*} (F : FrameFormat β)

/-- The size of the first frame, from its header. -/
def total (s : List β) : ℕ := F.size + F.len (s.take F.size)

/-- The stream begins with a whole frame. -/
def Whole (s : List β) : Prop := F.total s ≤ s.length

instance (s : List β) : Decidable (F.Whole s) := inferInstanceAs (Decidable (_ ≤ _))

/-- The whole frames, and the rest. -/
def cut (s : List β) : List (List β) × List β :=
  if F.Whole s then
    let r := cut (s.drop (F.total s))
    (s.take (F.total s) :: r.1, r.2)
  else ([], s)
termination_by s.length
decreasing_by
  rename_i h
  have hpos := F.pos
  unfold Whole total at h
  rw [length_drop, total]
  omega

/-- The whole frames. -/
def frames (s : List β) : List (List β) := (F.cut s).1

/-- The frame that has only begun. -/
def rest (s : List β) : List β := (F.cut s).2

variable {F}

variable {s : List β}

theorem Whole.size_le (h : F.Whole s) : F.size ≤ s.length :=
  Nat.le_trans (Nat.le_add_right _ _) h

theorem total_append (h : F.size ≤ s.length) (t : List β) : F.total (s ++ t) = F.total s := by
  rw [total, total, take_append_of_le_length h]

theorem Whole.append (h : F.Whole s) (t : List β) : F.Whole (s ++ t) := by
  rw [Whole, total_append h.size_le, length_append]
  exact Nat.le_trans h (Nat.le_add_right _ _)

theorem frames_short (h : ¬ F.Whole s) : F.frames s = [] := by
  rw [frames, cut, if_neg h]

theorem rest_short (h : ¬ F.Whole s) : F.rest s = s := by
  rw [rest, cut, if_neg h]

theorem frames_step (h : F.Whole s) :
    F.frames s = s.take (F.total s) :: F.frames (s.drop (F.total s)) := by
  rw [frames, cut, if_pos h]
  rfl

theorem rest_step (h : F.Whole s) : F.rest s = F.rest (s.drop (F.total s)) := by
  rw [rest, cut, if_pos h]
  rfl

/-- **A whole frame in front.** -/
theorem frames_whole {f : List β} (h : f.length = F.total f) (t : List β) :
    F.frames (f ++ t) = f :: F.frames t := by
  have hwhole : F.Whole f := Nat.le_of_eq h.symm
  rw [frames_step (hwhole.append t), total_append hwhole.size_le, ← h, take_left, drop_left]

/-- Behind a whole frame the rest begins. -/
theorem rest_whole {f : List β} (h : f.length = F.total f) (t : List β) :
    F.rest (f ++ t) = F.rest t := by
  have hwhole : F.Whole f := Nat.le_of_eq h.symm
  rw [rest_step (hwhole.append t), total_append hwhole.size_le, ← h, drop_left]

/-- Whole frames begin with one. -/
theorem Whole.split (h : F.Whole s) :
    ∃ f t, s = f ++ t ∧ f.length = F.total f ∧ f = s.take (F.total s) := by
  have hlen : (s.take (F.total s)).length = F.total s := length_take_of_le h
  refine ⟨_, _, (take_append_drop (F.total s) s).symm, ?_, rfl⟩
  have hsize : F.size ≤ (s.take (F.total s)).length := by
    rw [hlen]
    exact Nat.le_add_right _ _
  conv_rhs => rw [← total_append hsize (s.drop (F.total s)), take_append_drop]
  exact hlen

theorem not_whole_rest (s : List β) : ¬ F.Whole (F.rest s) := by
  by_cases h : F.Whole s
  · rw [rest_step h]
    exact not_whole_rest _
  · rwa [rest_short h]
termination_by s.length
decreasing_by
  have hpos := F.pos
  unfold Whole total at h
  rw [length_drop, total]
  omega

/-- **A stream that comes in two parts**: what is left of the first goes before the second. -/
theorem cut_append (s t : List β) :
    F.frames (s ++ t) = F.frames s ++ F.frames (F.rest s ++ t) ∧
      F.rest (s ++ t) = F.rest (F.rest s ++ t) := by
  by_cases h : F.Whole s
  · obtain ⟨f, u, hs, hf, -⟩ := h.split
    have hlt : u.length < s.length := by
      rw [hs, length_append, hf, total]
      have hpos := F.pos
      omega
    obtain ⟨hframes, hrest⟩ := cut_append u t
    rw [hs, append_assoc, frames_whole hf, frames_whole hf, rest_whole hf, rest_whole hf, hframes,
      hrest]
    exact ⟨rfl, rfl⟩
  · rw [frames_short h, rest_short h]
    exact ⟨rfl, rfl⟩
termination_by s.length

end FrameFormat

end Hengine
