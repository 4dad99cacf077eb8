import Mathlib.Data.List.Basic
import Mathlib.Data.Nat.ModEq

/-!
# Circular Buffers

A buffer of `N` cells used round and round: positions are unbounded numbers, and the cell
of position `p` is `p % N`. A window of at most `N` consecutive positions never meets a
cell twice. What a program keeps in the buffer is such a window; it reads and writes it
in one piece, or in two when it passes the end of the buffer.
-/

namespace Hengine

open List

variable {α : Type*} {N p q n : ℕ}

/-- The `n` cells from position `p` on, going round a buffer of `N` cells. -/
def circ (buf : List α) (N p n : ℕ) : List (Option α) :=
  (List.range n).map fun i => buf[(p + i) % N]?

/-- The buffer with `xs` written to the cells from `p` on. -/
def putAt (buf : List α) (p : ℕ) (xs : List α) : List α :=
  buf.take p ++ xs ++ buf.drop (p + xs.length)

/-! ### Windows -/

@[simp]
theorem circ_length (buf : List α) : (circ buf N p n).length = n := by
  simp [circ]

theorem circ_congr_mod (buf : List α) (h : p % N = q % N) : circ buf N p n = circ buf N q n := by
  refine map_congr_left fun i _ => ?_
  rw [Nat.add_mod, h, ← Nat.add_mod]

theorem circ_add (buf : List α) (m : ℕ) :
    circ buf N p (m + n) = circ buf N p m ++ circ buf N (p + m) n := by
  simp [circ, range_add, Function.comp_def, Nat.add_assoc]

theorem circ_congr {buf buf' : List α} (h : ∀ i < n, buf'[(p + i) % N]? = buf[(p + i) % N]?) :
    circ buf' N p n = circ buf N p n :=
  map_congr_left fun i hi => h i (mem_range.mp hi)

/-- Equal windows have equal cells. -/
theorem circ_cells {buf buf' : List α} (h : circ buf' N p n = circ buf N p n) {i : ℕ} (hi : i < n) :
    buf'[(p + i) % N]? = buf[(p + i) % N]? := by
  have hcell := congrArg (fun l => l[i]?) h
  simpa [circ, getElem?_range hi] using hcell

/-- A window that does not pass the end. -/
theorem circ_eq_part {buf : List α} (hN : buf.length = N) (h : p + n ≤ N) :
    circ buf N p n = ((buf.drop p).take n).map some := by
  refine ext_getElem? fun i => ?_
  by_cases hi : i < n
  · have hlt : p + i < N := by omega
    have hget : (circ buf N p n)[i]? = some buf[p + i]? := by
      simp [circ, getElem?_range hi, Nat.mod_eq_of_lt hlt]
    rw [hget, getElem?_map, getElem?_take_of_lt hi, getElem?_drop]
    simp [hN, hlt]
  · rw [getElem?_eq_none (by rw [circ_length]; omega),
      getElem?_eq_none (by simp only [length_map, length_take]; omega)]

/-- **Two pieces.** What stands up to the end of the buffer, and the rest from its start. -/
theorem circ_two_piece {buf : List α} (hN : buf.length = N) (hp : p ≤ N) (hn : n ≤ N)
    (hwrap : N - p ≤ n) :
    circ buf N p n = (buf.drop p ++ buf.take (n - (N - p))).map some := by
  have hsplit : n = (N - p) + (n - (N - p)) := by omega
  have hround : circ buf N (p + (N - p)) (n - (N - p)) = circ buf N 0 (n - (N - p)) := by
    apply circ_congr_mod
    rw [Nat.add_sub_cancel' hp, Nat.mod_self, Nat.zero_mod]
  have htail : (buf.drop p).take (N - p) = buf.drop p :=
    take_of_length_le (by rw [length_drop]; omega)
  conv_lhs => rw [hsplit]
  rw [circ_add, hround, circ_eq_part hN (by omega), circ_eq_part hN (by omega), htail,
    drop_zero, map_append]

theorem mod_window_inj {i j : ℕ} (hi : i < N) (hj : j < N) (h : (p + i) % N = (p + j) % N) :
    i = j := by
  have hij : i ≡ j [MOD N] := Nat.ModEq.add_left_cancel' p h
  rwa [Nat.ModEq, Nat.mod_eq_of_lt hi, Nat.mod_eq_of_lt hj] at hij

/-! ### Writing behind a window -/

@[simp]
theorem putAt_length {buf xs : List α} (h : p + xs.length ≤ buf.length) :
    (putAt buf p xs).length = buf.length := by
  simp only [putAt, length_append, length_take, length_drop]
  omega

/-- Writing changes nothing outside. -/
theorem putAt_getElem?_out {buf xs : List α} (h : p ≤ buf.length) {j : ℕ}
    (hj : j < p ∨ p + xs.length ≤ j) : (putAt buf p xs)[j]? = buf[j]? := by
  have hlen : (buf.take p).length = p := by rw [length_take]; omega
  rw [putAt, append_assoc]
  rcases hj with hj | hj
  · rw [getElem?_append_left (by omega), getElem?_take_of_lt hj]
  · rw [getElem?_append_right (by omega), hlen,
      getElem?_append_right (by omega), getElem?_drop]
    congr 1
    omega

/-- What is written before the end is the window there. -/
theorem circ_putAt {buf : List α} (xs : List α) (hN : buf.length = N) (h : p + xs.length ≤ N) :
    circ (putAt buf p xs) N p xs.length = xs.map some := by
  rw [circ_eq_part (by rw [putAt_length (by omega), hN]) h, putAt, append_assoc,
    drop_left' (by rw [length_take]; omega), take_left]

/-- **A write in one piece behind a window.** -/
theorem circ_putAt_window {buf : List α} (xs : List α) {m : ℕ} (hN : buf.length = N)
    (hq : (q + m) % N = p % N) (h : p + xs.length ≤ N) (hroom : m + xs.length ≤ N) :
    circ (putAt buf p xs) N q m = circ buf N q m := by
  refine circ_congr fun i hi => putAt_getElem?_out (by omega) ?_
  by_contra hin
  -- A written cell is the cell of a position behind the window.
  obtain ⟨k, hk, hcell⟩ : ∃ k < xs.length, (q + i) % N = p + k :=
    ⟨(q + i) % N - p, by omega, by omega⟩
  have hpos : (q + i) % N = (q + (m + k)) % N := by
    rw [← Nat.add_assoc, Nat.add_mod (q + m) k, hq, ← Nat.add_mod, ← hcell, Nat.mod_mod]
  have := mod_window_inj (by omega) (by omega) hpos
  omega

/-- `xs` written from `p` on, round the end of the buffer. -/
def putRound (buf : List α) (p : ℕ) (xs : List α) : List α :=
  putAt (putAt buf p (xs.take (buf.length - p))) 0 (xs.drop (buf.length - p))

section Round

variable {buf xs : List α} {m : ℕ}

/-- Writing round keeps the length of the buffer. -/
theorem putRound_length (hp : p ≤ buf.length) (h : xs.length ≤ buf.length) :
    (putRound buf p xs).length = buf.length := by
  have hfirst : (putAt buf p (xs.take (buf.length - p))).length = buf.length :=
    putAt_length (by rw [length_take]; omega)
  rw [putRound, putAt_length (by rw [hfirst, length_drop]; omega), hfirst]

/-- **A write in two pieces behind a window.** -/
theorem circ_putRound_window (hN : buf.length = N) (hp : p ≤ N) (hq : (q + m) % N = p % N)
    (hwrap : N - p ≤ xs.length) (hroom : m + xs.length ≤ N) :
    circ (putRound buf p xs) N q m = circ buf N q m := by
  have htake : (xs.take (buf.length - p)).length = N - p := by rw [length_take]; omega
  have hfirst : (putAt buf p (xs.take (buf.length - p))).length = N := by
    rw [putAt_length (by omega), hN]
  have hstart : (q + (m + (N - p))) % N = 0 % N := by
    rw [← Nat.add_assoc, Nat.add_mod, hq, ← Nat.add_mod, Nat.add_sub_cancel' hp, Nat.mod_self,
      Nat.zero_mod]
  -- The second piece is written behind the window made longer by the first.
  have hsecond := circ_putAt_window (xs.drop (buf.length - p)) hfirst hstart
    (by rw [length_drop]; omega) (by rw [length_drop]; omega)
  rw [circ_add, circ_add] at hsecond
  rw [putRound, (append_inj hsecond (by simp)).1,
    circ_putAt_window _ hN hq (by omega) (by omega)]

/-- What a write in two pieces has written. -/
theorem circ_putRound (hN : buf.length = N) (hp : p ≤ N) (hwrap : N - p ≤ xs.length)
    (hroom : xs.length ≤ N) : circ (putRound buf p xs) N p xs.length = xs.map some := by
  have htake : (xs.take (buf.length - p)).length = N - p := by rw [length_take]; omega
  have hdrop : (xs.drop (buf.length - p)).length = xs.length - (N - p) := by
    rw [length_drop]; omega
  have hfirst : (putAt buf p (xs.take (buf.length - p))).length = N := by
    rw [putAt_length (by omega), hN]
  have hstart : (p + (N - p)) % N = 0 % N := by
    rw [Nat.add_sub_cancel' hp, Nat.mod_self, Nat.zero_mod]
  have hsplit : xs.length = (N - p) + (xs.length - (N - p)) := by omega
  conv_lhs => rw [hsplit]
  rw [circ_add, putRound, circ_putAt_window _ hfirst hstart (by omega) (by omega)]
  have h1 := circ_putAt (xs.take (buf.length - p)) hN (p := p) (by omega)
  have h2 := circ_putAt (xs.drop (buf.length - p)) hfirst (p := 0) (by omega)
  rw [htake] at h1
  rw [hdrop] at h2
  rw [h1, circ_congr_mod _ hstart, h2, ← map_append, take_append_drop]

end Round

end Hengine
