import Mathlib.Algebra.Order.Ring.Nat
import Mathlib.Data.List.Basic

/-!
# Receiving the Response of a Check

The model of `ngx_http_upstream_check_recv_handler`. The response comes in segments, at least one byte each. A
call of the handler reads all that have come, and `recv` gives no more bytes than there is room for. When the
buffer is full it is enlarged by twice, and its `pos` is the start of the new one. Then the parser of the check
type is called. It says `NGX_AGAIN`, or it settles the check.

Memory can always be had here.
-/

namespace Hengine.CheckRecv

open List

/-- Bytes that `recv` can give. -/
structure Segment where
  bytes : List UInt8
  nonempty : bytes ≠ []
deriving DecidableEq

/-- The segments that a call of the handler finds. -/
abbrev Event := List Segment

/-- The bytes of some segments. -/
def Event.bytes (e : Event) : List UInt8 := e.flatMap Segment.bytes

/-- `ctx->recv`: the bytes from `start` to `last`, `pos - start`, and `end - start`. -/
structure RecvBuf where
  data : List UInt8
  pos : ℕ
  size : ℕ
  fits : data.length ≤ size
  room : 0 < size

namespace RecvBuf

/-- The buffer that the first call takes. -/
def init (size : ℕ) (room : 0 < size) : RecvBuf := ⟨[], 0, size, Nat.zero_le _, room⟩

/-- A full buffer is enlarged. -/
def enlarge (b : RecvBuf) : RecvBuf :=
  if b.data.length = b.size then
    ⟨b.data, 0, b.size * 2, b.fits.trans (Nat.le_mul_of_pos_right _ Nat.zero_lt_two),
      Nat.mul_pos b.room Nat.zero_lt_two⟩
  else b

/-- Bytes are received. -/
def receive (b : RecvBuf) (bytes : List UInt8) (h : b.data.length + bytes.length ≤ b.size) : RecvBuf :=
  ⟨b.data ++ bytes, b.pos, b.size, by rwa [length_append], b.room⟩

theorem length_enlarge_lt (b : RecvBuf) : b.enlarge.data.length < b.enlarge.size := by
  have hfits := b.fits
  have hroom := b.room
  rw [enlarge]
  split
  next hfull => show b.data.length < b.size * 2; omega
  next hnot => omega

@[simp] theorem enlarge_data (b : RecvBuf) : b.enlarge.data = b.data := by
  rw [enlarge]
  split <;> rfl

end RecvBuf

/-- The loop over `recv`. What does not fit is read by the next turn. -/
def recvLoop (b : RecvBuf) : Event → RecvBuf
  | [] => b.enlarge
  | seg :: segs =>
    let n := b.enlarge.size - b.enlarge.data.length
    if h : n < seg.bytes.length then
      recvLoop (b.enlarge.receive (seg.bytes.take n) (by
        rw [length_take]
        have := b.enlarge.fits
        omega)) (⟨seg.bytes.drop n, by
          rw [Ne, drop_eq_nil_iff]
          omega⟩ :: segs)
    else
      recvLoop (b.enlarge.receive seg.bytes (by
        have := b.enlarge.fits
        omega)) segs
termination_by segs => segs.bytes.length
decreasing_by
  · have hroom := b.length_enlarge_lt
    simp only [Event.bytes, flatMap_cons, length_append, length_drop]
    omega
  · have hseg := length_pos_iff.mpr seg.nonempty
    simp only [Event.bytes, flatMap_cons, length_append]
    omega

/-- What a parser returns: `NGX_OK`, `NGX_AGAIN`, `NGX_ERROR`; or it takes what `NULL` points to. -/
inductive Rc
  | ok
  | again
  | error
  | crash
deriving DecidableEq, Repr

/-- `ctx`: the buffer, and what the parser of the check type keeps. -/
structure Ctx (κ : Type) where
  recv : RecvBuf
  kept : κ

variable {κ : Type} (parse : Ctx κ → Ctx κ × Rc)

/-- A call of `ngx_http_upstream_check_recv_handler`, up to what the parser says. -/
def recvHandler (ctx : Ctx κ) (e : Event) : Ctx κ × Rc :=
  parse { ctx with recv := recvLoop ctx.recv e }

/-- The verdict after some calls: up for `ok`, down for `error`, none yet for `again`. -/
def run (ctx : Ctx κ) : List Event → Rc
  | [] => .again
  | e :: es =>
    match recvHandler parse ctx e with
    | (ctx, .again) => run ctx es
    | (_, rc) => rc

/-! ### The buffer -/

/-- The size of a buffer that had `size` bytes at first, with `len` bytes in it. -/
def capacity (size len : ℕ) : ℕ :=
  if 0 < size ∧ size ≤ len then capacity (size * 2) len else size
termination_by len + 1 - size
decreasing_by omega

theorem capacity_of_lt {size len : ℕ} (h : len < size) : capacity size len = size := by
  rw [capacity, if_neg (by omega)]

/-- Growing in two steps is growing at once. -/
theorem capacity_capacity (size len : ℕ) {len' : ℕ} (h : len ≤ len') :
    capacity (capacity size len) len' = capacity size len' := by
  fun_induction capacity size len with
  | case1 size hfull ih =>
    rw [ih, capacity.eq_1 size len', if_pos ⟨hfull.1, hfull.2.trans h⟩]
  | case2 => rfl

theorem enlarge_size (b : RecvBuf) : b.enlarge.size = capacity b.size b.data.length := by
  have hfits := b.fits
  have hroom := b.room
  rw [RecvBuf.enlarge]
  split
  next hfull =>
    rw [capacity, if_pos (by omega), capacity_of_lt (by omega)]
  next hnot => rw [capacity_of_lt (by omega)]

theorem enlarge_pos (b : RecvBuf) :
    b.enlarge.pos = if b.size ≤ b.data.length then 0 else b.pos := by
  have hfits := b.fits
  rw [RecvBuf.enlarge]
  split
  next hfull => rw [if_pos hfull.ge]
  next hnot => rw [if_neg (by omega)]

theorem bytes_cons (seg : Segment) (segs : Event) :
    Event.bytes (seg :: segs) = seg.bytes ++ Event.bytes segs := flatMap_cons

/-- **The bytes of a call** stand behind the others. -/
theorem recvLoop_data (b : RecvBuf) (e : Event) : (recvLoop b e).data = b.data ++ e.bytes := by
  fun_induction recvLoop b e with
  | case1 b => rw [RecvBuf.enlarge_data, Event.bytes, flatMap_nil, append_nil]
  | case2 b seg segs n h ih =>
    rw [ih, bytes_cons, bytes_cons]
    show (b.enlarge.data ++ List.take n seg.bytes) ++ (List.drop n seg.bytes ++ _) = _
    rw [RecvBuf.enlarge_data, append_assoc, ← append_assoc (List.take n _), take_append_drop]
  | case3 b seg segs n h ih =>
    rw [ih, bytes_cons]
    show (b.enlarge.data ++ seg.bytes) ++ _ = _
    rw [RecvBuf.enlarge_data, append_assoc]

/-- **The size of the buffer** is what the number of its bytes asks for. -/
theorem recvLoop_size (b : RecvBuf) (e : Event) :
    (recvLoop b e).size = capacity b.size (b.data ++ e.bytes).length := by
  fun_induction recvLoop b e with
  | case1 b => rw [enlarge_size, Event.bytes, flatMap_nil, append_nil]
  | case2 b seg segs n h ih =>
    rw [ih]
    show capacity b.enlarge.size _ = _
    rw [enlarge_size, capacity_capacity]
    · congr 1
      show ((b.enlarge.data ++ List.take n seg.bytes) ++ Event.bytes _).length = _
      rw [bytes_cons, bytes_cons, RecvBuf.enlarge_data, append_assoc,
        ← append_assoc (List.take n _), take_append_drop]
    · show _ ≤ ((b.enlarge.data ++ List.take n seg.bytes) ++ Event.bytes _).length
      rw [RecvBuf.enlarge_data, append_assoc, length_append]
      exact Nat.le_add_right _ _
  | case3 b seg segs n h ih =>
    rw [ih]
    show capacity b.enlarge.size _ = _
    rw [enlarge_size, capacity_capacity]
    · congr 1
      show ((b.enlarge.data ++ seg.bytes) ++ _).length = _
      rw [bytes_cons, RecvBuf.enlarge_data, append_assoc]
    · show _ ≤ ((b.enlarge.data ++ seg.bytes) ++ _).length
      rw [RecvBuf.enlarge_data, append_assoc, length_append]
      exact Nat.le_add_right _ _

/-- **The position is lost** where the bytes fill the buffer. -/
theorem recvLoop_pos (b : RecvBuf) (e : Event) :
    (recvLoop b e).pos = if b.size ≤ (b.data ++ e.bytes).length then 0 else b.pos := by
  -- the first turn enlarges a full buffer, and a later one if what has been read fills it
  have hturn : ∀ (b : RecvBuf) (data : List UInt8), b.data.length ≤ data.length →
      (if b.enlarge.size ≤ data.length then 0 else b.enlarge.pos) =
        if b.size ≤ data.length then 0 else b.pos := by
    intro b data hdata
    by_cases hfull : b.data.length = b.size
    · have hzero : b.enlarge.pos = 0 := by rw [enlarge_pos, if_pos hfull.ge]
      rw [hzero, ite_self, if_pos (by omega)]
    · rw [RecvBuf.enlarge, if_neg hfull]
  fun_induction recvLoop b e with
  | case1 b =>
    rw [enlarge_pos, Event.bytes, flatMap_nil, append_nil]
  | case2 b seg segs n h ih =>
    have hdata : (b.enlarge.data ++ List.take n seg.bytes) ++ Event.bytes
        (⟨seg.bytes.drop n, by rw [Ne, drop_eq_nil_iff]; omega⟩ :: segs) =
        b.data ++ Event.bytes (seg :: segs) := by
      rw [bytes_cons, bytes_cons, RecvBuf.enlarge_data, append_assoc,
        ← append_assoc (List.take n _), take_append_drop]
    rw [ih]
    show (if b.enlarge.size ≤ ((b.enlarge.data ++ List.take n seg.bytes) ++ _).length then 0
      else b.enlarge.pos) = _
    rw [hdata, hturn]
    rw [length_append]
    exact Nat.le_add_right _ _
  | case3 b seg segs n h ih =>
    have hdata : (b.enlarge.data ++ seg.bytes) ++ Event.bytes segs =
        b.data ++ Event.bytes (seg :: segs) := by
      rw [bytes_cons, RecvBuf.enlarge_data, append_assoc]
    rw [ih]
    show (if b.enlarge.size ≤ ((b.enlarge.data ++ seg.bytes) ++ _).length then 0
      else b.enlarge.pos) = _
    rw [hdata, hturn]
    rw [length_append]
    exact Nat.le_add_right _ _

end Hengine.CheckRecv
