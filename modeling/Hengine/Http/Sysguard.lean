import Mathlib.Algebra.Group.Prod
import Mathlib.Algebra.Order.BigOperators.Group.List
import Mathlib.Data.BitVec
import Mathlib.Tactic.Ring
import Hengine.Core.Atoi

/-!
# The Mean Response Time

The model of the ring of `ngx_http_sysguard_module.c`, for a location whose guard of the response
time is on. A slot holds the sums for the requests that were completed in one second, and the
second as its stamp; a completion moves on to the slot of its second. The guard goes back from the
slot of the last completion and adds up the slots whose stamps are right.

It goes back over one slot less than there are seconds in the period, and from the last completion
instead of the present: the mean is right where no request was completed in a second that belongs
to one of these windows only. A clock that is put back takes the ring out of its slots. The sums are
words, which the source reads as signed or unsigned where it needs to; the clock is that of the
epoch, so that the difference of two of its seconds is a `time_t`.
-/

namespace Hengine.Sysguard

open List Function

open Conv (int64)

/-- The bits of a `time_t`, an `ngx_msec_int_t` or an `ngx_uint_t`. -/
abbrev Word := BitVec 64

/-- `ngx_http_sysguard_rt_node_t`. -/
structure RtNode where
  stamp : ℤ
  requests : Word
  sec : Word
  msec : Word
deriving Repr, DecidableEq

/-- `ngx_http_sysguard_rt_ring_t`; an index may be outside the slots. -/
structure RtRing where
  slots : ℤ → RtNode
  nrSlots : ℤ
  current : ℤ
  cachedRtExptime : ℤ
  cachedRt : ℤ

/-- A time, in seconds and milliseconds. -/
structure Time where
  sec : ℤ
  msec : ℤ
deriving Repr, DecidableEq

/-- The ring that `ngx_http_sysguard_merge_conf` makes. -/
def newRing (rtPeriod now : ℤ) : RtRing :=
  { slots := update (fun _ => ⟨0, 0, 0, 0⟩) 0 ⟨now, 0, 0, 0⟩
    nrSlots := rtPeriod
    current := 0
    cachedRtExptime := 0
    cachedRt := 0 }

/-- `ngx_http_sysguard_update_rt_node`, for a request that began at `start`. -/
def updateRtNode (ring : RtRing) (now start : Time) : RtRing :=
  let off := now.sec - (ring.slots ring.current).stamp
  let current := if off ≠ 0 then (int64 (ring.current + off)).tmod ring.nrSlots else ring.current
  let node := if off ≠ 0 then ⟨now.sec, 0, 0, 0⟩ else ring.slots current
  { ring with
    current := current
    slots := update ring.slots current
      { node with
        sec := node.sec + BitVec.ofInt 64 (now.sec - start.sec)
        msec := node.msec + BitVec.ofInt 64 (now.msec - start.msec)
        requests := node.requests + 1 } }

/-- The sums of a slot: the seconds, the milliseconds and the requests. -/
def RtNode.sums (node : RtNode) : Word × Word × Word := (node.sec, node.msec, node.requests)

/-- The loop of `ngx_http_sysguard_update_rt`, where `processed` falls short of the period by the
first argument. -/
def rtLoop (ring : RtRing) (head : ℤ) : ℕ → ℤ → ℤ → Word × Word × Word →
    Word × Word × Word
  | 0, _, _, sums => sums
  | n + 1, i, processed, sums =>
    if i = head then sums
    else
      let node := ring.slots i
      let skip := node.stamp = 0 ∨ (ring.slots ring.current).stamp - node.stamp ≠ processed
      rtLoop ring head n ((if i = 0 then ring.nrSlots else i) - 1) (processed + 1)
        (if skip then sums else sums + node.sums)

/-- What the loop's sums amount to: the milliseconds are signed, the requests are not. -/
def meanRt : Word × Word × Word → ℤ
  | (sec, msec, requests) =>
    let msec := max (msec + sec * 1000).toInt 0
    if requests ≠ 0 ∧ 0 < msec then
      let msec := msec / requests.toNat
      msec / 1000 * 1000 + msec % 1000
    else 0

/-- `ngx_http_sysguard_update_rt`. -/
def updateRt (ring : RtRing) (rtPeriod exptime now : ℤ) : RtRing :=
  let head := (ring.current + 1).tmod ring.nrSlots
  { ring with
    cachedRtExptime := now + exptime
    cachedRt := meanRt (rtLoop ring head rtPeriod.toNat ring.current 0 0) }

/-- A request that was completed, or an update at a second. -/
inductive Event
  | completed (now start : Time)
  | updated (now exptime : ℤ)
deriving Repr, DecidableEq

def step (rtPeriod : ℤ) (ring : RtRing) : Event → RtRing
  | .completed now start => updateRtNode ring now start
  | .updated now exptime => updateRt ring rtPeriod exptime now

/-! ### Windows -/

/-- A completed request: when it ended and when it began. -/
abbrev Completion := Time × Time

def completions : List Event → List Completion
  | [] => []
  | .completed now start :: es => (now, start) :: completions es
  | .updated _ _ :: es => completions es

/-- The time of a response, in milliseconds. -/
def duration (c : Completion) : ℤ := (c.1.sec - c.2.sec) * 1000 + (c.1.msec - c.2.msec)

/-- The requests completed in the last seconds. -/
def recent (log : List Completion) (rtPeriod now : ℤ) : List Completion :=
  log.filter fun c => now - rtPeriod < c.1.sec ∧ c.1.sec ≤ now

/-- **The mean response time** of the last seconds, zero if there is none. -/
def mean (log : List Completion) (rtPeriod now : ℤ) : ℤ :=
  ((recent log rtPeriod now).map duration).sum / (recent log rtPeriod now).length

/-- The second of the last completion; at first, that of the configuration. -/
def lastSec (base : ℤ) : List Event → ℤ
  | [] => base
  | .completed now _ :: es => lastSec now.sec es
  | .updated _ _ :: es => lastSec base es

/-- The clock goes on and stays below `2 ^ 63` less the period, and requests end after they began. -/
def Steady (rtPeriod : ℤ) : ℤ → List Event → Prop
  | _, [] => True
  | clock, .completed now start :: es =>
    clock ≤ now.sec ∧ now.sec + rtPeriod < 2 ^ 63 ∧ 0 ≤ duration (now, start) ∧
      Steady rtPeriod now.sec es
  | clock, .updated now _ :: es => clock ≤ now ∧ Steady rtPeriod now es

/-! ### The slots -/

def sums (c : Completion) : Word × Word × Word :=
  (BitVec.ofInt 64 (c.1.sec - c.2.sec), BitVec.ofInt 64 (c.1.msec - c.2.msec), 1)

/-- The sums over the completions behind the second `lo`, up to the second `hi`. -/
def summed (log : List Completion) (lo hi : ℤ) : Word × Word × Word :=
  (log.map fun c => if lo < c.1.sec ∧ c.1.sec ≤ hi then sums c else 0).sum

/-- **What the ring holds**, when the last completion was at the second `last`: in the slot of each
second of the last period, its sums, or a stamp of another second if it has no completion. -/
structure Inv (p base : ℤ) (log : List Completion) (last : ℤ) (ring : RtRing) : Prop where
  size : ring.nrSlots = p
  current : ring.current = (last - base) % p
  stamp : (ring.slots ring.current).stamp = last
  started : base ≤ last
  old : ∀ j, (ring.slots j).stamp ≤ last
  slot : ∀ s, last - p < s → s ≤ last →
    if (ring.slots ((s - base) % p)).stamp = s then
      (ring.slots ((s - base) % p)).sums = summed log (s - 1) s
    else summed log (s - 1) s = 0
  within : ∀ c ∈ log, base ≤ c.1.sec ∧ c.1.sec ≤ last

variable {p base last : ℤ} {log : List Completion} {ring : RtRing}

/-- Where no request completed, the sum is 0. -/
theorem summed_eq_zero {lo hi : ℤ} (h : ∀ c ∈ log, ¬(lo < c.1.sec ∧ c.1.sec ≤ hi)) :
    summed log lo hi = 0 := by
  induction log with
  | nil => rfl
  | cons c log ih =>
    have hrest := ih fun d hd => h d (mem_cons_of_mem _ hd)
    rw [summed] at hrest ⊢
    rw [map_cons, sum_cons, if_neg (h c mem_cons_self), hrest, zero_add]

theorem summed_snoc (log : List Completion) (c : Completion) (lo hi : ℤ) :
    summed (log ++ [c]) lo hi =
      summed log lo hi + if lo < c.1.sec ∧ c.1.sec ≤ hi then sums c else 0 := by
  simp [summed]

/-- A sum over a window, split at a second. -/
theorem summed_split (log : List Completion) {lo mid hi : ℤ} (h₁ : lo ≤ mid) (h₂ : mid ≤ hi) :
    summed log lo hi = summed log mid hi + summed log lo mid := by
  induction log with
  | nil => rfl
  | cons c log ih =>
    simp only [summed, map_cons, sum_cons] at ih ⊢
    rw [ih, add_add_add_comm]
    congr 1
    split_ifs <;> first
      | omega
      | simp

/-- Two seconds of one window have different slots. -/
theorem slot_ne {s t : ℤ} (hst : s < t) (hlt : t < s + p) : (s - base) % p ≠ (t - base) % p := by
  intro heq
  have h := Int.emod_eq_emod_iff_emod_sub_eq_zero.mp heq.symm
  rw [Int.emod_eq_of_lt (by omega) (by omega)] at h
  omega

/-- A new ring meets the invariant. -/
theorem Inv.new (p : ℤ) (hbase : 0 < base) : Inv p base [] base (newRing p base) where
  size := rfl
  current := by simp [newRing]
  stamp := rfl
  started := Int.le_refl _
  old := by
    intro j
    rcases eq_or_ne j 0 with rfl | hj
    · exact Int.le_refl _
    · simpa [newRing, hj] using hbase.le
  slot := by
    intro s _ _
    split_ifs with hs
    · rcases eq_or_ne ((s - base) % p) 0 with h0 | h0
      · rw [h0]
        rfl
      · simp [newRing, h0, summed, RtNode.sums]
    · rfl
  within := nofun

/-- The slot that a completion writes. -/
theorem Inv.written {now : Time} (start : Time) (h : Inv p base log last ring) (hp : 0 < p)
    (hbase : 0 < base) (hnow : last ≤ now.sec) (hend : now.sec + p < 2 ^ 63) :
    (updateRtNode ring now start).current = (now.sec - base) % p ∧
      ∃ node, (updateRtNode ring now start).slots =
        update ring.slots ((now.sec - base) % p) node ∧ node.stamp = now.sec ∧
        node.sums = summed log (now.sec - 1) now.sec + sums (now, start) := by
  have hcurrent : (int64 (ring.current + (now.sec - last))).tmod p = (now.sec - base) % p := by
    have hpos := Int.emod_nonneg (last - base) hp.ne'
    have hlt := Int.emod_lt_of_pos (last - base) hp
    have hstarted := h.started
    have hfits : int64 (ring.current + (now.sec - last)) = ring.current + (now.sec - last) := by
      rw [int64, h.current]
      omega
    rw [hfits, h.current, Int.tmod_eq_emod_of_nonneg (by omega), Int.emod_add_emod]
    congr 1
    omega
  simp only [updateRtNode, h.stamp, h.size]
  by_cases hoff : now.sec - last = 0
  · have hsec : now.sec = last := by omega
    have hslot := h.slot last (by omega) (Int.le_refl _)
    rw [← h.current, if_pos h.stamp] at hslot
    rw [if_neg (not_not.mpr hoff), if_neg (not_not.mpr hoff), hsec, ← h.current]
    refine ⟨rfl, _, rfl, h.stamp, ?_⟩
    rw [← hslot]
    simp [RtNode.sums, sums, hsec]
  · rw [if_pos hoff, if_pos hoff, hcurrent]
    refine ⟨rfl, _, rfl, rfl, ?_⟩
    rw [summed_eq_zero fun c hc => by have := h.within c hc; omega]
    simp [RtNode.sums, sums]

/-- **A completion** keeps what the ring holds. -/
theorem Inv.completed {now : Time} (start : Time) (h : Inv p base log last ring) (hp : 0 < p)
    (hbase : 0 < base) (hnow : last ≤ now.sec) (hend : now.sec + p < 2 ^ 63) :
    Inv p base (log ++ [(now, start)]) now.sec (updateRtNode ring now start) := by
  obtain ⟨hcurrent, node, hslots, hstamp, hsums⟩ := h.written start hp hbase hnow hend
  have hstarted := h.started
  refine ⟨h.size, hcurrent, by rw [hslots, hcurrent, update_self, hstamp], by omega, ?_, ?_, ?_⟩
  · intro j
    rw [hslots]
    rcases eq_or_ne j ((now.sec - base) % p) with rfl | hj
    · rw [update_self, hstamp]
    · rw [update_of_ne hj]
      exact (h.old j).trans hnow
  · intro s hlo hhi
    rw [hslots, summed_snoc]
    dsimp only
    rcases eq_or_lt_of_le hhi with rfl | hlt
    · rw [update_self, if_pos hstamp, hsums, if_pos (by omega)]
    · have hout : ¬(s - 1 < now.sec ∧ now.sec ≤ s) := by omega
      rw [update_of_ne (slot_ne hlt (by omega)), if_neg hout, add_zero]
      rcases le_or_gt s last with hs | hs
      · exact h.slot s (by omega) hs
      · have hold := h.old ((s - base) % p)
        rw [if_neg (by omega)]
        exact summed_eq_zero fun c hc => by have := h.within c hc; omega
  · intro c hc
    rcases mem_append.mp hc with hc | hc
    · have := h.within c hc
      omega
    · cases mem_singleton.mp hc
      simp only
      omega

/-- **A run**, by induction on the events. -/
theorem Inv.run {clock : ℤ} {events : List Event} (h : Inv p base log last ring) (hp : 0 < p)
    (hbase : 0 < base) (hclock : last ≤ clock) (hsteady : Steady p clock events) :
    Inv p base (log ++ completions events) (lastSec last events) (events.foldl (step p) ring) := by
  induction events generalizing log last ring clock with
  | nil => simpa [completions, lastSec] using h
  | cons e es ih =>
    cases e with
    | completed now start =>
      obtain ⟨hnow, hend, -, hmore⟩ := hsteady
      have hrest := ih (h.completed start hp hbase (hclock.trans hnow) hend) (Int.le_refl _) hmore
      rwa [append_assoc] at hrest
    | updated now exptime =>
      exact ih ⟨h.size, h.current, h.stamp, h.started, h.old, h.slot, h.within⟩
        (hclock.trans hsteady.1) hsteady.2

/-! ### The sum of the guard -/

/-- The slot before the one of a second is that of the second before. -/
theorem slot_pred (hp : 0 < p) (x : ℤ) : (if x % p = 0 then p else x % p) - 1 = (x - 1) % p := by
  have hlt := Int.emod_lt_of_pos x hp
  have hpos := Int.emod_nonneg x hp.ne'
  rw [← Int.emod_sub_emod x]
  split_ifs with h
  · rw [h, ← Int.add_emod_right, Int.emod_eq_of_lt (by omega) (by omega)]
    omega
  · exact (Int.emod_eq_of_lt (by omega) (by omega)).symm

/-- What a turn adds: a slot with the stamp zero has no completion, as the clock was past that. -/
theorem Inv.turn (h : Inv p base log last ring) (hbase : 0 < base) {k : ℤ} (hk : 0 ≤ k)
    (hkp : k < p) (acc : Word × Word × Word) :
    (if (ring.slots ((last - k - base) % p)).stamp = 0 ∨
        last - (ring.slots ((last - k - base) % p)).stamp ≠ k then acc
      else acc + (ring.slots ((last - k - base) % p)).sums) =
      acc + summed log (last - (k + 1)) (last - k) := by
  have hslot := h.slot (last - k) (by omega) (by omega)
  rw [show last - (k + 1) = last - k - 1 by omega]
  by_cases hstamp : (ring.slots ((last - k - base) % p)).stamp = last - k
  · rw [if_pos hstamp] at hslot
    split_ifs with hskip
    · rw [summed_eq_zero fun c hc => by have := h.within c hc; omega, add_zero]
    · rw [hslot]
  · rw [if_neg hstamp] at hslot
    rw [if_pos (by omega), hslot, add_zero]

/-- **The loop adds up** the seconds from the one that it has come to down to the one behind the
head, by induction on the turns that are left. -/
theorem rtLoop_sum (h : Inv p base log last ring) (hbase : 0 < base) {n : ℕ} {k : ℤ}
    {a : Word × Word × Word} (hn : n + k = p) (hk : 0 ≤ k) (hkp : k < p) :
    rtLoop ring ((last + 1 - base) % p) n ((last - k - base) % p) k a =
      a + summed log (last - (p - 1)) (last - k) := by
  induction n generalizing k a with
  | zero => omega
  | succ n ih =>
    rw [rtLoop]
    by_cases hend : k = p - 1
    · have hwrap : (last - k - base) % p = (last + 1 - base) % p := by
        rw [hend, show last - (p - 1) - base = last + 1 - base - p by omega, Int.sub_emod_right]
      rw [if_pos hwrap, hend, summed_eq_zero fun c hc => by omega, add_zero]
    · have hne : (last - k - base) % p ≠ (last + 1 - base) % p :=
        slot_ne (by omega) (by omega)
      simp only [if_neg hne, h.stamp, h.size, slot_pred (hk.trans_lt hkp), h.turn hbase hk hkp]
      rw [show last - k - base - 1 = last - (k + 1) - base by omega,
        ih (by omega) (by omega) (by omega), add_assoc,
        ← summed_split log (by omega : last - (p - 1) ≤ last - (k + 1)) (by omega)]

/-- **The sums of a window** are those of its durations and of their number. -/
theorem summed_amounts (log : List Completion) (lo hi : ℤ) :
    (summed log lo hi).2.1 + (summed log lo hi).1 * 1000 =
        BitVec.ofInt 64 ((log.filter fun c => lo < c.1.sec ∧ c.1.sec ≤ hi).map duration).sum ∧
      (summed log lo hi).2.2 =
        BitVec.ofNat 64 (log.filter fun c => lo < c.1.sec ∧ c.1.sec ≤ hi).length := by
  have hint : ∀ x : ℤ, BitVec.ofInt 64 x = (x : Word) := fun _ => rfl
  have hnat : ∀ n : ℕ, BitVec.ofNat 64 n = (n : Word) := fun _ => rfl
  simp only [hint, hnat]
  induction log with
  | nil => exact ⟨by simp [summed], by simp [summed]⟩
  | cons c log ih =>
    obtain ⟨hsum, hlength⟩ := ih
    have hcons : summed (c :: log) lo hi =
        (if lo < c.1.sec ∧ c.1.sec ≤ hi then sums c else 0) + summed log lo hi := by
      simp only [summed, map_cons, sum_cons]
    rw [hcons, filter_cons]
    by_cases hin : lo < c.1.sec ∧ c.1.sec ≤ hi
    · rw [if_pos hin, if_pos (decide_eq_true hin), map_cons, sum_cons, length_cons, duration,
        Int.cast_add, Nat.cast_succ, ← hsum, ← hlength]
      refine ⟨?_, add_comm _ _⟩
      simp only [Prod.fst_add, Prod.snd_add, sums, hint]
      push_cast
      ring
    · rw [if_neg hin, if_neg (by simpa using hin), zero_add]
      exact ⟨hsum, hlength⟩

/-- **The quotient**, of sums that fit. -/
theorem meanRt_eq {t : Word × Word × Word} {total : ℤ} {count : ℕ}
    (htotal : t.2.1 + t.1 * 1000 = BitVec.ofInt 64 total) (hcount : t.2.2 = BitVec.ofNat 64 count)
    (hpos : 0 ≤ total) (hlt : total < 2 ^ 63) (hcountlt : count < 2 ^ 64) :
    meanRt t = total / count := by
  obtain ⟨sec, msec, requests⟩ := t
  dsimp only at htotal hcount
  have htoInt : (BitVec.ofInt 64 total).toInt = total := by
    rw [BitVec.toInt_ofInt, Int.bmod_def]
    omega
  have htoNat : (BitVec.ofNat 64 count).toNat = count := by
    rw [BitVec.toNat_ofNat, Nat.mod_eq_of_lt hcountlt]
  rw [meanRt, htotal, hcount, htoInt, htoNat, max_eq_left hpos]
  split_ifs with hif
  · dsimp only
    omega
  · rcases not_and_or.mp hif with h0 | h0
    · have hzero : count = 0 := by
        rw [← htoNat, not_not.mp h0]
        rfl
      rw [hzero, Nat.cast_zero, Int.ediv_zero]
    · rw [show total = 0 by omega, Int.zero_ediv]

/-- No request of a steady clock ends before it begins. -/
theorem Steady.duration_nonneg {clock : ℤ} {events : List Event} (h : Steady p clock events) :
    ∀ c ∈ completions events, 0 ≤ duration c := by
  induction events generalizing clock with
  | nil => nofun
  | cons e es ih =>
    cases e with
    | completed now start => exact forall_mem_cons.mpr ⟨h.2.2.1, ih h.2.2.2⟩
    | updated now exptime => exact ih h.2

/-- **The mean is right** in every state of a run in which the clock goes on, if the requests of the
period up to now are those of the period less a second up to the last completion, and their sums fit;
and the ring stays in its slots. -/
theorem mean_right {now exptime : ℤ} {events : List Event} (hp : 1 ≤ p) (hbase : 0 < base)
    (hsteady : Steady p base events)
    (hfits : ((recent (completions events) p now).map duration).sum < 2 ^ 63 ∧
      (recent (completions events) p now).length < 2 ^ 64)
    (hwindows : ∀ c ∈ completions events, now - p < c.1.sec ∧ c.1.sec ≤ now ↔
      lastSec base events - (p - 1) < c.1.sec) :
    (0 ≤ (events.foldl (step p) (newRing p base)).current ∧
      (events.foldl (step p) (newRing p base)).current <
        (events.foldl (step p) (newRing p base)).nrSlots) ∧
    (updateRt (events.foldl (step p) (newRing p base)) p exptime now).cachedRt =
      mean (completions events) p now := by
  have h : Inv p base (completions events) _ _ :=
    (Inv.new p hbase).run (by omega) hbase (Int.le_refl _) hsteady
  have hnonneg := hsteady.duration_nonneg
  generalize events.foldl (step p) (newRing p base) = ring at h ⊢
  generalize lastSec base events = last at *
  generalize completions events = log at *
  refine ⟨?_, ?_⟩
  · rw [h.current, h.size]
    exact ⟨Int.emod_nonneg _ (by omega), Int.emod_lt_of_pos _ (by omega)⟩
  · have hhead : (ring.current + 1).tmod ring.nrSlots = (last + 1 - base) % p := by
      have hpos := Int.emod_nonneg (last - base) (by omega : p ≠ 0)
      rw [h.current, h.size, Int.tmod_eq_emod_of_nonneg (by omega), Int.emod_add_emod]
      congr 1
      omega
    have hloop := rtLoop_sum h hbase (n := p.toNat) (k := 0) (a := 0) (by omega) (by omega)
      (by omega)
    rw [sub_zero, zero_add] at hloop
    have hsame : (log.filter fun c => last - (p - 1) < c.1.sec ∧ c.1.sec ≤ last) =
        recent log p now := by
      refine filter_congr fun c hc => ?_
      have := h.within c hc
      have := hwindows c hc
      simp only [decide_eq_decide]
      omega
    have hsum : 0 ≤ ((recent log p now).map duration).sum := by
      refine sum_nonneg fun x hx => ?_
      obtain ⟨c, hc, rfl⟩ := mem_map.mp hx
      exact hnonneg c (mem_of_mem_filter hc)
    obtain ⟨htotal, hcount⟩ := summed_amounts log (last - (p - 1)) last
    rw [hsame] at htotal hcount
    dsimp only [updateRt]
    rw [hhead, h.current, hloop, meanRt_eq htotal hcount hsum hfits.1 hfits.2, mean]

/-- A run with an update in it. -/
theorem mean_right_pair :
    (updateRt ([.completed ⟨100, 0⟩ ⟨99, 500⟩, .updated 100 1,
      .completed ⟨101, 0⟩ ⟨99, 500⟩].foldl (step 3) (newRing 3 100)) 3 1 101).cachedRt =
      mean [(⟨100, 0⟩, ⟨99, 500⟩), (⟨101, 0⟩, ⟨99, 500⟩)] 3 101 :=
  (mean_right (by omega) (by omega) (by simp [Steady, duration])
    (by simp [completions, recent, duration]) (by simp [completions, lastSec])).2

/-- **A period of one second** has no slot for its mean, and **a clock that is put back** takes the
ring out of its slots. -/
theorem no_slots :
    ((updateRt (updateRtNode (newRing 1 100) ⟨100, 500⟩ ⟨100, 0⟩) 1 1 100).cachedRt = 0 ∧
      mean [(⟨100, 500⟩, ⟨100, 0⟩)] 1 100 = 500) ∧
    (updateRtNode (newRing 3 100) ⟨99, 0⟩ ⟨99, 0⟩).current = -1 := by
  decide

end Hengine.Sysguard
