import Hengine.Upstream.Check

/-!
# When a Checked Peer Goes Up or Down

A record counts successes and failures in a row, and its state changes when a count reaches the bound
of the configuration. Any worker may report, each with its own configuration, since peers of one
address share a record; the balancers count their requests in between, the checks change hands, and
after a reload a new record goes on where the old one was.

A count goes on after the change, up to its overflow, but then the state is the other one, and the
count does not matter: `Counts` says that the count towards the next change is the length of the
run of equal results, and that it has not overflowed.
-/

namespace Hengine.Check

open List

/-- What happens to a record in use. -/
inductive RecordEvent
  /-- a worker reports the result of a check -/
  | report (conf : Conf) (now : ℕ) (result : Bool)
  /-- a balancer takes the peer -/
  | get
  /-- a balancer lets the peer go -/
  | free
  /-- a worker begins a check, or ends it -/
  | own (owner : Option ℕ) (accessTime : ℕ)
  /-- a record of the next process inherits from this one -/
  | reload (p : Peer)

/-- The record after an event. -/
def RecordEvent.apply (p : PeerShm) : RecordEvent → PeerShm
  | .report conf now result => p.statusUpdate conf now result
  | .get => p.get
  | .free => p.free
  | .own owner accessTime => { p with owner := owner, accessTime := accessTime }
  | .reload peer => peer.record (some p)

/-- The record after some events. -/
def PeerShm.after (p : PeerShm) (es : List RecordEvent) : PeerShm := es.foldl RecordEvent.apply p

/-- The results that were reported. -/
def results (es : List RecordEvent) : List Bool :=
  es.filterMap fun
    | .report _ _ result => some result
    | _ => none

/-- The length of the run of results `b` at the end. -/
def streak (b : Bool) (rs : List Bool) : ℕ := (rs.reverse.takeWhile (· = b)).length

@[simp] theorem streak_nil (b : Bool) : streak b [] = 0 := rfl

/-- One more result goes on with a streak or ends it. -/
theorem streak_concat (b r : Bool) (rs : List Bool) :
    streak b (rs ++ [r]) = if r = b then streak b rs + 1 else 0 := by
  simp only [streak, reverse_append, reverse_singleton, singleton_append,
    takeWhile_cons, decide_eq_true_eq]
  split_ifs <;> simp

/-- The count towards the next change is the length of the run, and can still grow. -/
structure Counts (p : PeerShm) (rs : List Bool) : Prop where
  used : p.deleted = false
  rise : p.down = true → p.riseCount.toNat = streak true rs ∧ streak true rs + 1 < 2 ^ 64
  fall : p.down = false → p.fallCount.toNat = streak false rs ∧ streak false rs + 1 < 2 ^ 64

theorem Counts.start {p : PeerShm} (h : p.deleted = false) (initDown : Bool) :
    Counts (p.initShmPeer none initDown) [] :=
  ⟨h, fun _ => ⟨rfl, by simp⟩, fun _ => ⟨rfl, by simp⟩⟩

theorem toNat_succ {c : UInt64} {n : ℕ} (h : c.toNat = n) (hn : n + 1 < 2 ^ 64) :
    (c + 1).toNat = n + 1 := by
  rw [UInt64.toNat_add, h]
  exact Nat.mod_eq_of_lt hn

section Report

variable {p : PeerShm} {rs : List Bool} {conf : Conf} {now : ℕ}

/-- A check that has succeeded. -/
theorem statusUpdate_success (h : p.deleted = false) :
    p.statusUpdate conf now true =
      { p with
        riseCount := p.riseCount + 1
        fallCount := 0
        down := p.down && !decide (conf.riseCount ≤ p.riseCount + 1)
        accessTime := now } := by
  simp only [PeerShm.statusUpdate, h, Bool.false_eq_true, if_false, if_true]
  cases hd : p.down <;> by_cases hle : conf.riseCount ≤ p.riseCount + 1 <;> simp [hle]

/-- A check that has failed. -/
theorem statusUpdate_failure (h : p.deleted = false) :
    p.statusUpdate conf now false =
      { p with
        riseCount := 0
        fallCount := p.fallCount + 1
        down := p.down || decide (conf.fallCount ≤ p.fallCount + 1)
        accessTime := now } := by
  simp only [PeerShm.statusUpdate, h, Bool.false_eq_true, if_false]
  cases hd : p.down <;> by_cases hle : conf.fallCount ≤ p.fallCount + 1 <;> simp [hle]

theorem next_lt {c bound : UInt64} {n : ℕ} (h : c.toNat = n) (hn : n + 1 < 2 ^ 64) :
    ¬ bound ≤ c + 1 ↔ n + 1 < bound.toNat := by
  rw [UInt64.le_iff_toNat_le, toNat_succ h hn, Nat.not_le]

variable (conf now) in
/-- **A success.** -/
theorem Counts.success (h : Counts p rs) :
    Counts (p.statusUpdate conf now true) (rs ++ [true]) ∧
      ((p.statusUpdate conf now true).down = true ↔
        p.down = true ∧ streak true (rs ++ [true]) < conf.riseCount.toNat) := by
  have hbound := conf.riseCount.toNat_lt
  have hrise : streak true (rs ++ [true]) = streak true rs + 1 := by simp [streak_concat]
  have hfall : streak false (rs ++ [true]) = 0 := by simp [streak_concat]
  have hdown : (p.down && !decide (conf.riseCount ≤ p.riseCount + 1)) = true ↔
      p.down = true ∧ streak true rs + 1 < conf.riseCount.toNat := by
    rw [Bool.and_eq_true, Bool.not_eq_true', decide_eq_false_iff_not]
    refine and_congr_right fun hd => ?_
    exact next_lt (h.rise hd).1 (h.rise hd).2
  rw [statusUpdate_success h.used, hrise]
  refine ⟨⟨h.used, fun hd => ?_, fun _ => ?_⟩, hdown⟩
  · obtain ⟨hp, hlt⟩ := hdown.1 hd
    rw [hrise]
    exact ⟨toNat_succ (h.rise hp).1 (h.rise hp).2, by omega⟩
  · rw [hfall]
    exact ⟨rfl, by omega⟩

variable (conf now) in
/-- **A failure.** -/
theorem Counts.failure (h : Counts p rs) :
    Counts (p.statusUpdate conf now false) (rs ++ [false]) ∧
      ((p.statusUpdate conf now false).down = false ↔
        p.down = false ∧ streak false (rs ++ [false]) < conf.fallCount.toNat) := by
  have hbound := conf.fallCount.toNat_lt
  have hfall : streak false (rs ++ [false]) = streak false rs + 1 := by simp [streak_concat]
  have hrise : streak true (rs ++ [false]) = 0 := by simp [streak_concat]
  have hdown : (p.down || decide (conf.fallCount ≤ p.fallCount + 1)) = false ↔
      p.down = false ∧ streak false rs + 1 < conf.fallCount.toNat := by
    rw [Bool.or_eq_false_iff, decide_eq_false_iff_not]
    refine and_congr_right fun hd => ?_
    exact next_lt (h.fall hd).1 (h.fall hd).2
  rw [statusUpdate_failure h.used, hfall]
  refine ⟨⟨h.used, fun _ => ?_, fun hd => ?_⟩, hdown⟩
  · rw [hrise]
    exact ⟨rfl, by omega⟩
  · obtain ⟨hp, hlt⟩ := hdown.1 hd
    rw [hfall]
    exact ⟨toNat_succ (h.fall hp).1 (h.fall hp).2, by omega⟩

end Report

/-- **One event.** -/
theorem Counts.step {p : PeerShm} {es : List RecordEvent} (h : Counts p (results es))
    (e : RecordEvent) : Counts (e.apply p) (results (es ++ [e])) := by
  have hsplit : results (es ++ [e]) = results es ++ results [e] := filterMap_append
  rw [hsplit]
  cases e with
  | report conf now result =>
    cases result with
    | true => exact (h.success conf now).1
    | false => exact (h.failure conf now).1
  | get | own => exact (append_nil (results es)).symm ▸ ⟨h.used, h.rise, h.fall⟩
  | free =>
    refine (append_nil (results es)).symm ▸ ?_
    simp only [RecordEvent.apply, PeerShm.free]
    split_ifs
    · exact ⟨h.used, h.rise, h.fall⟩
    · exact h
  | reload peer => exact (append_nil (results es)).symm ▸ ⟨rfl, h.rise, h.fall⟩

/-- Records add up. -/
theorem Counts.after (es : List RecordEvent) : ∀ {p : PeerShm} {before : List RecordEvent},
    Counts p (results before) → Counts (p.after es) (results (before ++ es)) := by
  induction es with
  | nil => exact fun h => by rwa [append_nil]
  | cons e es ih =>
    intro p before h
    have hrest := ih (h.step e)
    rwa [append_assoc, singleton_append] at hrest

/-- **The state of a peer.** After any events in the life of a record, with results of any workers
under any configurations, a report takes the peer from down to up if and only if it is a success that ends a run of at least
`riseCount` successes, and from up to down if and only if it is a failure that ends a run of at least
`fallCount` failures; and no other event changes the state. -/
theorem status_changes (sockaddr : Option (List UInt8)) (socklen checksum : ℕ) (initDown : Bool)
    (es : List RecordEvent) :
    let zeroed := { PeerShm.zero with sockaddr := sockaddr, socklen := socklen, checksum := checksum }
    let p := (zeroed.initShmPeer none initDown).after es
    (∀ conf now result,
      let n := streak result (results (es ++ [.report conf now result]))
      ((p.down = true ∧ (p.statusUpdate conf now result).down = false) ↔
        p.down = true ∧ result = true ∧ conf.riseCount.toNat ≤ n) ∧
      ((p.down = false ∧ (p.statusUpdate conf now result).down = true) ↔
        p.down = false ∧ result = false ∧ conf.fallCount.toNat ≤ n)) ∧
    ∀ e : RecordEvent, results [e] = [] → (e.apply p).down = p.down := by
  intro zeroed p
  have hstart : Counts (zeroed.initShmPeer none initDown) (results []) := Counts.start rfl initDown
  have h : Counts p (results es) := hstart.after es
  clear_value p
  refine ⟨?_, ?_⟩
  · intro conf now result
    have hsplit : results (es ++ [.report conf now result]) = results es ++ [result] :=
      filterMap_append
    rw [hsplit]
    cases result with
    | true =>
      obtain ⟨-, hdown⟩ := h.success conf now
      cases hd : p.down <;> cases hq : (p.statusUpdate conf now true).down <;>
        simp_all
    | false =>
      obtain ⟨-, hdown⟩ := h.failure conf now
      cases hd : p.down <;> cases hq : (p.statusUpdate conf now false).down <;>
        simp_all
  · intro e he
    cases e with
    | report conf now result => cases he
    | get | own => rfl
    | free =>
      simp only [RecordEvent.apply, PeerShm.free]
      split_ifs <;> rfl
    | reload peer => rfl

end Hengine.Check
