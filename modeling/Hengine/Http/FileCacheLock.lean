import Hengine.Http.FileCache

/-!
# The Lock of a Cache Entry

With the cache lock only one request at a time goes to the upstream for an entry that is not in
the cache. The lock is the flag `updating` of the node, with the time `lock_time` until which it
is respected: a request that finds the flag set and the time over takes the lock from its owner.
The owner may still be at work and finish later, and then it should not clear the flag of the
one that has taken over. `ngx_http_file_cache_free` sees to that by comparing `lock_time`;
`ngx_http_file_cache_update` and `ngx_http_file_cache_update_variant` clear the flag whoever set
it.

The machine here is one node and the requests for it, under a clock that all of them read. A
request may come from another node, with which `ngx_http_file_cache_update_variant` has left
`updating` and `lock_time` in its context.
-/

namespace Hengine

open List Option

/-- A request for the node: its context, when it set the flag of this node, whether it did so in
`ngx_http_file_cache_lock`, and whether it has finished with the node. -/
structure LockReq where
  ctx : CacheCtx
  setAt : Option ℕ := none
  throughLock : Bool := false
  done : Bool := false
deriving Repr, DecidableEq

/-- A node, the time, and the requests for the node. -/
structure LockState where
  node : FileCacheNode
  now : ℕ
  reqs : List LockReq
deriving Repr, DecidableEq

/-- The test of `ngx_http_file_cache_lock`. -/
def FileCacheNode.lockable (now : ℕ) (n : FileCacheNode) : Bool :=
  !n.updating || decide (n.lockTime ≤ now)

/-- What a request does with the node. -/
inductive LockOp
  | lock
  | readStale
  | update (file : Option (ℕ × ℕ))
  | updateVariant
  | reopen
  | free
deriving Repr, DecidableEq

/-- The flag was set by the request. -/
def LockReq.set (now : ℕ) (throughLock : Bool) (c : CacheCtx) (r : LockReq) : LockReq :=
  { r with ctx := c, setAt := some now, throughLock := throughLock }

/-- One operation. A request sets the flag once, and has finished after the last four. -/
def lockReqStep (now : ℕ) (n : FileCacheNode) (r : LockReq) :
    LockOp → Option (FileCacheNode × LockReq)
  | .lock =>
    if r.setAt.isSome then none
    else if n.lockable now then
      let t := fileCacheLock now r.ctx n
      some (t.2, r.set now true t.1)
    else some (n, r)
  | .readStale =>
    if r.setAt.isSome then none
    else if n.updating then some (n, r)
    else
      let t := readStale r.ctx n
      some (t.2.2, r.set now false t.2.1)
  | .update file => some (n.update r.ctx file, { r with done := true })
  | .updateVariant => some (n.leaveVariant, { r with done := true })
  | .reopen => some (n.leave, { r with done := true })
  | .free => some (n.release r.ctx, { r with done := true })

/-- The steps: time passes, a request comes to the node, or does something with it. -/
inductive LockEvent
  | tick (d : ℕ)
  | enter (c : CacheCtx)
  | act (k : ℕ) (op : LockOp)
deriving Repr, DecidableEq

/-- One step. -/
def lockStep (s : LockState) : LockEvent → Option LockState
  | .tick d => some { s with now := s.now + d }
  | .enter c => some { s with reqs := s.reqs ++ [{ ctx := c }] }
  | .act k op =>
    match s.reqs[k]? with
    | none => none
    | some r =>
      if r.done then none
      else
        (lockReqStep s.now s.node r op).map fun t =>
          { s with node := t.1, reqs := s.reqs.set k t.2 }

/-- The machine: any node, with no requests at first. -/
def lockMachine : Machine LockState LockEvent :=
  .ofStep (fun s => s.reqs = []) lockStep

/-! ### What an operation does to the flag -/

/-- The request has set the flag and has not finished. -/
def LockReq.Sets (r : LockReq) : Prop := r.done = false ∧ r.setAt.isSome = true

/-- What one operation can do: nothing to the flag, set it when it is free or its time is over,
or clear it at the end. -/
inductive LockMove (now : ℕ) (n : FileCacheNode) (r : LockReq) (op : LockOp) :
    FileCacheNode → LockReq → Prop
  | same {n' : FileCacheNode} {r' : LockReq} : n'.updating = n.updating → n'.lockTime = n.lockTime →
      r' = r ∨ r'.done = true → LockMove now n r op n' r'
  | set {n' : FileCacheNode} {r' : LockReq} : n.lockable now = true → r.setAt = none →
      n'.updating = true → r'.ctx.updating = true → r'.ctx.lockTime = n'.lockTime →
      (r'.throughLock = true → ∃ t, r'.setAt = some t ∧ r'.ctx.lockTime = t + r'.ctx.lockAge) →
      LockMove now n r op n' r'
  | clear {n' : FileCacheNode} {r' : LockReq} : n'.updating = false → n'.lockTime = n.lockTime →
      r'.done = true → (op = .free → r.ctx.updating = true ∧ r.ctx.lockTime = n.lockTime) →
      (op = .free ∨ op = .updateVariant ∨ ∃ file, op = .update file) → LockMove now n r op n' r'

/-- A release clears the flag of its own lock only. -/
theorem FileCacheNode.release_flag (c : CacheCtx) (n : FileCacheNode) :
    (n.release c).lockTime = n.lockTime ∧
      (n.release c).updating =
        if c.updating && n.lockTime == c.lockTime then false else n.updating := by
  rw [FileCacheNode.release]
  split
  · split <;> exact ⟨rfl, rfl⟩
  · exact ⟨rfl, rfl⟩

/-- **What an operation can do.** -/
theorem lockReqStep_cases {now : ℕ} {n n' : FileCacheNode} {r r' : LockReq} {op : LockOp}
    (h : lockReqStep now n r op = some (n', r')) : LockMove now n r op n' r' := by
  cases op with
  | lock =>
    rw [lockReqStep] at h
    split at h
    · cases h
    · rename_i hset
      have hnone : r.setAt = none := by simpa using hset
      split at h
      · rename_i hlock
        cases h
        have hif : (!n.updating || decide (n.lockTime ≤ now)) = true := hlock
        refine .set hlock hnone ?_ ?_ ?_ ?_
        · simp [fileCacheLock, hif]
        · simp [fileCacheLock, hif, LockReq.set]
        · simp [fileCacheLock, hif, LockReq.set]
        · intro _
          exact ⟨now, rfl, by simp [fileCacheLock, hif, LockReq.set]⟩
      · cases h
        exact .same rfl rfl (Or.inl rfl)
  | readStale =>
    rw [lockReqStep] at h
    split at h
    · cases h
    · rename_i hset
      have hnone : r.setAt = none := by simpa using hset
      split at h
      · cases h
        exact .same rfl rfl (Or.inl rfl)
      · rename_i hupd
        cases h
        refine .set (by simp [FileCacheNode.lockable, hupd]) hnone ?_ ?_ ?_ ?_
        · simp [readStale, hupd]
        · simp [readStale, hupd, LockReq.set]
        · simp [readStale, hupd, LockReq.set]
        · intro ht
          cases ht
  | update file =>
    cases h
    exact .clear rfl rfl rfl (fun hop => by cases hop) (Or.inr (Or.inr ⟨file, rfl⟩))
  | updateVariant =>
    cases h
    exact .clear rfl rfl rfl (fun hop => by cases hop) (Or.inr (Or.inl rfl))
  | reopen =>
    cases h
    exact .same rfl rfl (Or.inr rfl)
  | free =>
    cases h
    obtain ⟨htime, hflag⟩ := n.release_flag r.ctx
    by_cases hmatch : (r.ctx.updating && n.lockTime == r.ctx.lockTime) = true
    · rw [if_pos hmatch] at hflag
      simp only [Bool.and_eq_true, beq_iff_eq] at hmatch
      exact .clear hflag htime rfl (fun _ => ⟨hmatch.1, hmatch.2.symm⟩) (Or.inl rfl)
    · rw [if_neg hmatch] at hflag
      exact .same hflag htime (Or.inr rfl)

/-! ### The invariant -/

/-- The request owns the lock: it set the flag of this node, and `lock_time` is its own. -/
def LockReq.Owns (n : FileCacheNode) (r : LockReq) : Prop :=
  r.setAt.isSome = true ∧ r.ctx.lockTime = n.lockTime

instance LockReq.Owns.decidable (n : FileCacheNode) (r : LockReq) : Decidable (r.Owns n) :=
  inferInstanceAs (Decidable (_ ∧ _))

/-- The flag is set and its time is not over. -/
def FileCacheNode.Locked (now : ℕ) (n : FileCacheNode) : Prop :=
  n.updating = true ∧ now < n.lockTime

instance FileCacheNode.Locked.decidable (now : ℕ) (n : FileCacheNode) : Decidable (n.Locked now) :=
  inferInstanceAs (Decidable (_ ∧ _))

/-- The condition on the steps: no request but its owner clears the flag of a locked node. That
is a condition on `update` and `update_variant`, and on a `free` by a request that has brought
`updating` and the very same `lock_time` from another node. -/
def ClearSafe (s : LockState) : LockEvent → Prop
  | .act k (.update _) => ∀ r ∈ s.reqs[k]?, s.node.Locked s.now → r.Owns s.node
  | .act k .updateVariant => ∀ r ∈ s.reqs[k]?, s.node.Locked s.now → r.Owns s.node
  | .act k .free => ∀ r ∈ s.reqs[k]?, s.node.Locked s.now → r.ctx.updating = true →
      r.ctx.lockTime = s.node.lockTime → r.setAt.isSome = true
  | _ => True

instance ClearSafe.decidable (s : LockState) : (e : LockEvent) → Decidable (ClearSafe s e)
  | .act k (.update _) =>
    inferInstanceAs (Decidable (∀ r ∈ s.reqs[k]?, s.node.Locked s.now → r.Owns s.node))
  | .act k .updateVariant =>
    inferInstanceAs (Decidable (∀ r ∈ s.reqs[k]?, s.node.Locked s.now → r.Owns s.node))
  | .act k .free =>
    inferInstanceAs (Decidable (∀ r ∈ s.reqs[k]?, s.node.Locked s.now → r.ctx.updating = true →
      r.ctx.lockTime = s.node.lockTime → r.setAt.isSome = true))
  | .act _ .lock | .act _ .readStale | .act _ .reopen | .tick _ | .enter _ => .isTrue trivial

/-- The invariant. Of the requests that have set the flag and not finished, at most one has a
`lock_time` that is not over; then the flag is set, with this time. -/
structure LockOk (s : LockState) : Prop where
  time : ∀ r ∈ s.reqs, r.Sets → r.throughLock = true →
    ∃ t, r.setAt = some t ∧ r.ctx.lockTime = t + r.ctx.lockAge
  flag : ∀ r ∈ s.reqs, r.Sets → s.now < r.ctx.lockTime →
    s.node.updating = true ∧ s.node.lockTime = r.ctx.lockTime
  one : ∀ (j k : ℕ) (r q : LockReq), s.reqs[j]? = some r → s.reqs[k]? = some q → j ≠ k →
    r.Sets → q.Sets → s.now < r.ctx.lockTime → q.ctx.lockTime ≤ s.now

namespace LockOk

variable {s : LockState} {k : ℕ} {r r' : LockReq} {n' : FileCacheNode} {op : LockOp}

/-- Where the node can be locked, older locks have timed out. -/
theorem expired (ok : LockOk s) (hlock : s.node.lockable s.now = true) (hr : r ∈ s.reqs)
    (hsets : r.Sets) : r.ctx.lockTime ≤ s.now := by
  by_contra hlt
  obtain ⟨hflag, htime⟩ := ok.flag r hr hsets (Nat.lt_of_not_le hlt)
  simp only [FileCacheNode.lockable, hflag, Bool.not_true, Bool.false_or, decide_eq_true_eq] at hlock
  omega

/-- Time may pass. -/
theorem tick (ok : LockOk s) (d : ℕ) : LockOk { s with now := s.now + d } := by
  refine ⟨ok.time, ?_, ?_⟩
  · intro r hr hsets hlt
    exact ok.flag r hr hsets (by simp only at hlt; omega)
  · intro j k r q hj hk hne hr hq hlt
    have := ok.one j k r q hj hk hne hr hq (by simp only at hlt; omega)
    simp only
    omega

/-- A request comes to the node. -/
theorem enter (ok : LockOk s) (c : CacheCtx) :
    LockOk { s with reqs := s.reqs ++ [{ ctx := c }] } := by
  have hold : ∀ r ∈ s.reqs ++ [({ ctx := c } : LockReq)], r.Sets → r ∈ s.reqs := by
    intro r hr hsets
    rcases mem_append.mp hr with hr | hr
    · exact hr
    · rw [mem_singleton.mp hr] at hsets
      cases hsets.2
  refine ⟨fun r hr hs => ok.time r (hold r hr hs) hs, fun r hr hs => ok.flag r (hold r hr hs) hs, ?_⟩
  intro j k r q hj hk hne hr hq hlt
  have hget : ∀ (j : ℕ) (r : LockReq), (s.reqs ++ [({ ctx := c } : LockReq)])[j]? = some r → r.Sets →
      s.reqs[j]? = some r := by
    intro j r hj hr
    rcases Nat.lt_or_ge j s.reqs.length with hlt | hge
    · rwa [getElem?_append_left hlt] at hj
    · rw [getElem?_append_right hge] at hj
      have hmem := mem_of_getElem? hj
      rw [mem_singleton.mp hmem] at hr
      cases hr.2
  exact ok.one j k r q (hget j r hj hr) (hget k q hk hq) hne hr hq hlt

/-- Another request is what it was. -/
theorem get_set {reqs : List LockReq} {j : ℕ} {q : LockReq} (h : (reqs.set k r')[j]? = some q) :
    (j = k ∧ q = r') ∨ (j ≠ k ∧ reqs[j]? = some q) := by
  by_cases hjk : j = k
  · subst hjk
    rw [getElem?_set_self'] at h
    cases hr : reqs[j]? with
    | none => simp [hr] at h
    | some r =>
      simp [hr] at h
      exact Or.inl ⟨rfl, h.symm⟩
  · rw [getElem?_set_ne (fun hkj => hjk hkj.symm)] at h
    exact Or.inr ⟨hjk, h⟩

/-- **An operation that does not touch the flag.** -/
theorem same (ok : LockOk s) (hk : s.reqs[k]? = some r) (hupd : n'.updating = s.node.updating)
    (htime : n'.lockTime = s.node.lockTime) (hr' : r' = r ∨ r'.done = true) :
    LockOk { s with node := n', reqs := s.reqs.set k r' } := by
  have hold : ∀ (j : ℕ) (q : LockReq), (s.reqs.set k r')[j]? = some q → q.Sets →
      s.reqs[j]? = some q := by
    intro j q hj hq
    rcases get_set hj with ⟨rfl, rfl⟩ | ⟨_, hj⟩
    · rcases hr' with rfl | hdone
      · exact hk
      · rw [LockReq.Sets, hdone] at hq
        cases hq.1
    · exact hj
  have hmem : ∀ q ∈ s.reqs.set k r', q.Sets → q ∈ s.reqs := by
    intro q hq hsets
    obtain ⟨j, hj⟩ := mem_iff_getElem?.mp hq
    exact mem_of_getElem? (hold j q hj hsets)
  refine ⟨fun q hq hs => ok.time q (hmem q hq hs) hs, ?_, ?_⟩
  · intro q hq hs hlt
    rw [hupd, htime]
    exact ok.flag q (hmem q hq hs) hs hlt
  · intro i j q q' hi hj hne hq hq' hlt
    exact ok.one i j q q' (hold i q hi hq) (hold j q' hj hq') hne hq hq' hlt

/-- **The flag is set.** The time of all others is over. -/
theorem set (ok : LockOk s) (hlock : s.node.lockable s.now = true)
    (hupd : n'.updating = true) (htime : r'.ctx.lockTime = n'.lockTime)
    (hthrough : r'.throughLock = true →
      ∃ t, r'.setAt = some t ∧ r'.ctx.lockTime = t + r'.ctx.lockAge) :
    LockOk { s with node := n', reqs := s.reqs.set k r' } := by
  have hover : ∀ (j : ℕ) (q : LockReq), (s.reqs.set k r')[j]? = some q → q.Sets → j ≠ k →
      q.ctx.lockTime ≤ s.now := by
    intro j q hj hq hne
    rcases get_set hj with ⟨rfl, _⟩ | ⟨_, hj⟩
    · exact absurd rfl hne
    · exact ok.expired hlock (mem_of_getElem? hj) hq
  refine ⟨?_, ?_, ?_⟩
  · intro q hq hs
    obtain ⟨j, hj⟩ := mem_iff_getElem?.mp hq
    rcases get_set hj with ⟨_, rfl⟩ | ⟨_, hj⟩
    · exact hthrough
    · exact ok.time q (mem_of_getElem? hj) hs
  · intro q hq hs hlt
    obtain ⟨j, hj⟩ := mem_iff_getElem?.mp hq
    by_cases hjk : j = k
    · rcases get_set hj with ⟨_, rfl⟩ | ⟨hne, _⟩
      · exact ⟨hupd, htime.symm⟩
      · exact absurd hjk hne
    · have := hover j q hj hs hjk
      simp only at hlt
      omega
  · intro i j q q' hi hj hne hq hq' hlt
    by_cases hik : i = k
    · exact hover j q' hj hq' (fun hjk => hne (hik.trans hjk.symm))
    · have := hover i q hi hq hik
      simp only at hlt
      omega

/-- **The flag is cleared**, by a request for which no other relies on it. -/
theorem clear (ok : LockOk s) (hdone : r'.done = true)
    (hother : ∀ (j : ℕ) (q : LockReq), s.reqs[j]? = some q → j ≠ k → q.Sets →
      q.ctx.lockTime ≤ s.now) :
    LockOk { s with node := n', reqs := s.reqs.set k r' } := by
  have hold : ∀ (j : ℕ) (q : LockReq), (s.reqs.set k r')[j]? = some q → q.Sets →
      j ≠ k ∧ s.reqs[j]? = some q := by
    intro j q hj hq
    rcases get_set hj with ⟨_, rfl⟩ | hj
    · rw [LockReq.Sets, hdone] at hq
      cases hq.1
    · exact hj
  refine ⟨?_, ?_, ?_⟩
  · intro q hq hs
    obtain ⟨j, hj⟩ := mem_iff_getElem?.mp hq
    exact ok.time q (mem_of_getElem? (hold j q hj hs).2) hs
  · intro q hq hs hlt
    obtain ⟨j, hj⟩ := mem_iff_getElem?.mp hq
    obtain ⟨hne, hj⟩ := hold j q hj hs
    have := hother j q hj hne hs
    simp only at hlt
    omega
  · intro i j q q' hi hj hne hq hq' hlt
    obtain ⟨hik, hi⟩ := hold i q hi hq
    have := hother i q hi hik hq
    simp only at hlt
    omega

/-- **Other requests' locks are over** when one may lock. -/
theorem others_over (ok : LockOk s) (hk : s.reqs[k]? = some r) (hnot : r.done = false)
    (howns : s.node.Locked s.now → r.Owns s.node) {j : ℕ} {q : LockReq} (hj : s.reqs[j]? = some q)
    (hne : j ≠ k) (hq : q.Sets) : q.ctx.lockTime ≤ s.now := by
  by_contra hlt
  have hlt := Nat.lt_of_not_le hlt
  obtain ⟨hflag, htime⟩ := ok.flag q (mem_of_getElem? hj) hq hlt
  have howns := howns ⟨hflag, by omega⟩
  have := ok.one j k q r hj hk hne hq ⟨hnot, howns.1⟩ hlt
  have := howns.2
  omega

end LockOk

/-- **One step keeps the invariant**, under the condition. -/
theorem LockOk.step {s s' : LockState} {e : LockEvent} (ok : LockOk s) (hsafe : ClearSafe s e)
    (hstep : lockStep s e = some s') : LockOk s' := by
  cases e with
  | tick d =>
    cases hstep
    exact ok.tick d
  | enter c =>
    cases hstep
    exact ok.enter c
  | act k op =>
    rw [lockStep] at hstep
    split at hstep
    · cases hstep
    · rename_i r hk
      split at hstep
      · cases hstep
      · rename_i hdone
        have hnot : r.done = false := by simpa using hdone
        obtain ⟨⟨n', r'⟩, hact, rfl⟩ := map_eq_some_iff.mp hstep
        cases lockReqStep_cases hact with
        | same hupd htime hr' => exact ok.same hk hupd htime hr'
        | set hlock _ hupd _ htime hthrough => exact ok.set hlock hupd htime hthrough
        | clear _ _ hdone' hfree hop =>
          refine ok.clear hdone' fun j q hj hne hq => ok.others_over hk hnot ?_ hj hne hq
          intro hlocked
          rcases hop with rfl | rfl | ⟨file, rfl⟩
          · obtain ⟨hupd, htime⟩ := hfree rfl
            exact ⟨hsafe r hk hlocked hupd htime, htime⟩
          · exact hsafe r hk hlocked
          · exact hsafe r hk hlocked

/-- The request gets the lock in `ngx_http_file_cache_lock`. -/
def GetsLock (s : LockState) (k : ℕ) : Prop :=
  ∃ r, s.reqs[k]? = some r ∧ r.done = false ∧ r.setAt = none ∧ s.node.lockable s.now = true

/-- **The lock of an entry is exclusive for its age.** Along every run in which no request clears
the flag of another whose time is not over, a request that gets the lock does so at least
`lock_age` after every other that got it and has not finished. -/
theorem cacheLock_exclusive {tr : List (LockState × LockEvent)} {s : LockState}
    (hrun : lockMachine.Run tr s) (hsafe : ∀ p ∈ tr, ClearSafe p.1 p.2) {k : ℕ} (hk : GetsLock s k) :
    ∀ (j : ℕ) (r : LockReq) (t : ℕ), j ≠ k → s.reqs[j]? = some r → r.done = false →
      r.throughLock = true → r.setAt = some t → t + r.ctx.lockAge ≤ s.now := by
  have hinit : ∀ s : LockState, s.reqs = [] → LockOk s := by
    intro s hs
    refine ⟨?_, ?_, ?_⟩ <;> simp [hs]
  have hok := (hrun.invariant_of_steps hinit (fun s e s' ok hC hstep => ok.step hC hstep) hsafe).2
  obtain ⟨_, _, _, _, hlock⟩ := hk
  intro j r t _ hj hdone hthrough ht
  have hsets : r.Sets := ⟨hdone, by rw [ht]; rfl⟩
  have hmem := mem_of_getElem? hj
  obtain ⟨t', ht', htime⟩ := hok.time r hmem hsets hthrough
  rw [ht] at ht'
  cases ht'
  rw [← htime]
  exact hok.expired hlock hmem hsets

/-- A node and no requests. -/
def freshLock : LockState := ⟨.fresh 7, 0, []⟩

/-- A request for the key with a lock age of five seconds. -/
def lockCtx : CacheCtx := { key := 7, main := 7, lockAge := 5000 }

/-- A lock is taken over after six seconds, and its old owner gives up. -/
def takeoverEvents : List LockEvent :=
  [.enter lockCtx, .enter lockCtx, .enter lockCtx, .act 0 .lock, .tick 6000, .act 1 .lock,
    .act 0 .free, .tick 5000]

/-- A third request gets the lock five seconds later. -/
theorem cacheLock_exclusive_takeover : ∃ tr s, lockMachine.Run tr s ∧ GetsLock s 2 ∧
    ∀ (j : ℕ) (r : LockReq) (t : ℕ), j ≠ 2 → s.reqs[j]? = some r → r.done = false →
      r.throughLock = true → r.setAt = some t → t + r.ctx.lockAge ≤ s.now := by
  have hreplay : (Machine.replay lockStep [] freshLock takeoverEvents).map (fun p =>
      (decide (∀ q ∈ p.1, ClearSafe q.1 q.2), p.2.reqs[2]?, p.2.node.lockable p.2.now))
        = some (true, some { ctx := lockCtx }, true) := by
    decide
  obtain ⟨⟨tr, s⟩, hreplay, hall⟩ := map_eq_some_iff.mp hreplay
  simp only [Prod.mk.injEq, decide_eq_true_eq] at hall
  obtain ⟨hsafe, hreq, hlock⟩ := hall
  have hrun : lockMachine.Run tr s := Machine.run_of_replay _ rfl hreplay
  have hgets : GetsLock s 2 := ⟨_, hreq, rfl, rfl, hlock⟩
  exact ⟨tr, s, hrun, hgets, cacheLock_exclusive hrun hsafe hgets⟩

/-- A lock is taken over after six seconds, and its old owner updates the entry. -/
def stolenEvents : List LockEvent :=
  [.enter lockCtx, .enter lockCtx, .enter lockCtx, .act 0 .lock, .tick 6000, .act 1 .lock,
    .act 0 (.update (some (1, 1))), .tick 1000]

/-- The second request after it took the lock over. -/
def stolenReq : LockReq :=
  ⟨{ lockCtx with updating := true, lockTime := 11000 }, some 6000, true, false⟩

/-- **A lock is stolen.** A third request gets the lock one second after the second did. -/
theorem cacheLock_stolen : ∃ tr s, lockMachine.Run tr s ∧ GetsLock s 2 ∧
    ∃ r, s.reqs[1]? = some r ∧ r.done = false ∧ r.throughLock = true ∧ r.setAt = some 6000 ∧
      r.ctx.lockAge = 5000 ∧ s.now = 7000 := by
  have hreplay : (Machine.replay lockStep [] freshLock stolenEvents).map (fun p =>
      (p.2.reqs[1]?, p.2.reqs[2]?, p.2.node.lockable p.2.now, p.2.now))
        = some (some stolenReq, some { ctx := lockCtx }, true, 7000) := by
    decide
  obtain ⟨⟨tr, s⟩, hreplay, hall⟩ := map_eq_some_iff.mp hreplay
  simp only [Prod.mk.injEq] at hall
  obtain ⟨hsecond, hthird, hlock, hnow⟩ := hall
  have hrun : lockMachine.Run tr s := Machine.run_of_replay _ rfl hreplay
  exact ⟨tr, s, hrun, ⟨_, hthird, rfl, rfl, hlock⟩, _, hsecond, rfl, rfl, rfl, rfl, hnow⟩

end Hengine
