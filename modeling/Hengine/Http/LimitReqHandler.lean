import Hengine.Http.LimitReq
import Hengine.Lib.Holders
import Hengine.Lib.Machine

/-!
# Request Limiting: The Handler and Its Reference Counts

`ngx_http_limit_req_handler` asks the limits of a location one after another. Each lookup but the
last may leave a node in `ctx->node` with its count raised, so that other workers do not free the
node before it is charged; when the loop has ended, the nodes kept so far are charged by
`ngx_http_limit_req_account` or given back by `ngx_http_limit_req_unlock`.

Workers take turns under the mutex of a zone: one step is one turn of the loop of the handler, or
one turn of one of the two loops that give nodes back. A request comes with what its variables
evaluate to, with the clock and with what the slab allocator returns. What is only logged is left
out. A rate of zero makes the division of a delay trap; the worker then has no step.

One exit of the loop gives nothing back: when the variable of a rate is wrong, the handler returns
at once with the nodes of the limits before.
-/

namespace Hengine.LimitReq

open List Function Option

/-- `ngx_http_variable_value_t`. -/
structure VariableValue where
  notFound : Bool
  data : List UInt8
  deriving DecidableEq

/-- `ngx_http_limit_req_limit_t`; `zone` says whose zone it is. -/
structure Limit where
  zone : ℕ
  burst : UInt64
  delay : UInt64
  forbidAction : List UInt8
  deriving DecidableEq

/-- `ngx_http_limit_req_conf_t`. No zone occurs twice: the directive refuses a duplicate. -/
structure Conf where
  limits : List Limit
  statusCode : ℕ
  dryRun : Bool
  nodup : (limits.map Limit.zone).Nodup

/-- What `limit_req_status` of the main request is set to. -/
inductive Status
  | passed
  | delayed
  | rejected
  | delayedDryRun
  | rejectedDryRun
  deriving DecidableEq

/-- What the handler returns, with the status it has set. -/
inductive Outcome
  | declined (status : Option Status)
  | status (code : ℕ) (status : Option Status)
  | again (delay : UInt64) (status : Status)
  /-- `NGX_DONE`, after the request was sent to `forbid_action`. -/
  | done
  deriving DecidableEq

/-- Where a worker is in the handler. -/
inductive Stage
  /-- It has returned. -/
  | returned (outcome : Outcome)
  /-- It is at the head of the loop over the limits, with the last return code. -/
  | looking (conf : Conf) (n : ℕ) (rc : Rc)
  /-- It is in `ngx_http_limit_req_account`, with `n` limits to go. -/
  | accounting (conf : Conf) (n : ℕ) (maxDelay : UInt64)
  /-- It is in `ngx_http_limit_req_unlock`, with `n` limits to go. -/
  | unlocking (conf : Conf) (n : ℕ) (outcome : Outcome)

/-- A worker process: `ctx->rate` and `ctx->node` of each zone, and where it is. -/
structure Worker where
  rate : ℕ → UInt64
  node : ℕ → Option ℕ
  stage : Stage

/-- What one turn of the loop over the limits reads. -/
structure Input where
  /-- The variable of the rate, if the zone has one. -/
  rateVar : Option (Option VariableValue)
  /-- The evaluated key; `none` when the evaluation fails. -/
  key : Option (List UInt8)
  now : UInt64
  alloc : Option ℕ × Option ℕ

/-- `ngx_atoi`; `none` for `NGX_ERROR`. -/
def atoi (line : List UInt8) : Option UInt64 :=
  if line = [] then none
  else line.foldlM (fun value ch =>
    if ch < 48 ∨ ch > 57 then none
    else if value.toNat * 10 + (ch.toNat - 48) > 2 ^ 63 - 1 then none
    else some (value * 10 + (ch.toUInt64 - 48))) 0

/-- `ngx_http_limit_req_rate_value`: the rate from now on, or `none` for `NGX_ERROR`. A number that
`ngx_atoi` refuses is read as the unsigned `-1` and passes. -/
def rateValue (rateVar : Option (Option VariableValue)) (rate : UInt64) : Option UInt64 :=
  match rateVar with
  | none => some rate
  | some none => none
  | some (some vv) =>
    if vv.notFound = true ∨ vv.data.length ≤ 3 then none
    else if 65535 < vv.data.length then none
    else
      let scale : UInt64 := if vv.data.drop (vv.data.length - 3) = "r/m".toUTF8.toList then 60 else 1
      let rate := (atoi (vv.data.take (vv.data.length - 3))).getD (-1)
      if rate = 0 then none else some (rate * 1000 / scale)

/-- The delay an excess asks for; `none` when the division traps. -/
def delayOf (rate delay excess : UInt64) : Option UInt64 :=
  if excess ≤ delay then some 0
  else if rate = 0 then none
  else some ((excess - delay) * 1000 / rate)

/-- What a refused request comes to, once the kept nodes are given back. -/
def refusal (conf : Conf) (rc : Rc) (l : Limit) : Outcome :=
  if conf.dryRun then .declined (some .rejectedDryRun)
  else if rc = .error ∨ l.forbidAction = [] then .status conf.statusCode (some .rejected)
  else .done

/-- What a request comes to that is not refused, once the kept nodes are charged; `readOk` is
whether the read event could be handled. -/
def delayOutcome (conf : Conf) (maxDelay : UInt64) (readOk : Bool) : Outcome :=
  if maxDelay = 0 then .declined (some .passed)
  else if conf.dryRun then .declined (some .delayedDryRun)
  else if readOk then .again maxDelay .delayed
  else .status 500 (some .delayed)

/-- One turn of the loop over the limits, at the limit `l` with the number `n`. -/
def turn (conf : Conf) (n : ℕ) (rc : Rc) (l : Limit) (input : Input) (w : Worker) (z : Zone) :
    Option (Worker × Zone) :=
  match rateValue input.rateVar (w.rate l.zone) with
  | none => some ({ w with stage := .returned (.status 500 none) }, z)
  | some rate =>
    let w := { w with rate := update w.rate l.zone rate }
    match input.key with
    | none => some ({ w with stage := .unlocking conf n (.status 500 none) }, z)
    | some key =>
      if key.length = 0 ∨ 65535 < key.length then
        some ({ w with stage := .looking conf (n + 1) rc }, z)
      else
        let r := z.lookup rate l.burst input.now key (n + 1 == conf.limits.length) input.alloc
        match r.node, r.rc with
        | some addr, _ =>
          some ({ w with
            node := update w.node l.zone (some addr)
            stage := .looking conf (n + 1) .again }, r.zone)
        | none, .ok =>
          (delayOf rate l.delay r.excess).map fun maxDelay =>
            ({ w with stage := .accounting conf n maxDelay }, r.zone)
        | none, rc => some ({ w with stage := .unlocking conf n (refusal conf rc l) }, r.zone)

/-- What follows the loop when it has come to the end of the limits: no limit applied, or every one
that did has kept a node. -/
def loopEnd (conf : Conf) (n : ℕ) (rc : Rc) : Stage :=
  if rc = .declined then .returned (.declined none) else .accounting conf n 0

/-- The node at an address. -/
def Zone.nodeAt (z : Zone) (addr : ℕ) : Option Node :=
  z.find? fun lr => lr.addr == addr

/-- One turn of the loop of `ngx_http_limit_req_account`, at the limit `l` with the number `n`. -/
def accountTurn (conf : Conf) (n : ℕ) (maxDelay : UInt64) (l : Limit) (now : UInt64) (w : Worker)
    (z : Zone) : Option (Worker × Zone) :=
  match w.node l.zone with
  | none => some ({ w with stage := .accounting conf n maxDelay }, z)
  | some addr =>
    (z.nodeAt addr).bind fun lr =>
      (delayOf (w.rate l.zone) l.delay (lr.excessAt (w.rate l.zone) now)).map fun delay =>
        ({ w with
          node := update w.node l.zone none
          stage := .accounting conf n (max maxDelay delay) }, z.account (w.rate l.zone) now addr)

/-- One turn of the loop of `ngx_http_limit_req_unlock`, at the limit `l` with the number `n`. -/
def unlockTurn (conf : Conf) (n : ℕ) (outcome : Outcome) (l : Limit) (w : Worker) (z : Zone) :
    Worker × Zone :=
  match w.node l.zone with
  | none => ({ w with stage := .unlocking conf n outcome }, z)
  | some addr =>
    ({ w with
      node := update w.node l.zone none
      stage := .unlocking conf n outcome }, z.unlock addr)

/-- The shared zones and the workers. -/
structure State where
  zones : ℕ → Zone
  workers : List Worker

/-- What happens next. -/
inductive Event
  /-- A new worker process starts, with the rates of its configuration. -/
  | spawn (rate : ℕ → UInt64)
  /-- A worker calls the handler. `skip` is whether it returns before the loop: the request has been
  limited before, limiting is off, or the address is on the white list. -/
  | enter (k : ℕ) (conf : Conf) (skip : Bool)
  /-- A worker takes a turn of the loop over the limits. -/
  | look (k : ℕ) (input : Input)
  /-- A worker takes a turn of the loop that gives nodes back. -/
  | giveBack (k : ℕ) (now : UInt64)
  /-- A worker returns from the handler. -/
  | leave (k : ℕ) (readOk : Bool)

namespace State

/-- A worker and a zone change. -/
def put (s : State) (k i : ℕ) (r : Worker × Zone) : State :=
  { zones := update s.zones i r.2, workers := s.workers.set k r.1 }

/-- A worker goes on to another stage. -/
def goto (s : State) (k : ℕ) (w : Worker) (stage : Stage) : State :=
  { s with workers := s.workers.set k { w with stage := stage } }

/-- The step of an event; `none` where it is not possible. -/
def next (s : State) : Event → Option State
  | .spawn rate => some { s with workers := s.workers ++ [⟨rate, fun _ => none, .returned .done⟩] }
  | .enter k conf skip =>
    match s.workers[k]? with
    | some w =>
      match w.stage with
      | .returned _ =>
        some (s.goto k w (if skip then .returned (.declined none) else .looking conf 0 .declined))
      | _ => none
    | none => none
  | .look k input =>
    match s.workers[k]? with
    | some w =>
      match w.stage with
      | .looking conf n rc =>
        match conf.limits[n]? with
        | some l => (turn conf n rc l input w (s.zones l.zone)).map (s.put k l.zone)
        | none => some (s.goto k w (loopEnd conf n rc))
      | _ => none
    | none => none
  | .giveBack k now =>
    match s.workers[k]? with
    | some w =>
      match w.stage with
      | .accounting conf (n + 1) maxDelay =>
        match conf.limits[n]? with
        | some l =>
          (accountTurn conf n maxDelay l now w (s.zones l.zone)).map (s.put k l.zone)
        | none => none
      | .unlocking conf (n + 1) outcome =>
        match conf.limits[n]? with
        | some l => some (s.put k l.zone (unlockTurn conf n outcome l w (s.zones l.zone)))
        | none => none
      | _ => none
    | none => none
  | .leave k readOk =>
    match s.workers[k]? with
    | some w =>
      match w.stage with
      | .accounting conf 0 maxDelay =>
        some (s.goto k w (.returned (delayOutcome conf maxDelay readOk)))
      | .unlocking _ 0 outcome => some (s.goto k w (.returned outcome))
      | _ => none
    | none => none

end State

/-- The limit a worker's next turn of the loop is about. -/
def Worker.limit? (w : Worker) : Option Limit :=
  match w.stage with
  | .looking conf n _ => conf.limits[n]?
  | _ => none

/-- The slab allocator keeps its promise at a turn of the loop. -/
def AllocOk (s : State) : Event → Prop
  | .look k input => ∀ w ∈ s.workers[k]?, ∀ l ∈ w.limit?,
      ∀ rate ∈ rateValue input.rateVar (w.rate l.zone), (s.zones l.zone).Fresh rate input.now input.alloc
  | _ => True

/-- **The module**: zones without nodes and no worker at the start. -/
def limitReq : Machine State Event where
  init s := (∀ i, s.zones i = []) ∧ s.workers = []
  step s e s' := AllocOk s e ∧ s.next e = some s'

/-! ### Counts of a zone -/

namespace Zone

variable {z z' : Zone} {lr : Node} {rate burst now : UInt64} {key : List UInt8}

/-- The count of the node at an address. -/
def countAt (z : Zone) (addr : ℕ) : ℕ :=
  (z.nodeAt addr).elim 0 Node.count

theorem countAt_cons (lr : Node) (z : Zone) (addr : ℕ) :
    countAt (lr :: z) addr = if lr.addr = addr then lr.count else countAt z addr := by
  simp only [countAt, nodeAt, find?_cons]
  by_cases h : lr.addr = addr
  · simp [h]
  · rw [beq_eq_false_iff_ne.mpr h, if_neg h]

/-- The count at an address, in one of two zones. -/
theorem countAt_append (z z' : Zone) (addr : ℕ) :
    countAt (z ++ z') addr =
      if addr ∈ z.map Node.addr then countAt z addr else countAt z' addr := by
  induction z with
  | nil => simp
  | cons lr z ih =>
    rw [cons_append, countAt_cons, countAt_cons, ih]
    by_cases h : lr.addr = addr
    · simp [h]
    · have h' : addr ≠ lr.addr := Ne.symm h
      simp [h, h']

/-- There is no count where there is no node. -/
theorem countAt_of_notMem {addr : ℕ} (h : addr ∉ z.map Node.addr) : countAt z addr = 0 := by
  induction z with
  | nil => rfl
  | cons lr z ih =>
    have hne : lr.addr ≠ addr := fun heq => h (by rw [← heq]; exact mem_cons_self)
    have hrest : addr ∉ z.map Node.addr := fun hmem => h (mem_cons_of_mem _ hmem)
    rw [countAt_cons, if_neg hne, ih hrest]

theorem mem_of_countAt {addr : ℕ} (h : countAt z addr ≠ 0) : addr ∈ z.map Node.addr := by
  by_contra hmem
  exact h (countAt_of_notMem hmem)

/-- The count at a node is its own. -/
theorem Ok.countAt_of_mem (hz : z.Ok) (h : lr ∈ z) : z.countAt lr.addr = lr.count := by
  cases hfind : z.nodeAt lr.addr with
  | none =>
    have := find?_eq_none.mp hfind lr h
    simp at this
  | some other =>
    have haddr : other.addr = lr.addr := by simpa using find?_some hfind
    rw [countAt, hfind, hz.eq_of_addr (mem_of_find?_eq_some hfind) h haddr]
    rfl

/-- Shrinking changes no count. -/
theorem Shrunk.countAt (h : z.Shrunk z') : z'.countAt = z.countAt := by
  obtain ⟨gone, rfl, hzero⟩ := h
  funext addr
  rw [countAt_append]
  split_ifs with hmem
  · rfl
  · rw [countAt_of_notMem hmem]
    cases hfind : gone.nodeAt addr with
    | none => rw [Zone.countAt, hfind]; rfl
    | some lr =>
      rw [Zone.countAt, hfind]
      exact (hzero lr (mem_of_find?_eq_some hfind)).symm

/-- The counts after one node has changed. -/
theorem countAt_bump (z : Zone) (lr : Node) :
    (z.bump lr).countAt = Function.update z.countAt lr.addr lr.count := by
  funext addr
  rw [bump, countAt_cons, update_apply]
  by_cases h : lr.addr = addr
  · rw [if_pos h, if_pos h.symm]
  · rw [if_neg h, if_neg (Ne.symm h)]
    induction z with
    | nil => rfl
    | cons other z ih =>
      rw [filter_cons]
      split_ifs with hkeep
      · rw [countAt_cons, countAt_cons, ih]
      · have hsame : other.addr = lr.addr := by simpa using hkeep
        rw [countAt_cons, if_neg (by rw [hsame]; exact h), ih]

/-- An update in place that says what the new count is. -/
theorem countAt_update (z : Zone) (addr : ℕ) {f : Node → Node} {g : ℕ → ℕ}
    (ha : ∀ lr, (f lr).addr = lr.addr) (hc : ∀ lr, (f lr).count = g lr.count) (hzero : g 0 = 0) :
    (z.update addr f).countAt = Function.update z.countAt addr (g (z.countAt addr)) := by
  funext a
  rw [update_apply]
  induction z with
  | nil =>
    split_ifs
    · exact hzero.symm
    · rfl
  | cons lr z ih =>
    have hcons : update (lr :: z) addr f =
        (if lr.addr = addr then f lr else lr) :: update z addr f := rfl
    have haddr : (if lr.addr = addr then f lr else lr).addr = lr.addr := by
      split_ifs
      · exact ha lr
      · rfl
    rw [hcons, countAt_cons, countAt_cons, countAt_cons, haddr, ih]
    by_cases h : lr.addr = a
    · by_cases ha' : a = addr
      · rw [if_pos h, if_pos (h.trans ha'), if_pos ha', if_pos (h.trans ha'), hc]
      · rw [if_pos h, if_neg (by rw [h]; exact ha'), if_neg ha', if_pos h]
    · by_cases ha' : a = addr
      · have hne : lr.addr ≠ addr := by rw [← ha']; exact h
        rw [if_neg h, if_pos ha', if_pos ha', if_neg hne]
      · rw [if_neg h, if_neg ha', if_neg ha', if_neg h]

theorem countAt_account (z : Zone) (addr : ℕ) :
    (z.account rate now addr).countAt =
      Function.update z.countAt addr (z.countAt addr - 1) :=
  countAt_update z addr (g := fun c => c - 1) (fun _ => rfl) (fun _ => rfl) rfl

theorem countAt_unlock (z : Zone) (addr : ℕ) :
    (z.unlock addr).countAt = Function.update z.countAt addr (z.countAt addr - 1) :=
  countAt_update z addr (g := fun c => c - 1) (fun _ => rfl) (fun _ => rfl) rfl

/-- **A lookup raises one count, that of the node it keeps, or none.** -/
theorem Ok.countAt_lookup (hz : z.Ok) (burst : UInt64) (key : List UInt8) (account : Bool)
    {alloc : Option ℕ × Option ℕ} (hfresh : z.Fresh rate now alloc) :
    (z.lookup rate burst now key account alloc).zone.countAt =
      moveHold z.countAt none (z.lookup rate burst now key account alloc).node := by
  rcases lookup_cases burst key account hfresh with ⟨lr, hfind, hcase⟩ | ⟨hnone, z', hshrunk, hcase⟩
  · have hmem := mem_of_find hfind
    have hcount := hz.countAt_of_mem hmem
    rcases hcase with ⟨-, h⟩ | ⟨-, -, h⟩ | ⟨-, -, h⟩
    · rw [h, countAt_bump, ← hcount, update_eq_self]
      exact moveHold_none.symm
    · rw [h, countAt_bump]
      change Function.update z.countAt lr.addr lr.count = _
      rw [← hcount, update_eq_self]
      exact moveHold_none.symm
    · rw [h, countAt_bump]
      change Function.update z.countAt lr.addr (lr.count + 1) = _
      rw [← hcount]
      exact moveHold_take.symm
  · have hcount := hshrunk.countAt
    rcases hcase with ⟨addr, haddr, h⟩ | h
    · have hzero := countAt_of_notMem haddr
      rw [h, Zone.insert]
      cases account with
      | true =>
        rw [if_pos rfl]
        refine Eq.trans (funext fun a => ?_) moveHold_none.symm
        rw [countAt_cons, ← hcount]
        split_ifs with ha
        · rw [← ha, hzero]
        · rfl
      | false =>
        rw [if_neg (by decide)]
        refine Eq.trans (funext fun a => ?_) moveHold_take.symm
        rw [countAt_cons, ← hcount, update_apply]
        by_cases ha : addr = a
        · rw [if_pos ha, if_pos ha.symm, hzero]
        · rw [if_neg ha, if_neg (Ne.symm ha)]
    · rw [h, hcount]
      exact moveHold_none.symm

end Zone

/-! ### One turn -/

/-- The zones a worker may keep a node of: none as long as the loop has found no limit to apply. -/
def Stage.pending : Stage → List ℕ
  | .returned _ => []
  | .looking conf n rc => if rc = .declined then [] else (conf.limits.take n).map Limit.zone
  | .accounting conf n _ => (conf.limits.take n).map Limit.zone
  | .unlocking conf n _ => (conf.limits.take n).map Limit.zone

/-- A worker keeps nodes of the limits it has passed only. -/
def Worker.Tidy (w : Worker) : Prop :=
  ∀ i, w.node i ≠ none → i ∈ w.stage.pending

/-- What a turn about the zone `i` does: it keeps the zone good and the worker tidy, and the counts
change as what the worker keeps. -/
structure Change (i : ℕ) (w : Worker) (z : Zone) (w' : Worker) (z' : Zone) : Prop where
  ok : z'.Ok
  tidy : w'.Tidy
  others : ∀ j, j ≠ i → w'.node j = w.node j
  count : z'.countAt = moveHold z.countAt (w.node i) (w'.node i)

section Turn

variable {conf : Conf} {n : ℕ} {l : Limit} {w w' : Worker} {z z' : Zone}

/-- A worker that keeps its node changes no count. -/
theorem Change.stay {i : ℕ} (hz : z.Ok) (hcounted : ∀ addr, w.node i = some addr → z.countAt addr ≠ 0)
    (htidy : w'.Tidy) (hnode : w'.node = w.node) : Change i w z w' z where
  ok := hz
  tidy := htidy
  others j _ := by rw [hnode]
  count := by rw [hnode]; exact (moveHold_same hcounted).symm

theorem mem_take_succ {i : ℕ} (h : i ∈ (conf.limits.take n).map Limit.zone) :
    i ∈ (conf.limits.take (n + 1)).map Limit.zone :=
  ((take_sublist_take_left (Nat.le_succ n)).map _).subset h

/-- Another zone was met before. -/
theorem mem_take_of_ne {i : ℕ} (hl : conf.limits[n]? = some l)
    (h : i ∈ (conf.limits.take (n + 1)).map Limit.zone) (hne : i ≠ l.zone) :
    i ∈ (conf.limits.take n).map Limit.zone := by
  rw [take_add_one, hl] at h
  simp only [toList_some, map_append, map_cons, map_nil, mem_append,
    mem_singleton] at h
  rcases h with h | h
  · exact h
  · exact absurd h hne

theorem zone_mem_take (hl : conf.limits[n]? = some l) :
    l.zone ∈ (conf.limits.take (n + 1)).map Limit.zone := by
  rw [take_add_one, hl]
  simp

/-- A zone is limited once. -/
theorem zone_notMem_take (hl : conf.limits[n]? = some l) :
    l.zone ∉ (conf.limits.take n).map Limit.zone := by
  have hnodup := conf.nodup
  rw [← take_append_drop (n + 1) conf.limits, take_add_one, hl, map_append,
    map_append] at hnodup
  have hdisj := (nodup_append.mp (nodup_append.mp hnodup).1).2.2
  intro hmem
  exact hdisj _ hmem _ (by simp) rfl

/-- **A turn of the loop over the limits**, when no wrong rate is met with a node kept. -/
theorem turn_change {rc : Rc} {input : Input} (hz : z.Ok) (hstage : w.stage = .looking conf n rc)
    (htidy : w.Tidy) (hl : conf.limits[n]? = some l)
    (hfresh : ∀ rate ∈ rateValue input.rateVar (w.rate l.zone), z.Fresh rate input.now input.alloc)
    (hrate : rateValue input.rateVar (w.rate l.zone) = none → ∀ i, w.node i = none)
    (h : turn conf n rc l input w z = some (w', z')) : Change l.zone w z w' z' := by
  have hrc : ∀ i, w.node i ≠ none → rc ≠ .declined ∧ i ∈ (conf.limits.take n).map Limit.zone := by
    intro i hi
    have hmem := htidy i hi
    rw [hstage, Stage.pending] at hmem
    split_ifs at hmem with hrc
    · cases hmem
    · exact ⟨hrc, hmem⟩
  have hbefore : ∀ i, w.node i ≠ none → i ∈ (conf.limits.take n).map Limit.zone :=
    fun i hi => (hrc i hi).2
  have hfree : w.node l.zone = none := by
    by_contra hne
    exact zone_notMem_take hl (hbefore _ hne)
  have hcounted : ∀ addr, w.node l.zone = some addr → z.countAt addr ≠ 0 := by
    intro addr haddr
    rw [hfree] at haddr
    cases haddr
  rw [turn] at h
  cases hvalue : rateValue input.rateVar (w.rate l.zone) with
  | none =>
    simp only [hvalue, Option.some.injEq, Prod.mk.injEq] at h
    obtain ⟨rfl, rfl⟩ := h
    exact Change.stay hz hcounted (fun i hi => absurd (hrate hvalue i) hi) rfl
  | some rate =>
    have hfresh := hfresh rate hvalue
    simp only [hvalue] at h
    cases hkey : input.key with
    | none =>
      simp only [hkey, Option.some.injEq, Prod.mk.injEq] at h
      obtain ⟨rfl, rfl⟩ := h
      exact Change.stay hz hcounted hbefore rfl
    | some key =>
      simp only [hkey] at h
      by_cases hskip : key.length = 0 ∨ 65535 < key.length
      · simp only [if_pos hskip, Option.some.injEq, Prod.mk.injEq] at h
        obtain ⟨rfl, rfl⟩ := h
        refine Change.stay hz hcounted (fun i hi => ?_) rfl
        rw [Stage.pending, if_neg (hrc i hi).1]
        exact mem_take_succ (hbefore i hi)
      · simp only [if_neg hskip] at h
        have hcount := hz.countAt_lookup l.burst key (n + 1 == conf.limits.length) hfresh
        have hok := hz.lookup l.burst key (n + 1 == conf.limits.length) hfresh
        cases hnode : (z.lookup rate l.burst input.now key (n + 1 == conf.limits.length)
            input.alloc).node with
        | some addr =>
          simp only [hnode, Option.some.injEq, Prod.mk.injEq] at h
          obtain ⟨rfl, rfl⟩ := h
          refine ⟨hok, fun i hi => ?_, fun j hj => update_of_ne hj _ _, ?_⟩
          · by_cases hi' : i = l.zone
            · rw [hi']
              exact zone_mem_take hl
            · refine mem_take_succ (hbefore i ?_)
              simpa [update_of_ne hi'] using hi
          · rw [hfree, hcount, hnode]
            simp
        | none =>
          rw [hnode, moveHold_none] at hcount
          have hsame : ∀ stage : Stage, stage.pending = (conf.limits.take n).map Limit.zone →
              ∀ r : ℕ → UInt64, Change l.zone w z ⟨r, w.node, stage⟩ (z.lookup rate l.burst
                input.now key (n + 1 == conf.limits.length) input.alloc).zone := by
            intro stage hpending r
            refine ⟨hok, fun i hi => ?_, fun _ _ => rfl, ?_⟩
            · change i ∈ stage.pending
              rw [hpending]
              exact hbefore i hi
            · rw [hcount]
              exact (moveHold_same hcounted).symm
          cases hrc : (z.lookup rate l.burst input.now key (n + 1 == conf.limits.length)
              input.alloc).rc with
          | ok =>
            simp only [hnode, hrc, map_eq_some_iff, Prod.mk.injEq] at h
            obtain ⟨maxDelay, -, rfl, rfl⟩ := h
            exact hsame _ rfl _
          | _ =>
            simp only [hnode, hrc, Option.some.injEq, Prod.mk.injEq] at h
            obtain ⟨rfl, rfl⟩ := h
            exact hsame _ rfl _

/-- A worker that gives its node back stays tidy. -/
theorem tidy_released (hl : conf.limits[n]? = some l)
    (hbefore : ∀ i, w.node i ≠ none → i ∈ (conf.limits.take (n + 1)).map Limit.zone) (stage : Stage)
    (hpending : stage.pending = (conf.limits.take n).map Limit.zone) :
    ({ w with node := update w.node l.zone none, stage := stage } : Worker).Tidy := by
  intro i hi
  change i ∈ stage.pending
  rw [hpending]
  by_cases hi' : i = l.zone
  · rw [hi'] at hi
    exact absurd (update_self ..) hi
  · exact mem_take_of_ne hl (hbefore i (by simpa [update_of_ne hi'] using hi)) hi'

/-- One that has none does too. -/
theorem tidy_passed (hl : conf.limits[n]? = some l) (hnode : w.node l.zone = none)
    (hbefore : ∀ i, w.node i ≠ none → i ∈ (conf.limits.take (n + 1)).map Limit.zone) (stage : Stage)
    (hpending : stage.pending = (conf.limits.take n).map Limit.zone) :
    ({ w with stage := stage } : Worker).Tidy := by
  intro i hi
  change i ∈ stage.pending
  rw [hpending]
  refine mem_take_of_ne hl (hbefore i hi) fun hi' => hi ?_
  rw [hi']
  exact hnode

/-- **A turn of `ngx_http_limit_req_account`.** -/
theorem accountTurn_change {maxDelay now : UInt64} (hz : z.Ok)
    (hstage : w.stage = .accounting conf (n + 1) maxDelay) (htidy : w.Tidy)
    (hl : conf.limits[n]? = some l)
    (h : accountTurn conf n maxDelay l now w z = some (w', z')) : Change l.zone w z w' z' := by
  have hbefore : ∀ i, w.node i ≠ none → i ∈ (conf.limits.take (n + 1)).map Limit.zone := by
    intro i hi
    have hmem := htidy i hi
    rwa [hstage] at hmem
  rw [accountTurn] at h
  cases hnode : w.node l.zone with
  | none =>
    simp only [hnode, Option.some.injEq, Prod.mk.injEq] at h
    obtain ⟨rfl, rfl⟩ := h
    refine Change.stay hz ?_ (tidy_passed hl hnode hbefore _ rfl) rfl
    rintro addr haddr
    rw [hnode] at haddr
    cases haddr
  | some addr =>
    simp only [hnode, bind_eq_some_iff, map_eq_some_iff, Prod.mk.injEq] at h
    obtain ⟨lr, -, delay, -, rfl, rfl⟩ := h
    refine ⟨hz.account addr, tidy_released hl hbefore _ rfl, fun j hj => ?_, ?_⟩
    · exact update_of_ne hj _ _
    · rw [Zone.countAt_account, hnode]
      simp only [update_self]
      exact moveHold_release.symm

/-- **A turn of `ngx_http_limit_req_unlock`.** -/
theorem unlockTurn_change {outcome : Outcome} (hz : z.Ok)
    (hstage : w.stage = .unlocking conf (n + 1) outcome) (htidy : w.Tidy)
    (hl : conf.limits[n]? = some l) :
    Change l.zone w z (unlockTurn conf n outcome l w z).1 (unlockTurn conf n outcome l w z).2 := by
  have hbefore : ∀ i, w.node i ≠ none → i ∈ (conf.limits.take (n + 1)).map Limit.zone := by
    intro i hi
    have hmem := htidy i hi
    rwa [hstage] at hmem
  rw [unlockTurn]
  cases hnode : w.node l.zone with
  | none =>
    refine Change.stay hz ?_ (tidy_passed hl hnode hbefore _ rfl) rfl
    rintro addr haddr
    rw [hnode] at haddr
    cases haddr
  | some addr =>
    refine ⟨hz.unlock addr, tidy_released hl hbefore _ rfl, fun j hj => ?_, ?_⟩
    · exact update_of_ne hj _ _
    · rw [Zone.countAt_unlock, hnode]
      simp only [update_self]
      exact moveHold_release.symm

end Turn

/-! ### Runs -/

/-- The counts of the nodes are the numbers of workers that keep them, and no worker keeps a node of
a limit it has not passed. -/
structure Balanced (s : State) : Prop where
  ok : ∀ i, (s.zones i).Ok
  tidy : ∀ w ∈ s.workers, w.Tidy
  count : ∀ i, (s.zones i).countAt = holders (fun w : Worker => w.node i) s.workers

/-- The condition on a step: a worker that meets a wrong rate keeps no node of the limits before. -/
def RateSafe (s : State) : Event → Prop
  | .look k input => ∀ w ∈ s.workers[k]?, ∀ l ∈ w.limit?,
      rateValue input.rateVar (w.rate l.zone) = none → ∀ i, w.node i = none
  | _ => True

variable {s s' : State}

variable {r : Worker × Zone} {w : Worker}

/-- A change of a worker and of the zone it is about keeps the balance. -/
theorem Balanced.put (h : Balanced s) {k i : ℕ} (hw : s.workers[k]? = some w)
    (hr : Change i w (s.zones i) r.1 r.2) : Balanced (s.put k i r) where
  ok j := by
    change (update s.zones i r.2 j).Ok
    by_cases hj : j = i
    · subst hj
      rw [update_self]
      exact hr.ok
    · rw [update_of_ne hj]
      exact h.ok j
  tidy w' hw' := by
    rcases mem_or_eq_of_mem_set hw' with hmem | rfl
    · exact h.tidy w' hmem
    · exact hr.tidy
  count j := by
    have hset : holders (fun w : Worker => w.node j) (s.workers.set k r.1) =
        moveHold (holders (fun w : Worker => w.node j) s.workers) (w.node j) (r.1.node j) :=
      holders_set hw r.1
    have hkept : ∀ a, w.node j = some a → holders (fun w : Worker => w.node j) s.workers a ≠ 0 :=
      fun a ha => holders_pos (mem_of_getElem? hw) ha
    change (update s.zones i r.2 j).countAt = _
    refine Eq.trans ?_ hset.symm
    by_cases hj : j = i
    · subst hj
      rw [update_self, hr.count, h.count j]
    · rw [update_of_ne hj, h.count j, hr.others j hj]
      exact (moveHold_same hkept).symm

/-- A worker that goes on with what it keeps. -/
theorem Balanced.goto (h : Balanced s) {k : ℕ} {stage : Stage} (hw : s.workers[k]? = some w)
    (hstage : ∀ i ∈ w.stage.pending, i ∈ stage.pending) :
    Balanced (s.goto k w stage) where
  ok := h.ok
  tidy w' hw' := by
    rcases mem_or_eq_of_mem_set hw' with hmem | rfl
    · exact h.tidy w' hmem
    · exact fun i hi => hstage i (h.tidy w (mem_of_getElem? hw) i hi)
  count i := by
    have hset : holders (fun w : Worker => w.node i) (s.workers.set k { w with stage := stage }) =
        moveHold (holders (fun w : Worker => w.node i) s.workers) (w.node i) (w.node i) :=
      holders_set hw _
    have hkept : ∀ a, w.node i = some a → holders (fun w : Worker => w.node i) s.workers a ≠ 0 :=
      fun a ha => holders_pos (mem_of_getElem? hw) ha
    rw [moveHold_same hkept] at hset
    exact (h.count i).trans hset.symm

/-- **Each step keeps the balance** when no wrong rate is met with a node kept. -/
theorem Balanced.step {e : Event} (h : Balanced s) (hsafe : RateSafe s e)
    (hstep : limitReq.step s e s') : Balanced s' := by
  obtain ⟨halloc, hnext⟩ := hstep
  cases e with
  | spawn rate =>
    cases hnext
    refine ⟨h.ok, fun w hw => ?_, fun i => ?_⟩
    · rcases mem_append.mp hw with hw | hw
      · exact h.tidy w hw
      · rw [mem_singleton.mp hw]
        exact fun i hi => absurd rfl hi
    · rw [h.count i, holders_concat]
      rfl
  | enter k conf skip =>
    simp only [State.next] at hnext
    split at hnext
    · rename_i w hw
      split at hnext
      · rename_i outcome hstage
        cases hnext
        refine h.goto hw fun i hi => ?_
        rw [hstage] at hi
        cases hi
      · cases hnext
    · cases hnext
  | look k input =>
    simp only [State.next] at hnext
    split at hnext
    · rename_i w hw
      have htidy := h.tidy w (mem_of_getElem? hw)
      split at hnext
      · rename_i conf n rc hstage
        split at hnext
        · rename_i l hl
          obtain ⟨r, hr, rfl⟩ := map_eq_some_iff.mp hnext
          have hlimit : w.limit? = some l := by rw [Worker.limit?, hstage]; exact hl
          exact h.put hw (turn_change (h.ok l.zone) hstage htidy hl (halloc w hw l hlimit)
            (hsafe w hw l hlimit) hr)
        · cases hnext
          refine h.goto hw fun i hi => ?_
          rw [hstage, Stage.pending] at hi
          rw [loopEnd]
          split_ifs at hi ⊢ with hrc
          · cases hi
          · exact hi
      · cases hnext
    · cases hnext
  | giveBack k now =>
    simp only [State.next] at hnext
    split at hnext
    · rename_i w hw
      have htidy := h.tidy w (mem_of_getElem? hw)
      split at hnext
      · rename_i conf n maxDelay hstage
        split at hnext
        · rename_i l hl
          obtain ⟨r, hr, rfl⟩ := map_eq_some_iff.mp hnext
          exact h.put hw (accountTurn_change (h.ok l.zone) hstage htidy hl hr)
        · cases hnext
      · rename_i conf n outcome hstage
        split at hnext
        · rename_i l hl
          cases hnext
          exact h.put hw (unlockTurn_change (h.ok l.zone) hstage htidy hl)
        · cases hnext
      · cases hnext
    · cases hnext
  | leave k readOk =>
    simp only [State.next] at hnext
    split at hnext
    · rename_i w hw
      split at hnext
      · rename_i conf maxDelay hstage
        cases hnext
        refine h.goto hw fun i hi => ?_
        rw [hstage] at hi
        simp [Stage.pending] at hi
      · rename_i conf outcome hstage
        cases hnext
        refine h.goto hw fun i hi => ?_
        rw [hstage] at hi
        simp [Stage.pending] at hi
      · cases hnext
    · cases hnext

/-- At the start nothing is counted. -/
theorem Balanced.init (h : limitReq.init s) : Balanced s := by
  obtain ⟨hzones, hworkers⟩ := h
  refine ⟨fun i => ?_, fun w hw => ?_, fun i => ?_⟩
  · rw [hzones i]
    exact ⟨nodup_nil, nodup_nil⟩
  · rw [hworkers] at hw
    cases hw
  · rw [hzones i, hworkers]
    rfl

/-- What the claim about the counts comes to in a state: the count of every node is the number of
workers that keep it, those workers are in the handler, and the node is there. -/
structure CountsBack (s : State) : Prop where
  kept : ∀ i addr, (s.zones i).countAt addr = holders (fun w : Worker => w.node i) s.workers addr
  present : ∀ w ∈ s.workers, ∀ i addr, w.node i = some addr → addr ∈ (s.zones i).map Node.addr
  returned : ∀ w ∈ s.workers, ∀ outcome, w.stage = .returned outcome → ∀ i, w.node i = none
  expirable : (∀ w ∈ s.workers, ∃ outcome, w.stage = .returned outcome) →
    ∀ i, ∀ lr ∈ s.zones i, lr.count = 0

/-- A balanced state has its counts back. -/
theorem Balanced.countsBack (h : Balanced s) : CountsBack s := by
  have hreturned : ∀ w ∈ s.workers, ∀ outcome, w.stage = .returned outcome → ∀ i, w.node i = none := by
    intro w hw outcome hstage i
    by_contra hne
    have hmem := h.tidy w hw i hne
    rw [hstage] at hmem
    cases hmem
  refine ⟨fun i addr => by rw [h.count i], fun w hw i addr haddr => ?_, hreturned, ?_⟩
  · refine Zone.mem_of_countAt ?_
    rw [h.count i]
    exact holders_pos hw haddr
  · intro hall i lr hlr
    rw [← (h.ok i).countAt_of_mem hlr, h.count i]
    refine countP_eq_zero.mpr fun w hw => ?_
    obtain ⟨outcome, hstage⟩ := hall w hw
    simp [hreturned w hw outcome hstage i]

/-! ### Nodes that are counted on -/

/-- Every node of `z` that a request is counted on is still in `z'`. -/
def Zone.Keeps (z z' : Zone) : Prop :=
  ∀ lr ∈ z, lr.count ≠ 0 → lr.addr ∈ z'.map Node.addr

namespace Zone

variable {z z' : Zone} {lr lr' : Node}

theorem Keeps.refl (z : Zone) : z.Keeps z :=
  fun _ hlr _ => mem_map_of_mem hlr

theorem keeps_bump (z : Zone) (lr : Node) : z.Keeps (z.bump lr) := by
  intro other hother _
  by_cases h : other.addr = lr.addr
  · rw [h]
    exact mem_cons_self
  · refine mem_cons_of_mem _ (mem_map_of_mem (mem_filter.mpr ⟨hother, ?_⟩))
    simpa using h

theorem keeps_update {addr : ℕ} {f : Node → Node} (hf : ∀ lr, (f lr).addr = lr.addr) :
    z.Keeps (z.update addr f) := by
  intro lr hlr _
  rw [map_addr_update hf]
  exact mem_map_of_mem hlr

theorem Shrunk.keeps (h : z.Shrunk z') : z.Keeps z' := by
  obtain ⟨gone, rfl, hzero⟩ := h
  intro lr hlr hcount
  rcases mem_append.mp hlr with hlr | hlr
  · exact mem_map_of_mem hlr
  · exact absurd (hzero lr hlr) hcount

/-- A lookup frees no node a request is counted on. -/
theorem keeps_lookup {rate now : UInt64} (burst : UInt64) (key : List UInt8) (account : Bool)
    {alloc : Option ℕ × Option ℕ} (hfresh : z.Fresh rate now alloc) :
    z.Keeps (z.lookup rate burst now key account alloc).zone := by
  rcases lookup_cases burst key account hfresh with ⟨lr, -, hcase⟩ | ⟨-, z', hshrunk, hcase⟩
  · rcases hcase with ⟨-, h⟩ | ⟨-, -, h⟩ | ⟨-, -, h⟩
    · rw [h]
      exact keeps_bump z lr
    · rw [h]
      exact keeps_bump z _
    · rw [h]
      exact keeps_bump z _
  · rcases hcase with ⟨addr, -, h⟩ | h
    · rw [h, Zone.insert]
      intro lr hlr hcount
      have hmem := hshrunk.keeps lr hlr hcount
      split_ifs
      · exact mem_cons_of_mem _ hmem
      · exact mem_cons_of_mem _ hmem
    · rw [h]
      exact hshrunk.keeps

end Zone

/-- The zone after a turn of the loop over the limits is the one before, or the one its lookup
leaves. -/
theorem turn_keeps {conf : Conf} {n : ℕ} {rc : Rc} {l : Limit} {input : Input} {z : Zone}
    (hfresh : ∀ rate ∈ rateValue input.rateVar (w.rate l.zone), z.Fresh rate input.now input.alloc)
    (h : turn conf n rc l input w z = some r) : z.Keeps r.2 := by
  rw [turn] at h
  cases hvalue : rateValue input.rateVar (w.rate l.zone) with
  | none =>
    simp only [hvalue, Option.some.injEq] at h
    rw [← h]
    exact Zone.Keeps.refl z
  | some rate =>
    have hkeeps := fun key => Zone.keeps_lookup l.burst key (n + 1 == conf.limits.length)
      (hfresh rate hvalue)
    simp only [hvalue] at h
    split at h
    · cases h
      exact Zone.Keeps.refl z
    · rename_i key hkey
      split at h
      · cases h
        exact Zone.Keeps.refl z
      · split at h
        · cases h
          exact hkeeps key
        · obtain ⟨maxDelay, -, rfl⟩ := map_eq_some_iff.mp h
          exact hkeeps key
        · cases h
          exact hkeeps key

/-- A turn over the limits that were counted keeps the nodes. -/
theorem accountTurn_keeps {conf : Conf} {n : ℕ} {maxDelay now : UInt64} {l : Limit} {z : Zone}
    (h : accountTurn conf n maxDelay l now w z = some r) : z.Keeps r.2 := by
  rw [accountTurn] at h
  split at h
  · cases h
    exact Zone.Keeps.refl z
  · obtain ⟨lr, -, h⟩ := bind_eq_some_iff.mp h
    obtain ⟨delay, -, rfl⟩ := map_eq_some_iff.mp h
    exact Zone.keeps_update fun _ => rfl

/-- A turn that gives the counts back keeps the nodes. -/
theorem unlockTurn_keeps (conf : Conf) (n : ℕ) (outcome : Outcome) (l : Limit) (w : Worker)
    (z : Zone) : z.Keeps (unlockTurn conf n outcome l w z).2 := by
  rw [unlockTurn]
  split
  · exact Zone.Keeps.refl z
  · exact Zone.keeps_update fun _ => rfl

/-- Keeping one zone keeps all of them. -/
theorem State.keeps_put {k j : ℕ} (h : (s.zones j).Keeps r.2) (i : ℕ) :
    (s.zones i).Keeps ((s.put k j r).zones i) := by
  change (s.zones i).Keeps (update s.zones j r.2 i)
  by_cases hi : i = j
  · subst hi
    rw [update_self]
    exact h
  · rw [update_of_ne hi]
    exact Zone.Keeps.refl _

/-- **No step frees a node that a request is counted on.** -/
theorem limitReq_keeps {e : Event} (hstep : limitReq.step s e s') (i : ℕ) :
    (s.zones i).Keeps (s'.zones i) := by
  obtain ⟨halloc, hnext⟩ := hstep
  cases e with
  | spawn rate =>
    cases hnext
    exact Zone.Keeps.refl _
  | enter k conf skip =>
    simp only [State.next] at hnext
    split at hnext
    · split at hnext
      · cases hnext
        exact Zone.Keeps.refl _
      · cases hnext
    · cases hnext
  | look k input =>
    simp only [State.next] at hnext
    split at hnext
    · rename_i w hw
      split at hnext
      · rename_i conf n rc hstage
        split at hnext
        · rename_i l hl
          obtain ⟨r, hr, rfl⟩ := map_eq_some_iff.mp hnext
          have hlimit : w.limit? = some l := by rw [Worker.limit?, hstage]; exact hl
          exact State.keeps_put (turn_keeps (halloc w hw l hlimit) hr) i
        · cases hnext
          exact Zone.Keeps.refl _
      · cases hnext
    · cases hnext
  | giveBack k now =>
    simp only [State.next] at hnext
    split at hnext
    · split at hnext
      · split at hnext
        · obtain ⟨r, hr, rfl⟩ := map_eq_some_iff.mp hnext
          exact State.keeps_put (accountTurn_keeps hr) i
        · cases hnext
      · split at hnext
        · cases hnext
          exact State.keeps_put (unlockTurn_keeps _ _ _ _ _ _) i
        · cases hnext
      · cases hnext
    · cases hnext
  | leave k readOk =>
    simp only [State.next] at hnext
    split at hnext
    · split at hnext
      · cases hnext
        exact Zone.Keeps.refl _
      · cases hnext
        exact Zone.Keeps.refl _
      · cases hnext
    · cases hnext

/-- **The reference counts balance.** In every run in which no worker meets a wrong rate while it
keeps a node of a limit before, the counts are back in every state; and no step at all frees a node
that a request is counted on. -/
theorem limit_req_balanced {tr : List (State × Event)} (hrun : limitReq.Run tr s)
    (hsafe : ∀ p ∈ tr, RateSafe p.1 p.2) :
    Machine.Everywhere CountsBack tr s ∧
      ∀ s e s', limitReq.step s e s' → ∀ i, (s.zones i).Keeps (s'.zones i) := by
  have hall := hrun.invariant_of_steps (fun _ h => Balanced.init h)
    (fun _ _ _ h hsafe hstep => h.step hsafe hstep) hsafe
  refine ⟨⟨fun p hp => (hall.1 p hp).countsBack, hall.2.countsBack⟩, ?_⟩
  exact fun _ _ _ hstep i => limitReq_keeps hstep i

/-! ### A wrong rate with a node kept -/

/-- A location with two limits. -/
def twoLimits : Conf where
  limits := [⟨0, 0, 0, []⟩, ⟨1, 0, 0, []⟩]
  statusCode := 503
  dryRun := false
  nodup := by decide

/-- A turn of the loop with the key `a`. -/
def inputOf (rateVar : Option (Option VariableValue)) : Input :=
  ⟨rateVar, some [97], 5000000, some 1, none⟩

/-- One worker, before its first request. -/
def oneWorker : State :=
  ⟨fun _ => [], [⟨fun _ => 1000, fun _ => none, .returned .done⟩]⟩

/-- The worker has come to the second limit and keeps the node of the first. -/
def atSecond : State :=
  ⟨update (fun _ => []) 0 [⟨1, [97], 0, 0, 1⟩],
    [⟨update (fun _ => 1000) 0 1000, update (fun _ => none) 0 (some 1),
      .looking twoLimits 1 .again⟩]⟩

/-- The worker has called the handler. -/
def inHandler : State :=
  oneWorker.goto 0 ⟨fun _ => 1000, fun _ => none, .returned .done⟩ (.looking twoLimits 0 .declined)

/-- A run that stands before its second limit. -/
theorem atSecond_run : limitReq.Run
    [(⟨fun _ => [], []⟩, .spawn fun _ => 1000), (oneWorker, .enter 0 twoLimits false),
      (inHandler, .look 0 (inputOf none))] atSecond := by
  have hspawn : limitReq.step ⟨fun _ => [], []⟩ (.spawn fun _ => 1000) oneWorker := ⟨trivial, rfl⟩
  have henter : limitReq.step oneWorker (.enter 0 twoLimits false) inHandler := ⟨trivial, rfl⟩
  have hlook : limitReq.step inHandler (.look 0 (inputOf none)) atSecond :=
    ⟨fun _ _ _ _ _ _ => Zone.fresh_nil _ _, rfl⟩
  have hstart : limitReq.Run [] ⟨fun _ => [], []⟩ := Machine.Run.start ⟨fun _ => rfl, rfl⟩
  exact ((hstart.snoc hspawn).snoc henter).snoc hlook

/-- The counts on the way to the second limit. -/
theorem limit_req_balanced_two : CountsBack atSecond := by
  refine (limit_req_balanced atSecond_run ?_).1.2
  intro p hp
  simp only [mem_cons, not_mem_nil, or_false] at hp
  rcases hp with rfl | rfl | rfl
  · trivial
  · trivial
  · rintro w hw l - - i
    cases hw
    rfl

/-- **A leak.** At the second limit the variable of the rate is not found. The handler returns at
once, and the node of the first limit is counted though nobody is in the handler any more: it never
expires. -/
theorem limit_req_leak :
    ∃ tr s, limitReq.Run tr s ∧ (∀ w ∈ s.workers, w.stage = .returned (.status 500 none)) ∧
      (∃ lr ∈ s.zones 0, lr.count = 1) ∧
        ∀ rate now turns n, expire rate now turns n (s.zones 0) = s.zones 0 := by
  have hlook : limitReq.step atSecond (.look 0 (inputOf (some none)))
      (atSecond.put 0 1 (⟨update (fun _ => 1000) 0 1000,
        update (fun _ => none) 0 (some 1), .returned (.status 500 none)⟩, [])) := by
    refine ⟨?_, rfl⟩
    rintro w hw l hl rate hrate
    cases hw
    cases hl
    cases hrate
  refine ⟨_, _, atSecond_run.snoc hlook, fun w hw => ?_, ⟨_, mem_singleton_self _, rfl⟩, ?_⟩
  · rw [mem_singleton.mp hw]
  · intro rate now turns n
    cases turns with
    | zero => rfl
    | succ turns => rfl

end Hengine.LimitReq
