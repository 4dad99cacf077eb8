import Hengine.Lib.Machine
import Mathlib.Data.Fintype.Defs

/-!
# The two slots of a strategy

The model of the slots in `ngx_proc_strategy_module.c`, with the callbacks that the ingress module gives them
(`ngx_ingress_update`, `ngx_ingress_check_update` in `ngx_ingress_module.c`). One slot is the current one,
which the workers read. An update is built in the other one, the reserved one, and makes it the current one.

Another process publishes configurations in a memory of its own, which holds only the last one. An update may
find this memory locked, or the configuration in it unreadable, and the build may fail; a configuration may be
published between any two readings. So a callback is two steps: the check, and the update where one is needed.
What `ngx_ingress_update_shm_by_pb` builds is here only that it was built completely, and from what. The slots
lie in memory that was zeroed.
-/

namespace Hengine.Strategy

/-! ### Slots -/

/-- `check_update_status`. -/
inductive CheckUpdateStatus
  | failed
  | needUpdate
  | noUpdate
deriving DecidableEq

/-- `ngx_strategy_slot_ctx_t`. -/
structure Slot (D : Type*) where
  data : D
  valid : Bool

/-- `ngx_strategy_slot_shm_ctx_t`. -/
structure SlotShm (D : Type*) where
  current : Fin 2
  slots : Fin 2 → Slot D

namespace SlotShm

variable {D : Type*}

/-- The slot that `current` names. -/
def cur (s : SlotShm D) : Slot D := s.slots s.current

/-- The slot `(current + 1) % 2`. -/
def reserved (s : SlotShm D) : Slot D := s.slots (s.current + 1)

/-- `ngx_strategy_get_current_slot`. -/
def getCurrentSlot (s : SlotShm D) : Option D := if s.cur.valid then some s.cur.data else none

/-- A turn of the loop in `ngx_strategy_slot_init`; `update` gives the data and whether it is `NGX_OK`. -/
def initSlot (s : SlotShm D) (i : Fin 2) (update : D → D × Bool) : SlotShm D :=
  let r := update (s.slots i).data
  { s with slots := Function.update s.slots i ⟨r.1, r.2⟩ }

/-- The first part of `ngx_strategy_slot_callback`: `need_update`. -/
@[grind =]
def needUpdate (s : SlotShm D) (checkUpdate : Option (D → CheckUpdateStatus)) : Bool :=
  match checkUpdate with
  | none => true
  | some check => check s.reserved.data = .needUpdate

/-- The second part of `ngx_strategy_slot_callback`, where an update is needed. -/
def callbackUpdate (s : SlotShm D) (update : D → D × Bool) : SlotShm D :=
  let r := update s.reserved.data
  if r.2 then
    ⟨s.current + 1, Function.update s.slots (s.current + 1) ⟨r.1, true⟩⟩
  else { s with slots := Function.update s.slots (s.current + 1) ⟨r.1, s.reserved.valid⟩ }

end SlotShm

/-! ### The ingress module -/

/-- A configuration in the memory of the publisher, with its `n_services`. -/
structure Published (C : Type*) where
  version : UInt64
  config : C
  services : ℕ
deriving DecidableEq

/-- `ngx_ingress_t`: the version, and the configuration that the rules are completely built from. -/
structure Ingress (C : Type*) where
  version : UInt64
  rules : Option C
deriving DecidableEq

/-- What an update meets: the lock of the memory may be refused, the configuration may be unreadable, or it
is built, with success or not. -/
inductive Outcome
  | refused
  | unreadable
  | built (ok : Bool)
deriving DecidableEq

variable {C : Type*}

/-- Whether the build is `NGX_OK`, or `none` where the update ends before it: it takes no empty
configuration where there was one before. -/
def buildOf (p : Published C) (d : Ingress C) : Outcome → Option Bool
  | .refused => none
  | .unreadable => none
  | .built ok => if d.version ≠ 0 ∧ p.services = 0 then none else some ok

/-- `ngx_ingress_update`. -/
def ingressUpdate (p : Published C) (o : Outcome) (d : Ingress C) : Ingress C × Bool :=
  match buildOf p d o with
  | none => (d, false)
  | some ok => (⟨p.version, if ok then some p.config else none⟩, ok)

/-- `ngx_ingress_check_update`; `readable` tells whether the version can be read. -/
def ingressCheckUpdate (p : Published C) (readable : Bool) (d : Ingress C) : CheckUpdateStatus :=
  if !readable then .noUpdate
  else if d.version ≠ p.version then .needUpdate
  else .noUpdate

/-! ### Runs -/

/-- Where the program is: before the update of a slot in `ngx_strategy_slot_init`, between two callbacks, or
in a callback before the update. -/
inductive Phase
  | init (i : Fin 2)
  | idle
  | updating
deriving DecidableEq

/-- The slots and what has been published, the last one and the older ones. The versions on which updates
failed or succeeded are kept for the statements only. -/
structure State (C : Type*) where
  shm : SlotShm (Ingress C)
  phase : Phase
  last : Published C
  older : List (Published C)
  failed : List UInt64
  accepted : List UInt64

/-- What can happen. -/
inductive Event (C : Type*)
  | publish (p : Published C)
  | update (o : Outcome)
  | check (readable : Bool)

namespace State

/-- All that has been published, the newest first. -/
def published (s : State C) : List (Published C) := s.last :: s.older

/-- The slot that an update is built in. -/
def target (s : State C) : Slot (Ingress C) :=
  match s.phase with
  | .init i => s.shm.slots i
  | _ => s.shm.reserved

/-- What becomes of the build of an update. -/
def build (s : State C) (o : Outcome) : Option Bool := buildOf s.last s.target.data o

/-- The history after an update. -/
def record (s : State C) (o : Outcome) : State C :=
  match o, s.build o with
  | .refused, _ => s
  | _, some true => { s with accepted := s.last.version :: s.accepted }
  | _, _ => { s with failed := s.last.version :: s.failed }

/-- A step of the program or of the publisher, or `none` where the program is elsewhere. -/
def step (s : State C) : Event C → Option (State C)
  | .publish p => some { s with last := p, older := s.last :: s.older }
  | .update o =>
    match s.phase with
    | .init i => some { s.record o with
        shm := s.shm.initSlot i (ingressUpdate s.last o)
        phase := if i = 0 then .init 1 else .idle }
    | .idle => none
    | .updating => some { s.record o with
        shm := s.shm.callbackUpdate (ingressUpdate s.last o)
        phase := .idle }
  | .check readable =>
    match s.phase with
    | .idle => some { s with
        phase := if s.shm.needUpdate (some (ingressCheckUpdate s.last readable)) then .updating
          else .idle }
    | _ => none

/-- A version that was not rejected: no update failed on it, or one succeeded. -/
def kept (s : State C) (v : UInt64) : Bool := v ∉ s.failed ∨ v ∈ s.accepted

/-- The latest published configuration that was not rejected. -/
def latest (s : State C) : Option (Published C) := s.published.find? fun p => s.kept p.version

/-- The versions that were published after that of the current slot. -/
def newer (s : State C) : List UInt64 :=
  (s.published.map Published.version).takeWhile fun v => v ≠ s.shm.cur.data.version

end State

/-- The start: something is in the memory of the publisher, and the slots are zeroed. -/
def State.Initial (s : State C) : Prop :=
  s.phase = .init 0 ∧ s.shm = ⟨0, fun _ => ⟨⟨0, none⟩, false⟩⟩ ∧ s.older = [] ∧ s.failed = [] ∧
    s.accepted = []

/-- The slots under any sequence of updates, checks and publications. -/
def slotMachine (C : Type*) : Machine (State C) (Event C) :=
  Machine.ofStep State.Initial State.step

/-! ### When the slots are right -/

/-- A published version is new, and not 0. A check can read the version, and it is not 0. In the
initialisation the second slot is built only like the first one. A build in the reserved slot fails only while
the current slot is valid, and all versions between its own and the last one were tried. -/
def Event.Safe (s : State C) : Event C → Prop
  | publish p => p.version ≠ 0 ∧ ∀ q ∈ s.published, q.version ≠ p.version
  | check readable => readable = true ∧ s.last.version ≠ 0
  | update o =>
    (s.build o = some true → s.phase = .init 1 →
      s.shm.cur.valid = true ∧ s.shm.cur.data.version = s.last.version) ∧
    (s.build o = some false → s.phase ≠ .init 0 →
      s.shm.cur.valid = true ∧ ∀ v ∈ s.newer, v ≠ s.last.version → v ∈ s.failed)

end Hengine.Strategy
