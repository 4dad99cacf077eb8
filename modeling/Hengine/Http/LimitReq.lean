import Mathlib.Data.List.Nodup
import Mathlib.Algebra.Group.Nat.Defs

/-!
# Request Limiting: Nodes of a Zone

`ngx_http_limit_req_module`: a zone in shared memory keeps a node for each key it has seen lately.
A node holds an *excess*, how far the requests are ahead of the rate, the time it was last charged
and the number of requests that have looked it up and have not been accounted yet.
`ngx_http_limit_req_lookup` finds or makes a node, `ngx_http_limit_req_account` charges a node some
earlier lookup has kept, `ngx_http_limit_req_unlock` gives it back uncharged and
`ngx_http_limit_req_expire` frees the oldest nodes.

A zone is the list of its nodes in the order of the queue, most recent first; searching the tree of
the zone is finding the node of a key. Times, rates and excesses are unsigned 64-bit numbers that
the code reads as signed where it tests for a negative one. The slab allocator is outside: what its
two attempts return is an argument.
-/

namespace Hengine.LimitReq

open List

/-- Status codes the module's functions return. -/
inductive Rc
  | ok
  | busy
  | again
  | error
  | declined
  deriving DecidableEq, Repr

/-- `ngx_http_limit_req_node_t` at the address the slab allocator gave it. -/
structure Node where
  addr : ℕ
  key : List UInt8
  last : UInt64
  excess : UInt64
  count : ℕ
  deriving DecidableEq, Repr

/-- The nodes of a zone, in the order of its queue. -/
abbrev Zone := List Node

/-- A number whose sign bit is set: negative when it is read as `ngx_int_t`. -/
def negative (x : UInt64) : Bool :=
  0x8000000000000000 ≤ x

/-- The milliseconds from `last` to `now`. A clock that has stepped back counts as no time, and as
one millisecond when it has stepped back more than a minute. -/
def elapsed (now last : UInt64) : UInt64 :=
  let ms := now - last
  if negative ms && ms < -60000 then 1 else if negative ms then 0 else ms

/-- What leaks out of a node of the given rate in `ms` milliseconds. -/
def leak (rate ms : UInt64) : UInt64 :=
  rate * ms / 1000

/-- The excess with one request more, `ms` milliseconds after the last one. -/
def charge (rate excess ms : UInt64) : UInt64 :=
  let excess := excess - leak rate ms + 1000
  if negative excess then 0 else excess

namespace Node

/-- The excess `lr` has with one request more at the time `now`. -/
def excessAt (rate now : UInt64) (lr : Node) : UInt64 :=
  charge rate lr.excess (elapsed now lr.last)

/-- `lr` charged with a request at the time `now`. -/
def charged (rate now : UInt64) (lr : Node) : Node :=
  { lr with
    excess := lr.excessAt rate now
    last := if elapsed now lr.last = 0 then lr.last else now }

/-- `lr` with one request more that is to come back to it. -/
def kept (lr : Node) : Node :=
  { lr with count := lr.count + 1 }

/-- `lr` with one request less that is to come back to it. -/
def released (lr : Node) : Node :=
  { lr with count := lr.count - 1 }

/-- A node not worth keeping: a minute old, with nothing left of its excess. -/
def stale (rate now : UInt64) (lr : Node) : Bool :=
  let d := now - lr.last
  let ms := if negative d then -d else d
  if negative ms || ms < 60000 then false
  else
    let excess := lr.excess - leak rate ms
    negative excess || excess == 0

end Node

/-- The turns left of the loop of `ngx_http_limit_req_expire`, with its counter `n`: the node a turn
meets at `n = 0` is deleted by force. -/
@[grind =]
def expire (rate now : UInt64) : ℕ → ℕ → Zone → Zone
  | 0, _, z => z
  | turns + 1, n, z =>
    match z.getLast? with
    | none => z
    | some lr =>
      if lr.count ≠ 0 then z
      else if n ≠ 0 ∧ lr.stale rate now = false then z
      else expire rate now turns (n + 1) z.dropLast

/-- What one call of `ngx_http_limit_req_lookup` leaves. -/
structure Lookup where
  rc : Rc
  excess : UInt64
  /-- The node stored in `ctx->node`, if the call stores one. -/
  node : Option ℕ
  zone : Zone

namespace Zone

/-- Search in the tree of the zone. -/
def find (z : Zone) (key : List UInt8) : Option Node :=
  List.find? (fun lr => lr.key == key) z

/-- Take the node at an address out of the queue and put `lr` at its head. -/
def bump (z : Zone) (lr : Node) : Zone :=
  lr :: z.filter fun other => other.addr != lr.addr

/-- Update the node at an address in its place. -/
def update (z : Zone) (addr : ℕ) (f : Node → Node) : Zone :=
  z.map fun lr => if lr.addr = addr then f lr else lr

/-- The branch of `ngx_http_limit_req_lookup` for a key the tree has a node of. -/
def lookupKnown (rate burst now : UInt64) (account : Bool) (z : Zone) (lr : Node) : Lookup :=
  let excess := lr.excessAt rate now
  if burst < excess then ⟨.busy, excess, none, z.bump lr⟩
  else if account then ⟨.ok, excess, none, z.bump (lr.charged rate now)⟩
  else ⟨.again, excess, some lr.addr, z.bump lr.kept⟩

/-- A new node at the head of the queue. -/
def insert (now : UInt64) (key : List UInt8) (account : Bool) (z : Zone) (addr : ℕ) : Lookup :=
  if account then ⟨.ok, 0, none, ⟨addr, key, now, 0, 0⟩ :: z⟩
  else ⟨.again, 0, some addr, ⟨addr, key, 0, 0, 1⟩ :: z⟩

/-- The branch of `ngx_http_limit_req_lookup` for a key without a node: make one, if need be after
deleting the oldest node by force. `alloc` are the results of the two attempts. -/
def lookupUnknown (rate now : UInt64) (key : List UInt8) (account : Bool)
    (alloc : Option ℕ × Option ℕ) (z : Zone) : Lookup :=
  let z := expire rate now 2 1 z
  match alloc.1 with
  | some addr => insert now key account z addr
  | none =>
    let z := expire rate now 3 0 z
    match alloc.2 with
    | some addr => insert now key account z addr
    | none => ⟨.error, 0, none, z⟩

/-- `ngx_http_limit_req_lookup` with `ctx->rate` and `limit->burst`. -/
def lookup (rate burst now : UInt64) (key : List UInt8) (account : Bool)
    (alloc : Option ℕ × Option ℕ) (z : Zone) : Lookup :=
  match z.find key with
  | some lr => lookupKnown rate burst now account z lr
  | none => lookupUnknown rate now key account alloc z

/-- The turn of `ngx_http_limit_req_account` for the node a lookup has kept. -/
def account (rate now : UInt64) (addr : ℕ) (z : Zone) : Zone :=
  z.update addr fun lr => (lr.charged rate now).released

/-- The turn of `ngx_http_limit_req_unlock` for the node a lookup has kept. -/
def unlock (addr : ℕ) (z : Zone) : Zone :=
  z.update addr Node.released

end Zone

/-! ### The arithmetic of a charge -/

theorem negative_iff {x : UInt64} : negative x = true ↔ 2 ^ 63 ≤ x.toNat := by
  simp only [negative, decide_eq_true_eq, UInt64.le_iff_toNat_le]
  rfl

/-- No more time has passed than between the two times. -/
theorem elapsed_le {now last : UInt64} (h : last ≤ now) :
    (elapsed now last).toNat ≤ now.toNat - last.toNat := by
  have hsub : (now - last).toNat = now.toNat - last.toNat := UInt64.toNat_sub_of_le _ _ h
  simp only [elapsed]
  split_ifs with h₁ h₂
  · have hneg := negative_iff.mp (Bool.and_eq_true_iff.mp h₁).1
    have hone : (1 : UInt64).toNat = 1 := rfl
    omega
  · have hzero : (0 : UInt64).toNat = 0 := rfl
    omega
  · omega

/-- What leaks out is at most the rate times the time. -/
theorem leak_le (rate ms : UInt64) : 1000 * (leak rate ms).toNat ≤ rate.toNat * ms.toNat := by
  have hmul : (rate * ms).toNat ≤ rate.toNat * ms.toNat := by
    rw [UInt64.toNat_mul]
    exact Nat.mod_le _ _
  have hdiv : (leak rate ms).toNat = (rate * ms).toNat / 1000 := by
    rw [leak, UInt64.toNat_div]
    rfl
  rw [hdiv]
  have := Nat.mul_div_le (rate * ms).toNat 1000
  omega

theorem leak_lt (rate ms : UInt64) : (leak rate ms).toNat < 2 ^ 62 := by
  have hdiv : (leak rate ms).toNat = (rate * ms).toNat / 1000 := by
    rw [leak, UInt64.toNat_div]
    rfl
  have hlt := (rate * ms).toNat_lt
  omega

/-- **One charge on natural numbers**: a thousand more, less the leak, and not below zero. -/
theorem charge_toNat {excess : UInt64} (rate ms : UInt64) (h : excess.toNat + 1000 < 2 ^ 63) :
    (charge rate excess ms).toNat = excess.toNat + 1000 - (leak rate ms).toNat := by
  have hleak := leak_lt rate ms
  have hraw : (excess - leak rate ms + 1000).toNat =
      (2 ^ 64 - (leak rate ms).toNat + excess.toNat + 1000) % 2 ^ 64 := by
    rw [UInt64.toNat_add, UInt64.toNat_sub]
    have : (1000 : UInt64).toNat = 1000 := rfl
    omega
  by_cases hle : (leak rate ms).toNat ≤ excess.toNat + 1000
  · have hval : (excess - leak rate ms + 1000).toNat =
        excess.toNat + 1000 - (leak rate ms).toNat := by omega
    have hneg : negative (excess - leak rate ms + 1000) = false := by
      rw [← Bool.not_eq_true, negative_iff]
      omega
    simp only [charge, hneg]
    exact hval
  · have hneg : negative (excess - leak rate ms + 1000) = true := by
      rw [negative_iff]
      omega
    simp only [charge, hneg]
    have hzero : (0 : UInt64).toNat = 0 := rfl
    simp only [if_true]
    omega

/-! ### What the operations do to the nodes -/

namespace Node

variable {rate now : UInt64} {lr : Node}

@[simp] theorem addr_kept : lr.kept.addr = lr.addr := rfl

@[simp] theorem excess_released : lr.released.excess = lr.excess := rfl

@[simp] theorem last_released : lr.released.last = lr.last := rfl

@[simp] theorem excess_charged : (lr.charged rate now).excess = lr.excessAt rate now := by
  simp only [charged]

@[simp] theorem last_charged :
    (lr.charged rate now).last = if elapsed now lr.last = 0 then lr.last else now := by
  simp only [charged]

@[simp] theorem last_kept : lr.kept.last = lr.last := rfl

@[simp] theorem excessAt_kept : lr.kept.excessAt rate now = lr.excessAt rate now := by
  simp only [excessAt, kept]

end Node

/-- No two nodes of a zone share an address or a key. -/
structure Zone.Ok (z : Zone) : Prop where
  addrs : (z.map Node.addr).Nodup
  keys : (z.map Node.key).Nodup

namespace Zone

variable {z : Zone} {lr lr' : Node} {key : List UInt8} {rate burst now : UInt64}

@[simp]
theorem find_nil : find [] key = none := rfl

theorem find_cons (lr : Node) (z : Zone) (key : List UInt8) :
    find (lr :: z) key = if lr.key = key then some lr else find z key := by
  simp only [find, find?_cons]
  by_cases h : lr.key = key
  · simp [h]
  · rw [beq_eq_false_iff_ne.mpr h, if_neg h]

theorem mem_of_find (h : z.find key = some lr) : lr ∈ z :=
  mem_of_find?_eq_some h

theorem key_of_find (h : z.find key = some lr) : lr.key = key := by
  simpa using find?_some h

theorem find_eq_none : z.find key = none ↔ key ∉ z.map Node.key := by
  simp [find, find?_eq_none]

/-- A node is found by its key. -/
theorem Ok.find_of_mem (hz : z.Ok) (h : lr ∈ z) : z.find lr.key = some lr := by
  cases hfind : z.find lr.key with
  | none => exact absurd (mem_map_of_mem h) (find_eq_none.mp hfind)
  | some other =>
    have hinj := inj_on_of_nodup_map hz.keys (mem_of_find hfind) h (key_of_find hfind)
    rw [hinj]

theorem Ok.eq_of_addr (hz : z.Ok) (h : lr ∈ z) (h' : lr' ∈ z) (ha : lr.addr = lr'.addr) :
    lr = lr' :=
  inj_on_of_nodup_map hz.addrs h h' ha

variable {f : Node → Node} {addr : ℕ} {z' : Zone}

theorem Ok.sublist (hz : z.Ok) (h : z'.Sublist z) : Zone.Ok z' :=
  ⟨hz.addrs.sublist (h.map _), hz.keys.sublist (h.map _)⟩

/-- Moving the node of a key to the head, changed or not, keeps the zone good. -/
theorem Ok.bump (hz : z.Ok) (h : lr ∈ z) (lr' : Node) (ha : lr'.addr = lr.addr)
    (hk : lr'.key = lr.key) : (z.bump lr').Ok := by
  have hrest : (z.filter fun other => other.addr != lr'.addr).Sublist z := filter_sublist
  refine ⟨?_, ?_⟩
  · refine nodup_cons.mpr ⟨?_, (hz.sublist hrest).addrs⟩
    simp
  · refine nodup_cons.mpr ⟨?_, (hz.sublist hrest).keys⟩
    rintro hmem
    obtain ⟨other, hother, hkey⟩ := mem_map.mp hmem
    obtain ⟨hin, hne⟩ := mem_filter.mp hother
    have hsame := inj_on_of_nodup_map hz.keys hin h (hkey.trans hk)
    subst hsame
    simp [ha] at hne

/-- After a bump the key has the bumped node, and every other key the node it had. -/
theorem Ok.find_bump (hz : z.Ok) (h : lr ∈ z) (lr' : Node) (ha : lr'.addr = lr.addr)
    (hk : lr'.key = lr.key) (key : List UInt8) :
    (z.bump lr').find key = if lr.key = key then some lr' else z.find key := by
  rw [Zone.bump, find_cons, hk]
  by_cases hkey : lr.key = key
  · rw [if_pos hkey, if_pos hkey]
  · rw [if_neg hkey, if_neg hkey]
    cases hfind : z.find key with
    | none =>
      rw [find_eq_none] at hfind ⊢
      intro hmem
      exact hfind ((filter_sublist.map _).subset hmem)
    | some other =>
      have hother := mem_of_find hfind
      have hother' : other ∈ z.filter fun other => other.addr != lr'.addr := by
        refine mem_filter.mpr ⟨hother, ?_⟩
        have hne : other.addr ≠ lr.addr := by
          intro heq
          exact hkey (by rw [← hz.eq_of_addr hother h heq, key_of_find hfind])
        simpa [ha] using hne
      have hok := hz.sublist (filter_sublist (p := fun other => other.addr != lr'.addr))
      rw [← key_of_find hfind]
      exact hok.find_of_mem hother'

theorem map_addr_update (hf : ∀ lr, (f lr).addr = lr.addr) :
    (z.update addr f).map Node.addr = z.map Node.addr := by
  rw [update, map_map]
  refine map_congr_left fun lr _ => ?_
  simp only [Function.comp]
  split_ifs
  · exact hf lr
  · rfl

theorem map_key_update (hf : ∀ lr, (f lr).key = lr.key) :
    (z.update addr f).map Node.key = z.map Node.key := by
  rw [update, map_map]
  refine map_congr_left fun lr _ => ?_
  simp only [Function.comp]
  split_ifs
  · exact hf lr
  · rfl

/-- An update in place leaves the keys where they are. -/
theorem find_update (hf : ∀ lr, (f lr).key = lr.key) (key : List UInt8) :
    (z.update addr f).find key =
      (z.find key).map fun lr => if lr.addr = addr then f lr else lr := by
  induction z with
  | nil => rfl
  | cons lr z ih =>
    have hkey : (if lr.addr = addr then f lr else lr).key = lr.key := by
      split_ifs
      · exact hf lr
      · rfl
    have hcons : update (lr :: z) addr f =
        (if lr.addr = addr then f lr else lr) :: update z addr f := rfl
    rw [hcons, find_cons, find_cons, hkey, ih]
    by_cases h : lr.key = key
    · rw [if_pos h, if_pos h]
      rfl
    · rw [if_neg h, if_neg h]

theorem find_update_self (hf : ∀ lr, (f lr).key = lr.key) (h : z.find key = some lr) :
    (z.update lr.addr f).find key = some (f lr) := by
  rw [find_update hf, h, Option.map_some, if_pos rfl]

/-- A change of one node does not concern other keys. -/
theorem Ok.find_update_ne (hz : z.Ok) (hf : ∀ lr, (f lr).key = lr.key) (h : lr ∈ z)
    (hkey : lr.key ≠ key) : (z.update lr.addr f).find key = z.find key := by
  rw [find_update hf]
  cases hfind : z.find key with
  | none => rfl
  | some other =>
    have hne : other.addr ≠ lr.addr := by
      intro heq
      exact hkey (by rw [← hz.eq_of_addr (mem_of_find hfind) h heq, key_of_find hfind])
    rw [Option.map_some, if_neg hne]

/-- Some of the oldest nodes are gone, none that a request was counted on. -/
def Shrunk (z z' : Zone) : Prop :=
  ∃ gone, z = z' ++ gone ∧ ∀ lr ∈ gone, lr.count = 0

theorem Shrunk.refl (z : Zone) : z.Shrunk z :=
  ⟨[], by simp, by simp⟩

/-- Shrinking twice. -/
theorem Shrunk.trans {z' z'' : Zone} (h : z.Shrunk z') (h' : z'.Shrunk z'') : z.Shrunk z'' := by
  obtain ⟨gone, hz, hgone⟩ := h
  obtain ⟨gone', hz', hgone'⟩ := h'
  refine ⟨gone' ++ gone, by rw [hz, hz', append_assoc], fun lr hlr => ?_⟩
  rcases mem_append.mp hlr with hlr | hlr
  · exact hgone' lr hlr
  · exact hgone lr hlr

/-- **Expiry frees only what nobody holds**, from the end of the queue. -/
theorem expire_shrunk (rate now : UInt64) (turns n : ℕ) (z : Zone) : z.Shrunk (expire rate now turns n z) := by
  induction turns generalizing n z with
  | zero => exact Shrunk.refl z
  | succ turns ih =>
    rw [expire]
    cases hlast : z.getLast? with
    | none => exact Shrunk.refl z
    | some lr =>
      by_cases hcount : lr.count ≠ 0
      · simp only [if_pos hcount]
        exact Shrunk.refl z
      by_cases hstay : n ≠ 0 ∧ lr.stale rate now = false
      · simp only [if_neg hcount, if_pos hstay]
        exact Shrunk.refl z
      simp only [if_neg hcount, if_neg hstay]
      refine Shrunk.trans ⟨[lr], (dropLast_append_getLast? lr hlast).symm, ?_⟩ (ih (n + 1) _)
      intro other hother
      rw [mem_singleton.mp hother]
      exact not_not.mp hcount

theorem Shrunk.find (h : z.Shrunk z') (hfind : z'.find key = some lr) : z.find key = some lr := by
  obtain ⟨gone, rfl, -⟩ := h
  simp only [Zone.find] at hfind ⊢
  rw [find?_append, hfind]
  rfl

theorem Ok.shrunk (hz : z.Ok) (h : z.Shrunk z') : z'.Ok := by
  obtain ⟨gone, rfl, -⟩ := h
  exact hz.sublist (sublist_append_left _ _)

/-- What the slab allocator promises of its two attempts: an address it returns is not that of a
node the zone still has. -/
def Fresh (rate now : UInt64) (alloc : Option ℕ × Option ℕ) (z : Zone) : Prop :=
  (∀ addr, alloc.1 = some addr → addr ∉ (expire rate now 2 1 z).map Node.addr) ∧
    ∀ addr, alloc.2 = some addr →
      addr ∉ (expire rate now 3 0 (expire rate now 2 1 z)).map Node.addr

/-- **What one lookup does.** A known key is refused, charged or kept, and its node goes to the head
of the queue; for an unknown key some old nodes go, and a node is made unless memory is short. -/
theorem lookup_cases (burst : UInt64) (key : List UInt8) (account : Bool)
    {alloc : Option ℕ × Option ℕ} (hfresh : z.Fresh rate now alloc) :
    (∃ lr, z.find key = some lr ∧
      (burst < lr.excessAt rate now ∧
          z.lookup rate burst now key account alloc = ⟨.busy, lr.excessAt rate now, none, z.bump lr⟩ ∨
        lr.excessAt rate now ≤ burst ∧ account = true ∧
          z.lookup rate burst now key account alloc =
            ⟨.ok, lr.excessAt rate now, none, z.bump (lr.charged rate now)⟩ ∨
        lr.excessAt rate now ≤ burst ∧ account = false ∧
          z.lookup rate burst now key account alloc =
            ⟨.again, lr.excessAt rate now, some lr.addr, z.bump lr.kept⟩)) ∨
      z.find key = none ∧ ∃ z', z.Shrunk z' ∧
        ((∃ addr, addr ∉ z'.map Node.addr ∧
            z.lookup rate burst now key account alloc = insert now key account z' addr) ∨
          z.lookup rate burst now key account alloc = ⟨.error, 0, none, z'⟩) := by
  cases hfind : z.find key with
  | some lr =>
    refine Or.inl ⟨lr, rfl, ?_⟩
    have hlookup : z.lookup rate burst now key account alloc =
        lookupKnown rate burst now account z lr := by rw [lookup, hfind]
    rw [hlookup]
    by_cases hbusy : burst < lr.excessAt rate now
    · exact Or.inl ⟨hbusy, by simp only [lookupKnown, if_pos hbusy]⟩
    · have hle := UInt64.not_lt.mp hbusy
      cases account with
      | true => exact Or.inr (Or.inl ⟨hle, rfl, by simp [lookupKnown, if_neg hbusy]⟩)
      | false =>
        refine Or.inr (Or.inr ⟨hle, rfl, ?_⟩)
        simp [lookupKnown, if_neg hbusy]
  | none =>
    refine Or.inr ⟨rfl, ?_⟩
    have hlookup : z.lookup rate burst now key account alloc =
        lookupUnknown rate now key account alloc z := by rw [lookup, hfind]
    rw [hlookup, lookupUnknown]
    have hshrunk := expire_shrunk rate now 2 1 z
    cases hfirst : alloc.1 with
    | some addr => exact ⟨_, hshrunk, Or.inl ⟨addr, hfresh.1 addr hfirst, rfl⟩⟩
    | none =>
      have hshrunk' := hshrunk.trans (expire_shrunk rate now 3 0 _)
      cases hsecond : alloc.2 with
      | some addr => exact ⟨_, hshrunk', Or.inl ⟨addr, hfresh.2 addr hsecond, rfl⟩⟩
      | none => exact ⟨_, hshrunk', Or.inr rfl⟩

/-- A new node keeps the zone in order. -/
theorem Ok.insert (hz : z.Ok) (now : UInt64) (account : Bool) (hkey : z.find key = none)
    (haddr : addr ∉ z.map Node.addr) : (Zone.insert now key account z addr).zone.Ok := by
  rw [find_eq_none] at hkey
  cases account with
  | true => exact ⟨nodup_cons.mpr ⟨haddr, hz.addrs⟩, nodup_cons.mpr ⟨hkey, hz.keys⟩⟩
  | false => exact ⟨nodup_cons.mpr ⟨haddr, hz.addrs⟩, nodup_cons.mpr ⟨hkey, hz.keys⟩⟩

theorem Shrunk.find_none (h : z.Shrunk z') (hfind : z.find key = none) : z'.find key = none := by
  cases hfind' : z'.find key with
  | none => rfl
  | some lr =>
    rw [h.find hfind'] at hfind
    cases hfind

/-- **A lookup** keeps the zone in order. -/
theorem Ok.lookup (hz : z.Ok) (burst : UInt64) (key : List UInt8) (account : Bool)
    {alloc : Option ℕ × Option ℕ} (hfresh : z.Fresh rate now alloc) :
    (z.lookup rate burst now key account alloc).zone.Ok := by
  rcases lookup_cases burst key account hfresh with
    ⟨lr, hfind, hcase⟩ | ⟨hfind, z', hshrunk, hcase⟩
  · have hmem := mem_of_find hfind
    rcases hcase with ⟨-, h⟩ | ⟨-, -, h⟩ | ⟨-, -, h⟩
    · rw [h]
      exact hz.bump hmem _ rfl rfl
    · rw [h]
      exact hz.bump hmem _ rfl rfl
    · rw [h]
      exact hz.bump hmem _ rfl rfl
  · rcases hcase with ⟨addr, haddr, h⟩ | h
    · rw [h]
      exact (hz.shrunk hshrunk).insert _ _ (hshrunk.find_none hfind) haddr
    · rw [h]
      exact hz.shrunk hshrunk

/-- A change of other fields keeps the keys and the addresses. -/
theorem Ok.update (hz : z.Ok) (addr : ℕ) (ha : ∀ lr, (f lr).addr = lr.addr)
    (hk : ∀ lr, (f lr).key = lr.key) : (z.update addr f).Ok := by
  refine ⟨?_, ?_⟩
  · rw [map_addr_update ha]
    exact hz.addrs
  · rw [map_key_update hk]
    exact hz.keys

theorem Ok.account (hz : z.Ok) (addr : ℕ) : (z.account rate now addr).Ok :=
  hz.update addr (fun _ => rfl) fun _ => rfl

theorem Ok.unlock (hz : z.Ok) (addr : ℕ) : (z.unlock addr).Ok :=
  hz.update addr (fun _ => rfl) fun _ => rfl

theorem ok_nil : Ok [] :=
  ⟨nodup_nil, nodup_nil⟩

theorem fresh_nil (now : UInt64) (alloc : Option ℕ × Option ℕ) : Fresh rate now alloc [] :=
  ⟨fun _ _ => not_mem_nil, fun _ _ => not_mem_nil⟩

theorem fresh_none (now : UInt64) (z : Zone) : z.Fresh rate now (none, none) := by
  refine ⟨?_, ?_⟩
  · rintro addr ⟨⟩
  · rintro addr ⟨⟩

end Zone

end Hengine.LimitReq
