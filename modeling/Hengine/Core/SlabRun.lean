import Hengine.Core.SlabExtent
import Hengine.Lib.Machine

/-!
# Runs of the Slab Allocator

The users of a zone allocate, free blocks they have, and write to them, in any order. The
machine of this module is a pool with the list of the blocks that are live: a block is free
to be released once, and a write goes to a word of a live block, which may be anything the
allocator does not keep there itself.

The invariant of a run matches the list with the live blocks of the pool: each entry is one
of them, with enough room, and each of them is an entry.
-/

namespace Hengine

open List Function

/-- A block that was returned and not freed yet, with the size that was asked for. -/
structure SlabBlock where
  addr : ℕ
  size : ℕ
  deriving DecidableEq

/-- A pool and its live blocks, the newest first. -/
structure SlabState where
  pool : SlabPool
  live : List SlabBlock

/-- What the users of a zone do. -/
inductive SlabEvent
  | alloc (size : ℕ)
  | free (p : ℕ)
  | write (a : ℕ) (x : Word)

/-- The word of the zone at address `a`. -/
def SlabPool.poke (z : SlabZone) (a : ℕ) (x : Word) (pool : SlabPool) : SlabPool :=
  pool.setWord ((a - pool.start) / z.pagesize) ((a - pool.start) % z.pagesize / 8) x

/-- One call, or one write to a live block. Only live blocks are freed. -/
def slabStep (z : SlabZone) (σ : SlabState) : SlabEvent → Option SlabState
  | .alloc size =>
    (slabAllocLocked z size σ.pool).map fun
      | (none, pool) => { σ with pool := pool }
      | (some p, pool) => ⟨pool, ⟨p, size⟩ :: σ.live⟩
  | .free p =>
    if p ∈ σ.live.map SlabBlock.addr then
      (slabFreeLocked z p σ.pool).map fun pool =>
        ⟨pool, σ.live.filter fun b => b.addr ≠ p⟩
    else none
  | .write a x =>
    if a % 8 = 0 ∧ ∃ b ∈ σ.live, b.addr ≤ a ∧ a < b.addr + b.size then
      some { σ with pool := σ.pool.poke z a x }
    else none

/-- The runs of a zone: whatever is in its memory at first. -/
def slabMachine (z : SlabZone) : Machine SlabState SlabEvent :=
  Machine.ofStep (fun σ => ∃ mem, σ = ⟨slabInit z mem, []⟩) (slabStep z)

/-- The list of live blocks is the list of `owners`, the live blocks of the pool with the
sizes asked for. -/
structure SlabAccount (z : SlabZone) (runs blocks : List (ℕ × ℕ)) (slots : ℕ → List ℕ)
    (owners : List (SlabOwner × ℕ)) (σ : SlabState) : Prop where
  ok : SlabOk z runs blocks slots σ.pool
  nodup : (owners.map Prod.fst).Nodup
  owns : ∀ o, o ∈ owners.map Prod.fst ↔ Owns z blocks σ.pool o
  room : ∀ e ∈ owners, e.2 ≤ e.1.room z
  live : σ.live = owners.map fun e => ⟨e.1.addr z σ.pool.start, e.2⟩

/-- The invariant of a run. -/
def SlabRunInv (z : SlabZone) (σ : SlabState) : Prop :=
  ∃ runs blocks slots owners, SlabAccount z runs blocks slots owners σ

/-! ### The initial pool -/

section Init

variable (z : SlabZone) (mem : ℕ → ℕ → Word)

/-- `ngx_slab_init` aligns the pages, and they end within the zone. -/
theorem slabInit_layout : z.pagesize ∣ (slabInit z mem).start ∧
    (slabInit z mem).last < 2 ^ 63 ∧
    (0 < (slabInit z mem).last →
      (slabInit z mem).start + (slabInit z mem).last * z.pagesize ≤ z.stop) := by
  have hfits := z.fits
  have hstop := z.stop_lt
  have hP : 0 < z.pagesize := Nat.two_pow_pos _
  simp only [slabInit]
  generalize z.pagesizeShift - z.minShift = n at *
  generalize hsize : z.stop - z.slots - n * (24 + 32) = size
  have hdiv : size / (z.pagesize + 24) * (z.pagesize + 24) ≤ size := Nat.div_mul_le_self _ _
  generalize hpages : size / (z.pagesize + 24) = pages at *
  have hlt : pages < 2 ^ 63 := by
    have : pages ≤ pages * (z.pagesize + 24) := Nat.le_mul_of_pos_right _ (by omega)
    omega
  rw [Nat.mul_add] at hdiv
  generalize hp : z.slots + n * 24 + n * 32 + pages * 24 = p at *
  have hle : (p + (z.pagesize - 1)) / z.pagesize * z.pagesize ≤ p + (z.pagesize - 1) :=
    Nat.div_mul_le_self _ _
  have hdvd : z.pagesize ∣ (p + (z.pagesize - 1)) / z.pagesize * z.pagesize :=
    Nat.dvd_mul_left _ _
  generalize (p + (z.pagesize - 1)) / z.pagesize * z.pagesize = start at *
  have hroom : (z.stop - start) / z.pagesize * z.pagesize ≤ z.stop - start :=
    Nat.div_mul_le_self _ _
  refine ⟨hdvd, ?_, ?_⟩
  · split_ifs <;> omega
  · intro hpos
    have hpages : 0 < pages := by
      by_contra hzero
      split_ifs at hpos <;> omega
    have hmul : z.pagesize ≤ pages * z.pagesize := Nat.le_mul_of_pos_left _ hpages
    have hstart : start ≤ z.stop := by omega
    rw [if_pos hstart]
    generalize (z.stop - start) / z.pagesize = room at *
    have hlast : (if (0 : ℤ) < pages - room then pages - ((pages : ℤ) - room).toNat else pages) ≤
        room := by
      split_ifs <;> omega
    have := Nat.mul_le_mul_right z.pagesize hlast
    omega

theorem slabInit_type (j : ℕ) : ((slabInit z mem).prev (.page j)).type = .page :=
  slabInit_prev_type z mem j

theorem slabInit_freeRuns : FreeRuns ∅ [(0, (slabInit z mem).last)] (slabInit z mem) := by
  obtain ⟨-, hlast, -⟩ := slabInit_layout z mem
  exact slabInit_runs z mem hlast

/-- **The initial pool** satisfies the invariant, with no live block. -/
theorem slabInit_account :
    SlabAccount z [(0, (slabInit z mem).last)] [] (fun _ => []) [] ⟨slabInit z mem, []⟩ := by
  obtain ⟨halign, -, hfits⟩ := slabInit_layout z mem
  have hnone : ∀ s j, ¬ SlotPage z s j (slabInit z mem) :=
    fun s j P => P.type_ne (slabInit_type z mem j)
  refine ⟨⟨⟨slabInit_freeRuns z mem, by simp, by simp, by simp, by simp, ?_, ?_, ?_, ?_, ?_⟩, ?_, ?_,
    halign, hfits, ?_⟩, by simp, ?_, by simp, rfl⟩
  · intro j hj
    exact absurd hj not_covered_nil
  · intro j hj _ hncov
    exact absurd (covered_singleton.mpr ⟨by simp, by simpa using hj⟩) hncov
  · intro t _
    exact ⟨rfl, by simp⟩
  · intro t _ j
    simp [hnone]
  · intro j _ _ htype
    exact absurd (slabInit_type z mem j) htype
  · simp [runPages, slabInit]
  · intro hzero
    rw [hzero]
  · intro e he
    simp [slabInit] at he
  · intro o
    cases o with
    | block i k => simp [Owns]
    | chunk s i c => simp [Owns, hnone]

end Init

/-! ### Steps -/

section Steps

variable {z : SlabZone} {runs blocks : List (ℕ × ℕ)} {slots : ℕ → List ℕ}
  {owners : List (SlabOwner × ℕ)} {σ σ' : SlabState} {b b' : SlabBlock} {o : SlabOwner}
  {size p a : ℕ} {x : Word}

namespace SlabAccount

section

variable (h : SlabAccount z runs blocks slots owners σ)
include h

/-- A live block is owned, at its address and with room for its size. -/
theorem owner_of_live (hb : b ∈ σ.live) :
    ∃ o, (o, b.size) ∈ owners ∧ Owns z blocks σ.pool o ∧
      b.addr = o.addr z σ.pool.start ∧ b.size ≤ o.room z := by
  rw [h.live] at hb
  obtain ⟨⟨o, n⟩, he, rfl⟩ := mem_map.mp hb
  exact ⟨o, he, (h.owns o).mp (mem_map_of_mem he), rfl, h.room _ he⟩

/-- An owner has a live block at its address. -/
theorem live_of_owner (ho : Owns z blocks σ.pool o) :
    ∃ b ∈ σ.live, b.addr = o.addr z σ.pool.start := by
  obtain ⟨⟨o', n⟩, he, rfl⟩ := mem_map.mp ((h.owns o).mpr ho)
  rw [h.live]
  exact ⟨_, mem_map_of_mem he, rfl⟩

/-- **An allocation** keeps the invariant. -/
theorem alloc (hstep : slabStep z σ (.alloc size) = some σ') : SlabRunInv z σ' := by
  rw [slabStep] at hstep
  rcases h.ok.alloc size with
    ⟨pool', hres, hok, hstart, howns⟩ | ⟨o, runs', blocks', slots', pool', hres, hok, G, hroom⟩
  · rw [hres, Option.map_some, Option.some.injEq] at hstep
    subst hstep
    refine ⟨runs, blocks, slots, owners, hok, h.nodup, ?_, h.room, ?_⟩
    · exact fun o => (h.owns o).trans (howns o).symm
    · simp only [hstart, h.live]
  · rw [hres, Option.map_some, Option.some.injEq] at hstep
    subst hstep
    refine ⟨runs', blocks', slots', (o, size) :: owners, hok, ?_, ?_, ?_, ?_⟩
    · exact nodup_cons.mpr ⟨fun hmem => G.fresh ((h.owns o).mp hmem), h.nodup⟩
    · intro o'
      rw [map_cons, mem_cons, h.owns, G.owns, or_comm]
    · intro e he
      rcases mem_cons.mp he with rfl | he
      · exact hroom
      · exact h.room e he
    · simp only [G.start, h.live, map_cons]

/-- **A release** keeps the invariant. -/
theorem free (hstep : slabStep z σ (.free p) = some σ') : SlabRunInv z σ' := by
  rw [slabStep] at hstep
  split_ifs at hstep with hp
  obtain ⟨b, hb, rfl⟩ := mem_map.mp hp
  obtain ⟨o, he, ho, haddr, -⟩ := h.owner_of_live hb
  obtain ⟨runs', blocks', slots', pool', hres, hok, L⟩ := h.ok.release ho
  rw [haddr, hres, Option.map_some, Option.some.injEq] at hstep
  subst hstep
  refine ⟨runs', blocks', slots', owners.filter fun e => e.1 ≠ o, hok, ?_, ?_, ?_, ?_⟩
  · exact h.nodup.sublist (filter_sublist.map _)
  · intro o'
    rw [L.owns, ← h.owns]
    simp only [mem_map, mem_filter, decide_eq_true_eq]
    constructor
    · rintro ⟨e, ⟨he, hne⟩, rfl⟩
      exact ⟨⟨e, he, rfl⟩, hne⟩
    · rintro ⟨⟨e, he, rfl⟩, hne⟩
      exact ⟨e, ⟨he, hne⟩, rfl⟩
  · intro e he
    exact h.room e (mem_of_mem_filter he)
  · simp only [h.live, L.start, filter_map]
    congr 1
    refine filter_congr fun e he => ?_
    have hown : Owns z blocks σ.pool e.1 := (h.owns e.1).mp (mem_map_of_mem he)
    have hiff : e.1.addr z σ.pool.start ≠ o.addr z σ.pool.start ↔ e.1 ≠ o := by
      refine not_congr ⟨fun heq => h.ok.addr_inj hown ho heq, fun heq => by rw [heq]⟩
    simp only [Function.comp_apply, hiff]

/-- A word of a live block is in no bitmap. -/
theorem word_not_bitmap (hb : b ∈ σ.live) (h8 : a % 8 = 0) (hlo : b.addr ≤ a)
    (hhi : a < b.addr + b.size) {s j w : ℕ} (P : SlotPage z s j σ.pool) (hs : s < z.exactShift)
    (hw : w < z.mapWords s) :
    j ≠ (a - σ.pool.start) / z.pagesize ∨ w ≠ (a - σ.pool.start) % z.pagesize / 8 := by
  obtain ⟨o, -, ho, haddr, hroom⟩ := h.owner_of_live hb
  obtain ⟨hstart, -⟩ := h.ok.extent_inside ho
  have hapart := h.ok.extent_bitmap ho P hs
  have h8P : 8 ∣ z.pagesize := by
    have hge : 3 ≤ z.pagesizeShift := Nat.le_trans (by decide) z.pagesize_ge
    exact Nat.pow_dvd_pow 2 hge
  have hoff : (a - σ.pool.start) % z.pagesize % 8 = 0 := by
    rw [Nat.mod_mod_of_dvd _ h8P]
    exact Nat.mod_eq_zero_of_dvd
      (Nat.dvd_sub (Nat.dvd_of_mod_eq_zero h8) (h8P.trans h.ok.aligned))
  have hdiv := Nat.div_add_mod' (a - σ.pool.start) z.pagesize
  by_contra hmeet
  rw [not_or, not_not, not_not] at hmeet
  obtain ⟨rfl, rfl⟩ := hmeet
  -- otherwise the word is one of the bitmap of its page
  rw [Apart, SlabPool.pageAddr, shiftLeft_page, slabMapBytes, P.pageShift] at hapart
  generalize (a - σ.pool.start) / z.pagesize * z.pagesize = base at *
  generalize (a - σ.pool.start) % z.pagesize = off at *
  omega

/-- **A write** to a live block keeps the invariant. -/
theorem write (hstep : slabStep z σ (.write a x) = some σ') : SlabRunInv z σ' := by
  rw [slabStep] at hstep
  split_ifs at hstep with hguard
  obtain ⟨h8, b, hb, hlo, hhi⟩ := hguard
  have hbook : SlabOk z runs blocks slots (σ.pool.poke z a x) ∧
      ∀ o, Owns z blocks (σ.pool.poke z a x) o ↔ Owns z blocks σ.pool o := by
    refine h.ok.book rfl rfl rfl rfl rfl rfl h.ok.log fun j _ s hs P w hw => ?_
    rw [SlabPool.poke, SlabPool.setWord]
    simp only
    rcases h.word_not_bitmap hb h8 hlo hhi P hs hw with hj | hw
    · rw [update_of_ne hj]
    · by_cases hj : j = (a - σ.pool.start) / z.pagesize
      · rw [← hj, update_self, update_of_ne hw]
      · rw [update_of_ne hj]
  obtain rfl := Option.some.inj hstep
  exact ⟨runs, blocks, slots, owners, hbook.1, h.nodup,
    fun o => (h.owns o).trans (hbook.2 o).symm, h.room, h.live⟩

end

end SlabAccount

/-- **The invariant of a run.** -/
theorem slab_invariant (h : (slabMachine z).Reachable σ) : SlabRunInv z σ := by
  refine h.invariant ?_ ?_
  · rintro σ ⟨mem, rfl⟩
    exact ⟨_, _, _, _, slabInit_account z mem⟩
  · rintro σ e σ' ⟨runs, blocks, slots, owners, hinv⟩ hstep
    cases e with
    | alloc size => exact hinv.alloc hstep
    | free p => exact hinv.free hstep
    | write a x => exact hinv.write hstep

end Steps

/-! ### Separation -/

/-- What the users of a zone rely on: live blocks are inside the pool, with the room asked
for, and meet neither each other nor a bitmap. No call on them runs into a null pointer,
and none logs anything but that memory is short. -/
structure SlabSeparated (z : SlabZone) (σ : SlabState) : Prop where
  inside : ∀ b ∈ σ.live, σ.pool.start ≤ b.addr ∧
    b.addr + slabRoom z σ.pool b.addr ≤ z.stop
  room : ∀ b ∈ σ.live, b.size ≤ slabRoom z σ.pool b.addr
  apart : σ.live.Pairwise fun b b' =>
    Apart b.addr (slabRoom z σ.pool b.addr) b'.addr (slabRoom z σ.pool b'.addr)
  bitmap : ∀ b ∈ σ.live, ∀ i < σ.pool.last, (σ.pool.prev (.page i)).type = .small →
    Apart b.addr (slabRoom z σ.pool b.addr) (σ.pool.pageAddr z i) (slabMapBytes z σ.pool i)
  allocates : ∀ size, slabStep z σ (.alloc size) ≠ none
  frees : ∀ b ∈ σ.live, slabStep z σ (.free b.addr) ≠ none
  log : ∀ e ∈ σ.pool.log, e = .noMemory

/-- **Separation.** For every zone, in every state that allocations, releases of live blocks
and writes to live blocks lead to. -/
theorem slab_separated {z : SlabZone} {σ : SlabState} (h : (slabMachine z).Reachable σ) :
    SlabSeparated z σ := by
  obtain ⟨runs, blocks, slots, owners, hinv⟩ := slab_invariant h
  have hok := hinv.ok
  have hroom : ∀ b ∈ σ.live, ∃ o, Owns z blocks σ.pool o ∧ b.addr = o.addr z σ.pool.start ∧
      slabRoom z σ.pool b.addr = o.room z ∧ b.size ≤ o.room z := by
    intro b hb
    obtain ⟨o, -, ho, haddr, hle⟩ := hinv.owner_of_live hb
    exact ⟨o, ho, haddr, by rw [haddr, hok.room_eq ho], hle⟩
  refine ⟨?_, ?_, ?_, ?_, ?_, ?_, hok.log⟩
  · intro b hb
    obtain ⟨o, ho, haddr, hr, -⟩ := hroom b hb
    rw [hr, haddr]
    exact hok.extent_inside ho
  · intro b hb
    obtain ⟨o, -, -, hr, hle⟩ := hroom b hb
    rw [hr]
    exact hle
  · rw [hinv.live, pairwise_map]
    refine (pairwise_map.mp hinv.nodup).imp_of_mem fun {e e'} he he' hne => ?_
    have ho := (hinv.owns e.1).mp (mem_map_of_mem he)
    have ho' := (hinv.owns e'.1).mp (mem_map_of_mem he')
    simp only [hok.room_eq ho, hok.room_eq ho']
    exact hok.extent_apart ho ho' hne
  · intro b hb i hi htype
    obtain ⟨o, ho, haddr, hr, -⟩ := hroom b hb
    obtain ⟨s, P, -⟩ := hok.inv.page i hi (by simp) (by rw [htype]; simp)
    rw [hr, haddr]
    refine hok.extent_bitmap ho P ?_
    have hkind := P.kind
    rw [htype, SlabSizes.typeOf] at hkind
    split_ifs at hkind with hs
    exact hs
  · intro size
    rcases hok.alloc size with ⟨pool', hres, -⟩ | ⟨o, runs', blocks', slots', pool', hres, -⟩
    · simp [slabStep, hres]
    · simp [slabStep, hres]
  · intro b hb
    obtain ⟨o, ho, haddr, -⟩ := hroom b hb
    obtain ⟨runs', blocks', slots', pool', hres, -⟩ := hok.release ho
    have hmem : b.addr ∈ σ.live.map SlabBlock.addr := mem_map_of_mem hb
    rw [slabStep, if_pos hmem, haddr, hres]
    simp

/-- A zone of 18 pages of 4 KiB. -/
def smallZone : SlabZone :=
  ⟨⟨12, 3, 4296, 81920⟩, by decide, by decide, by decide, by decide, by decide, by decide⟩

/-- A run over three sizes of blocks, with a write to one of them. -/
theorem slab_separated_small : ∃ σ, (slabMachine smallZone).Reachable σ ∧
    σ.live = [⟨20552, 0⟩, ⟨20544, 8⟩, ⟨8192, 100⟩] ∧ SlabSeparated smallZone σ := by
  have hlive : (Machine.replay (slabStep smallZone) [] ⟨slabInit smallZone fun _ _ => 0#64, []⟩
      [.alloc 100, .alloc 5000, .alloc 8, .write 8200 7#64, .free 12288, .alloc 0]).map
        (fun r => r.2.live) = some [⟨20552, 0⟩, ⟨20544, 8⟩, ⟨8192, 100⟩] := by
    decide
  obtain ⟨⟨tr, σ⟩, hreplay, hlive⟩ := Option.map_eq_some_iff.mp hlive
  have hreach : (slabMachine smallZone).Reachable σ :=
    ⟨tr, Machine.run_of_replay _ ⟨_, rfl⟩ hreplay⟩
  exact ⟨σ, hreach, hlive, slab_separated hreach⟩

end Hengine
