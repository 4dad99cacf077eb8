import Hengine.Core.SlabFree

/-!
# Where the Live Blocks Are

The extents of the live blocks of a pool: they are inside the pool, no two of them meet,
and none meets the bitmap that a page of small chunks keeps in its first chunks. Two blocks
are either on different pages, or are two chunks of one page, which tile it.
-/

namespace Hengine

/-- Two extents, each an address and a length, do not meet. -/
def Apart (a m b n : ℕ) : Prop :=
  a + m ≤ b ∨ b + n ≤ a

/-- The room at the address of a block, as its descriptor tells. -/
def slabRoom (z : SlabZone) (pool : SlabPool) (p : ℕ) : ℕ :=
  let i := (p - pool.start) >>> z.pagesizeShift
  let slab := pool.slab (.page i)
  match (pool.prev (.page i)).type with
  | .page => (slab &&& ~~~slabPageStart).toNat * z.pagesize
  | .exact => 2 ^ z.exactShift
  | .small => 2 ^ (slab &&& slabShiftMask).toNat
  | .big => 2 ^ (slab &&& slabShiftMask).toNat

/-- The shift of the chunks of a page, as its descriptor tells. -/
def slabPageShift (z : SlabZone) (pool : SlabPool) (i : ℕ) : ℕ :=
  if (pool.prev (.page i)).type = .exact then z.exactShift
  else (pool.slab (.page i) &&& slabShiftMask).toNat

/-- The bytes of the bitmap in a page of small chunks. -/
def slabMapBytes (z : SlabZone) (pool : SlabPool) (i : ℕ) : ℕ :=
  z.mapWords (slabPageShift z pool i) * 8

/-- The first page of a live block. -/
def SlabOwner.first : SlabOwner → ℕ
  | block i _ => i
  | chunk _ i _ => i

/-- The number of its pages. -/
def SlabOwner.span : SlabOwner → ℕ
  | block _ k => k
  | chunk _ _ _ => 1

section Extent

variable {z : SlabZone} {runs blocks : List (ℕ × ℕ)} {slots : ℕ → List ℕ} {pool : SlabPool}
  {s i j k c : ℕ} {o o' : SlabOwner}

theorem SlotPage.pageShift (P : SlotPage z s i pool) : slabPageShift z pool i = s := by
  rw [slabPageShift, P.kind]
  split_ifs with hs
  · exact (typeOf_eq_exact.mp hs).symm
  · exact P.word fun heq => hs (typeOf_eq_exact.mpr heq)

namespace SlabOk

section

variable (h : SlabOk z runs blocks slots pool)
include h

section

variable (ho : Owns z blocks pool o)
include ho

/-- A live block is on its pages. -/
theorem extent_pages :
    0 < o.room z ∧ 0 < o.span ∧ o.first + o.span ≤ pool.last ∧
      pool.start + o.first * z.pagesize ≤ o.addr z pool.start ∧
      o.addr z pool.start + o.room z ≤ pool.start + (o.first + o.span) * z.pagesize := by
  have hP : 0 < z.pagesize := Nat.two_pow_pos _
  cases o with
  | block i k =>
    obtain ⟨hpos, hin⟩ := h.inv.blockInside _ ho
    simp only at hpos hin
    simp only [SlabOwner.addr, SlabOwner.room, SlabOwner.first, SlabOwner.span,
      shiftLeft_page, Nat.add_mul]
    refine ⟨Nat.mul_pos hpos hP, hpos, hin, ?_, ?_⟩ <;> omega
  | chunk s i c =>
    obtain ⟨hi, P, -, hc, -⟩ := ho
    have hend := chunk_end_le P.max hc
    simp only [SlabOwner.addr, SlabOwner.room, SlabOwner.first, SlabOwner.span,
      shiftLeft_page, Nat.add_mul, Nat.one_mul]
    generalize c <<< s = off at *
    refine ⟨Nat.two_pow_pos s, Nat.one_pos, hi, ?_, ?_⟩ <;> omega

/-- **Live blocks are inside the pool.** -/
theorem extent_inside :
    pool.start ≤ o.addr z pool.start ∧ o.addr z pool.start + o.room z ≤ z.stop := by
  obtain ⟨-, hspan, hin, hlo, hhi⟩ := h.extent_pages ho
  have hfits := h.fits (by omega)
  have hle : (o.first + o.span) * z.pagesize ≤ pool.last * z.pagesize :=
    Nat.mul_le_mul_right _ hin
  omega

/-- Two live blocks are on different pages, or chunks of one page. -/
theorem pages_apart (ho' : Owns z blocks pool o') (hne : o ≠ o') :
    o.first + o.span ≤ o'.first ∨ o'.first + o'.span ≤ o.first ∨
      ∃ s i c c', o = .chunk s i c ∧ o' = .chunk s i c' ∧ c ≠ c' := by
  have hmixed : ∀ {i k s j c}, Owns z blocks pool (.block i k) →
      Owns z blocks pool (.chunk s j c) → i + k ≤ j ∨ j + 1 ≤ i := by
    rintro i k s j c hb ⟨-, P, -⟩
    by_contra hmeet
    exact h.inv.not_block P.type_ne ⟨(i, k), hb, by simp only; omega, by simp only; omega⟩
  cases o with
  | block i k =>
    cases o' with
    | block i' k' =>
      have hpair : i + k ≤ i' ∨ i' + k' ≤ i := by
        have : Std.Symm fun a b : ℕ × ℕ => a.1 + a.2 ≤ b.1 ∨ b.1 + b.2 ≤ a.1 :=
          ⟨fun _ _ => Or.symm⟩
        refine h.inv.blockApart.forall ho ho' fun heq => hne ?_
        rw [Prod.mk.injEq] at heq
        rw [heq.1, heq.2]
      exact hpair.imp_right Or.inl
    | chunk s j c => exact (hmixed ho ho').imp_right Or.inl
  | chunk s j c =>
    cases o' with
    | block i k =>
      rcases hmixed ho' ho with hlt | hlt
      · exact Or.inr (Or.inl hlt)
      · exact Or.inl hlt
    | chunk s' j' c' =>
      simp only [SlabOwner.first, SlabOwner.span]
      rcases Nat.lt_trichotomy j j' with hlt | rfl | hlt
      · exact Or.inl hlt
      · obtain rfl := ho.2.1.unique ho'.2.1
        refine Or.inr (Or.inr ⟨s, j, c, c', rfl, rfl, ?_⟩)
        rintro rfl
        exact hne rfl
      · exact Or.inr (Or.inl hlt)

/-- **Live blocks do not meet.** -/
theorem extent_apart (ho' : Owns z blocks pool o') (hne : o ≠ o') :
    Apart (o.addr z pool.start) (o.room z) (o'.addr z pool.start) (o'.room z) := by
  obtain ⟨-, -, -, hlo, hhi⟩ := h.extent_pages ho
  obtain ⟨-, -, -, hlo', hhi'⟩ := h.extent_pages ho'
  rw [Apart]
  rcases h.pages_apart ho ho' hne with hlt | hlt | ⟨s, i, c, c', rfl, rfl, hcc⟩
  · have := Nat.mul_le_mul_right z.pagesize hlt
    omega
  · have := Nat.mul_le_mul_right z.pagesize hlt
    omega
  · simp only [SlabOwner.addr, SlabOwner.room, Nat.shiftLeft_eq]
    rcases Nat.lt_or_gt_of_ne hcc with hlt | hlt
    · have hmul : (c + 1) * 2 ^ s ≤ c' * 2 ^ s := Nat.mul_le_mul_right _ hlt
      rw [Nat.add_mul, Nat.one_mul] at hmul
      omega
    · have hmul : (c' + 1) * 2 ^ s ≤ c * 2 ^ s := Nat.mul_le_mul_right _ hlt
      rw [Nat.add_mul, Nat.one_mul] at hmul
      omega

/-- Two owners of one address are the same. -/
theorem addr_inj (ho' : Owns z blocks pool o') (heq : o.addr z pool.start = o'.addr z pool.start) :
    o = o' := by
  by_contra hne
  have hapart := h.extent_apart ho ho' hne
  obtain ⟨hroom, -⟩ := h.extent_pages ho
  obtain ⟨hroom', -⟩ := h.extent_pages ho'
  rw [Apart] at hapart
  omega

end

end

/-- The map of small chunks lies in the chunks that are reserved for it. -/
theorem mapBytes_le (P : SlotPage z s i pool) (hs : s < z.exactShift) :
    slabMapBytes z pool i ≤ z.reserved s * 2 ^ s ∧ z.reserved s * 2 ^ s ≤ z.pagesize := by
  obtain ⟨hle, -⟩ := SlabZone.mapWords_le hs
  have hlt := reserved_lt P.max
  rw [SlabZone.reserved_small hs] at hlt ⊢
  rw [slabMapBytes, P.pageShift]
  refine ⟨hle, ?_⟩
  calc z.mapChunks s * 2 ^ s ≤ z.chunks s * 2 ^ s := Nat.mul_le_mul_right _ (by omega)
    _ = z.pagesize := SlabZone.chunks_mul (Nat.le_of_lt P.max)

/-- **Live blocks do not meet the bitmaps.** -/
theorem extent_bitmap (h : SlabOk z runs blocks slots pool) (ho : Owns z blocks pool o)
    (P : SlotPage z s i pool) (hs : s < z.exactShift) :
    Apart (o.addr z pool.start) (o.room z) (pool.pageAddr z i) (slabMapBytes z pool i) := by
  obtain ⟨-, -, -, hlo, hhi⟩ := h.extent_pages ho
  obtain ⟨hmap, hpage⟩ := mapBytes_le P hs
  rw [Apart, SlabPool.pageAddr, shiftLeft_page]
  have hcases : o.first + o.span ≤ i ∨ i + 1 ≤ o.first ∨
      ∃ c, o = .chunk s i c ∧ z.reserved s ≤ c := by
    cases o with
    | block i' k' =>
      simp only [SlabOwner.first, SlabOwner.span]
      by_contra hmeet
      rw [not_or, not_or] at hmeet
      exact h.inv.not_block P.type_ne
        ⟨(i', k'), ho, by simp only; omega, by simp only; omega⟩
    | chunk s' j c =>
      simp only [SlabOwner.first, SlabOwner.span]
      rcases Nat.lt_trichotomy i j with hlt | rfl | hlt
      · exact Or.inr (Or.inl hlt)
      · obtain ⟨-, P', hc, -⟩ := ho
        obtain rfl := P.unique P'
        exact Or.inr (Or.inr ⟨c, rfl, hc⟩)
      · exact Or.inl hlt
  rcases hcases with hlt | hlt | ⟨c, rfl, hc⟩
  · have := Nat.mul_le_mul_right z.pagesize hlt
    omega
  · have := Nat.mul_le_mul_right z.pagesize hlt
    rw [Nat.add_mul, Nat.one_mul] at this
    omega
  · have := Nat.mul_le_mul_right (2 ^ s) hc
    simp only [SlabOwner.addr, shiftLeft_page, Nat.shiftLeft_eq c]
    omega

/-- **The room of a live block** is its size. -/
theorem room_eq (h : SlabOk z runs blocks slots pool) (ho : Owns z blocks pool o) :
    slabRoom z pool (o.addr z pool.start) = o.room z := by
  cases o with
  | block i k =>
    obtain ⟨hpos, hin⟩ := h.inv.blockInside _ ho
    simp only at hpos hin
    have hlt := h.last_lt (by omega)
    obtain ⟨htype, -⟩ := h.inv.blockKind i ⟨_, ho, by simp, by simp only; omega⟩
    have hindex := addr_page pool.start i (Nat.two_pow_pos z.pagesizeShift)
    have hk : k < 2 ^ 62 := by omega
    obtain ⟨-, -, hword⟩ := blockWord_spec hk
    rw [Nat.add_zero] at hindex
    simp only [slabRoom, SlabOwner.addr, SlabOwner.room, hindex, htype,
      h.inv.blockHead _ ho, hword]
  | chunk s i c =>
    obtain ⟨hi, P, -, hc, -⟩ := ho
    have hend := chunk_end_le P.max hc
    have hpow := Nat.two_pow_pos s
    have hoff : c <<< s < z.pagesize := by omega
    have hindex := addr_page pool.start i hoff
    simp only [slabRoom, SlabOwner.addr, SlabOwner.room, hindex, P.kind]
    rcases Nat.lt_trichotomy s z.exactShift with hlt | heq | hgt
    · simp only [SlabZone.typeOf_small hlt, P.word (Nat.ne_of_lt hlt)]
    · subst heq
      simp only [z.typeOf_exact]
    · simp only [SlabZone.typeOf_big hgt, P.word (Nat.ne_of_gt hgt)]

end SlabOk

end Extent

end Hengine
