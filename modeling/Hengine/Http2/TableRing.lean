import Hengine.Http2.Table

/-!
# The Ring of Entries

The pointers to the entries of the dynamic table stand in a ring. This module says which
entries a state of the ring holds, oldest first, and what each operation on the ring does
to that list: the oldest one leaves it, and a new one joins it at the end.

The counters are machine words that wrap, and the ring has 64 or 128 places; so a counter
is followed as an unbounded number, and a place is that number modulo the size of the ring.
-/

namespace Hengine

open List

/-! ### Words -/

theorem ofNat_word_inj {a b : ℕ} (h : a ≤ b) (hb : b < a + 2 ^ 64) :
    UInt64.ofNat a = UInt64.ofNat b ↔ a = b := by
  constructor
  · intro he
    have hw := congrArg UInt64.toNat he
    rw [UInt64.toNat_ofNat', UInt64.toNat_ofNat'] at hw
    omega
  · rintro rfl
    rfl

/-- Counting around a ring of 64 or 128 places. -/
theorem word_mod_toNat {k m : ℕ} (hm : m = 64 ∨ m = 128) :
    (UInt64.ofNat k % UInt64.ofNat m).toNat = k % m := by
  have hdvd : m ∣ 2 ^ 64 := by
    rcases hm with rfl | rfl
    · exact ⟨2 ^ 58, rfl⟩
    · exact ⟨2 ^ 57, rfl⟩
  have hlt : m < 2 ^ 64 := by
    rcases hm with rfl | rfl <;> decide
  rw [UInt64.toNat_mod, UInt64.toNat_ofNat', UInt64.toNat_ofNat', Nat.mod_eq_of_lt hlt,
    Nat.mod_mod_of_dvd k hdvd]

namespace Hpack

variable {h : Hpack} {es : List Entry} {a d r m p : ℕ}

/-- The pointer in the place of counter `k` in a ring of `m` places. -/
def ptr (h : Hpack) (m k : ℕ) : ℕ := h.entries.getD (k % m) 0

/-- `Entries h es a d r m`: the ring has `m` places, its counters are `a`, `d` and `r`, and
`es` are the entries of the places from `d` up to `a`. The places from `r` on hold different
pointers, so an entry that is filled anew is none of the others. -/
structure Entries (h : Hpack) (es : List Entry) (a d r m : ℕ) : Prop where
  added : h.added = UInt64.ofNat a
  deleted : h.deleted = UInt64.ofNat d
  reused : h.reused = UInt64.ofNat r
  allocated : h.allocated = UInt64.ofNat m
  cap : m = 64 ∨ m = 128
  places : h.entries.length = m
  reused_le : r ≤ d
  live : a = d + es.length
  fits : a ≤ r + m
  valid : ∀ k, r ≤ k → k < a → h.ptr m k < h.headers.length
  distinct : ∀ j k, r ≤ j → j < a → r ≤ k → k < a → h.ptr m j = h.ptr m k → j = k
  entry : ∀ i e, es[i]? = some e → h.headers[h.ptr m (d + i)]? = some e

namespace Entries

section

variable (H : Entries h es a d r m)
include H

theorem cap_pos : 0 < m := by
  rcases H.cap with hm | hm <;> omega

theorem length_le : es.length ≤ m := by
  have h₁ := H.live
  have h₂ := H.fits
  have h₃ := H.reused_le
  omega

theorem slot_eq (k : ℕ) : h.slot (UInt64.ofNat k) = h.ptr m k := by
  rw [slot, ptr, H.allocated, word_mod_toNat H.cap]

theorem count_eq : h.added - h.deleted = UInt64.ofNat es.length := by
  rw [H.added, H.deleted, ← UInt64.ofNat_sub (by have := H.live; omega)]
  congr 1
  have := H.live
  omega

theorem entryAt_eq {i : ℕ} {e : Entry} (hi : es[i]? = some e) :
    h.entryAt (h.slot (UInt64.ofNat (d + i))) = e := by
  rw [H.slot_eq, entryAt, getD_eq_getElem?_getD, H.entry i e hi]
  rfl

/-- **The entry of an index**, counted from the newest one. -/
theorem lookup_eq {i : ℕ} {e : Entry} (hlt : i < es.length)
    (hi : es[es.length - 1 - i]? = some e) :
    h.entryAt (h.slot (h.added - UInt64.ofNat i - 1)) = e := by
  have hlive := H.live
  have hindex : h.added - UInt64.ofNat i - 1 = UInt64.ofNat (d + (es.length - 1 - i)) := by
    have hone : (1 : UInt64) = UInt64.ofNat 1 := rfl
    rw [H.added, hone, ← UInt64.ofNat_sub (by omega), ← UInt64.ofNat_sub (by omega)]
    congr 1
    omega
  rw [hindex]
  exact H.entryAt_eq hi

/-- Only the ring and the entries matter. -/
theorem congr (h' : Hpack) (hentries : h'.entries = h.entries) (hheaders : h'.headers = h.headers)
    (hadded : h'.added = h.added) (hdeleted : h'.deleted = h.deleted)
    (hreused : h'.reused = h.reused) (hallocated : h'.allocated = h.allocated) :
    Entries h' es a d r m := by
  have hptr : h'.ptr m = h.ptr m := by
    funext k
    rw [ptr, ptr, hentries]
  refine ⟨hadded ▸ H.added, hdeleted ▸ H.deleted, hreused ▸ H.reused, hallocated ▸ H.allocated,
    H.cap, hentries ▸ H.places, H.reused_le, H.live, H.fits, ?_, ?_, ?_⟩
  · rw [hptr, hheaders]
    exact H.valid
  · rw [hptr]
    exact H.distinct
  · rw [hptr, hheaders]
    exact H.entry

end

/-! ### Giving entries up -/

/-- **The oldest entry is given up.** -/
theorem evictOne {e : Entry} (H : Entries h (e :: es) a d r m) :
    Entries h.evictOne es a (d + 1) r m ∧
      h.evictOne.free = h.free + (32 + e.nameLen + e.valueLen) := by
  have hoff : h.entryAt (h.slot h.deleted) = e := by
    have := H.entryAt_eq (i := 0) rfl
    rwa [Nat.add_zero, ← H.deleted] at this
  constructor
  · refine ⟨H.added, ?_, H.reused, H.allocated, H.cap, H.places, ?_, ?_, H.fits, H.valid,
      H.distinct, ?_⟩
    · rw [UInt64.ofNat_add, ← H.deleted]
      rfl
    · have := H.reused_le
      omega
    · have := H.live
      rw [length_cons] at this
      omega
    · intro i x hi
      have := H.entry (i + 1) x (by rwa [getElem?_cons_succ])
      rwa [Nat.add_assoc, Nat.add_comm 1 i]
  · rw [Hpack.evictOne, hoff]

/-- Evicting all entries leaves an empty table. -/
theorem evictAll (H : Entries h es a d r m) {n : ℕ} :
    Entries { h with deleted := h.added, free := n } [] a a r m := by
  refine ⟨H.added, H.added, H.reused, H.allocated, H.cap, H.places, ?_, rfl, H.fits, H.valid,
    H.distinct, ?_⟩
  · have h₁ := H.reused_le
    have h₂ := H.live
    omega
  · intro i e hi
    simp at hi

/-! ### A new entry -/

/-- `p` may be filled: it points to an entry, and none of those in the ring. The place of the
next entry is free, unless all places are in use. -/
structure Spare (h : Hpack) (p a d r m : ℕ) : Prop where
  valid : p < h.headers.length
  apart : ∀ k, r ≤ k → k < a → h.ptr m k ≠ p
  room : a < r + m ∨ (r = d ∧ a = d + m)

/-- **An entry to fill**, new or taken again. -/
theorem takeEntry (H : Entries h es a d r m) :
    ∃ r', Entries h.takeEntry.2 es a d r' m ∧ Spare h.takeEntry.2 h.takeEntry.1 a d r' m := by
  have hle := H.reused_le
  have hfits := H.fits
  have hlive := H.live
  have hsmall : m ≤ 128 := by rcases H.cap with hm | hm <;> omega
  by_cases hrd : r = d
  · refine ⟨r, ?_⟩
    have hcond : h.reused = h.deleted := by rw [H.reused, H.deleted, hrd]
    rw [Hpack.takeEntry, if_pos hcond]
    constructor
    · refine ⟨H.added, H.deleted, H.reused, H.allocated, H.cap, H.places, H.reused_le, H.live,
        H.fits, ?_, H.distinct, ?_⟩
      · intro k hk hka
        have := H.valid k hk hka
        simp only [length_append, length_singleton]
        exact Nat.lt_succ_of_lt this
      · intro i e hi
        have hin := H.entry i e hi
        have hlt : h.ptr m (d + i) < h.headers.length :=
          (List.getElem?_eq_some_iff.mp hin).1
        exact (List.getElem?_append_left hlt).trans hin
    · refine ⟨by simp, ?_, ?_⟩
      · intro k hk hka
        exact Nat.ne_of_lt (H.valid k hk hka)
      · omega
  · refine ⟨r + 1, ?_⟩
    have hcond : h.reused ≠ h.deleted := by
      rw [H.reused, H.deleted, Ne, ofNat_word_inj hle (by omega)]
      exact hrd
    rw [Hpack.takeEntry, if_neg hcond]
    have hslot : h.slot h.reused = h.ptr m r := by rw [H.reused, H.slot_eq]
    constructor
    · refine ⟨H.added, H.deleted, ?_, H.allocated, H.cap, H.places, by omega, H.live, by omega,
        fun k hk => H.valid k (by omega), fun j k hj hja hk => H.distinct j k (by omega) hja (by omega),
        H.entry⟩
      rw [UInt64.ofNat_add, ← H.reused]
      rfl
    · refine ⟨?_, ?_, ?_⟩
      · rw [hslot]
        exact H.valid r (Nat.le_refl r) (by omega)
      · intro k hk hka hptr
        rw [hslot] at hptr
        have := H.distinct k r (by omega) hka (Nat.le_refl r) (by omega) hptr
        omega
      · omega

/-- The entry is filled; the others stay as they are. -/
theorem fill (H : Entries h es a d r m) (S : Spare h p a d r m) (e : Entry) :
    Entries { h with headers := h.headers.set p e } es a d r m ∧
      Spare { h with headers := h.headers.set p e } p a d r m := by
  constructor
  · refine ⟨H.added, H.deleted, H.reused, H.allocated, H.cap, H.places, H.reused_le, H.live,
      H.fits, ?_, H.distinct, ?_⟩
    · intro k hk hka
      rw [length_set]
      exact H.valid k hk hka
    · intro i x hi
      have hlt := (List.getElem?_eq_some_iff.mp hi).1
      have hne : p ≠ h.ptr m (d + i) :=
        (S.apart (d + i) (by have := H.reused_le; omega) (by have := H.live; omega)).symm
      exact (getElem?_set_ne hne).trans (H.entry i x hi)
  · exact ⟨by simpa using S.valid, S.apart, S.room⟩

theorem fill_get (S : Spare h p a d r m) (e : Entry) : (h.headers.set p e)[p]? = some e := by
  rw [getElem?_set_self S.valid]

/-- The places of a ring that is copied to a larger one, oldest entry first. -/
theorem rotate_getD {l : List ℕ} {i n m : ℕ} (hl : l.length = m) (hm : 0 < m) (hi : i < m) :
    (l.drop (n % m) ++ l.take (n % m) ++ List.replicate 64 0).getD i 0 = l.getD ((n + i) % m) 0 := by
  have hmod : n % m < m := Nat.mod_lt n hm
  have hplace : (n + i) % m = if n % m + i < m then n % m + i else n % m + i - m := by
    rw [Nat.add_mod, Nat.mod_eq_of_lt hi]
    split
    · rename_i hlt
      exact Nat.mod_eq_of_lt hlt
    · rw [Nat.mod_eq_sub_mod (by omega), Nat.mod_eq_of_lt (by omega)]
  rw [getD_eq_getElem?_getD, getD_eq_getElem?_getD, append_assoc, hplace]
  split
  · rw [getElem?_append_left (by rw [length_drop]; omega), getElem?_drop]
  · rw [getElem?_append_right (by rw [length_drop]; omega), length_drop,
      getElem?_append_left (by rw [length_take]; omega),
      getElem?_take_of_lt (by omega)]
    congr 2
    omega

/-- **The ring grows when it is full**, which at most 127 entries let it do once. -/
theorem grow (H : Entries h es a d r m) (S : Spare h p a d r m) (hfew : es.length < 128) :
    ∃ a' d' r' m', Entries h.grow es a' d' r' m' ∧ Spare h.grow p a' d' r' m' ∧ a' < r' + m' := by
  have hlive := H.live
  have hsmall : m ≤ 128 := by rcases H.cap with hm | hm <;> omega
  by_cases hfull : a = d + m
  · have hr : r = d := by
      rcases S.room with hroom | hroom
      · have := H.reused_le
        omega
      · exact hroom.1
    have hm : m = 64 := by rcases H.cap with hm | hm <;> omega
    have hcond : h.allocated = h.added - h.deleted := by
      rw [H.count_eq, H.allocated]
      congr 1
      omega
    have hindex : (h.deleted % h.allocated).toNat = d % m := by
      rw [H.deleted, H.allocated, word_mod_toNat H.cap]
    -- The places of the new ring are those of the old one, from the oldest entry on.
    have hptr : ∀ k < m, h.grow.ptr 128 k = h.ptr m (d + k) := by
      intro k hk
      rw [ptr, ptr, Hpack.grow, if_pos hcond, Nat.mod_eq_of_lt (by omega)]
      simp only [hindex]
      exact rotate_getD H.places H.cap_pos hk
    have hheaders : h.grow.headers = h.headers := by rw [Hpack.grow, if_pos hcond]
    refine ⟨64, 0, 0, 128, ?_, ?_, by omega⟩
    · refine ⟨?_, ?_, ?_, ?_, Or.inr rfl, ?_, Nat.le_refl 0, by omega, by omega, ?_, ?_, ?_⟩
      · rw [Hpack.grow, if_pos hcond, H.allocated, hm]
      · rw [Hpack.grow, if_pos hcond]
        rfl
      · rw [Hpack.grow, if_pos hcond]
        rfl
      · rw [Hpack.grow, if_pos hcond, H.allocated, hm]
        rfl
      · rw [Hpack.grow, if_pos hcond]
        simp only [hindex, length_append, length_drop, length_take,
          length_replicate, H.places]
        have := Nat.mod_lt d H.cap_pos
        omega
      · intro k _ hk
        rw [hptr k (by omega), hheaders]
        exact H.valid _ (by omega) (by omega)
      · intro j k _ hj _ hk he
        rw [hptr j (by omega), hptr k (by omega)] at he
        have := H.distinct _ _ (by omega) (by omega) (by omega) (by omega) he
        omega
      · intro i e hi
        have hlt := (List.getElem?_eq_some_iff.mp hi).1
        rw [Nat.zero_add, hptr i (by omega), hheaders]
        exact H.entry i e hi
    · refine ⟨?_, ?_, by omega⟩
      · rw [hheaders]
        exact S.valid
      · intro k _ hk
        rw [hptr k (by omega)]
        exact S.apart _ (by omega) (by omega)
  · have hcond : h.allocated ≠ h.added - h.deleted := by
      rw [H.count_eq, H.allocated, ne_comm, Ne, ofNat_word_inj H.length_le (by omega)]
      omega
    rw [Hpack.grow, if_neg hcond]
    refine ⟨a, d, r, m, H, S, ?_⟩
    rcases S.room with hroom | hroom
    · exact hroom
    · exact absurd hroom.2 hfull

/-- **The newest entry.** -/
theorem link {e : Entry} (H : Entries h es a d r m) (S : Spare h p a d r m) (hroom : a < r + m)
    (hp : h.headers[p]? = some e) : Entries (h.link p) (es ++ [e]) (a + 1) d r m := by
  have hle := H.reused_le
  have hlive := H.live
  have hpos := H.cap_pos
  have hplace : (h.added % h.allocated).toNat = a % m := by
    rw [H.added, H.allocated, word_mod_toNat H.cap]
  -- The place of the new entry is none of those in use.
  have hold : ∀ k, r ≤ k → k < a → (h.link p).ptr m k = h.ptr m k := by
    intro k hk hka
    have hne : a % m ≠ k % m := by
      intro heq
      have := mod_window_inj (p := r) (i := a - r) (j := k - r) (N := m) (by omega) (by omega)
        (by rwa [Nat.add_sub_cancel' (by omega), Nat.add_sub_cancel' hk])
      omega
    simp only [ptr, Hpack.link, hplace, getD_eq_getElem?_getD]
    rw [getElem?_set_ne hne]
  have hnew : (h.link p).ptr m a = p := by
    simp only [ptr, Hpack.link, hplace, getD_eq_getElem?_getD]
    rw [getElem?_set_self (by rw [H.places]; exact Nat.mod_lt a hpos)]
    rfl
  refine ⟨?_, H.deleted, H.reused, H.allocated, H.cap, ?_, hle, ?_, by omega, ?_, ?_, ?_⟩
  · rw [UInt64.ofNat_add, ← H.added]
    rfl
  · simp [Hpack.link, H.places]
  · rw [length_append, length_singleton]
    omega
  · intro k hk hka
    rcases Nat.lt_succ_iff_lt_or_eq.mp hka with hlt | rfl
    · rw [hold k hk hlt]
      exact H.valid k hk hlt
    · rw [hnew]
      exact S.valid
  · intro j k hj hja hk hka he
    rcases Nat.lt_succ_iff_lt_or_eq.mp hja with hjlt | rfl
    · rcases Nat.lt_succ_iff_lt_or_eq.mp hka with hklt | rfl
      · rw [hold j hj hjlt, hold k hk hklt] at he
        exact H.distinct j k hj hjlt hk hklt he
      · rw [hold j hj hjlt, hnew] at he
        exact absurd he (S.apart j hj hjlt)
    · rcases Nat.lt_succ_iff_lt_or_eq.mp hka with hklt | rfl
      · rw [hnew, hold k hk hklt] at he
        exact absurd he.symm (S.apart k hk hklt)
      · rfl
  · intro i x hi
    have hheaders : (h.link p).headers = h.headers := rfl
    rw [getElem?_append] at hi
    split at hi
    · rename_i hlt
      rw [hold _ (by omega) (by omega), hheaders]
      exact H.entry i x hi
    · rename_i hge
      have hi0 : i - es.length = 0 := by
        by_contra hne
        rw [getElem?_eq_none (by simp; omega)] at hi
        cases hi
      rw [hi0] at hi
      obtain rfl : e = x := by simpa using hi
      have hia : d + i = a := by omega
      rw [hia, hnew, hheaders]
      exact hp

end Entries

end Hpack

end Hengine
