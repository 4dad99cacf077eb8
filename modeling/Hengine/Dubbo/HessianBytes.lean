import Hengine.Dubbo.HessianString

/-!
# Byte Arrays That Are Read Back

A byte array is written in chunks of `0x8000` bytes and a last one that is not empty, so that every
byte array is read back but the empty one, which is written as a null pointer; and its size must be a
`uint32_t`.
-/

namespace Hengine.Hessian

open List

/-- The tags of the last chunk of a byte array. -/
def LastBytesTag (tag : UInt8) : Prop := 32 ≤ tag ∧ tag ≤ 47 ∨ 52 ≤ tag ∧ tag ≤ 55 ∨ tag = 66

theorem LastBytesTag.ne {tag : UInt8} (h : LastBytesTag tag) : tag ≠ 65 ∧ tag ≠ 78 := by
  refine ⟨?_, ?_⟩
  all_goals
    rintro rfl
    revert h
    unfold LastBytesTag
    decide

/-- **The last chunk.** Its tag tells its length. -/
theorem writeLastBytes_spec {bs : List UInt8} (h : bs.length ≤ 0x8000) :
    ∃ tag w, writeLastBytes bs = tag :: w ∧ LastBytesTag tag ∧ Reads (lastBytes tag) w bs := by
  unfold writeLastBytes
  dsimp only
  split_ifs with h₁ h₂
  · have hnat : (UInt8.ofNat (32 + bs.length)).toNat = 32 + bs.length := by
      rw [UInt8.toNat_ofNat']
      omega
    have htag : 32 ≤ UInt8.ofNat (32 + bs.length) ∧ UInt8.ofNat (32 + bs.length) ≤ 47 := by
      rw [UInt8.le_iff_toNat_le, UInt8.le_iff_toNat_le, hnat]
      refine ⟨Nat.le_add_right _ _, ?_⟩
      show 32 + bs.length ≤ 47
      omega
    refine ⟨_, _, rfl, .inl htag, ?_⟩
    rw [lastBytes, if_pos htag, hnat, Nat.add_sub_cancel_left]
    exact reads_bytes rfl
  · have hnat : (UInt8.ofNat (52 + bs.length / 256)).toNat = 52 + bs.length / 256 := by
      rw [UInt8.toNat_ofNat']
      omega
    have hlow : (UInt8.ofNat bs.length).toNat = bs.length % 256 := UInt8.toNat_ofNat'
    have htag : 52 ≤ UInt8.ofNat (52 + bs.length / 256) ∧ UInt8.ofNat (52 + bs.length / 256) ≤ 55 := by
      rw [UInt8.le_iff_toNat_le, UInt8.le_iff_toNat_le, hnat]
      refine ⟨Nat.le_add_right _ _, ?_⟩
      show 52 + bs.length / 256 ≤ 55
      omega
    have hnot : ¬ (32 ≤ UInt8.ofNat (52 + bs.length / 256) ∧
        UInt8.ofNat (52 + bs.length / 256) ≤ 47) := by
      rw [UInt8.le_iff_toNat_le, UInt8.le_iff_toNat_le, hnat]
      exact fun hle => absurd (Nat.le_trans (Nat.le_add_right 52 _) hle.2) (by decide)
    have hsize : bs.length = (52 + bs.length / 256 - 52) * 256 + bs.length % 256 := by omega
    refine ⟨_, _, rfl, .inr (.inl htag), ?_⟩
    rw [lastBytes, if_neg hnot, if_pos htag, hnat]
    refine (reads_next _).bind ?_
    rw [hlow]
    exact reads_bytes hsize
  · refine ⟨_, _, rfl, .inr (.inr rfl), ?_⟩
    rw [lastBytes, if_neg (by decide), if_neg (by decide), if_pos rfl]
    exact (reads_number (n := 2) (by omega)).bind (reads_bytes rfl)

/-- The chunks of a byte array that are read. -/
abbrev byteChunks : ℕ → UInt8 → Reader UInt8 (List UInt8) :=
  readChunks 0x41 Reader.bytes lastBytes

/-- A full chunk with more behind it is written with the tag `A`. -/
theorem writeByteChunks_chunk {bs rest : List UInt8} (h : bs.length = 0x8000) (hne : rest ≠ []) :
    writeByteChunks (bs ++ rest) = 0x41 :: numberBytes 2 0x8000 ++ bs ++ writeByteChunks rest := by
  have hpos := length_pos_iff.2 hne
  rw [writeByteChunks, if_pos (by rw [length_append]; omega), ← h, take_left,
    drop_left, h]

/-- A byte array is longer than it was, when it is written. -/
theorem length_lt_writeByteChunks (bs : List UInt8) : bs.length < (writeByteChunks bs).length := by
  by_cases hlen : bs.length > 0x8000
  · have htake : (bs.take 0x8000).length = 0x8000 := length_take_of_le hlen.le
    have hdrop : (bs.drop 0x8000).length = bs.length - 0x8000 := length_drop
    have hrest := length_lt_writeByteChunks (bs.drop 0x8000)
    have hne : bs.drop 0x8000 ≠ [] := length_pos_iff.1 (by omega)
    rw [← take_append_drop 0x8000 bs, writeByteChunks_chunk htake hne, take_append_drop]
    simp only [length_append, length_cons]
    omega
  · rw [writeByteChunks, if_neg hlen]
    unfold writeLastBytes
    dsimp only
    split_ifs
    all_goals
      simp only [length_append, length_cons]
      omega
termination_by bs.length
decreasing_by
  rw [length_drop]
  omega

/-- The first byte of what is written for bytes. -/
theorem writeByteChunks_tag (bs : List UInt8) : ∃ tag w, writeByteChunks bs = tag :: w ∧
    (bs.length > 0x8000 ∧ tag = 65 ∨ bs.length ≤ 0x8000 ∧ LastBytesTag tag) := by
  by_cases hlen : bs.length > 0x8000
  · rw [writeByteChunks, if_pos hlen]
    exact ⟨_, _, rfl, .inl ⟨hlen, rfl⟩⟩
  · obtain ⟨tag, w, htag, hlast, -⟩ := writeLastBytes_spec (Nat.not_lt.1 hlen)
    rw [writeByteChunks, if_neg hlen]
    exact ⟨tag, w, htag, .inr ⟨Nat.not_lt.1 hlen, hlast⟩⟩

/-- **The chunks of a byte array are read back.** -/
theorem reads_byteChunks : ∀ {turns : ℕ} {bs : List UInt8} {tag : UInt8} {w : List UInt8},
    bs.length < turns → writeByteChunks bs = tag :: w → Reads (byteChunks turns tag) w bs
  | 0, _, _, _, hturns, _ => absurd hturns (Nat.not_lt_zero _)
  | turns + 1, bs, tag, w, hturns, hout => by
    intro rest
    by_cases hlen : bs.length > 0x8000
    · have htake : (bs.take 0x8000).length = 0x8000 := length_take_of_le hlen.le
      have hdrop : (bs.drop 0x8000).length = bs.length - 0x8000 := length_drop
      have hne : bs.drop 0x8000 ≠ [] := length_pos_iff.1 (by omega)
      obtain ⟨tag', w', hout', -⟩ := writeByteChunks_tag (bs.drop 0x8000)
      rw [← take_append_drop 0x8000 bs, writeByteChunks_chunk htake hne, hout',
        cons_append, cons_append, List.cons.injEq] at hout
      obtain ⟨rfl, rfl⟩ := hout
      have hchunk := reads_bytes htake (tag' :: w' ++ rest)
      have hshort : (bs.drop 0x8000).length < turns := by omega
      have hnext := reads_byteChunks hshort hout' rest
      rw [append_assoc, append_assoc, readChunks_mark _ _ _ _ (by decide),
        StateT.run_bind, hchunk]
      show ((bs.take 0x8000 ++ ·) <$> byteChunks turns tag').run (w' ++ rest) = _
      rw [StateT.run_map, hnext]
      show some (bs.take 0x8000 ++ bs.drop 0x8000, rest) = _
      rw [take_append_drop]
    · obtain ⟨tag', w', htag, hlast, hread⟩ := writeLastBytes_spec (Nat.not_lt.1 hlen)
      rw [writeByteChunks, if_neg hlen, htag, List.cons.injEq] at hout
      obtain ⟨rfl, rfl⟩ := hout
      rw [byteChunks, readChunks, if_neg hlast.ne.1]
      exact hread rest

/-- The reader comes to the chunks. -/
theorem reads_writeByteChunks (bs : List UInt8) : Reads readBytes (writeByteChunks bs) (some bs) := by
  intro rest
  have hlen := length_lt_writeByteChunks bs
  obtain ⟨tag, w, hout, hcases⟩ := writeByteChunks_tag bs
  rw [hout] at hlen ⊢
  rcases hcases with ⟨-, rfl⟩ | ⟨hshort, hlast⟩
  · have hturns : bs.length < (w ++ rest).length + 1 := by
      simp only [length_append, length_cons] at hlen ⊢
      omega
    exact (reads_byteChunks hturns hout).map some rest
  · obtain ⟨tag', w', htag, -, hread⟩ := writeLastBytes_spec hshort
    rw [writeByteChunks, if_neg (Nat.not_lt.2 hshort), htag, List.cons.injEq] at hout
    obtain ⟨rfl, rfl⟩ := hout
    rw [readBytes, StateT.run_bind, cons_append, run_next_cons]
    show (if tag' = 65 then _ else if tag' = 78 then _ else _ : Reader UInt8 _).run (w' ++ rest) = _
    rw [if_neg hlast.ne.1, if_neg hlast.ne.2]
    exact hread.map some rest

end Hengine.Hessian
