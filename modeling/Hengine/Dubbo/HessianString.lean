import Hengine.Dubbo.Hessian

/-!
# Strings That Are Read Back

A string of characters is written in chunks of `0x8000` characters (`outChars`), and a last chunk that
is shorter; but nothing is written for the last one if it is empty. The reader takes the chunks one
after the other. It does not know characters of four bytes, and after a chunk that is not the last it
wants one more.

So a string is read back if and only if it is not empty, has no character of four bytes, and its length
is no multiple of `0x8000`; and its size must be a `uint32_t`.
-/

namespace Hengine.Hessian

open List

/-- The bytes of a text. -/
def encode (cs : List Char) : List UInt8 := cs.flatMap String.utf8EncodeChar

@[simp]
theorem encode_nil : encode [] = [] := rfl

@[simp]
theorem encode_cons (c : Char) (cs : List Char) :
    encode (c :: cs) = String.utf8EncodeChar c ++ encode cs := flatMap_cons

@[simp]
theorem encode_append (cs ds : List Char) : encode (cs ++ ds) = encode cs ++ encode ds :=
  flatMap_append

/-! ### Characters -/

theorem charWidth_one : ∀ n : Fin 0x80, charWidth (UInt8.ofNat n.val) = 1 := by decide

theorem charWidth_two : ∀ n : Fin 0x20, charWidth (UInt8.ofNat (n.val + 0xc0)) = 2 := by decide

theorem charWidth_three : ∀ n : Fin 0x10, charWidth (UInt8.ofNat (n.val + 0xe0)) = 3 := by decide

theorem charWidth_four : ∀ n : Fin 0x08, charWidth (UInt8.ofNat (n.val + 0xf0)) = 4 := by decide

/-- **The first byte of a character** tells how many bytes it has. -/
theorem utf8EncodeChar_first (c : Char) :
    ∃ b bs, String.utf8EncodeChar c = b :: bs ∧ charWidth b = (b :: bs).length := by
  unfold String.utf8EncodeChar
  dsimp only
  split_ifs with h₁ h₂ h₃
  · exact ⟨_, _, rfl, charWidth_one ⟨c.val.toNat, by omega⟩⟩
  · exact ⟨_, _, rfl, charWidth_two ⟨c.val.toNat / 64 % 0x20, by omega⟩⟩
  · exact ⟨_, _, rfl, charWidth_three ⟨c.val.toNat / 4096 % 0x10, by omega⟩⟩
  · exact ⟨_, _, rfl, charWidth_four ⟨c.val.toNat / 262144 % 0x08, by omega⟩⟩

theorem utf8EncodeChar_length (c : Char) :
    0 < (String.utf8EncodeChar c).length ∧ (String.utf8EncodeChar c).length ≤ 4 := by
  unfold String.utf8EncodeChar
  dsimp only
  split_ifs
  all_goals simp

theorem length_le_encode (cs : List Char) : cs.length ≤ (encode cs).length := by
  induction cs with
  | nil => exact Nat.le_refl 0
  | cons c cs ih =>
    have hpos := (utf8EncodeChar_length c).1
    rw [encode_cons, length_append, length_cons]
    omega

/-! ### The chunks that are written -/

/-- The characters of a text that begin before the position `n`; the text begins at `i`. -/
@[grind =]
def upTo (n : ℕ) : ℕ → List Char → List Char
  | _, [] => []
  | i, c :: cs => if i < n then c :: upTo n (i + (String.utf8EncodeChar c).length) cs else []

/-- A limit behind the end takes all characters. -/
theorem upTo_all {n : ℕ} (cs : List Char) : ∀ {i : ℕ}, i + (encode cs).length ≤ n →
    upTo n i cs = cs := by
  induction cs with
  | nil => intro i _; rfl
  | cons c cs ih =>
    intro i h
    have hpos := (utf8EncodeChar_length c).1
    rw [encode_cons, length_append] at h
    rw [upTo, if_pos (by omega), ih (by omega)]

/-- They end at most three bytes behind it. -/
theorem upTo_length {n : ℕ} (cs : List Char) : ∀ {i : ℕ}, i ≤ n + 3 →
    i + (encode (upTo n i cs)).length ≤ n + 3 := by
  induction cs with
  | nil => intro i h; exact h
  | cons c cs ih =>
    intro i h
    have hlen := (utf8EncodeChar_length c).2
    rw [upTo]
    split_ifs with hi
    · have hrest := ih (i := i + (String.utf8EncodeChar c).length) (by omega)
      rw [encode_cons, length_append]
      omega
    · exact h

/-- **The chunks of a text.** -/
def outChars (cs : List Char) : List UInt8 :=
  if cs.length ≥ 0x8000 then
    0x52 :: numberBytes 2 0x8000 ++ encode (cs.take 0x8000) ++ outChars (cs.drop 0x8000)
  else if cs = [] then []
  else lengthTag cs.length ++ encode cs
termination_by cs.length
decreasing_by
  rw [length_drop]
  omega

/-- A full chunk with more behind it is written with the tag `R`. -/
theorem outChars_chunk {cs : List Char} (rest : List Char) (h : cs.length = 0x8000) :
    outChars (cs ++ rest) = 0x52 :: numberBytes 2 0x8000 ++ encode cs ++ outChars rest := by
  rw [outChars, if_pos (by rw [length_append]; omega), ← h, take_left, drop_left, h]

theorem outChars_short {cs : List Char} (h : cs.length < 0x8000) (hne : cs ≠ []) :
    outChars cs = lengthTag cs.length ++ encode cs := by
  rw [outChars, if_neg (by omega), if_neg hne]

theorem outChars_nil : outChars [] = [] := by
  rw [outChars, if_neg (by simp), if_pos rfl]

/-- The last chunk of a string. -/
theorem writeChunks_end {pre post : List UInt8} {ds : List Char} {n : ℕ} (hds : ds.length < 0x8000)
    (hn : n ≤ pre.length + (encode ds).length) :
    writeChunks (pre ++ encode ds ++ post) n (pre.length + (encode ds).length) ds.length pre.length =
      outChars ds := by
  rw [writeChunks, if_neg (by omega)]
  cases ds with
  | nil => rw [if_pos (by simp), outChars_nil]
  | cons d ds =>
    rw [if_neg (by simp), outChars_short hds (cons_ne_nil d ds)]
    congr 1
    rw [append_assoc, drop_left, Nat.add_sub_cancel_left, take_left]

/-- **The loop writes the chunks of the text**: `ds` are the characters of the chunk that has begun. -/
theorem writeChunks_eq {n : ℕ} (cs : List Char) : ∀ (pre : List UInt8) (ds : List Char),
    ds.length < 0x8000 → n ≤ (pre ++ encode ds ++ encode cs).length →
    writeChunks (pre ++ encode ds ++ encode cs) n (pre.length + (encode ds).length) ds.length
      pre.length = outChars (ds ++ upTo n (pre.length + (encode ds).length) cs) := by
  induction cs with
  | nil =>
    intro pre ds hds hn
    rw [upTo, append_nil]
    exact writeChunks_end hds (by simpa using hn)
  | cons c cs ih =>
    intro pre ds hds hn
    rw [upTo]
    by_cases hi : pre.length + (encode ds).length < n
    · obtain ⟨b, bs, hc, hwidth⟩ := utf8EncodeChar_first c
      have hbyte : (pre ++ encode ds ++ encode (c :: cs)).getD (pre.length + (encode ds).length) 0 =
          b := by
        rw [encode_cons, hc, ← length_append, getD_eq_getElem?_getD,
          getElem?_append_right (Nat.le_refl _), Nat.sub_self]
        rfl
      have htext : pre ++ encode ds ++ encode (c :: cs) =
          pre ++ encode (ds ++ [c]) ++ encode cs := by
        simp
      have hnext : pre.length + (encode ds).length + charWidth b =
          pre.length + (encode (ds ++ [c])).length := by
        rw [hwidth, ← hc]
        simp [Nat.add_assoc]
      rw [if_pos hi, writeChunks, if_pos hi]
      dsimp only
      rw [hbyte, hnext, htext, hc, ← hwidth, hnext]
      have hlen : (ds ++ [c]).length = ds.length + 1 := by simp
      rw [append_cons ds c (upTo n _ cs), ← hlen]
      rw [htext] at hn
      by_cases hfull : (ds ++ [c]).length ≥ 0x8000
      · have hchunk : (ds ++ [c]).length = 0x8000 := by omega
        have hpre : (pre ++ encode (ds ++ [c])).length =
            pre.length + (encode (ds ++ [c])).length := length_append
        have hrest := ih (pre ++ encode (ds ++ [c])) [] (by simp) (by simpa using hn)
        simp only [encode_nil, append_nil, length_nil, Nat.add_zero, nil_append,
          hpre] at hrest
        rw [if_pos hfull, hrest, outChars_chunk _ hchunk, hchunk, append_assoc pre,
          drop_left, Nat.add_sub_cancel_left, take_left]
      · rw [if_neg hfull]
        exact ih pre (ds ++ [c]) (by omega) hn
    · rw [if_neg hi, append_nil]
      exact writeChunks_end hds (by omega)

/-- **What is written for a text**, of which `n` bytes are counted. -/
theorem writeUtf8String_eq {s : List Char} {n : ℕ} (hn : (encode s).length % 2 ^ 32 = n)
    (hpos : n ≠ 0) : writeUtf8String (encode s) = outChars (upTo n 0 s) := by
  have hle : n ≤ (encode s).length := hn ▸ Nat.mod_le _ _
  have hloop := writeChunks_eq (n := n) s [] [] (by simp) (by simpa using hle)
  simp only [encode_nil, append_nil, nil_append, length_nil, Nat.add_zero] at hloop
  rw [writeUtf8String, hn, if_neg hpos, hloop]

/-! ### The chunks that are read -/

/-- The characters that the reader knows have less than four bytes. -/
def Narrow (cs : List Char) : Prop := ∀ c ∈ cs, (String.utf8EncodeChar c).length < 4

theorem narrow_cons {c : Char} {cs : List Char} :
    Narrow (c :: cs) ↔ (String.utf8EncodeChar c).length < 4 ∧ Narrow cs := forall_mem_cons

theorem narrow_append {cs ds : List Char} : Narrow (cs ++ ds) ↔ Narrow cs ∧ Narrow ds :=
  forall_mem_append

theorem firstByte_one : ∀ n : Fin 0x80, UInt8.ofNat n.val < 0x80 := by decide

theorem firstByte_two : ∀ n : Fin 0x20, ¬ UInt8.ofNat (n.val + 0xc0) < 0x80 ∧
    UInt8.ofNat (n.val + 0xc0) &&& 0xe0 = 0xc0 := by decide

theorem firstByte_three : ∀ n : Fin 0x10, ¬ UInt8.ofNat (n.val + 0xe0) < 0x80 ∧
    UInt8.ofNat (n.val + 0xe0) &&& 0xe0 ≠ 0xc0 ∧ UInt8.ofNat (n.val + 0xe0) &&& 0xf0 = 0xe0 := by
  decide

theorem firstByte_four : ∀ n : Fin 0x08, ¬ UInt8.ofNat (n.val + 0xf0) < 0x80 ∧
    UInt8.ofNat (n.val + 0xf0) &&& 0xe0 ≠ 0xc0 ∧ UInt8.ofNat (n.val + 0xf0) &&& 0xf0 ≠ 0xe0 := by
  decide

/-- **One character.** It is read if it has less than four bytes. -/
theorem parseChars_char (c : Char) (n : ℕ) (rest : List UInt8) :
    (parseChars (n + 1)).run (String.utf8EncodeChar c ++ rest) =
      if (String.utf8EncodeChar c).length < 4 then
        ((String.utf8EncodeChar c ++ ·) <$> parseChars n).run rest
      else none := by
  have hstep : ∀ (b : UInt8) (bs : List UInt8), (parseChars (n + 1)).run (b :: bs) =
      (if b < 0x80 then return b :: (← parseChars n)
        else if b &&& 0xe0 = 0xc0 then do
          let b' ← Reader.next
          return b :: b' :: (← parseChars n)
        else if b &&& 0xf0 = 0xe0 then do
          let b' ← Reader.next
          let b'' ← Reader.next
          return b :: b' :: b'' :: (← parseChars n)
        else failure : Reader UInt8 (List UInt8)).run bs := fun _ _ => rfl
  unfold String.utf8EncodeChar
  dsimp only
  by_cases h₁ : c.val.toNat ≤ 0x7f
  · have hfirst := firstByte_one ⟨c.val.toNat, by omega⟩
    rw [if_pos h₁, cons_append, hstep, if_pos hfirst]
    rfl
  · rw [if_neg h₁]
    by_cases h₂ : c.val.toNat ≤ 0x7ff
    · obtain ⟨hone, htwo⟩ := firstByte_two ⟨c.val.toNat / 64 % 0x20, by omega⟩
      rw [if_pos h₂, cons_append, hstep, if_neg hone, if_pos htwo]
      rfl
    · rw [if_neg h₂]
      by_cases h₃ : c.val.toNat ≤ 0xffff
      · obtain ⟨hone, htwo, hthree⟩ := firstByte_three ⟨c.val.toNat / 4096 % 0x10, by omega⟩
        rw [if_pos h₃, cons_append, hstep, if_neg hone, if_neg htwo, if_pos hthree]
        rfl
      · obtain ⟨hone, htwo, hthree⟩ := firstByte_four ⟨c.val.toNat / 262144 % 0x08, by omega⟩
        rw [if_neg h₃, cons_append, hstep, if_neg hone, if_neg htwo, if_neg hthree]
        rfl

/-- **Characters that are read back.** -/
theorem reads_parseChars {cs : List Char} (h : Narrow cs) :
    Reads (parseChars cs.length) (encode cs) (encode cs) := by
  induction cs with
  | nil => exact reads_pure []
  | cons c cs ih =>
    obtain ⟨hc, hcs⟩ := narrow_cons.1 h
    intro rest
    rw [encode_cons, append_assoc, length_cons, parseChars_char, if_pos hc]
    exact (ih hcs).map (String.utf8EncodeChar c ++ ·) rest

/-- A character of four bytes is not read. -/
theorem parseChars_none {cs : List Char} (h : ¬ Narrow cs) (rest : List UInt8) :
    (parseChars cs.length).run (encode cs ++ rest) = none := by
  induction cs with
  | nil => exact (h nofun).elim
  | cons c cs ih =>
    rw [encode_cons, append_assoc, length_cons, parseChars_char]
    split_ifs with hc
    · have hcs : ¬ Narrow cs := fun hcs => h (narrow_cons.2 ⟨hc, hcs⟩)
      rw [StateT.run_map, ih hcs]
      rfl
    · rfl

/-- The two readers of characters agree on whole ones. -/
theorem parseUtf8String_run (cs : List Char) (rest : List UInt8) :
    (parseUtf8String cs.length).run (encode cs ++ rest) =
      (parseChars cs.length).run (encode cs ++ rest) := by
  have hlen := length_le_encode cs
  show (if cs.length ≤ (encode cs ++ rest).length then parseChars cs.length
    else failure : Reader UInt8 (List UInt8)).run (encode cs ++ rest) = _
  rw [if_pos (by rw [length_append]; omega)]

theorem reads_parseUtf8String {cs : List Char} (h : Narrow cs) :
    Reads (parseUtf8String cs.length) (encode cs) (encode cs) := fun rest =>
  (parseUtf8String_run cs rest).trans (reads_parseChars h rest)

theorem parseUtf8String_none {cs : List Char} (h : ¬ Narrow cs) (rest : List UInt8) :
    (parseUtf8String cs.length).run (encode cs ++ rest) = none :=
  (parseUtf8String_run cs rest).trans (parseChars_none h rest)

/-! ### The last chunk -/

/-- The tags of the last chunk of a string. -/
def LastTag (tag : UInt8) : Prop := tag ≤ 31 ∨ 48 ≤ tag ∧ tag ≤ 51 ∨ tag = 83

/-- **The tag of a last chunk** tells its length. -/
theorem lengthTag_spec {len : ℕ} (h : len < 0x8000) :
    ∃ tag w, lengthTag len = tag :: w ∧ LastTag tag ∧
      ∀ data, (lastString tag).run (w ++ data) = (parseUtf8String len).run data := by
  unfold lengthTag
  split_ifs with h₁ h₂
  · have hnat : (UInt8.ofNat len).toNat = len := by
      rw [UInt8.toNat_ofNat']
      omega
    have htag : UInt8.ofNat len ≤ 31 := by
      rw [UInt8.le_iff_toNat_le, hnat]
      exact h₁
    refine ⟨_, _, rfl, .inl htag, fun data => ?_⟩
    rw [lastString, if_pos htag, hnat]
    rfl
  · have hnat : (UInt8.ofNat (48 + len / 256)).toNat = 48 + len / 256 := by
      rw [UInt8.toNat_ofNat']
      omega
    have hlow : (UInt8.ofNat len).toNat = len % 256 := UInt8.toNat_ofNat'
    have htag : 48 ≤ UInt8.ofNat (48 + len / 256) ∧ UInt8.ofNat (48 + len / 256) ≤ 51 := by
      rw [UInt8.le_iff_toNat_le, UInt8.le_iff_toNat_le, hnat]
      refine ⟨Nat.le_add_right _ _, ?_⟩
      show 48 + len / 256 ≤ 51
      omega
    have hnot : ¬ UInt8.ofNat (48 + len / 256) ≤ 31 := by
      rw [UInt8.le_iff_toNat_le, hnat]
      exact fun hle => absurd (Nat.le_trans (Nat.le_add_right 48 _) hle) (by decide)
    have hsize : (48 + len / 256 - 48) * 256 + len % 256 = len := by omega
    refine ⟨_, _, rfl, .inr (.inl htag), fun data => ?_⟩
    rw [lastString, if_neg hnot, if_pos htag, hnat, StateT.run_bind, singleton_append,
      run_next_cons]
    show (parseUtf8String ((48 + len / 256 - 48) * 256 + (UInt8.ofNat len).toNat)).run data = _
    rw [hlow, hsize]
  · refine ⟨_, _, rfl, .inr (.inr rfl), fun data => ?_⟩
    rw [lastString, if_neg (by decide), if_neg (by decide), if_pos rfl, StateT.run_bind,
      reads_number (n := 2) (by omega)]
    rfl

/-- A chunk that is not the last one. -/
theorem readChunks_mark (mark : UInt8) (parse : ℕ → Reader UInt8 (List UInt8))
    (last : UInt8 → Reader UInt8 (List UInt8)) (turns : ℕ) {n : ℕ} (hn : n < 0x10000)
    (data : List UInt8) :
    (readChunks mark parse last (turns + 1) mark).run (numberBytes 2 n ++ data) =
      (do
        let chunk ← parse n
        let tag ← Reader.next
        return chunk ++ (← readChunks mark parse last turns tag) : Reader UInt8 _).run data := by
  rw [readChunks, if_pos rfl, StateT.run_bind, reads_number (n := 2) hn]
  rfl

/-- The chunks of a string that are read. -/
abbrev stringChunks : ℕ → UInt8 → Reader UInt8 (List UInt8) :=
  readChunks 0x52 parseUtf8String lastString

theorem LastTag.ne {tag : UInt8} (h : LastTag tag) : tag ≠ 0x52 ∧ tag ≠ 0x4e := by
  refine ⟨?_, ?_⟩
  all_goals
    rintro rfl
    revert h
    unfold LastTag
    decide

/-- The first byte of what is written for a string. -/
theorem outChars_tag {cs : List Char} (hne : cs ≠ []) : ∃ tag w, outChars cs = tag :: w ∧
    (0x8000 ≤ cs.length ∧ tag = 0x52 ∨ cs.length < 0x8000 ∧ LastTag tag) := by
  by_cases hlen : 0x8000 ≤ cs.length
  · have hsplit := outChars_chunk (cs.drop 0x8000) (length_take_of_le hlen)
    rw [take_append_drop] at hsplit
    exact ⟨_, _, hsplit, .inl ⟨hlen, rfl⟩⟩
  · obtain ⟨tag, w, htag, hlast, -⟩ := lengthTag_spec (Nat.not_le.1 hlen)
    refine ⟨tag, w ++ encode cs, ?_, .inr ⟨Nat.not_le.1 hlen, hlast⟩⟩
    rw [outChars_short (Nat.not_le.1 hlen) hne, htag]
    rfl

/-- **The chunks of a text are read back** if its characters are known and its last chunk is not
empty. -/
theorem reads_stringChunks : ∀ {turns : ℕ} {cs : List Char} {tag : UInt8} {w : List UInt8},
    cs.length < turns → Narrow cs → ¬ 0x8000 ∣ cs.length → outChars cs = tag :: w →
      Reads (stringChunks turns tag) w (encode cs)
  | 0, _, _, _, hturns, _, _, _ => absurd hturns (Nat.not_lt_zero _)
  | turns + 1, cs, tag, w, hturns, hnarrow, hdvd, hout => by
    intro rest
    by_cases hlen : 0x8000 ≤ cs.length
    · have htake : (cs.take 0x8000).length = 0x8000 := length_take_of_le hlen
      have hdrop : (cs.drop 0x8000).length = cs.length - 0x8000 := length_drop
      rw [← take_append_drop 0x8000 cs] at hnarrow
      obtain ⟨hfirst, hothers⟩ := narrow_append.1 hnarrow
      have hrest : ¬ 0x8000 ∣ (cs.drop 0x8000).length := by
        rw [hdrop]
        omega
      have hne : cs.drop 0x8000 ≠ [] := by
        intro hnil
        rw [hnil] at hrest
        exact hrest (Nat.dvd_zero _)
      obtain ⟨tag', w', hout', -⟩ := outChars_tag hne
      rw [← take_append_drop 0x8000 cs, outChars_chunk _ htake, hout', cons_append,
        cons_append, List.cons.injEq] at hout
      obtain ⟨rfl, rfl⟩ := hout
      have hchunk := reads_parseUtf8String hfirst (tag' :: w' ++ rest)
      rw [htake] at hchunk
      have hshort : (cs.drop 0x8000).length < turns := by omega
      have hnext := reads_stringChunks hshort hothers hrest hout' rest
      rw [append_assoc, append_assoc, readChunks_mark _ _ _ _ (by decide),
        StateT.run_bind, hchunk]
      show ((encode (cs.take 0x8000) ++ ·) <$> stringChunks turns tag').run (w' ++ rest) = _
      rw [StateT.run_map, hnext]
      show some (encode (cs.take 0x8000) ++ encode (cs.drop 0x8000), rest) = _
      rw [← encode_append, take_append_drop]
    · have hne : cs ≠ [] := by
        rintro rfl
        exact hdvd (Nat.dvd_zero _)
      obtain ⟨tag', w', htag, hlast, hread⟩ := lengthTag_spec (Nat.not_le.1 hlen)
      rw [outChars_short (Nat.not_le.1 hlen) hne, htag, cons_append, List.cons.injEq] at hout
      obtain ⟨rfl, rfl⟩ := hout
      rw [stringChunks, readChunks, if_neg hlast.ne.1, append_assoc, hread]
      exact reads_parseUtf8String hnarrow rest

/-- **What the reader of chunks takes** when it does not fail: all characters of the text are known; and
it has taken the chunks of the text, or one more string, if the last chunk is empty. -/
theorem stringChunks_some : ∀ {turns : ℕ} {cs : List Char} {tag : UInt8} {w rest t r : List UInt8},
    cs ≠ [] → outChars cs = tag :: w → (stringChunks turns tag).run (w ++ rest) = some (t, r) →
      Narrow cs ∧ (¬ 0x8000 ∣ cs.length ∧ t = encode cs ∧ r = rest ∨
        0x8000 ∣ cs.length ∧ ∃ turns' t',
          (Reader.next >>= stringChunks turns').run rest = some (t', r))
  | 0, _, _, _, _, _, _, _, _, h => nomatch h
  | turns + 1, cs, tag, w, rest, t, r, hne, hout, h => by
    by_cases hlen : 0x8000 ≤ cs.length
    · have htake : (cs.take 0x8000).length = 0x8000 := length_take_of_le hlen
      have hdrop : (cs.drop 0x8000).length = cs.length - 0x8000 := length_drop
      have hnarrow : Narrow cs ↔ Narrow (cs.take 0x8000) ∧ Narrow (cs.drop 0x8000) := by
        rw [← narrow_append, take_append_drop]
      have htext : encode cs = encode (cs.take 0x8000) ++ encode (cs.drop 0x8000) := by
        rw [← encode_append, take_append_drop]
      rw [← take_append_drop 0x8000 cs, outChars_chunk _ htake, cons_append,
        cons_append, List.cons.injEq] at hout
      obtain ⟨rfl, rfl⟩ := hout
      rw [append_assoc, append_assoc, readChunks_mark _ _ _ _ (by decide),
        StateT.run_bind] at h
      by_cases hfirst : Narrow (cs.take 0x8000)
      · have hchunk := reads_parseUtf8String hfirst (outChars (cs.drop 0x8000) ++ rest)
        rw [htake] at hchunk
        rw [hchunk] at h
        have hloop : ((encode (cs.take 0x8000) ++ ·) <$> (Reader.next >>= stringChunks turns)).run
            (outChars (cs.drop 0x8000) ++ rest) = some (t, r) := by
          rw [← h]
          rw [map_bind]
          rfl
        rw [StateT.run_map] at hloop
        obtain ⟨⟨t', r'⟩, hrest, heq⟩ := Option.map_eq_some_iff.1 hloop
        cases heq
        by_cases hnil : cs.drop 0x8000 = []
        · have hdvd : 0x8000 ∣ cs.length := by
            rw [hnil, length_nil] at hdrop
            omega
          rw [hnil, outChars_nil, nil_append] at hrest
          refine ⟨hnarrow.2 ⟨hfirst, by rw [hnil]; exact nofun⟩, .inr ⟨hdvd, turns, t', hrest⟩⟩
        · obtain ⟨tag', w', hout', -⟩ := outChars_tag hnil
          rw [hout'] at hrest
          obtain ⟨hothers, hcases⟩ := stringChunks_some hnil hout' hrest
          refine ⟨hnarrow.2 ⟨hfirst, hothers⟩, hcases.imp ?_ ?_⟩
          · rintro ⟨hdvd, rfl, rfl⟩
            refine ⟨fun h => hdvd ?_, htext.symm, rfl⟩
            rw [hdrop]
            omega
          · rintro ⟨hdvd, hmore⟩
            refine ⟨?_, hmore⟩
            rw [hdrop] at hdvd
            omega
      · have hchunk := parseUtf8String_none hfirst (outChars (cs.drop 0x8000) ++ rest)
        rw [htake] at hchunk
        rw [hchunk] at h
        cases h
    · have hdvd : ¬ 0x8000 ∣ cs.length := fun hdvd =>
        hlen (Nat.le_of_dvd (length_pos_iff.2 hne) hdvd)
      obtain ⟨tag', w', htag, hlast, hread⟩ := lengthTag_spec (Nat.not_le.1 hlen)
      rw [outChars_short (Nat.not_le.1 hlen) hne, htag, cons_append, List.cons.injEq] at hout
      obtain ⟨rfl, rfl⟩ := hout
      rw [stringChunks, readChunks, if_neg hlast.ne.1, append_assoc, hread] at h
      by_cases hnarrow : Narrow cs
      · rw [reads_parseUtf8String hnarrow rest] at h
        cases h
        exact ⟨hnarrow, .inl ⟨hdvd, rfl, rfl⟩⟩
      · rw [parseUtf8String_none hnarrow rest] at h
        cases h

/-! ### Strings -/

/-- The chunks have more bytes than the text has characters. -/
theorem length_lt_outChars {cs : List Char} (hne : cs ≠ []) : cs.length < (outChars cs).length := by
  by_cases hlen : 0x8000 ≤ cs.length
  · have htake : (cs.take 0x8000).length = 0x8000 := length_take_of_le hlen
    have hdrop : (cs.drop 0x8000).length = cs.length - 0x8000 := length_drop
    have hfirst := length_le_encode (cs.take 0x8000)
    have hrest : (cs.drop 0x8000).length ≤ (outChars (cs.drop 0x8000)).length := by
      by_cases hnil : cs.drop 0x8000 = []
      · rw [hnil]
        exact Nat.zero_le _
      · exact (length_lt_outChars hnil).le
    rw [← take_append_drop 0x8000 cs, outChars_chunk _ htake, take_append_drop]
    simp only [length_append, length_cons]
    omega
  · have hbytes := length_le_encode cs
    obtain ⟨tag, w, htag, -⟩ := lengthTag_spec (Nat.not_le.1 hlen)
    rw [outChars_short (Nat.not_le.1 hlen) hne, htag, length_append, length_cons]
    omega
termination_by cs.length
decreasing_by
  rw [length_drop]
  omega

/-- **The reader comes to the chunks**: the tag of the first one is not that of a number. -/
theorem readUtf8String_chunks (d : Doubles) {cs : List Char} {tag : UInt8} {w : List UInt8}
    (hne : cs ≠ []) (hout : outChars cs = tag :: w) (rest : List UInt8) :
    ∃ turns, cs.length < turns ∧ (readUtf8String d).run (outChars cs ++ rest) =
      (some <$> stringChunks turns tag).run (w ++ rest) := by
  have hlen := length_lt_outChars hne
  obtain ⟨tag', w', hout', hcases⟩ := outChars_tag hne
  rw [hout'] at hout
  cases hout
  rw [hout'] at hlen ⊢
  rcases hcases with ⟨-, rfl⟩ | ⟨-, hlast⟩
  · refine ⟨(w ++ rest).length + 1, ?_, rfl⟩
    simp only [length_append, length_cons] at hlen ⊢
    omega
  · refine ⟨cs.length + 1, Nat.lt_succ_self _, ?_⟩
    have hfirst : tag ≤ 31 ∨ 48 ≤ tag ∧ tag ≤ 51 ∨ tag = 83 := hlast
    rw [readUtf8String, StateT.run_bind, cons_append, run_next_cons]
    show (if tag ≤ 31 ∨ 48 ≤ tag ∧ tag ≤ 51 ∨ tag = 83 then _ else _ : Reader UInt8 _).run
      (w ++ rest) = _
    rw [if_pos hfirst, stringChunks, readChunks, if_neg hlast.ne.1]
    rfl

/-- **A string is read back**, if its characters are narrow and its length is no multiple of a
chunk. -/
theorem reads_outChars (d : Doubles) {cs : List Char} (hnarrow : Narrow cs)
    (hdvd : ¬ 0x8000 ∣ cs.length) : Reads (readUtf8String d) (outChars cs) (some (encode cs)) := by
  intro rest
  have hne : cs ≠ [] := by
    rintro rfl
    exact hdvd (Nat.dvd_zero _)
  obtain ⟨tag, w, hout, -⟩ := outChars_tag hne
  obtain ⟨turns, hturns, hrun⟩ := readUtf8String_chunks d hne hout rest
  rw [hrun]
  exact (reads_stringChunks hturns hnarrow hdvd hout).map some rest

/-- What is read from the chunks of a text when the reader does not fail. -/
theorem outChars_some (d : Doubles) {cs : List Char} {rest r : List UInt8} {t : Option (List UInt8)}
    (hne : cs ≠ []) (h : (readUtf8String d).run (outChars cs ++ rest) = some (t, r)) :
    Narrow cs ∧ (¬ 0x8000 ∣ cs.length ∧ t = some (encode cs) ∧ r = rest ∨
      0x8000 ∣ cs.length ∧ t.isSome ∧ ∃ turns t',
        (Reader.next >>= stringChunks turns).run rest = some (t', r)) := by
  obtain ⟨tag, w, hout, -⟩ := outChars_tag hne
  obtain ⟨turns, -, hrun⟩ := readUtf8String_chunks d hne hout rest
  rw [hrun, StateT.run_map] at h
  obtain ⟨⟨t', r'⟩, hchunks, heq⟩ := Option.map_eq_some_iff.1 h
  cases heq
  obtain ⟨hnarrow, ⟨hdvd, rfl, rfl⟩ | ⟨hdvd, hmore⟩⟩ := stringChunks_some hne hout hchunks
  · exact ⟨hnarrow, .inl ⟨hdvd, rfl, rfl⟩⟩
  · exact ⟨hnarrow, .inr ⟨hdvd, rfl, hmore⟩⟩

theorem reads_null (d : Doubles) : Reads (readUtf8String d) writeNull none := fun _ => rfl

/-- The strings that can be written: their size is a `uint32_t`, they are not empty, and the number of
their characters, none of which has four bytes, is no multiple of `0x8000`. -/
def Writable (s : List Char) : Prop :=
  (encode s).length < 2 ^ 32 ∧ Narrow s ∧ ¬ 0x8000 ∣ s.length

/-- A writable string is written whole. -/
theorem Writable.write_eq {s : List Char} (h : Writable s) :
    writeUtf8String (encode s) = outChars s := by
  have hmod : (encode s).length % 2 ^ 32 = (encode s).length := Nat.mod_eq_of_lt h.1
  have hlen := length_le_encode s
  have hpos : (encode s).length ≠ 0 := by
    intro hzero
    refine h.2.2 ?_
    rw [show s.length = 0 by omega]
    exact Nat.dvd_zero _
  rw [writeUtf8String_eq hmod hpos, upTo_all s (by omega)]

/-- **A string that comes back** was written whole, and can be written. -/
theorem writable_of_eq {s : List Char}
    (hsame : encode s = encode (upTo ((encode s).length % 2 ^ 32) 0 s))
    (hnarrow : Narrow (upTo ((encode s).length % 2 ^ 32) 0 s))
    (hdvd : ¬ 0x8000 ∣ (upTo ((encode s).length % 2 ^ 32) 0 s).length) : Writable s := by
  have hbound := upTo_length (n := (encode s).length % 2 ^ 32) s (i := 0) (Nat.zero_le _)
  have hlen : (encode s).length < 2 ^ 32 := by
    have heq := congrArg List.length hsame
    omega
  rw [Nat.mod_eq_of_lt hlen, upTo_all s (by omega)] at hnarrow hdvd
  exact ⟨hlen, hnarrow, hdvd⟩

/-- **The strings that are read back.** What is written for a string is read back, whatever follows it,
if and only if the string is not empty, none of its characters has four bytes, the number of its
characters is no multiple of `0x8000`, and its size is a `uint32_t`. -/
theorem string_trip (d : Doubles) (s : List Char) :
    Reads (readUtf8String d) (writeUtf8String (encode s)) (some (encode s)) ↔ Writable s := by
  constructor
  · intro h
    by_cases hzero : (encode s).length % 2 ^ 32 = 0
    · rw [writeUtf8String, if_pos hzero] at h
      cases (h []).symm.trans (reads_null d [])
    · rw [writeUtf8String_eq rfl hzero] at h
      have hne : upTo ((encode s).length % 2 ^ 32) 0 s ≠ [] := by
        intro hnil
        rw [hnil, outChars_nil] at h
        cases h []
      obtain ⟨hnarrow, ⟨hdvd, hsame, -⟩ | ⟨-, -, turns, t, hmore⟩⟩ := outChars_some d hne (h [])
      · exact writable_of_eq (Option.some.inj hsame) hnarrow hdvd
      · cases hmore
  · intro h
    rw [h.write_eq]
    exact reads_outChars d h.2.1 h.2.2

/-- **A character of four bytes** is written, but not read. -/
theorem wide_char_lost :
    ¬ ∀ (d : Doubles) (s : List Char),
      Reads (readUtf8String d) (writeUtf8String (encode s)) (some (encode s)) := by
  intro h
  have hread := h ⟨fun _ => [], fun _ => 0, fun _ => 0, fun _ => 0⟩ [Char.ofNat 0x1f600]
  rw [writeUtf8String_eq (n := 4) (by decide) (by decide), upTo_all _ (by decide)] at hread
  obtain ⟨hnarrow, -⟩ := outChars_some _ (cons_ne_nil _ _) (hread [])
  exact absurd (hnarrow _ mem_cons_self) (by decide)

end Hengine.Hessian
