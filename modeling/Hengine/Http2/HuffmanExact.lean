import Hengine.Http2.HuffmanTables

/-!
# The Decoder Undoes the Encoder

What the encoder writes is the codes of the characters one after the other, and ones up to
the next byte. The decoder reads it four bits at a time: what has not been read, behind the
bits its state stands for, is always the codes of the characters that are still to come.
-/

namespace Hengine

open List

/-- The bits of a byte. -/
def byteBits (c : UInt8) : List Bool := bitsOf 8 c.toNat

/-- The bits of some bytes. -/
def streamBits (s : List UInt8) : List Bool := s.flatMap byteBits

/-- A text: the codes of its characters, and `k` ones. -/
def textBits (cs : List UInt8) (k : ℕ) : List Bool := cs.flatMap codeBits ++ List.replicate k true

@[simp]
theorem streamBits_append (s t : List UInt8) :
    streamBits (s ++ t) = streamBits s ++ streamBits t := flatMap_append

/-! ### The encoder -/

/-- The table for lower case has the codes of the lower-case characters. -/
theorem huffEncodeTableLc_ok : huffEncodeTableLc.length = 256 ∧
    (huffEncodeTableLc.zipIdx.all fun q =>
      decide (q.1 = (codeNum (tolower (UInt8.ofNat q.2)).toNat / 32,
        codeNum (tolower (UInt8.ofNat q.2)).toNat % 32))) = true := by
  decide +kernel

/-- The codes for lower case are those of the lower-case characters. -/
theorem huffLc_eq (c : UInt8) : huffEncodeTableLc.getD c.toNat (0, 0) = huffCode (tolower c) := by
  have h := getD_byte_of_all huffEncodeTableLc (p := fun q ch =>
    decide (q = (codeNum (tolower ch).toNat / 32, codeNum (tolower ch).toNat % 32)))
    huffEncodeTableLc_ok.1 huffEncodeTableLc_ok.2 c (0, 0)
  rw [← huffCode_eq] at h
  exact of_decide_eq_true h

theorem byteBits_ofNat (x : ℕ) : byteBits (UInt8.ofNat x) = bitsOf 8 x := by
  rw [byteBits, UInt8.toNat_ofNat']
  exact bitsOf_mod 8 x

/-- The bits of a number in network order. -/
theorem streamBits_bytesBE (k x : ℕ) : streamBits (bytesBE k x) = bitsOf (8 * k) x := by
  induction k with
  | zero => rfl
  | succ k ih =>
    have hcons : streamBits (bytesBE (k + 1) x)
        = byteBits (UInt8.ofNat (x >>> (8 * k))) ++ streamBits (bytesBE k x) := rfl
    rw [hcons, ih, byteBits_ofNat, Nat.shiftRight_eq_div_pow, Nat.mul_succ, Nat.add_comm,
      bitsOf_split, bitsOf_mod]

@[simp]
theorem bytesBE_length (k x : ℕ) : (bytesBE k x).length = k := by
  induction k with
  | zero => rfl
  | succ k ih => rw [bytesBE, length_cons, ih]

/-- `w` holds the bits: some in the bytes that are stored, the others at the high end of the
word, which is zero below them. -/
def HuffWord.Holds (w : HuffWord) (bits : List Bool) : Prop :=
  w.pending < 64 ∧ ∃ v < 2 ^ w.pending, w.buf = v * 2 ^ (64 - w.pending) ∧
    streamBits w.dst ++ bitsOf w.pending v = bits

theorem or_low {v k y : ℕ} (h : y < 2 ^ k) : v * 2 ^ k ||| y = v * 2 ^ k + y := by
  rw [← Nat.shiftLeft_eq, Nat.shiftLeft_add_eq_or_of_lt h]

/-- Ones stay ones when the last of them are cut off. -/
theorem ones_div (x a b : ℕ) :
    (x * 2 ^ (a + b) + (2 ^ (a + b) - 1)) / 2 ^ b = x * 2 ^ a + (2 ^ a - 1) := by
  have ha := Nat.two_pow_pos a
  have hb := Nat.two_pow_pos b
  have hsplit : x * 2 ^ (a + b) + (2 ^ (a + b) - 1)
      = 2 ^ b * (x * 2 ^ a + (2 ^ a - 1)) + (2 ^ b - 1) := by
    have hle := Nat.le_mul_of_pos_left (2 ^ b) ha
    rw [Nat.pow_add, Nat.mul_add, Nat.mul_sub, Nat.mul_one, Nat.mul_comm (2 ^ b) (x * 2 ^ a),
      Nat.mul_assoc, Nat.mul_comm (2 ^ b) (2 ^ a)]
    omega
  rw [hsplit, Nat.mul_add_div hb, Nat.div_eq_of_lt (by omega), Nat.add_zero]

section Put

variable {table : List (ℕ × ℕ)} {len : ℕ} {w w' : HuffWord} {c d : UInt8} {bits : List Bool}

/-- **One character**: its code behind what the word holds. -/
theorem HuffWord.Holds.put (H : w.Holds bits) (hd : table.getD c.toNat (0, 0) = huffCode d)
    (hput : huffPut table len w c = some w') :
    w'.Holds (bits ++ codeBits d) ∧ (w'.dst = w.dst ∨ w'.dst.length < len) := by
  obtain ⟨hpend, v, hv, hbuf, hbits⟩ := H
  obtain ⟨hcode, -, hl30⟩ := huffCode_range d
  rw [codeBits]
  set code := (huffCode d).1
  set l := (huffCode d).2
  set p := w.pending
  simp only [huffPut, hd] at hput
  by_cases hroom : p + l < 64
  · rw [if_pos hroom, Option.some.injEq] at hput
    subst hput
    refine ⟨⟨hroom, v * 2 ^ l + code, ?_, ?_, ?_⟩, Or.inl rfl⟩
    · calc v * 2 ^ l + code < v * 2 ^ l + 2 ^ l := by omega
        _ = (v + 1) * 2 ^ l := by rw [Nat.add_mul, Nat.one_mul]
        _ ≤ 2 ^ p * 2 ^ l := Nat.mul_le_mul_right _ hv
        _ = 2 ^ (p + l) := (Nat.pow_add 2 p l).symm
    · have hsplit : 64 - p = l + (64 - (p + l)) := by omega
      have hlow : code * 2 ^ (64 - (p + l)) < 2 ^ (64 - p) := by
        rw [hsplit, Nat.pow_add]
        exact Nat.mul_lt_mul_of_pos_right hcode (Nat.two_pow_pos _)
      have hword : code * 2 ^ (64 - (p + l)) < 2 ^ 64 :=
        Nat.lt_of_lt_of_le hlow (Nat.pow_le_pow_right (by omega) (by omega))
      dsimp only
      rw [hbuf, Nat.shiftLeft_eq, Nat.mod_eq_of_lt hword, or_low hlow, hsplit, Nat.pow_add,
        ← Nat.mul_assoc, ← Nat.add_mul]
    · dsimp only
      rw [bitsOf_append hcode, ← append_assoc, hbits]
  · rw [if_neg hroom] at hput
    by_cases hlong : w.dst.length + 8 ≥ len
    · rw [if_pos hlong] at hput
      cases hput
    · rw [if_neg hlong, Option.some.injEq] at hput
      subst hput
      set q := p + l - 64 with hq
      have hl : l = (64 - p) + q := by omega
      have hhigh : code / 2 ^ q < 2 ^ (64 - p) := by
        rw [Nat.div_lt_iff_lt_mul (Nat.two_pow_pos q), ← Nat.pow_add, ← hl]
        exact hcode
      refine ⟨⟨by dsimp only; omega, code % 2 ^ q, Nat.mod_lt _ (Nat.two_pow_pos q), ?_, ?_⟩,
        Or.inr ?_⟩
      · dsimp only
        by_cases hq0 : q = 0
        · rw [if_neg (by omega), hq0, Nat.pow_zero, Nat.mod_one, Nat.zero_mul]
        · have hsum : 2 ^ 64 = 2 ^ q * 2 ^ (64 - q) := by
            rw [← Nat.pow_add]
            congr 1
            omega
          rw [if_pos hq0, Nat.shiftLeft_eq, hsum, Nat.mul_mod_mul_right]
      · dsimp only
        -- The word is full: what it held, and the high bits of the code.
        have hfull : bitsOf (8 * 8) (v * 2 ^ (64 - p) + code / 2 ^ q)
            = bitsOf p v ++ bitsOf (64 - p) (code / 2 ^ q) := by
          rw [← bitsOf_append hhigh]
          congr 1
          omega
        have hcodebits : bitsOf l code
            = bitsOf (64 - p) (code / 2 ^ q) ++ bitsOf q (code % 2 ^ q) := by
          rw [hl, bitsOf_split]
        rw [streamBits_append, streamBits_bytesBE, hbuf, Nat.shiftRight_eq_div_pow, or_low hhigh,
          hfull, hcodebits, ← hbits]
        simp
      · rw [length_append, bytesBE_length]
        omega

/-- **All characters.** -/
theorem HuffWord.Holds.putAll {f : UInt8 → UInt8}
    (hf : ∀ c : UInt8, table.getD c.toNat (0, 0) = huffCode (f c)) {src : List UInt8} :
    ∀ {w : HuffWord} {bits : List Bool}, w.Holds bits → (w.dst = [] ∨ w.dst.length < len) →
      huffPutAll table len w src = some w' →
        w'.Holds (bits ++ (src.map f).flatMap codeBits) ∧ (w'.dst = [] ∨ w'.dst.length < len) := by
  induction src with
  | nil =>
    intro w bits H hlen h
    rw [huffPutAll, Option.some.injEq] at h
    subst h
    exact ⟨by simpa using H, hlen⟩
  | cons c src ih =>
    intro w bits H hlen h
    rw [huffPutAll, Option.bind_eq_some_iff] at h
    obtain ⟨w₁, hput, hrest⟩ := h
    obtain ⟨H₁, hlen₁⟩ := H.put (hf c) hput
    obtain ⟨H', hlen'⟩ := ih H₁ (by rcases hlen₁ with he | hlt
                                    · rwa [he]
                                    · exact Or.inr hlt) hrest
    refine ⟨?_, hlen'⟩
    rwa [append_assoc] at H'

/-- **The end**: the word is filled up with ones. -/
theorem HuffWord.Holds.flush (H : w.Holds bits) (hlen : w.dst = [] ∨ w.dst.length < len)
    (hne : huffFlush len w ≠ []) :
    (huffFlush len w).length < len ∧
      ∃ k < 8, streamBits (huffFlush len w) = bits ++ List.replicate k true := by
  obtain ⟨hpend, v, hv, hbuf, hbits⟩ := H
  set p := w.pending
  rw [huffFlush] at hne ⊢
  by_cases h0 : w.pending = 0
  · rw [if_pos h0] at hne ⊢
    refine ⟨hlen.resolve_left hne, 0, by omega, ?_⟩
    rw [← hbits, replicate_zero, append_nil]
    change _ = streamBits w.dst ++ bitsOf w.pending v
    rw [h0, bitsOf, append_nil]
  · rw [if_neg h0] at hne ⊢
    dsimp only at hne ⊢
    set p' := (w.pending + 7) / 8 * 8 with hp'
    have hle : p ≤ p' := by omega
    have hle64 : p' ≤ 64 := by omega
    by_cases hlong : w.dst.length + p' / 8 ≥ len
    · rw [if_pos hlong] at hne
      exact absurd rfl hne
    · rw [if_neg hlong]
      refine ⟨by rw [length_append, bytesBE_length]; omega, p' - p, by omega, ?_⟩
      have hones : (2 ^ 64 - 1) >>> w.pending = 2 ^ (64 - p) - 1 := by
        have h := ones_div 0 (64 - p) p
        rw [Nat.sub_add_cancel hpend.le, Nat.zero_mul, Nat.zero_mul, Nat.zero_add,
          Nat.zero_add] at h
        rwa [Nat.shiftRight_eq_div_pow]
      have hvalue : (w.buf ||| (2 ^ 64 - 1) >>> w.pending) >>> (64 - p')
          = v * 2 ^ (p' - p) + (2 ^ (p' - p) - 1) := by
        have h := ones_div v (p' - p) (64 - p')
        have hsum : p' - p + (64 - p') = 64 - p := by omega
        rw [hsum] at h
        rw [hones, hbuf, or_low (Nat.sub_lt (Nat.two_pow_pos _) (by omega)),
          Nat.shiftRight_eq_div_pow, h]
      have hbytes : 8 * (p' / 8) = p + (p' - p) := by omega
      rw [streamBits_append, streamBits_bytesBE, hvalue, hbytes,
        bitsOf_append (Nat.sub_lt (Nat.two_pow_pos _) (by omega)), bitsOf_ones,
        ← append_assoc, hbits]

end Put

/-- **What the encoder writes**: it is shorter than the string, and its bits are the codes of
the characters and less than eight ones. -/
theorem huffEncode_bits (s : List UInt8) (lower : Bool) (h : huffEncode s lower ≠ []) :
    (huffEncode s lower).length < s.length ∧ ∃ k < 8,
      streamBits (huffEncode s lower) = textBits (if lower then s.map tolower else s) k := by
  obtain ⟨f, hf, htext⟩ : ∃ f : UInt8 → UInt8,
      (∀ c : UInt8, (if lower then huffEncodeTableLc else huffEncodeTable).getD c.toNat (0, 0)
        = huffCode (f c)) ∧ s.map f = if lower then s.map tolower else s := by
    cases lower with
    | false => exact ⟨id, fun c => rfl, by simp⟩
    | true => exact ⟨tolower, huffLc_eq, rfl⟩
  rw [huffEncode] at h ⊢
  cases hput : huffPutAll (if lower then huffEncodeTableLc else huffEncodeTable) s.length ⟨[], 0, 0⟩ s with
  | none =>
    rw [hput] at h
    exact absurd rfl h
  | some w =>
    rw [hput] at h
    have hstart : (⟨[], 0, 0⟩ : HuffWord).Holds [] := ⟨by decide, 0, by decide, rfl, rfl⟩
    obtain ⟨H, hlen⟩ := hstart.putAll hf (Or.inl rfl) hput
    obtain ⟨hshort, k, hk, hbits⟩ := H.flush hlen h
    refine ⟨hshort, k, hk, ?_⟩
    dsimp only
    rw [hbits, textBits, ← htext, nil_append]

/-! ### The decoder -/

/-- A run of the decoder that has not failed, in a state of the table; if its state stands for
ones only, the string may end. -/
structure HuffRun.Good (r : HuffRun) : Prop where
  running : r.failed = false
  state_lt : r.state < 256
  ending : (∀ b ∈ stateBits r.state, b = true) → r.ending = true

section Decode

variable {r : HuffRun} {cs : List UInt8} {k : ℕ} {rest : List Bool}

/-- What starts with 30 ones starts with no code. -/
theorem codeBits_ne_ones (c : UInt8) (x y : List Bool) :
    codeBits c ++ x ≠ List.replicate 30 true ++ y := by
  intro h
  obtain ⟨b, hb, rfl⟩ := codeBits_zero c
  obtain ⟨-, -, hlen⟩ := huffCode_range c
  have hshort : (codeBits c).length ≤ (List.replicate 30 true).length := by
    rw [codeBits, bitsOf_length, length_replicate]
    exact hlen
  -- The code is a beginning of the ones.
  have htake := congrArg (List.take (codeBits c).length) h
  rw [take_left, take_append_of_le_length hshort, take_replicate] at htake
  rw [htake] at hb
  exact absurd (eq_of_mem_replicate hb) (by decide)

/-- No bits that begin with a code are ones only. -/
theorem codeBits_append_ne (c : UInt8) (x : List Bool) (n : ℕ) :
    codeBits c ++ x ≠ List.replicate n true := by
  intro h
  obtain ⟨b, hb, rfl⟩ := codeBits_zero c
  have hmem : false ∈ List.replicate n true := h ▸ mem_append_left x hb
  exact absurd (eq_of_mem_replicate hmem) (by decide)

/-- **Four bits of a text.** The decoder does not fail, and what it has written and what is
still to come are the characters that were to come before. -/
theorem HuffRun.Good.bits (G : r.Good) (hk : k < 8) {n : ℕ} (hn : n < 16)
    (htext : stateBits r.state ++ (bitsOf 4 n ++ rest) = textBits cs k) :
    (huffDecodeBits r n).Good ∧ ∃ cs',
      stateBits (huffDecodeBits r n).state ++ rest = textBits cs' k ∧
      (huffDecodeBits r n).out ++ cs' = r.out ++ cs := by
  obtain ⟨hnext, hfail, hgo⟩ := huffDecodeCode_spec G.state_lt hn
  rw [← append_assoc] at htext
  -- The end of the string is not in a text.
  have hne : (huffDecodeCode r.state n).next ≠ r.state := by
    intro heq
    obtain ⟨x, hx⟩ := hfail heq
    rw [hx, append_assoc, textBits] at htext
    cases cs with
    | nil =>
      have hlen := congrArg List.length htext
      simp only [flatMap_nil, nil_append, length_append,
        length_replicate] at hlen
      omega
    | cons c cs =>
      rw [flatMap_cons, append_assoc] at htext
      exact codeBits_ne_ones _ _ _ htext.symm
  obtain ⟨hsilent, hemit, hend⟩ := hgo hne
  rw [huffDecodeBits, if_neg hne]
  refine ⟨⟨G.running, hnext, fun hones => decide_eq_true (hend hones)⟩, ?_⟩
  by_cases hzero : (huffDecodeCode r.state n).emit = 0
  · refine ⟨cs, ?_, ?_⟩
    · rw [← hsilent hzero]
      exact htext
    · dsimp only
      rw [if_neg (not_not.mpr hzero)]
  · rw [hemit hzero, append_assoc] at htext
    cases cs with
    | nil =>
      rw [textBits, flatMap_nil, nil_append] at htext
      exact absurd htext (codeBits_append_ne _ _ _)
    | cons c cs =>
      rw [textBits, flatMap_cons, append_assoc] at htext
      obtain ⟨hc, hrest⟩ := huffTree_fits.append_inj htext
      refine ⟨cs, hrest, ?_⟩
      dsimp only
      rw [if_pos hzero, hc, append_assoc, singleton_append]

theorem byteBits_eq (c : UInt8) :
    byteBits c = bitsOf 4 (c.toNat >>> 4) ++ bitsOf 4 (c.toNat &&& 0xf) := by
  have hlow : c.toNat &&& 0xf = c.toNat % 2 ^ 4 := Nat.and_two_pow_sub_one_eq_mod c.toNat 4
  rw [byteBits, hlow, Nat.shiftRight_eq_div_pow]
  exact bitsOf_split 4 4 c.toNat

/-- **A byte of a text.** -/
theorem HuffRun.Good.byte (G : r.Good) (hk : k < 8) {c : UInt8}
    (htext : stateBits r.state ++ (byteBits c ++ rest) = textBits cs k) :
    (huffDecodeByte r c).Good ∧ ∃ cs',
      stateBits (huffDecodeByte r c).state ++ rest = textBits cs' k ∧
      (huffDecodeByte r c).out ++ cs' = r.out ++ cs := by
  have hc := c.toNat_lt
  have hhigh : c.toNat >>> 4 < 16 := by
    rw [Nat.shiftRight_eq_div_pow]
    omega
  have hlow : c.toNat &&& 0xf < 16 := Nat.and_lt_two_pow (n := 4) c.toNat (by decide)
  rw [byteBits_eq, append_assoc] at htext
  obtain ⟨G₁, cs₁, htext₁, hout₁⟩ := G.bits hk hhigh htext
  obtain ⟨G₂, cs₂, htext₂, hout₂⟩ := G₁.bits hk hlow htext₁
  rw [huffDecodeByte]
  rw [if_neg (by rw [G₁.running]; decide)]
  exact ⟨G₂, cs₂, htext₂, hout₂.trans hout₁⟩

/-- **Bytes of a text.** -/
theorem HuffRun.Good.all (rest : List Bool) (hk : k < 8) {src : List UInt8} :
    ∀ {r : HuffRun} {cs : List UInt8}, r.Good →
      stateBits r.state ++ (streamBits src ++ rest) = textBits cs k →
        (huffDecodeAll r src).Good ∧ ∃ cs',
          stateBits (huffDecodeAll r src).state ++ rest = textBits cs' k ∧
          (huffDecodeAll r src).out ++ cs' = r.out ++ cs := by
  induction src with
  | nil =>
    intro r cs G htext
    exact ⟨G, cs, htext, rfl⟩
  | cons c src ih =>
    intro r cs G htext
    have hcons : streamBits (c :: src) ++ rest = byteBits c ++ (streamBits src ++ rest) := by
      rw [streamBits, flatMap_cons, append_assoc]
      rfl
    rw [hcons] at htext
    obtain ⟨G₁, cs₁, htext₁, hout₁⟩ := G.byte hk htext
    obtain ⟨G₂, cs₂, htext₂, hout₂⟩ := ih G₁ htext₁
    rw [huffDecodeAll]
    rw [if_neg (by rw [G₁.running]; decide)]
    exact ⟨G₂, cs₂, htext₂, hout₂.trans hout₁⟩

/-- **A text in pieces.** -/
theorem huffDecodePieces_text (hk : k < 8) {last : List UInt8} {pieces : List (List UInt8)} :
    ∀ {s : ℕ} {out cs : List UInt8}, s < 256 →
      stateBits s ++ streamBits (pieces.flatten ++ last) = textBits cs k →
        (huffDecodePieces s out pieces last).failed = false ∧
        (huffDecodePieces s out pieces last).out = out ++ cs := by
  induction pieces with
  | nil =>
    intro s out cs hs htext
    have G : (⟨s, true, out, false⟩ : HuffRun).Good := ⟨rfl, hs, fun _ => rfl⟩
    obtain ⟨G', cs', htext', hout'⟩ := HuffRun.Good.all [] hk G
      (by simpa using htext)
    rw [append_nil, textBits] at htext'
    -- No character is left: its code would be the beginning of what the state stands for.
    cases cs' with
    | cons c cs' =>
      rw [flatMap_cons, append_assoc] at htext'
      exact absurd htext'.symm (huffTree_fits.inner_path (stateBits_node G'.state_lt))
    | nil =>
      rw [flatMap_nil, nil_append] at htext'
      have hend := G'.ending fun b hb => by
        rw [htext'] at hb
        exact eq_of_mem_replicate hb
      rw [huffDecodePieces, huffDecode]
      rw [if_neg (by rw [G'.running]; decide), if_pos rfl, if_pos hend]
      exact ⟨G'.running, by simpa using hout'⟩
  | cons p pieces ih =>
    intro s out cs hs htext
    have G : (⟨s, true, out, false⟩ : HuffRun).Good := ⟨rfl, hs, fun _ => rfl⟩
    rw [flatten_cons, append_assoc, streamBits_append] at htext
    obtain ⟨G', cs', htext', hout'⟩ := HuffRun.Good.all _ hk G htext
    obtain ⟨hok, hout⟩ := ih G'.state_lt htext'
    have hpiece : huffDecode s out p false = huffDecodeAll ⟨s, true, out, false⟩ p := by
      rw [huffDecode]
      rw [if_neg (by rw [G'.running]; decide), if_neg (by decide)]
    rw [huffDecodePieces]
    rw [hpiece, if_neg (by rw [G'.running]; decide)]
    exact ⟨hok, hout.trans hout'⟩

end Decode

/-! ### How much the decoder writes -/

/-- Five times the bytes written and the bits the state stands for: four bits read are all that
this can grow. -/
def HuffRun.weight (r : HuffRun) : ℕ := 5 * r.out.length + (stateBits r.state).length

/-- **Four bits.** -/
theorem huffDecodeBits_weight {r : HuffRun} (hs : r.state < 256) {n : ℕ} (hn : n < 16) :
    (huffDecodeBits r n).state < 256 ∧ (huffDecodeBits r n).weight ≤ r.weight + 4 := by
  obtain ⟨hnext, -, hgo⟩ := huffDecodeCode_spec hs hn
  rw [huffDecodeBits]
  by_cases heq : (huffDecodeCode r.state n).next = r.state
  · rw [if_pos heq]
    exact ⟨hs, Nat.le_add_right _ _⟩
  · rw [if_neg heq]
    refine ⟨hnext, ?_⟩
    obtain ⟨hsilent, hemit, -⟩ := hgo heq
    simp only [HuffRun.weight]
    by_cases hzero : (huffDecodeCode r.state n).emit = 0
    · have hlen := congrArg List.length (hsilent hzero)
      rw [length_append, bitsOf_length] at hlen
      rw [if_neg (not_not.mpr hzero)]
      omega
    · have hlen := congrArg List.length (hemit hzero)
      have hfive := (huffCode_range (UInt8.ofNat (huffDecodeCode r.state n).sym)).2.1
      rw [length_append, bitsOf_length, length_append, codeBits, bitsOf_length] at hlen
      rw [if_pos hzero, length_append, length_singleton]
      omega

/-- **A byte.** -/
theorem huffDecodeByte_weight {r : HuffRun} (hs : r.state < 256) (c : UInt8) :
    (huffDecodeByte r c).state < 256 ∧ (huffDecodeByte r c).weight ≤ r.weight + 8 := by
  have hc := c.toNat_lt
  have hhigh : c.toNat >>> 4 < 16 := by
    rw [Nat.shiftRight_eq_div_pow]
    omega
  have hlow : c.toNat &&& 0xf < 16 := Nat.and_lt_two_pow (n := 4) c.toNat (by decide)
  obtain ⟨hs₁, hw₁⟩ := huffDecodeBits_weight hs hhigh
  obtain ⟨hs₂, hw₂⟩ := huffDecodeBits_weight hs₁ hlow
  rw [huffDecodeByte]
  split
  · exact ⟨hs₁, by omega⟩
  · exact ⟨hs₂, by omega⟩

/-- **Some bytes.** -/
theorem huffDecodeAll_weight (src : List UInt8) : ∀ {r : HuffRun}, r.state < 256 →
    (huffDecodeAll r src).state < 256 ∧
      (huffDecodeAll r src).weight ≤ r.weight + 8 * src.length := by
  induction src with
  | nil =>
    intro r hs
    rw [huffDecodeAll, length_nil, Nat.mul_zero, Nat.add_zero]
    exact ⟨hs, Nat.le_refl _⟩
  | cons c src ih =>
    intro r hs
    obtain ⟨hs₁, hw₁⟩ := huffDecodeByte_weight hs c
    obtain ⟨hs₂, hw₂⟩ := ih hs₁
    rw [huffDecodeAll, length_cons]
    split
    · exact ⟨hs₁, by omega⟩
    · exact ⟨hs₂, by omega⟩

/-- **Pieces**, whether or not the decoder fails. -/
theorem huffDecodePieces_weight (last : List UInt8) (pieces : List (List UInt8)) :
    ∀ {s : ℕ} (out : List UInt8), s < 256 →
      5 * (huffDecodePieces s out pieces last).out.length
        ≤ 5 * out.length + (stateBits s).length + 8 * (pieces.flatten ++ last).length := by
  induction pieces with
  | nil =>
    intro s out hs
    obtain ⟨-, hw⟩ := huffDecodeAll_weight last (r := ⟨s, true, out, false⟩) hs
    simp only [HuffRun.weight] at hw
    have hout : (huffDecodePieces s out [] last).out
        = (huffDecodeAll ⟨s, true, out, false⟩ last).out := by
      rw [huffDecodePieces, huffDecode]
      split
      · rfl
      · rw [if_pos rfl]
        split
        · rfl
        · rfl
    rw [hout, flatten_nil, nil_append]
    omega
  | cons p pieces ih =>
    intro s out hs
    obtain ⟨hs', hw⟩ := huffDecodeAll_weight p (r := ⟨s, true, out, false⟩) hs
    simp only [HuffRun.weight] at hw
    have hpiece : huffDecode s out p false = huffDecodeAll ⟨s, true, out, false⟩ p := by
      rw [huffDecode]
      split
      · rfl
      · rw [if_neg (by decide)]
    rw [huffDecodePieces, flatten_cons, append_assoc, length_append]
    rw [hpiece]
    split
    · omega
    · have := ih (huffDecodeAll ⟨s, true, out, false⟩ p).out hs'
      omega

/-! ### The round trip -/

/-- **The Huffman code of a string is decoded to the string.** When the encoder answers a code
at all, the code is shorter than the string, and the decoder, starting in state 0 and given
the code in any pieces, succeeds and writes the string, which is in lower case if that was
asked for. And whatever it is given, the decoder never writes more than 8 bytes for 5. -/
theorem huffman_round_trip (s : List UInt8) (lower : Bool) :
    (huffEncode s lower ≠ [] →
      (huffEncode s lower).length < s.length ∧
      ∀ pieces last, pieces.flatten ++ last = huffEncode s lower →
        (huffDecodePieces 0 [] pieces last).failed = false ∧
        (huffDecodePieces 0 [] pieces last).out = if lower then s.map tolower else s) ∧
    ∀ (pieces : List (List UInt8)) (last : List UInt8),
      (huffDecodePieces 0 [] pieces last).out.length
        ≤ (pieces.flatten ++ last).length * 8 / 5 := by
  constructor
  · intro hne
    obtain ⟨hshort, k, hk, hbits⟩ := huffEncode_bits s lower hne
    refine ⟨hshort, fun pieces last hpieces => ?_⟩
    have htext : stateBits 0 ++ streamBits (pieces.flatten ++ last)
        = textBits (if lower then s.map tolower else s) k := by
      rw [stateBits_zero, hpieces, nil_append, hbits]
    exact huffDecodePieces_text hk (by decide) htext
  · intro pieces last
    have h := huffDecodePieces_weight last pieces [] (s := 0) (by decide)
    rw [stateBits_zero] at h
    simp only [length_nil] at h
    omega

/-- The name of a host, in lower case and cut in two. -/
theorem huffman_round_trip_host :
    huffEncode (str "WWW.example.com") true ≠ [] ∧
      (huffDecodePieces 0 [] [(huffEncode (str "WWW.example.com") true).take 5]
        ((huffEncode (str "WWW.example.com") true).drop 5)).out = str "www.example.com" := by
  have hne : huffEncode (str "WWW.example.com") true ≠ [] := by decide
  refine ⟨hne, ?_⟩
  have h := (((huffman_round_trip (str "WWW.example.com") true).1 hne).2
    [(huffEncode (str "WWW.example.com") true).take 5]
    ((huffEncode (str "WWW.example.com") true).drop 5) (by simp)).2
  rw [h]
  decide

end Hengine
