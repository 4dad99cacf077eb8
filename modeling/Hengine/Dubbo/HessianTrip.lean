import Hengine.Dubbo.HessianBytes
import Hengine.Dubbo.HessianObject

/-!
# Objects That Are Read Back

The writer and the reader number the maps in the same order, so that the reader gives the value with
the numbers of its maps instead of their addresses (`Obj.numbered`).
-/

namespace Hengine.Hessian

open List

/-! ### Values -/

mutual

/-- The addresses of the maps, in the order in which they are written. -/
@[grind =]
def Obj.ids : Obj → List ℕ
  | .map id entries => id :: entries.ids
  | _ => []

@[grind =]
def Entries.ids : Entries → List ℕ
  | .nil => []
  | .cons key value rest => key.ids ++ value.ids ++ rest.ids

end

mutual

/-- The value with the numbers of its maps, when those of `refs` have been written before. -/
@[grind =]
def Obj.numbered : Obj → List ℕ → Obj
  | .map id entries, refs => .map refs.length (entries.numbered (refs ++ [id]))
  | .ref id, refs => .ref (refs.idxOf id)
  | .null, _ => .null
  | .bool v, _ => .bool v
  | .int v, _ => .int v
  | .long v, _ => .long v
  | .double bits, _ => .double bits
  | .date v, _ => .date v
  | .str s, _ => .str s
  | .bytes s, _ => .bytes s

@[grind =]
def Entries.numbered : Entries → List ℕ → Entries
  | .nil, _ => .nil
  | .cons key value rest, refs =>
    .cons (key.numbered refs) (value.numbered (refs ++ key.ids))
      (rest.numbered (refs ++ key.ids ++ value.ids))

end

/-- The keys of a map. -/
@[grind =]
def Entries.keys : Entries → List Obj
  | .nil => []
  | .cons key _ rest => key :: rest.keys

mutual

/-- A `Map` holds one entry for a key. -/
def Obj.KeysDiffer : Obj → Prop
  | .map _ entries => entries.KeysDiffer
  | _ => True

def Entries.KeysDiffer : Entries → Prop
  | .nil => True
  | .cons key value rest =>
    key.KeysDiffer ∧ value.KeysDiffer ∧ (∀ k ∈ rest.keys, sameKey key k = false) ∧ rest.KeysDiffer

end

mutual

/-- The values that can be written: without null pointers and references, without empty byte arrays,
and with strings that can be written. -/
def Obj.Good : Obj → Prop
  | .null => False
  | .ref _ => False
  | .str s => ∃ cs, s = encode cs ∧ Writable cs
  | .bytes s => s ≠ [] ∧ s.length < 2 ^ 32
  | .map _ entries => entries.Good
  | .bool _ => True
  | .int _ => True
  | .long _ => True
  | .double _ => True
  | .date _ => True

def Entries.Good : Entries → Prop
  | .nil => True
  | .cons key value rest => key.Good ∧ value.Good ∧ rest.Good

end

mutual

/-- Strings are texts. -/
def Obj.Texts : Obj → Prop
  | .str s => ∃ cs, s = encode cs
  | .map _ entries => entries.Texts
  | _ => True

def Entries.Texts : Entries → Prop
  | .nil => True
  | .cons key value rest => key.Texts ∧ value.Texts ∧ rest.Texts

end

mutual

/-- What can be written has texts only. -/
theorem Obj.Good.texts : ∀ {o : Obj}, o.Good → o.Texts
  | .str _, ⟨cs, h, _⟩ => ⟨cs, h⟩
  | .map _ entries, h => @Entries.Good.texts entries h
  | .bool _, _ | .int _, _ | .long _, _ | .double _, _ | .date _, _ | .bytes _, _ => trivial

theorem Entries.Good.texts : ∀ {es : Entries}, es.Good → es.Texts
  | .nil, _ => trivial
  | .cons _ _ _, ⟨hkey, hvalue, hrest⟩ => ⟨hkey.texts, hvalue.texts, hrest.texts⟩

end

/-- The entries of `es` behind those of another map. -/
@[grind =]
def Entries.append : Entries → Entries → Entries
  | .nil, es => es
  | .cons key value rest, es => .cons key value (rest.append es)

@[simp]
theorem Entries.append_nil : ∀ es : Entries, es.append .nil = es
  | .nil => rfl
  | .cons key value rest => congrArg (Entries.cons key value) rest.append_nil

theorem Entries.append_assoc : ∀ es es' es'' : Entries,
    (es.append es').append es'' = es.append (es'.append es'')
  | .nil, _, _ => rfl
  | .cons key value rest, es', es'' =>
    congrArg (Entries.cons key value) (rest.append_assoc es' es'')

theorem Entries.keys_append : ∀ es es' : Entries, (es.append es').keys = es.keys ++ es'.keys
  | .nil, _ => rfl
  | .cons key _ rest, es' => congrArg (key :: ·) (rest.keys_append es')

/-- **A new key.** -/
theorem Entries.put_new {key value : Obj} : ∀ {es : Entries},
    (∀ k ∈ es.keys, sameKey k key = false) →
      es.put key value = es.append (.cons key value .nil)
  | .nil, _ => rfl
  | .cons k v rest, h => by
    obtain ⟨hk, hrest⟩ := forall_mem_cons.1 h
    rw [Entries.put, hk, if_neg Bool.false_ne_true, Entries.put_new hrest]
    rfl

/-! ### What is written -/

mutual

/-- Writing an object numbers what it has. -/
theorem writeObject_refs : ∀ (o : Obj) {refs : List ℕ}, (refs ++ o.ids).Nodup →
    (writeObject o refs).2 = refs ++ o.ids
  | .map id entries, refs, h => by
    have hid : id ∉ refs := fun hmem =>
      (nodup_append.1 h).2.2 id hmem id mem_cons_self rfl
    rw [Obj.ids, append_cons] at h
    rw [writeObject, idxOf?_eq_none_iff.2 hid]
    dsimp only
    rw [writeEntries_refs entries h, Obj.ids, ← append_cons]
  | .null, refs, _ | .ref _, refs, _ | .bool _, refs, _ | .int _, refs, _ | .long _, refs, _
  | .double _, refs, _ | .date _, refs, _ | .str _, refs, _ | .bytes _, refs, _ =>
    (append_nil refs).symm

/-- Writing entries numbers what they have. -/
theorem writeEntries_refs : ∀ (es : Entries) {refs : List ℕ}, (refs ++ es.ids).Nodup →
    (writeEntries es refs).2 = refs ++ es.ids
  | .nil, refs, _ => by rw [writeEntries, Entries.ids, append_nil]
  | .cons key value rest, refs, h => by
    rw [Entries.ids, ← append_assoc, ← append_assoc] at h
    have hvalue := (nodup_append.1 h).1
    have hkey := (nodup_append.1 hvalue).1
    rw [writeEntries]
    dsimp only
    rw [writeObject_refs key hkey, writeObject_refs value hvalue, writeEntries_refs rest h,
      Entries.ids, ← append_assoc, ← append_assoc]

end

/-! ### Objects that are no maps -/

/-- The signed value of a word. -/
theorem signed_eq {w : ℕ} (hw : 0 < w) (v : BitVec w) : signed w v.toNat = v.toInt := by
  have hlt := v.isLt
  have hpow : 2 ^ w = 2 * 2 ^ (w - 1) := by
    rw [← Nat.pow_succ']
    congr 1
    omega
  rw [signed, Nat.mod_eq_of_lt hlt, BitVec.toInt_eq_toNat_cond]
  by_cases h : v.toNat < 2 ^ (w - 1)
  · rw [if_pos h, if_pos (by omega)]
  · rw [if_neg h, if_neg (by omega)]
    push_cast
    rfl

theorem signed_toInt32 (v : Int32) : Int32.ofInt (signed 32 v.toUInt32.toNat) = v := by
  have h : signed 32 v.toUInt32.toNat = v.toInt := signed_eq (by decide) v.toBitVec
  rw [h, Int32.ofInt_toInt]

theorem signed_toInt64 (v : Int64) : Int64.ofInt (signed 64 v.toUInt64.toNat) = v := by
  have h : signed 64 v.toUInt64.toNat = v.toInt := signed_eq (by decide) v.toBitVec
  rw [h, Int64.ofInt_toInt]

section Atoms

variable (x : Ext) (fuel n : ℕ)

theorem reads_bool (v : Bool) :
    Reads (readObject x (fuel + 1) n) [if v then 0x54 else 0x46] (.bool v, n) := by
  cases v with
  | false => exact fun _ => rfl
  | true => exact fun _ => rfl

/-- An integer is read back. -/
theorem reads_int (v : Int32) :
    Reads (readObject x (fuel + 1) n) (0x49 :: numberBytes 4 v.toUInt32.toNat) (.int v, n) := by
  have hread := (reads_number (n := 4) v.toUInt32.toNat_lt).map
    fun i => (Obj.int (Int32.ofInt (signed 32 i)), n)
  rw [signed_toInt32] at hread
  exact fun rest => hread rest

/-- A long is read back. -/
theorem reads_long (v : Int64) :
    Reads (readObject x (fuel + 1) n) (0x4c :: numberBytes 8 v.toUInt64.toNat) (.long v, n) := by
  have hread := (reads_number (n := 8) v.toUInt64.toNat_lt).map
    fun i => (Obj.long (Int64.ofInt (signed 64 i)), n)
  rw [signed_toInt64] at hread
  exact fun rest => hread rest

/-- A date is read back. -/
theorem reads_date (v : Int64) :
    Reads (readObject x (fuel + 1) n) (0x4a :: numberBytes 8 v.toUInt64.toNat) (.date v, n) := by
  have hread := (reads_number (n := 8) v.toUInt64.toNat_lt).map
    fun i => (Obj.date (Int64.ofInt (signed 64 i)), n)
  rw [signed_toInt64] at hread
  exact fun rest => hread rest

/-- A double is read back. -/
theorem reads_double (bits : UInt64) :
    Reads (readObject x (fuel + 1) n) (0x44 :: numberBytes 8 bits.toNat) (.double bits, n) := by
  have hread := (reads_number (n := 8) bits.toNat_lt).map
    fun i => (Obj.double (UInt64.ofNat i), n)
  rw [UInt64.ofNat_toNat] at hread
  exact fun rest => hread rest

/-- The tags of a string. -/
def StringTag (tag : UInt8) : Prop := tag ≤ 31 ∨ 48 ≤ tag ∧ tag ≤ 51 ∨ tag = 82 ∨ tag = 83

/-- A string's tag leads to the reader of strings. -/
theorem readObject_string {tag : UInt8} (h : StringTag tag) (w : List UInt8) :
    (readObject x (fuel + 1) n).run (tag :: w) =
      (do return (Obj.str (← present (← readUtf8String x.toDoubles)), n) : Reader UInt8 _).run
        (tag :: w) := by
  have htag : tag ≤ 31 ∨ 48 ≤ tag ∧ tag ≤ 51 ∨ tag = 82 ∨ tag = 83 := h
  show (if tag ≤ 31 ∨ 48 ≤ tag ∧ tag ≤ 51 ∨ tag = 82 ∨ tag = 83 then _ else _ : Reader UInt8 _).run
    (tag :: w) = _
  rw [if_pos htag]

/-- The tags of a byte array. -/
def BytesTag (tag : UInt8) : Prop :=
  32 ≤ tag ∧ tag ≤ 47 ∨ 52 ≤ tag ∧ tag ≤ 55 ∨ tag = 65 ∨ tag = 66

theorem BytesTag.not_string {tag : UInt8} (h : BytesTag tag) : ¬ StringTag tag := by
  unfold BytesTag at h
  unfold StringTag
  simp only [UInt8.le_iff_toNat_le, ← UInt8.toNat_inj] at h ⊢
  simp only [UInt8.toNat_ofNat] at h ⊢
  omega

/-- A tag of bytes leads to the reader of bytes. -/
theorem readObject_bytes {tag : UInt8} (h : BytesTag tag) (w : List UInt8) :
    (readObject x (fuel + 1) n).run (tag :: w) =
      (do return (Obj.bytes (← present (← readBytes)), n) : Reader UInt8 _).run (tag :: w) := by
  have htag : 32 ≤ tag ∧ tag ≤ 47 ∨ 52 ≤ tag ∧ tag ≤ 55 ∨ tag = 65 ∨ tag = 66 := h
  have hnot : ¬ (tag ≤ 31 ∨ 48 ≤ tag ∧ tag ≤ 51 ∨ tag = 82 ∨ tag = 83) := h.not_string
  show (if tag ≤ 31 ∨ 48 ≤ tag ∧ tag ≤ 51 ∨ tag = 82 ∨ tag = 83 then _
    else if 32 ≤ tag ∧ tag ≤ 47 ∨ 52 ≤ tag ∧ tag ≤ 55 ∨ tag = 65 ∨ tag = 66 then _
    else _ : Reader UInt8 _).run (tag :: w) = _
  rw [if_neg hnot, if_pos htag]

/-- A string that is not empty begins with a string's tag. -/
theorem outChars_stringTag {cs : List Char} (hne : cs ≠ []) :
    ∃ tag w, outChars cs = tag :: w ∧ StringTag tag := by
  obtain ⟨tag, w, hout, ⟨-, rfl⟩ | ⟨-, hlast⟩⟩ := outChars_tag hne
  · exact ⟨_, w, hout, .inr (.inr (.inl rfl))⟩
  · rcases hlast with h | h | h
    · exact ⟨tag, w, hout, .inl h⟩
    · exact ⟨tag, w, hout, .inr (.inl h)⟩
    · exact ⟨tag, w, hout, .inr (.inr (.inr h))⟩

/-- Bytes begin with a tag of bytes. -/
theorem writeByteChunks_bytesTag (bs : List UInt8) :
    ∃ tag w, writeByteChunks bs = tag :: w ∧ BytesTag tag := by
  obtain ⟨tag, w, hout, ⟨-, rfl⟩ | ⟨-, hlast⟩⟩ := writeByteChunks_tag bs
  · exact ⟨_, w, hout, .inr (.inr (.inl rfl))⟩
  · rcases hlast with h | h | h
    · exact ⟨tag, w, hout, .inl h⟩
    · exact ⟨tag, w, hout, .inr (.inl h)⟩
    · exact ⟨tag, w, hout, .inr (.inr (.inr h))⟩

/-- **A string** comes back. -/
theorem reads_str {cs : List Char} (h : Writable cs) :
    Reads (readObject x (fuel + 1) n) (writeUtf8String (encode cs)) (.str (encode cs), n) := by
  intro rest
  have hne : cs ≠ [] := by
    rintro rfl
    exact h.2.2 (Nat.dvd_zero _)
  obtain ⟨tag, w, hout, htag⟩ := outChars_stringTag hne
  have hread := reads_outChars x.toDoubles h.2.1 h.2.2 rest
  rw [hout] at hread
  rw [h.write_eq, hout, cons_append, readObject_string x fuel n htag, StateT.run_bind,
    ← cons_append, hread]
  rfl

/-- **A byte array** is read back, whatever its chunks. -/
theorem reads_byteArray (bs : List UInt8) :
    Reads (readObject x (fuel + 1) n) (writeByteChunks bs) (.bytes bs, n) := by
  intro rest
  obtain ⟨tag, w, hout, htag⟩ := writeByteChunks_bytesTag bs
  have hread := reads_writeByteChunks bs rest
  rw [hout] at hread
  rw [hout, cons_append, readObject_bytes x fuel n htag, StateT.run_bind,
    ← cons_append, hread]
  rfl

end Atoms

/-! ### Maps -/

/-- A string is written as a null, or its characters up to a cut are. -/
theorem writeUtf8String_cases (cs : List Char) :
    writeUtf8String (encode cs) = writeNull ∨
      upTo ((encode cs).length % 2 ^ 32) 0 cs ≠ [] ∧
        writeUtf8String (encode cs) = outChars (upTo ((encode cs).length % 2 ^ 32) 0 cs) := by
  by_cases hzero : (encode cs).length % 2 ^ 32 = 0
  · exact .inl (by rw [writeUtf8String, if_pos hzero])
  · refine .inr ⟨?_, writeUtf8String_eq rfl hzero⟩
    cases cs with
    | nil => exact (hzero rfl).elim
    | cons c cs =>
      rw [upTo, if_pos (Nat.pos_of_ne_zero hzero)]
      exact cons_ne_nil _ _

/-- **What is written for an object begins with a tag** that is not the end of a map, and that of a
string only for a string. -/
theorem writeObject_first : ∀ {o : Obj} (refs : List ℕ), o.Texts →
    ∃ tag w, (writeObject o refs).1 = tag :: w ∧ tag ≠ 0x5a ∧
      ((∀ s, o ≠ .str s) → ¬ StringTag tag)
  | .map id entries, refs, _ => by
    have htags : ¬ StringTag 0x51 ∧ ¬ StringTag 0x48 := by
      unfold StringTag
      decide
    rw [writeObject]
    cases refs.idxOf? id with
    | some i => exact ⟨_, _, rfl, by decide, fun _ => htags.1⟩
    | none => exact ⟨_, _, rfl, by decide, fun _ => htags.2⟩
  | .str s, refs, h => by
    obtain ⟨cs, rfl⟩ := h
    rw [writeObject]
    rcases writeUtf8String_cases cs with hwrite | ⟨hne, hwrite⟩
    · rw [hwrite]
      exact ⟨_, _, rfl, by decide, fun hno => (hno _ rfl).elim⟩
    · obtain ⟨tag, w, hout, htag⟩ := outChars_stringTag hne
      refine ⟨tag, w, by rw [hwrite, hout], ?_, fun hno => (hno _ rfl).elim⟩
      rintro rfl
      revert htag
      unfold StringTag
      decide
  | .bytes s, refs, _ => by
    have hnull : ¬ StringTag 0x4e := by
      unfold StringTag
      decide
    rw [writeObject, writeBytes]
    dsimp only
    split_ifs with hzero
    · exact ⟨_, _, rfl, by decide, fun _ => hnull⟩
    · obtain ⟨tag, w, hout, htag⟩ := writeByteChunks_bytesTag (s.take (s.length % 2 ^ 32))
      refine ⟨tag, w, hout, ?_, fun _ => htag.not_string⟩
      rintro rfl
      revert htag
      unfold BytesTag
      decide
  | .bool v, _, _ => by
    have htags : ¬ StringTag 0x54 ∧ ¬ StringTag 0x46 := by
      unfold StringTag
      decide
    cases v with
    | true => exact ⟨_, _, rfl, by decide, fun _ => htags.1⟩
    | false => exact ⟨_, _, rfl, by decide, fun _ => htags.2⟩
  | .null, _, _ => ⟨_, _, rfl, by decide, fun _ => by unfold StringTag; decide⟩
  | .ref _, _, _ => ⟨_, _, rfl, by decide, fun _ => by unfold StringTag; decide⟩
  | .int _, _, _ => ⟨_, _, rfl, by decide, fun _ => by unfold StringTag; decide⟩
  | .long _, _, _ => ⟨_, _, rfl, by decide, fun _ => by unfold StringTag; decide⟩
  | .double _, _, _ => ⟨_, _, rfl, by decide, fun _ => by unfold StringTag; decide⟩
  | .date _, _, _ => ⟨_, _, rfl, by decide, fun _ => by unfold StringTag; decide⟩

/-- Two keys that differ still differ when their maps have been numbered, one after the other. -/
theorem sameKey_numbered {k q : Obj} {refs refs' : List ℕ} (hk : k.Good) (hq : q.Good)
    (hdiffer : sameKey k q = false) (hlen : refs.length + k.ids.length ≤ refs'.length) :
    sameKey (k.numbered refs) (q.numbered refs') = false := by
  cases k with
  | null | ref => exact hk.elim
  | map id entries =>
    cases q with
    | null | ref => exact hq.elim
    | map id' entries' =>
      rw [Obj.ids, length_cons] at hlen
      rw [Obj.numbered, Obj.numbered, sameKey, decide_eq_false_iff_not]
      omega
    | _ => rfl
  | _ =>
    cases q with
    | null | ref => exact hq.elim
    | map => rfl
    | _ => exact hdiffer

theorem Entries.Good.keys : ∀ {es : Entries}, es.Good → ∀ q ∈ es.keys, q.Good
  | .nil, _ => nofun
  | .cons _ _ _, ⟨hkey, _, hrest⟩ => forall_mem_cons.2 ⟨hkey, hrest.keys⟩

/-- The numbered keys of the entries are new for the map `acc`. -/
def Fresh (acc es : Entries) (refs : List ℕ) : Prop :=
  ∀ q ∈ es.keys, ∀ refs' : List ℕ, refs.length ≤ refs'.length →
    ∀ k ∈ acc.keys, sameKey k (q.numbered refs') = false

/-- One entry more has been read. -/
theorem Fresh.put {acc rest : Entries} {key value : Obj} {refs : List ℕ}
    (h : Fresh acc (.cons key value rest) refs) (hgood : (Entries.cons key value rest).Good)
    (hdiffer : ∀ q ∈ rest.keys, sameKey key q = false) (value' : Obj) :
    Fresh (acc.append (.cons (key.numbered refs) value' .nil)) rest
      (refs ++ key.ids ++ value.ids) := by
  intro q hq refs' hlen k hk
  rw [length_append, length_append] at hlen
  rw [Entries.keys_append, mem_append] at hk
  rcases hk with hk | hk
  · exact h q (mem_cons_of_mem _ hq) refs' (by omega) k hk
  · obtain rfl : k = key.numbered refs := mem_singleton.1 hk
    exact sameKey_numbered hgood.1 (hgood.2.2.keys q hq) (hdiffer q hq) (by omega)

mutual

/-- **Objects that are read back.** -/
theorem reads_object (x : Ext) : ∀ (o : Obj) (refs : List ℕ) (fuel : ℕ), o.Good → o.KeysDiffer →
    (refs ++ o.ids).Nodup → sizeOf o < fuel →
      Reads (readObject x fuel refs.length) (writeObject o refs).1
        (o.numbered refs, refs.length + o.ids.length)
  | _, _, 0, _, _, _, hfuel => absurd hfuel (Nat.not_lt_zero _)
  | .map id entries, refs, fuel + 1, hgood, hdiffer, hnodup, hfuel => by
    have hid : id ∉ refs := fun hmem =>
      (nodup_append.1 hnodup).2.2 id hmem id mem_cons_self rfl
    rw [Obj.ids, append_cons] at hnodup
    have hsize : sizeOf entries < fuel := by
      have heq : sizeOf (Obj.map id entries) = 1 + sizeOf id + sizeOf entries := rfl
      omega
    have hread := reads_entries x entries fuel fuel .nil hgood hdiffer hnodup hsize hsize
      (fun _ _ _ _ => nofun)
    have hmap : Reads (readPlainMap (readObject x fuel) fuel refs.length)
        ((writeEntries entries (refs ++ [id])).1 ++ [0x5a])
        (.map refs.length (entries.numbered (refs ++ [id])),
          refs.length + (Obj.map id entries).ids.length) := by
      rw [length_append, length_singleton] at hread
      have hpure := hread.bind (f := fun r => pure (Obj.map refs.length r.1, r.2)) (reads_pure _)
      rw [append_nil, Nat.add_assoc, Nat.add_comm 1] at hpure
      exact hpure
    rw [writeObject, idxOf?_eq_none_iff.2 hid, Obj.numbered]
    exact fun rest => hmap rest
  | .str s, refs, fuel + 1, hgood, _, _, _ => by
    obtain ⟨cs, rfl, hwrite⟩ := hgood
    exact reads_str x fuel refs.length hwrite
  | .bytes s, refs, fuel + 1, hgood, _, _, _ => by
    obtain ⟨hne, hlen⟩ := hgood
    have hpos : s.length ≠ 0 := (length_pos_iff.2 hne).ne'
    rw [writeObject, writeBytes, Nat.mod_eq_of_lt hlen, if_neg hpos,
      take_of_length_le (Nat.le_refl _)]
    exact reads_byteArray x fuel refs.length s
  | .bool v, refs, fuel + 1, _, _, _, _ => reads_bool x fuel refs.length v
  | .int v, refs, fuel + 1, _, _, _, _ => reads_int x fuel refs.length v
  | .long v, refs, fuel + 1, _, _, _, _ => reads_long x fuel refs.length v
  | .double v, refs, fuel + 1, _, _, _, _ => reads_double x fuel refs.length v
  | .date v, refs, fuel + 1, _, _, _, _ => reads_date x fuel refs.length v

/-- **The entries of a map** are put behind those that have been read. -/
theorem reads_entries (x : Ext) : ∀ (es : Entries) {refs : List ℕ} (fuel turns : ℕ) (acc : Entries),
    es.Good → es.KeysDiffer → (refs ++ es.ids).Nodup → sizeOf es < fuel → sizeOf es < turns →
      Fresh acc es refs →
      Reads (readEntries (readObject x fuel) turns refs.length acc)
        ((writeEntries es refs).1 ++ [0x5a])
        (acc.append (es.numbered refs), refs.length + es.ids.length)
  | _, _, _, 0, _, _, _, _, _, hturns, _ => absurd hturns (Nat.not_lt_zero _)
  | .nil, refs, fuel, turns + 1, acc, _, _, _, _, _, _ => by
    rw [Entries.numbered, Entries.append_nil]
    exact fun _ => rfl
  | .cons key value rest, refs, fuel, turns + 1, acc, hgood, hdiffer, hnodup, hfuel, hturns,
      hfresh => by
      have hsize : sizeOf (Entries.cons key value rest) =
        1 + sizeOf key + sizeOf value + sizeOf rest := rfl
      obtain ⟨hkey, hvalue, hrest⟩ := hgood
      obtain ⟨hkeyDiffer, hvalueDiffer, hdiff, hrestDiffer⟩ := hdiffer
      rw [Entries.ids, ← append_assoc, ← append_assoc] at hnodup
      have hnodupValue := (nodup_append.1 hnodup).1
      have hnodupKey := (nodup_append.1 hnodupValue).1
      have hkeyRead := reads_object x key refs fuel hkey hkeyDiffer hnodupKey (by omega)
      have hvalueRead := reads_object x value (refs ++ key.ids) fuel hvalue hvalueDiffer
        hnodupValue (by omega)
      have hnew : ∀ k ∈ acc.keys, sameKey k (key.numbered refs) = false :=
        hfresh key mem_cons_self refs (Nat.le_refl _)
      have hrestRead := reads_entries x rest fuel turns _ hrest hrestDiffer hnodup (by omega)
        (by omega) (hfresh.put ⟨hkey, hvalue, hrest⟩ hdiff (value.numbered (refs ++ key.ids)))
      obtain ⟨tag, w, hfirst, htag, -⟩ := writeObject_first refs hkey.texts
      rw [length_append] at hvalueRead
      rw [length_append, length_append, ← Entries.put_new hnew] at hrestRead
      have hall := hkeyRead.bind (f := fun r => do
        let v ← readObject x fuel r.2
        readEntries (readObject x fuel) turns v.2 (acc.put r.1 v.1))
        (hvalueRead.bind (f := fun v =>
          readEntries (readObject x fuel) turns v.2 (acc.put (key.numbered refs) v.1)) hrestRead)
      have hwrite : (writeEntries (.cons key value rest) refs).1 ++ [0x5a] =
          (writeObject key refs).1 ++ ((writeObject value (refs ++ key.ids)).1 ++
            ((writeEntries rest (refs ++ key.ids ++ value.ids)).1 ++ [0x5a])) := by
        rw [writeEntries]
        dsimp only
        rw [writeObject_refs key hnodupKey, writeObject_refs value hnodupValue]
        simp
      have hids : refs.length + (Entries.cons key value rest).ids.length =
          refs.length + key.ids.length + value.ids.length + rest.ids.length := by
        rw [Entries.ids, length_append, length_append]
        omega
      rw [hwrite, hids, Entries.numbered]
      rw [Entries.put_new hnew, Entries.append_assoc] at hall
      intro data
      have hrun := hall data
      rw [hfirst, cons_append, cons_append] at hrun ⊢
      show (if tag = 0x5a then _ else _ : Reader UInt8 _).run _ = _
      rw [if_neg htag]
      exact hrun

end

end Hengine.Hessian
