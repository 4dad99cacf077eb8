import Hengine.Dubbo.HessianTrip

/-!
# The Objects That Are Read Back

What is written for the entries of a map are the objects `k₁, v₁, k₂, v₂, …` one after the other, and an
end. The reader stays in step with them (`Aligned`): each time it reads an object it takes none of them,
for a null pointer, and then it never gets any further; or it takes the next one; or some more, when a
string lacks its last chunk. So it cannot put more entries than were written, and if the map that it
gives has as many, it has taken one object each time, and each of them was read back.

A reference is not read at all, as long as there are fewer maps than the tag of a reference makes of a
number.
-/

namespace Hengine.Hessian

open List Option

/-- A value: its strings are texts, a map has one address and holds one entry for a key. -/
structure Obj.Valid (v : Obj) : Prop where
  texts : v.Texts
  nodup : v.ids.Nodup
  keys : v.KeysDiffer

/-! ### The objects of a map -/

/-- The keys and the values of a map, in turn. -/
@[grind =]
def Entries.flat : Entries → List Obj
  | .nil => []
  | .cons key value rest => key :: value :: rest.flat

/-- The number of entries. -/
@[grind =]
def Entries.size : Entries → ℕ
  | .nil => 0
  | .cons _ _ rest => rest.size + 1

/-- What is written for some objects, one after the other. -/
@[grind =]
def writeList : List Obj → List ℕ → List UInt8 × List ℕ
  | [], refs => ([], refs)
  | o :: os, refs =>
    ((writeObject o refs).1 ++ (writeList os (writeObject o refs).2).1,
      (writeList os (writeObject o refs).2).2)

/-- The objects, the end of the map, and what follows it. -/
def stream (os : List Obj) (refs : List ℕ) (tail : List UInt8) : List UInt8 :=
  (writeList os refs).1 ++ 0x5a :: tail

theorem writeEntries_flat : ∀ (es : Entries) (refs : List ℕ),
    writeEntries es refs = writeList es.flat refs
  | .nil, _ => rfl
  | .cons key value rest, refs => by
    rw [writeEntries, Entries.flat, writeList, writeList]
    dsimp only
    rw [writeEntries_flat rest, append_assoc]

/-- Objects are written one after the other. -/
theorem stream_cons (o : Obj) (os : List Obj) (refs : List ℕ) (tail : List UInt8) :
    stream (o :: os) refs tail =
      (writeObject o refs).1 ++ stream os (writeObject o refs).2 tail := by
  rw [stream, writeList, append_assoc]
  rfl

theorem Entries.flat_length : ∀ es : Entries, es.flat.length = 2 * es.size
  | .nil => rfl
  | .cons _ _ rest => by
    rw [Entries.flat, length_cons, length_cons, rest.flat_length, Entries.size]
    omega

theorem Entries.size_append : ∀ es es' : Entries, (es.append es').size = es.size + es'.size
  | .nil, es' => (Nat.zero_add _).symm
  | .cons _ _ rest, es' => by
    rw [Entries.append, Entries.size, Entries.size, rest.size_append]
    omega

theorem Entries.size_numbered : ∀ (es : Entries) (refs : List ℕ), (es.numbered refs).size = es.size
  | .nil, _ => rfl
  | .cons _ _ rest, _ => by
    rw [Entries.numbered, Entries.size, rest.size_numbered, Entries.size]

/-- An entry of a map takes the place of another one or goes to the end. -/
theorem Entries.put_size (key value : Obj) : ∀ es : Entries,
    (es.put key value).size = es.size ∨
      es.put key value = es.append (.cons key value .nil)
  | .nil => .inr rfl
  | .cons k v rest => by
    rw [Entries.put]
    split_ifs with hsame
    · exact .inl rfl
    · refine (rest.put_size key value).imp (fun h => ?_) fun h => ?_
      · rw [Entries.size, h, Entries.size]
      · rw [h]
        rfl

/-! ### The reader stays in step -/

/-- The maps of some objects. -/
def idsOf (os : List Obj) : List ℕ := os.flatMap Obj.ids

theorem idsOf_nil : idsOf [] = [] := rfl

theorem idsOf_singleton (o : Obj) : idsOf [o] = o.ids := flatMap_singleton Obj.ids o

theorem idsOf_append (os os' : List Obj) : idsOf (os ++ os') = idsOf os ++ idsOf os' :=
  flatMap_append

/-- The references of the entries of a map, in the order they are written. -/
theorem idsOf_flat : ∀ es : Entries, idsOf es.flat = es.ids
  | .nil => rfl
  | .cons key value rest => by
    have hsplit : (Entries.cons key value rest).flat = [key] ++ ([value] ++ rest.flat) := rfl
    rw [hsplit, idsOf_append, idsOf_append, idsOf_singleton, idsOf_singleton, idsOf_flat rest,
      Entries.ids, append_assoc]

theorem Entries.Texts.flat : ∀ {es : Entries}, es.Texts → ∀ o ∈ es.flat, o.Texts
  | .nil, _ => nofun
  | .cons _ _ _, ⟨hkey, hvalue, hrest⟩ =>
    forall_mem_cons.2 ⟨hkey, forall_mem_cons.2 ⟨hvalue, hrest.flat⟩⟩

/-- Objects that are written after the maps `refs`; there are not too many maps. -/
structure Known (os : List Obj) (refs : List ℕ) : Prop where
  texts : ∀ o ∈ os, o.Texts
  nodup : (refs ++ idsOf os).Nodup
  few : (refs ++ idsOf os).length ≤ 0x51000000

/-- What is known before a list is known behind it, with the references of the list. -/
theorem Known.suffix {pre os : List Obj} {refs : List ℕ} (h : Known (pre ++ os) refs) :
    Known os (refs ++ idsOf pre) := by
  have hids : refs ++ idsOf pre ++ idsOf os = refs ++ idsOf (pre ++ os) := by
    rw [idsOf_append, append_assoc]
  refine ⟨fun o ho => h.texts o (mem_append_right _ ho), ?_, ?_⟩
  · rw [hids]
    exact h.nodup
  · rw [hids]
    exact h.few

/-- Writing an object makes its own references known. -/
theorem Known.refs_eq {o : Obj} {os : List Obj} {refs : List ℕ} (h : Known (o :: os) refs) :
    (writeObject o refs).2 = refs ++ o.ids := by
  refine writeObject_refs o ?_
  have hnodup := h.nodup
  rw [idsOf, flatMap_cons, ← append_assoc] at hnodup
  exact (nodup_append.1 hnodup).1

/-- A tag of no string is refused. -/
theorem stringChunks_none {tag : UInt8} (h : ¬ StringTag tag) (turns : ℕ) (data : List UInt8) :
    (stringChunks turns tag).run data = none := by
  unfold StringTag at h
  cases turns with
  | zero => rfl
  | succ turns =>
    rw [stringChunks, readChunks, if_neg (by tauto), lastString, if_neg (by tauto),
      if_neg (by tauto), if_neg (by tauto)]
    rfl

/-- **A string without its last chunk** takes more strings. -/
theorem nextChunks_some : ∀ {os : List Obj} {refs : List ℕ} {turns : ℕ} {tail t r : List UInt8},
    (∀ o ∈ os, o.Texts) →
      (Reader.next >>= stringChunks turns).run (stream os refs tail) = some (t, r) →
        ∃ pre os', os = pre ++ os' ∧ pre ≠ [] ∧ idsOf pre = [] ∧ r = stream os' refs tail
  | [], refs, turns, tail, t, r, _, h => by
    have hend : ¬ StringTag 0x5a := by
      unfold StringTag
      decide
    have hrun : (stringChunks turns 0x5a).run tail = some (t, r) := h
    rw [stringChunks_none hend] at hrun
    cases hrun
  | o :: os, refs, turns, tail, t, r, htexts, h => by
    have htext := htexts o mem_cons_self
    obtain ⟨tag, w, hfirst, -, hstring⟩ := writeObject_first refs htext
    rw [stream_cons, hfirst] at h
    have hrun : (stringChunks turns tag).run (w ++ stream os (writeObject o refs).2 tail) =
      some (t, r) := h
    have htag : StringTag tag := by
      by_contra hno
      rw [stringChunks_none hno] at hrun
      cases hrun
    have hstr : ∃ s, o = .str s := by
      by_contra hno
      exact hstring (fun s hs => hno ⟨s, hs⟩) htag
    obtain ⟨s, rfl⟩ := hstr
    obtain ⟨cs, rfl⟩ := htext
    rcases writeUtf8String_cases cs with hwrite | ⟨hne, hwrite⟩
    · rw [writeObject, hwrite] at hfirst
      cases hfirst
      have hnull : ¬ StringTag 0x4e := by
        unfold StringTag
        decide
      exact (hnull htag).elim
    · rw [writeObject, hwrite] at hfirst
      obtain ⟨-, ⟨-, -, rfl⟩ | ⟨-, turns', t', hmore⟩⟩ := stringChunks_some hne hfirst hrun
      · exact ⟨[.str (encode cs)], os, rfl, cons_ne_nil _ _, rfl, rfl⟩
      · obtain ⟨pre, os', rfl, -, hids, rfl⟩ := nextChunks_some
          (fun o ho => htexts o (mem_cons_of_mem _ ho)) hmore
        exact ⟨.str (encode cs) :: pre, os', rfl, cons_ne_nil _ _, hids, rfl⟩

/-- **The reader stays in step**: it takes some of the objects that have been written, and if it takes
one and gives it, then it can be written. -/
def Aligned (read : ℕ → Reader UInt8 (Obj × ℕ)) : Prop :=
  ∀ {os : List Obj} {refs : List ℕ} {tail r : List UInt8} {y : Obj} {n : ℕ}, Known os refs →
    (read refs.length).run (stream os refs tail) = some ((y, n), r) →
      ∃ pre os', os = pre ++ os' ∧ os ≠ [] ∧ n = (refs ++ idsOf pre).length ∧
        r = stream os' (refs ++ idsOf pre) tail ∧ ∀ o, pre = [o] → y = o.numbered refs → o.Good

/-- A reader that takes nothing does not get any further. -/
theorem readEntries_stuck {read : ℕ → Reader UInt8 (Obj × ℕ)} {n : ℕ} {tag : UInt8}
    {data : List UInt8} {y : Obj} (htag : tag ≠ 0x5a)
    (h : (read n).run (tag :: data) = some ((y, n), tag :: data)) :
    ∀ (turns : ℕ) (acc : Entries), (readEntries read turns n acc).run (tag :: data) = none
  | 0, _ => rfl
  | turns + 1, acc => by
    show (if tag = 0x5a then _ else _ : Reader UInt8 _).run (tag :: data) = none
    rw [if_neg htag, StateT.run_bind, h]
    show (do
      let v ← read n
      readEntries read turns v.2 (acc.put y v.1) : Reader UInt8 _).run (tag :: data) = none
    rw [StateT.run_bind, h]
    exact readEntries_stuck htag h turns (acc.put y y)

/-- Where objects are left, the stream does not begin with the end of a map. -/
theorem stream_first {os : List Obj} {refs : List ℕ} (tail : List UInt8) (h : Known os refs)
    (hne : os ≠ []) : ∃ tag data, stream os refs tail = tag :: data ∧ tag ≠ 0x5a := by
  cases os with
  | nil => exact (hne rfl).elim
  | cons o os =>
    obtain ⟨tag, w, hfirst, htag, -⟩ := writeObject_first refs (h.texts o mem_cons_self)
    exact ⟨tag, _, by rw [stream_cons, hfirst]; rfl, htag⟩

/-- One entry of a map is read. -/
theorem readEntries_turn (read : ℕ → Reader UInt8 (Obj × ℕ)) (turns n : ℕ) (acc : Entries)
    {tag : UInt8} (data : List UInt8) (htag : tag ≠ 0x5a) :
    (readEntries read (turns + 1) n acc).run (tag :: data) =
      (read n >>= fun k => read k.2 >>= fun v =>
        readEntries read turns v.2 (acc.put k.1 v.1)).run (tag :: data) := by
  show (if tag = 0x5a then _ else _ : Reader UInt8 _).run (tag :: data) = _
  rw [if_neg htag]

/-- **The entries of a map.** The reader takes all objects; and if it has put as many entries as were
written, they follow the others, and if they are those that were written, they can be written. -/
theorem readEntries_aligned {read : ℕ → Reader UInt8 (Obj × ℕ)} (hread : Aligned read) :
    ∀ {turns : ℕ} {os : List Obj} {refs : List ℕ} {tail r : List UInt8} {acc es : Entries} {n : ℕ},
      Known os refs →
      (readEntries read turns refs.length acc).run (stream os refs tail) = some ((es, n), r) →
        r = tail ∧ n = (refs ++ idsOf os).length ∧ 2 * es.size ≤ 2 * acc.size + os.length ∧
          (2 * es.size = 2 * acc.size + os.length → ∃ ext, es = acc.append ext ∧
            ∀ es' : Entries, os = es'.flat → ext = es'.numbered refs → es'.Good)
  | 0, _, _, _, _, _, _, _, _, h => nomatch h
  | turns + 1, [], refs, tail, r, acc, es, n, _, h => by
    cases h
    refine ⟨rfl, by rw [idsOf_nil, append_nil], Nat.le_refl _, fun _ => ?_⟩
    refine ⟨.nil, acc.append_nil.symm, fun es' hflat _ => ?_⟩
    cases es' with
    | nil => trivial
    | cons => cases hflat
  | turns + 1, o :: os, refs, tail, r, acc, es, n, hknown, h => by
    obtain ⟨tag, data, hstream, htag⟩ := stream_first tail hknown (cons_ne_nil o os)
    have hloop := h
    rw [hstream, readEntries_turn _ _ _ _ _ htag, ← hstream, StateT.run_bind] at hloop
    obtain ⟨⟨⟨k, nk⟩, rk⟩, hkey, hloop⟩ := bind_eq_some_iff.1 hloop
    dsimp only at hloop
    rw [StateT.run_bind] at hloop
    obtain ⟨⟨⟨v, nv⟩, rv⟩, hvalue, hloop⟩ := bind_eq_some_iff.1 hloop
    dsimp only at hloop
    -- the key takes an object: otherwise the reader would not get any further
    obtain ⟨pre, os₁, hos, -, rfl, rfl, hkeyGood⟩ := hread hknown hkey
    have hpre : pre ≠ [] := by
      rintro rfl
      rw [nil_append] at hos
      subst hos
      rw [idsOf_nil, append_nil, hstream] at hkey
      rw [hstream, readEntries_stuck htag hkey] at h
      cases h
    have hknown₁ : Known os₁ (refs ++ idsOf pre) := (hos ▸ hknown).suffix
    -- and so does the value
    obtain ⟨pre', os₂, rfl, hne₁, rfl, rfl, hvalueGood⟩ := hread hknown₁ hvalue
    obtain ⟨tag₁, data₁, hstream₁, htag₁⟩ := stream_first tail hknown₁ hne₁
    have hpre' : pre' ≠ [] := by
      rintro rfl
      rw [nil_append] at hstream₁
      rw [nil_append, idsOf_nil, append_nil, hstream₁] at hvalue
      rw [idsOf_nil, append_nil, hstream₁, readEntries_stuck htag₁ hvalue] at hloop
      cases hloop
    have hknown₂ : Known os₂ (refs ++ idsOf pre ++ idsOf pre') := hknown₁.suffix
    obtain ⟨rfl, rfl, hsize, htight⟩ := readEntries_aligned hread hknown₂ hloop
    have hlen : (o :: os).length = pre.length + (pre'.length + os₂.length) := by
      rw [hos, length_append, length_append]
    have hpos := length_pos_iff.2 hpre
    have hpos' := length_pos_iff.2 hpre'
    have hput : (acc.put k v).size ≤ acc.size + 1 := by
      rcases acc.put_size k v with heq | heq
      · omega
      · rw [heq, Entries.size_append]
        exact Nat.le_refl _
    refine ⟨rfl, ?_, by omega, fun hequal => ?_⟩
    · rw [hos]
      simp [idsOf_append]
    · have happend : acc.put k v = acc.append (.cons k v .nil) := by
        rcases acc.put_size k v with heq | heq
        · omega
        · exact heq
      have hputSize : (acc.put k v).size = acc.size + 1 := by
        rw [happend, Entries.size_append]
        rfl
      obtain ⟨ext, rfl, hext⟩ := htight (by omega)
      refine ⟨.cons k v ext, by rw [happend, Entries.append_assoc]; rfl, fun es' hflat heq => ?_⟩
      cases es' with
      | nil => cases hflat
      | cons key value rest =>
        -- one object was taken each time
        obtain ⟨a, rfl⟩ := length_eq_one_iff.1 (show pre.length = 1 by omega)
        obtain ⟨a', rfl⟩ := length_eq_one_iff.1 (show pre'.length = 1 by omega)
        rw [hflat, Entries.flat] at hos
        simp only [cons_append, nil_append, List.cons.injEq] at hos
        obtain ⟨rfl, rfl, hrest⟩ := hos
        rw [Entries.numbered, Entries.cons.injEq] at heq
        obtain ⟨hk, hv, hexteq⟩ := heq
        simp only [idsOf_singleton] at hvalueGood hext
        exact ⟨hkeyGood key rfl hk, hvalueGood value rfl hv, hext rest hrest.symm hexteq⟩

section Step

variable {x : Ext} {fuel : ℕ} {o : Obj} {os : List Obj} {refs : List ℕ} {tail r : List UInt8} {y : Obj}
  {n : ℕ}

/-- What `Aligned` says about one object and those that follow it. -/
abbrev InStep (o : Obj) (os : List Obj) (refs : List ℕ) (tail r : List UInt8) (y : Obj) (n : ℕ) :
    Prop :=
  ∃ pre os', o :: os = pre ++ os' ∧ o :: os ≠ [] ∧ n = (refs ++ idsOf pre).length ∧
    r = stream os' (refs ++ idsOf pre) tail ∧ ∀ o, pre = [o] → y = o.numbered refs → o.Good

/-- A null keeps the reader in step. -/
theorem inStep_null (hnull : (writeObject o refs).1 = writeNull)
    (h : (readObject x (fuel + 1) refs.length).run (stream (o :: os) refs tail) = some ((y, n), r)) :
    InStep o os refs tail r y n := by
  have hrun : (readObject x (fuel + 1) refs.length).run (stream (o :: os) refs tail) =
      some ((.null, refs.length), stream (o :: os) refs tail) := by
    rw [stream_cons, hnull]
    rfl
  rw [hrun] at h
  cases h
  exact ⟨[], o :: os, rfl, cons_ne_nil _ _, by rw [idsOf_nil, append_nil],
    by rw [idsOf_nil, append_nil], nofun⟩

/-- **An object that is read back** keeps the reader in step. -/
theorem inStep_one (y' : Obj) (hknown : Known (o :: os) refs)
    (hread : Reads (readObject x (fuel + 1) refs.length) (writeObject o refs).1
      (y', refs.length + o.ids.length)) (hgood : y' = o.numbered refs → o.Good)
    (h : (readObject x (fuel + 1) refs.length).run (stream (o :: os) refs tail) = some ((y, n), r)) :
    InStep o os refs tail r y n := by
  rw [stream_cons, hread, hknown.refs_eq] at h
  cases h
  refine ⟨[o], os, rfl, cons_ne_nil _ _, ?_, by rw [idsOf_singleton], fun o' ho heq => ?_⟩
  · rw [idsOf_singleton, length_append]
  · cases ho
    exact hgood heq

/-- A byte array: its size is cut. -/
theorem inStep_bytes {s : List UInt8} (hknown : Known (.bytes s :: os) refs)
    (h : (readObject x (fuel + 1) refs.length).run (stream (.bytes s :: os) refs tail) =
      some ((y, n), r)) : InStep (.bytes s) os refs tail r y n := by
  by_cases hzero : s.length % 2 ^ 32 = 0
  · refine inStep_null ?_ h
    rw [writeObject, writeBytes, if_pos hzero]
  · refine inStep_one (.bytes (s.take (s.length % 2 ^ 32))) hknown ?_ (fun heq => ?_) h
    · rw [writeObject, writeBytes, if_neg hzero]
      exact reads_byteArray x fuel refs.length _
    · rw [Obj.numbered, Obj.bytes.injEq] at heq
      have hlen := congrArg List.length heq
      rw [length_take] at hlen
      refine ⟨?_, by omega⟩
      rintro rfl
      exact hzero rfl

/-- A string: its size is cut, and it may lack its last chunk. -/
theorem inStep_str {cs : List Char} (hknown : Known (.str (encode cs) :: os) refs)
    (h : (readObject x (fuel + 1) refs.length).run (stream (.str (encode cs) :: os) refs tail) =
      some ((y, n), r)) : InStep (.str (encode cs)) os refs tail r y n := by
  rcases writeUtf8String_cases cs with hwrite | ⟨hne, hwrite⟩
  · exact inStep_null (by rw [writeObject, hwrite]) h
  · obtain ⟨tag, w, hout, htag⟩ := outChars_stringTag hne
    have hrun := h
    rw [stream_cons, writeObject, hwrite, hout, cons_append, readObject_string x fuel _ htag,
      ← cons_append, ← hout, StateT.run_bind] at hrun
    obtain ⟨⟨t, r'⟩, hstring, hrest⟩ := bind_eq_some_iff.1 hrun
    obtain ⟨hnarrow, ⟨hdvd, -, -⟩ | ⟨-, ht, turns, t', hmore⟩⟩ := outChars_some _ hne hstring
    · -- the string has its last chunk
      refine inStep_one (.str (encode (upTo ((encode cs).length % 2 ^ 32) 0 cs))) hknown ?_
        (fun heq => ?_) h
      · intro rest
        have hread := reads_outChars x.toDoubles hnarrow hdvd rest
        rw [writeObject, hwrite, hout, cons_append, readObject_string x fuel _ htag,
          ← cons_append, ← hout, StateT.run_bind, hread]
        rfl
      · rw [Obj.numbered, Obj.str.injEq] at heq
        exact ⟨cs, rfl, writable_of_eq heq.symm hnarrow hdvd⟩
    · -- it takes the strings that follow
      obtain ⟨s, rfl⟩ := isSome_iff_exists.1 ht
      obtain ⟨pre, os', rfl, hpre, hids, rfl⟩ := nextChunks_some
        (fun o ho => hknown.texts o (mem_cons_of_mem _ ho)) hmore
      have hsame : some ((Obj.str s, refs.length), stream os' refs tail) = some ((y, n), r) := hrest
      cases hsame
      have hall : idsOf (.str (encode cs) :: pre) = [] := hids
      refine ⟨.str (encode cs) :: pre, os', rfl, cons_ne_nil _ _, ?_, ?_, fun o ho => ?_⟩
      · rw [hall, append_nil]
      · rw [hall, append_nil]
      · cases ho
        exact (hpre rfl).elim

/-- A reference: the reader takes its tag for the highest byte of the number. -/
theorem inStep_ref {id : ℕ} (hknown : Known (.ref id :: os) refs)
    (h : (readObject x (fuel + 1) refs.length).run (stream (.ref id :: os) refs tail) =
      some ((y, n), r)) : InStep (.ref id) os refs tail r y n := by
  rw [stream_cons] at h
  generalize hrest : stream os refs tail = rest
  generalize hi : refs.idxOf id = i
  have hwritten : (readObject x (fuel + 1) refs.length).run (0x51 :: numberBytes 4 i ++ rest) =
      some ((y, n), r) := by
    rw [← hrest, ← hi]
    exact h
  have hfour : numberBytes 4 i = [UInt8.ofNat (i / 256 / 256 / 256), UInt8.ofNat (i / 256 / 256),
    UInt8.ofNat (i / 256), UInt8.ofNat i] := rfl
  rw [hfour] at hwritten
  generalize hm : ofNumberBytes [0x51, UInt8.ofNat (i / 256 / 256 / 256),
    UInt8.ofNat (i / 256 / 256), UInt8.ofNat (i / 256)] = m
  have hlarge : 0x51000000 ≤ m := by
    rw [← hm]
    simp only [ofNumberBytes, foldl_cons, foldl_nil, UInt8.toNat_ofNat]
    omega
  have hfew := hknown.few
  rw [length_append] at hfew
  have hrun : (if m < refs.length then return (.ref m, refs.length) else failure :
      Reader UInt8 (Obj × ℕ)).run (UInt8.ofNat i :: rest) = some ((y, n), r) := by
    rw [← hm]
    exact hwritten
  rw [if_neg (by omega)] at hrun
  cases hrun

/-- A map: the reader stays in step with its entries. -/
theorem inStep_map {id : ℕ} {entries : Entries} (hread : Aligned (readObject x fuel))
    (hknown : Known (.map id entries :: os) refs)
    (h : (readObject x (fuel + 1) refs.length).run (stream (.map id entries :: os) refs tail) =
      some ((y, n), r)) : InStep (.map id entries) os refs tail r y n := by
  have hids : refs ++ idsOf (.map id entries :: os) = refs ++ [id] ++ entries.ids ++ idsOf os := by
    rw [← singleton_append, idsOf_append, idsOf_singleton, Obj.ids]
    simp
  have hnodup := hknown.nodup
  have hfew := hknown.few
  rw [hids] at hnodup hfew
  have hmap := (nodup_append.1 hnodup).1
  have hid : id ∉ refs := fun hmem =>
    (nodup_append.1 (nodup_append.1 hmap).1).2.2 id hmem id (mem_singleton_self id) rfl
  rw [length_append] at hfew
  have hinner : Known entries.flat (refs ++ [id]) := by
    refine ⟨Entries.Texts.flat (hknown.texts _ mem_cons_self), ?_, ?_⟩
    · rw [idsOf_flat]
      exact hmap
    · rw [idsOf_flat]
      omega
  have hwrite : (writeObject (.map id entries) refs).1 =
      0x48 :: ((writeEntries entries (refs ++ [id])).1 ++ [0x5a]) := by
    rw [writeObject, idxOf?_eq_none_iff.2 hid]
    rfl
  -- the map and what follows it
  generalize hrest : stream os (writeObject (.map id entries) refs).2 tail = rest
  have hrun : (readPlainMap (readObject x fuel) fuel refs.length).run
      (stream entries.flat (refs ++ [id]) rest) = some ((y, n), r) := by
    have hdata : stream (.map id entries :: os) refs tail =
        0x48 :: stream entries.flat (refs ++ [id]) rest := by
      rw [stream_cons, hwrite, hrest, stream, ← writeEntries_flat]
      simp
    rw [hdata] at h
    exact h
  rw [readPlainMap, StateT.run_bind] at hrun
  obtain ⟨⟨⟨es, m⟩, r'⟩, hentries, hresult⟩ := bind_eq_some_iff.1 hrun
  have hlen : (refs ++ [id]).length = refs.length + 1 := by simp
  rw [← hlen] at hentries
  obtain ⟨rfl, rfl, -, htight⟩ := readEntries_aligned hread hinner hentries
  cases hresult
  have hall : refs ++ idsOf [.map id entries] = refs ++ [id] ++ entries.ids := by
    rw [idsOf_singleton, Obj.ids]
    simp
  refine ⟨[.map id entries], os, rfl, cons_ne_nil _ _, ?_, ?_, fun o ho heq => ?_⟩
  · rw [hall, idsOf_flat]
  · rw [hall, ← hrest, hknown.refs_eq, Obj.ids]
    simp
  · cases ho
    rw [Obj.numbered, Obj.map.injEq] at heq
    obtain ⟨ext, rfl, hgood⟩ := htight (by
      rw [heq.2, entries.size_numbered, entries.flat_length]
      exact (Nat.zero_add _).symm)
    exact hgood entries rfl heq.2

end Step

/-- **The reader stays in step.** -/
theorem aligned (x : Ext) (fuel : ℕ) : Aligned (readObject x fuel) := by
  induction fuel with
  | zero =>
    intro os refs tail r y n _ h
    cases h
  | succ fuel ih =>
    intro os refs tail r y n hknown h
    cases os with
    | nil => cases h
    | cons o os =>
      cases o with
      | null => exact inStep_null rfl h
      | bool v => exact inStep_one _ hknown (reads_bool x fuel refs.length v) (fun _ => trivial) h
      | int v => exact inStep_one _ hknown (reads_int x fuel refs.length v) (fun _ => trivial) h
      | long v => exact inStep_one _ hknown (reads_long x fuel refs.length v) (fun _ => trivial) h
      | double v =>
        exact inStep_one _ hknown (reads_double x fuel refs.length v) (fun _ => trivial) h
      | date v => exact inStep_one _ hknown (reads_date x fuel refs.length v) (fun _ => trivial) h
      | str s =>
        obtain ⟨cs, rfl⟩ := hknown.texts _ mem_cons_self
        exact inStep_str hknown h
      | bytes s => exact inStep_bytes hknown h
      | ref id => exact inStep_ref hknown h
      | map id entries => exact inStep_map ih hknown h

/-! ### Whole objects -/

/-- The reader takes exactly what has been written, whatever follows, and gives the value, with numbers
instead of addresses. -/
def RoundTrip (x : Ext) (v : Obj) : Prop :=
  ∃ fuel, ∀ rest, ∃ n,
    (readObject x fuel 0).run ((writeObject v []).1 ++ rest) = some ((v.numbered [], n), rest)

theorem known_single {v : Obj} (hv : v.Valid) (hfew : (idsOf [v]).length ≤ 0x51000000) :
    Known [v] [] := by
  refine ⟨fun o ho => ?_, ?_, hfew⟩
  · rw [mem_singleton.1 ho]
    exact hv.texts
  · rw [nil_append, idsOf_singleton]
    exact hv.nodup

/-- No value is written as the end mark of a map. -/
theorem stream_ne_end {v : Obj} (hv : v.Texts) : stream [v] [] [] ≠ [0x5a] := by
  obtain ⟨tag, w, hfirst, -⟩ := writeObject_first [] hv
  intro h
  have hlen := congrArg List.length h
  rw [stream_cons, hfirst, length_append, length_cons] at hlen
  have hend : (stream [] (writeObject v []).2 []).length = 1 := rfl
  rw [hend, length_singleton] at hlen
  omega

/-- An object that is read back has been taken as one object. -/
theorem good_of_roundTrip {x : Ext} {v : Obj} (hknown : Known [v] []) (hv : v.Texts)
    (h : RoundTrip x v) : v.Good := by
  obtain ⟨fuel, htrip⟩ := h
  obtain ⟨n, hrun⟩ := htrip [0x5a]
  have hdata : stream [v] [] [] = (writeObject v []).1 ++ [0x5a] := stream_cons v [] [] []
  rw [← hdata] at hrun
  obtain ⟨pre, os', hos, -, -, hrest, hgood⟩ := aligned x fuel hknown hrun
  cases pre with
  | nil =>
    -- nothing was taken
    rw [nil_append] at hos
    rw [← hos] at hrest
    exact (stream_ne_end hv hrest.symm).elim
  | cons o pre =>
    rw [cons_append, List.cons.injEq] at hos
    obtain ⟨rfl, hnil⟩ := hos
    obtain ⟨rfl, -⟩ := append_eq_nil_iff.1 hnil.symm
    exact hgood v rfl rfl

/-- **The objects that are read back.** A value is read back if it contains no null pointer, no map that
occurs before, no empty byte array or one whose size is no `uint32_t`, and only strings that are not
empty, have no character of four bytes, a number of characters that is no multiple of `0x8000` and a
size that is a `uint32_t`. With at most `0x51000000` maps, no other value is read back. -/
theorem object_trip (x : Ext) {v : Obj} (hv : v.Valid) :
    (v.Good → RoundTrip x v) ∧ (v.ids.length ≤ 0x51000000 → (RoundTrip x v ↔ v.Good)) := by
  have hsound : v.Good → RoundTrip x v := fun hgood =>
    ⟨sizeOf v + 1, fun rest => ⟨_, reads_object x v [] _ hgood hv.keys hv.nodup
      (Nat.lt_succ_self _) rest⟩⟩
  refine ⟨hsound, fun hfew => ⟨good_of_roundTrip (known_single hv ?_) hv.texts, hsound⟩⟩
  rw [idsOf_singleton]
  exact hfew

/-- A map with one entry is read back: `{"a": 5}`. -/
theorem object_trip_small :
    RoundTrip ⟨⟨fun _ => [], fun _ => 0, fun _ => 0, fun _ => 0⟩, fun _ _ => failure⟩
      (.map 0 (.cons (.str [0x61]) (.int 5) .nil)) := by
  have hvalid : Obj.Valid (.map 0 (.cons (.str [0x61]) (.int 5) .nil)) :=
    ⟨⟨⟨['a'], by decide⟩, trivial, trivial⟩, by decide, trivial, trivial,
      fun _ h => absurd h not_mem_nil, trivial⟩
  refine (object_trip _ hvalid).1 ⟨⟨['a'], by decide, by decide, ?_, by decide⟩, trivial, trivial⟩
  intro c hc
  rw [mem_singleton.1 hc]
  decide

/-- **A map that occurs twice** is not read back: `{"a": m, "b": m}` for an empty map `m`. -/
theorem shared_map_lost : ¬ ∀ (x : Ext) (v : Obj), v.Valid → RoundTrip x v := by
  intro h
  let twice : Obj :=
    .map 0 (.cons (.str [0x61]) (.map 1 .nil) (.cons (.str [0x62]) (.ref 1) .nil))
  have hvalid : twice.Valid := by
    refine ⟨⟨⟨['a'], by decide⟩, trivial, ⟨['b'], by decide⟩, trivial, trivial⟩, by decide, trivial,
      trivial, ?_, trivial, trivial, fun _ h => absurd h not_mem_nil, trivial⟩
    intro k hk
    rw [mem_singleton.1 hk]
    rfl
  have hfew : (idsOf [twice]).length ≤ 0x51000000 := by
    show 2 ≤ 0x51000000
    decide
  have htrip := h ⟨⟨fun _ => [], fun _ => 0, fun _ => 0, fun _ => 0⟩, fun _ _ => failure⟩ twice hvalid
  exact (good_of_roundTrip (known_single hvalid hfew) hvalid.texts htrip).2.2.2.1

end Hengine.Hessian
