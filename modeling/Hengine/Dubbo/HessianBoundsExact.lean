import Hengine.Dubbo.HessianBounds

/-!
# Hessian 2: Where the Reader Reads behind the End

The reader of the source does what the tested reader does, until the tested reader finds that the end cuts a
character or that an entry of a map is null. There the source reads behind the end, or turns in a circle. The
tested reader always comes to an end, for every turn of a loop and every map takes a byte.
-/

namespace Hengine.Hessian.Bounds

open List

variable {α β : Type} {d : Doubles}

theorem bind_apply (c : Cursor α) (f : α → Cursor β) (data : List UInt8) (s : Place) :
    (c >>= f) data s = (c data s).bind fun p => f p.1 data p.2 := rfl

/-! ### Two readers side by side -/

/-- What the source does where the tested reader does the second, on `n` bytes: both come to the same place,
from `lo` on, or both stop. -/
inductive Rel (n lo : ℕ) : Except Stop (α × Place) → Except Stop (α × Place) → Prop
  | ok {p : α × Place} : lo ≤ p.2.curr → p.2.curr ≤ n → Rel n lo (.ok p) (.ok p)
  | stop {e : Stop} : e = .error ∨ e = .null ∨ e = .freed → Rel n lo (.error e) (.error e)
  | cut {i : ℕ} : n ≤ i → Rel n lo (.error (.outside i)) (.error .cut)
  | circle : Rel n lo (.error .again) (.error .circle)

theorem Rel.mono {n lo lo' : ℕ} {x y : Except Stop (α × Place)} (h : Rel n lo x y) (hlo : lo' ≤ lo) :
    Rel n lo' x y := by
  cases h with
  | ok hp hn => exact .ok (hlo.trans hp) hn
  | stop he => exact .stop he
  | cut hi => exact .cut hi
  | circle => exact .circle

/-- One step after the other. -/
theorem Rel.bind {n lo lo' : ℕ} {x y : Except Stop (α × Place)}
    {f g : α × Place → Except Stop (β × Place)} (h : Rel n lo x y)
    (hf : ∀ p : α × Place, lo ≤ p.2.curr → p.2.curr ≤ n → Rel n lo' (f p) (g p)) :
    Rel n lo' (x.bind f) (y.bind g) := by
  cases h with
  | ok hp hn => exact hf _ hp hn
  | stop he => exact .stop he
  | cut hi => exact .cut hi
  | circle => exact .circle

/-- **The readers agree** at every place from `j` on where less than `N` bytes are left, and the tested one
takes at least `k` bytes. -/
def Fine (N j k : ℕ) (c c' : Cursor α) : Prop :=
  ∀ data s, j ≤ s.curr → s.curr ≤ data.length → data.length - s.curr < N →
    Rel data.length (s.curr + k) (c data s) (c' data s)

section

variable {N N' j k l : ℕ} {c c' : Cursor α} {f f' : α → Cursor β}

theorem Fine.mono {l : ℕ} (h : Fine N j k c c') (hN : N' ≤ N) (hl : l ≤ k) : Fine N' j l c c' :=
  fun data s hj hs hlt => (h data s hj hs (Nat.lt_of_lt_of_le hlt hN)).mono (Nat.add_le_add_left hl _)

theorem Fine.zero (h : Fine N j k c c') : Fine N j 0 c c' := h.mono (Nat.le_refl _) (Nat.zero_le _)

/-- **One reader after another.** -/
theorem Fine.bind (h : Fine N j k c c') (hf : ∀ a, Fine (N - k) (j + k) l (f a) (f' a)) :
    Fine N j (k + l) (c >>= f) (c' >>= f') := by
  intro data s hj hs hN
  refine (h data s hj hs hN).bind fun p hp hn => ?_
  exact (hf p.1 data p.2 (by omega) hn (by omega)).mono (by omega)

/-- **An exception under a guard.** -/
theorem Fine.safeguard (h : Fine N j k c c') : Fine N j k (safeguard c) (safeguard c') := by
  intro data s hj hs hN
  have hrel := h data s hj hs hN
  unfold Bounds.safeguard
  generalize c data s = x, c' data s = y at hrel
  cases hrel with
  | ok hp hn => exact .ok hp hn
  | stop he =>
    rcases he with rfl | rfl | rfl
    · exact .stop (.inr (.inr rfl))
    · exact .stop (.inr (.inl rfl))
    · exact .stop (.inr (.inr rfl))
  | cut hi => exact .cut hi
  | circle => exact .circle

theorem fine_pure (a : α) : Fine N j 0 (pure a) (pure a) := fun _ _ _ hs _ => .ok (Nat.le_refl _) hs

theorem fine_error : Fine N j k (stop .error : Cursor α) (stop .error) := fun _ _ _ _ _ => .stop (.inl rfl)

theorem Fine.ite {p : Prop} [Decidable p] {q q' : Cursor α} (h : Fine N j k c c') (hq : Fine N j k q q') :
    Fine N j k (if p then c else q) (if p then c' else q') := by
  split
  · exact h
  · exact hq

theorem Fine.map (h : Fine N j k c c') (g : α → β) : Fine N j k (g <$> c) (g <$> c') :=
  h.bind fun a => fine_pure (g a)

theorem Fine.discard (h : Fine N j k c c') : Fine N j k (discard c) (discard c') := h.map _

theorem Fine.next (h : Fine N j k c c') {b : β} :
    Fine N j k (c >>= fun _ => pure b) (c' >>= fun _ => pure b) :=
  h.bind fun _ => fine_pure b

end

/-! ### Bytes -/

/-- **As many bytes as there are.** -/
theorem derefs_eq : ∀ {n : ℕ} {data : List UInt8} {s : Place}, s.curr + n ≤ data.length →
    ∃ bs, derefs n data s = .ok (bs, { s with curr := s.curr + n })
  | 0, _, s, _ => ⟨[], rfl⟩
  | n + 1, data, s, h => by
    have hlt : s.curr < data.length := by omega
    have hnext : derefNext data s = .ok (data[s.curr], { s with curr := s.curr + 1 }) := by
      rw [derefNext, bind_apply, deref, getElem?_eq_getElem hlt]
      rfl
    have hle : s.curr + 1 + n ≤ data.length := by omega
    obtain ⟨bs, hbs⟩ := derefs_eq (s := { s with curr := s.curr + 1 }) hle
    refine ⟨data[s.curr] :: bs, ?_⟩
    rw [derefs, bind_apply, hnext]
    show (derefs n >>= fun bs => pure (data[s.curr] :: bs)) data _ = _
    rw [bind_apply, hbs]
    simp only [Nat.add_assoc, Nat.add_comm 1 n]
    rfl

section

variable {N j k : ℕ}

/-- A test for the end stands before the bytes that are read. -/
theorem fine_guarded (n : ℕ) : Fine N j n (guardEnd (n - 1) >>= fun _ => derefs n)
    (guardEnd (n - 1) >>= fun _ => derefs n) := by
  intro data s hj hs hN
  rw [bind_apply, guardEnd]
  split_ifs with hend
  · exact .stop (.inl rfl)
  · have hle : s.curr + n ≤ data.length := by omega
    obtain ⟨bs, hbs⟩ := derefs_eq hle
    show Rel data.length (s.curr + n) (derefs n data s) (derefs n data s)
    rw [hbs]
    exact .ok (Nat.le_refl _) hle

/-- A test for the end, and a reader of one byte. -/
theorem fine_guardEnd {α : Type} {f f' : UInt8 → Cursor α}
    (h : ∀ b, Fine (N - 1) (j + 1) k (f b) (f' b)) :
    Fine N j (1 + k) (guardEnd 0 >>= fun _ => derefNext >>= f) (guardEnd 0 >>= fun _ => derefNext >>= f') := by
  intro data s hj hs hN
  rw [bind_apply, bind_apply, guardEnd]
  split_ifs with hend
  · exact .stop (.inl rfl)
  · have hlt : s.curr < data.length := by omega
    have hnext : derefNext data s = .ok (data[s.curr], { s with curr := s.curr + 1 }) := by
      rw [derefNext, bind_apply, deref, getElem?_eq_getElem hlt]
      rfl
    show Rel _ _ ((derefNext >>= f) data s) ((derefNext >>= f') data s)
    rw [bind_apply, bind_apply, hnext]
    refine (h _ data _ ?_ ?_ ?_).mono ?_
    all_goals dsimp only; omega

theorem fine_parse8bit : Fine N j 1 parse8bit parse8bit := by
  have h : Fine N j (1 + 0) (guardEnd 0 >>= fun _ => derefNext >>= pure)
      (guardEnd 0 >>= fun _ => derefNext >>= pure) := fine_guardEnd fun b => fine_pure b
  rw [bind_pure] at h
  exact h

theorem fine_parseBytes (n : ℕ) : Fine N j n (parseBytes n) (parseBytes n) := by
  have h := (fine_guarded (N := N) (j := j) n).bind (l := 0) fun bs => fine_pure (ofNumberBytes bs)
  rw [bind_assoc] at h
  exact h

theorem fine_parseRawBytes (n : ℕ) : Fine N j 0 (parseRawBytes n) (parseRawBytes n) :=
  (fine_guarded n).zero

theorem fine_addOne (base : ℤ) : Fine N j 0 (addOne base) (addOne base) :=
  (fine_parse8bit.bind fun _ => fine_pure _).zero

theorem fine_addTwo (base : ℤ) : Fine N j 0 (addTwo base) (addTwo base) :=
  (fine_parse8bit.bind fun _ => fine_parse8bit.bind fun _ => fine_pure _).zero

/-- A reader that looks at the next byte. -/
theorem Fine.peek {α : Type} {f f' : UInt8 → Cursor α}
    (h : ∀ tag data s, j ≤ s.curr → s.curr ≤ data.length → data.length - s.curr < N →
      data[s.curr]? = some tag → Rel data.length (s.curr + k) (f tag data s) (f' tag data s)) :
    Fine N j k (Bounds.peek >>= f) (Bounds.peek >>= f') := by
  intro data s hj hs hN
  have hpeek : Bounds.peek data s = if (data.length : ℤ) ≤ s.curr + 0 then .error .error else deref data s := by
    rw [Bounds.peek, bind_apply, guardEnd]
    split_ifs <;> rfl
  rw [bind_apply, bind_apply, hpeek]
  split_ifs with hend
  · exact .stop (.inl rfl)
  · have hlt : s.curr < data.length := by omega
    have hget : data[s.curr]? = some data[s.curr] := getElem?_eq_getElem hlt
    have hderef : deref data s = .ok (data[s.curr], s) := by rw [deref, hget]
    rw [hderef]
    exact h _ data s hj hs hN hget

/-- Going back one byte gives back one byte of what was read. -/
theorem Fine.back {α : Type} {c c' : Cursor α} (h : Fine (N + 1) j 1 c c') :
    Fine N (j + 1) 0 ((modify fun s : Place => { s with curr := s.curr - 1 }) >>= fun _ => c)
      ((modify fun s : Place => { s with curr := s.curr - 1 }) >>= fun _ => c') := by
  intro data s hj hs hN
  refine (h data { s with curr := s.curr - 1 } ?_ ?_ ?_).mono ?_
  all_goals dsimp only; omega

end

/-! ### Strings and byte arrays -/

section

variable {N j : ℕ}

/-- **A byte behind the first one of a character.** -/
theorem fine_next : Fine N j 0 Mode.source.next Mode.tested.next := by
  intro data s hj hs hN
  show Rel _ _ (derefNext data s)
    (if data.length ≤ s.curr then .error .cut else derefNext data s)
  split_ifs with hend
  · have hnext : derefNext data s = .error (.outside s.curr) := by
      rw [derefNext, bind_apply, deref, getElem?_eq_none hend]
      rfl
    rw [hnext]
    exact .cut hend
  · have hlt : s.curr < data.length := by omega
    have hnext : derefNext data s = .ok (data[s.curr], { s with curr := s.curr + 1 }) := by
      rw [derefNext, bind_apply, deref, getElem?_eq_getElem hlt]
      rfl
    rw [hnext]
    exact .ok (by dsimp only; omega) (by dsimp only; omega)

/-- Characters are read with a test for each. -/
theorem fine_parseChars : ∀ {n N j : ℕ}, Fine N j 0 (parseChars .source n) (parseChars .tested n)
  | 0, _, _ => fine_pure []
  | n + 1, N, j => by
    rw [parseChars, parseChars]
    refine (fine_guardEnd fun ch => ?_).zero (k := 1 + 0)
    have hrest : ∀ {N' j'} (pre : List UInt8), Fine N' j' 0
        (parseChars .source n >>= fun rest => pure (pre ++ rest))
        (parseChars .tested n >>= fun rest => pure (pre ++ rest)) := fun pre =>
      (fine_parseChars (n := n)).bind (l := 0) fun rest => fine_pure _
    refine .ite (hrest [ch]) (.ite ?_ (.ite ?_ fine_error))
    · exact fine_next.bind (l := 0) fun b => hrest [ch, b]
    · exact fine_next.bind (l := 0) fun b => fine_next.bind (l := 0) fun b' => hrest [ch, b, b']

/-- A string is read alike with the test and without it, inside the bounds. -/
theorem fine_parseUtf8String (n : ℕ) :
    Fine N j 0 (parseUtf8String .source n) (parseUtf8String .tested n) := by
  intro data s hj hs hN
  rw [parseUtf8String, parseUtf8String, bind_apply, bind_apply, guardEnd]
  split_ifs with hend
  · exact .stop (.inl rfl)
  · exact fine_parseChars data s hj hs hN

/-- **The loop over the chunks** has enough turns. -/
theorem fine_readChunks {mark : UInt8} {parse parse' : ℕ → Cursor (List UInt8)}
    {last last' : UInt8 → Cursor (List UInt8)} (hparse : ∀ N j n, Fine N j 0 (parse n) (parse' n))
    (hlast : ∀ N j tag, Fine N j 0 (last tag) (last' tag)) :
    ∀ {turns j : ℕ} {tag : UInt8},
      Fine turns j 0 (readChunks mark parse last turns tag) (readChunks mark parse' last' turns tag)
  | 0, _, _ => fun _ _ _ _ hN => absurd hN (Nat.not_lt_zero _)
  | turns + 1, j, tag => by
    rw [readChunks, readChunks]
    refine .ite ?_ (hlast _ _ tag)
    refine Fine.zero (k := 2 + (0 + (1 + (0 + 0)))) ?_
    refine (fine_parseBytes 2).bind fun size => (hparse _ _ size).bind fun chunk =>
      fine_parse8bit.bind fun tag => ?_
    refine Fine.bind ((fine_readChunks hparse hlast).mono ?_ (Nat.le_refl 0)) fun rest =>
      fine_pure (chunk ++ rest)
    omega

/-- **A chunked string** is read with tests, if its chunks are. -/
theorem fine_readChunked {guard : Cursor (List UInt8) → Cursor (List UInt8)}
    (hguard : ∀ {N j c c'}, Fine N j 0 c c' → Fine N j 0 (guard c) (guard c')) {mark : UInt8}
    {parse parse' : ℕ → Cursor (List UInt8)} {last last' : UInt8 → Cursor (List UInt8)}
    (hparse : ∀ N j n, Fine N j 0 (parse n) (parse' n))
    (hlast : ∀ N j tag, Fine N j 0 (last tag) (last' tag)) :
    Fine N j 1 (readChunked guard mark parse last) (readChunked guard mark parse' last') := by
  refine fine_parse8bit.bind (l := 0) fun tag => .ite (fine_pure none) ?_
  intro data s hj hs hN
  exact (hguard (fine_readChunks hparse hlast)).map some data s hj hs
    (Nat.lt_succ_of_le (Nat.sub_le _ _))

/-- Likewise the last part of a string. -/
theorem fine_lastString (tag : UInt8) : Fine N j 0 (lastString .source tag) (lastString .tested tag) := by
  refine .ite (fine_parseUtf8String _) (.ite ?_ (.ite ?_ fine_error))
  · exact (fine_parse8bit.bind fun b => fine_parseUtf8String _).zero
  · exact ((fine_parseBytes 2).bind fun size => fine_parseUtf8String _).zero

theorem fine_readChunkedUtf8String :
    Fine N j 1 (readChunkedUtf8String .source) (readChunkedUtf8String .tested) :=
  fine_readChunked id (fun _ _ n => fine_parseUtf8String n) fun _ _ tag => fine_lastString tag

theorem fine_readDetailMessage :
    Fine N j 1 (readDetailMessage .source) (readDetailMessage .tested) :=
  fine_readChunked Fine.safeguard (fun _ _ n => fine_parseUtf8String n) fun _ _ tag =>
    fine_lastString tag

theorem fine_readShort (tag : UInt8) : Fine N j 0 (readShort tag) (readShort tag) :=
  .ite (fine_addTwo _) (.ite (fine_pure _) (.ite (fine_addOne _) (.ite (fine_addTwo _)
    (.ite (fine_pure _) (.ite (fine_addOne _) fine_error)))))

/-- **A string** takes at least one byte. -/
theorem fine_readUtf8String : Fine N j 1 (readUtf8String .source d) (readUtf8String .tested d) := by
  refine fine_parse8bit.bind (l := 0) fun tag => ?_
  refine .ite ((fine_lastString tag).map some) (.ite ?_ (.ite (fine_pure _) (.ite ?_ (.ite ?_
    (.ite (fine_pure _) (.ite fine_readChunkedUtf8String.back (.ite (fine_pure _) (.ite (fine_pure _)
    (.ite (fine_pure _) (.ite ?_ (.ite ?_ (.ite ?_ ?_))))))))))))
  · exact ((fine_parseBytes 8).bind fun v => fine_pure _).zero
  · exact ((fine_parseBytes 4).bind fun v => fine_pure _).zero
  · exact ((fine_parseBytes 8).bind fun v => fine_pure _).zero
  · exact (fine_addOne 0).bind fun v => fine_pure _
  · exact (fine_addTwo 0).bind fun v => fine_pure _
  · exact ((fine_parseBytes 4).bind fun v => fine_pure _).zero
  · exact (fine_readShort tag).bind fun v => fine_pure _

/-- The last chunk of a byte string is read the same. -/
theorem fine_lastBytes (tag : UInt8) : Fine N j 0 (lastBytes tag) (lastBytes tag) := by
  refine .ite (fine_parseRawBytes _) (.ite ?_ (.ite ?_ fine_error))
  · exact (fine_parse8bit.bind fun b => fine_parseRawBytes _).zero
  · exact ((fine_parseBytes 2).bind fun size => fine_parseRawBytes _).zero

/-- **A byte array** takes at least one byte. -/
theorem fine_readBytes : Fine N j 1 readBytes readBytes := by
  refine fine_parse8bit.bind (l := 0) fun tag => .ite ?_ (.ite (fine_pure none) ?_)
  · exact (fine_readChunked id (fun _ _ n => fine_parseRawBytes n) fun _ _ tag => fine_lastBytes tag).back
  · exact (fine_lastBytes tag).map some

/-! ### Numbers -/

theorem fine_fourBytes : Fine N j 0 fourBytes fourBytes :=
  (fine_parse8bit.bind fun _ => fine_parse8bit.bind fun _ => fine_parse8bit.bind fun _ =>
    fine_parse8bit.next).zero

/-- Reading four bytes of a number advances. -/
theorem fine_readInt32 : Fine N j 1 readInt32 readInt32 := by
  refine fine_parse8bit.bind (l := 0) fun tag => ?_
  exact .ite (fine_parseBytes 8).discard.zero (.ite (fine_pure ()) (.ite fine_fourBytes
    (.ite (fine_parseBytes 8).discard.zero (.ite (fine_addOne 0).discard (.ite (fine_addTwo 0).discard
    (.ite (fine_parseBytes 4).discard.zero (fine_readShort tag).discard))))))

/-- A long number is read with tests. -/
theorem fine_readInt64 : Fine N j 1 readInt64 readInt64 := by
  refine fine_parse8bit.bind (l := 0) fun tag => ?_
  exact .ite (fine_parseBytes 8).discard.zero (.ite (fine_pure ()) (.ite (fine_parseBytes 4).discard.zero
    (.ite (fine_parseBytes 8).discard.zero (.ite (fine_addOne 0).discard (.ite (fine_addTwo 0).discard
    (.ite (fine_parseBytes 4).discard.zero (fine_readShort tag).discard))))))

/-- Likewise a double. -/
theorem fine_readDouble : Fine N j 1 readDouble readDouble := by
  refine fine_parse8bit.bind (l := 0) fun tag => ?_
  exact .ite (fine_parseBytes 8).discard.zero (.ite (fine_pure ()) (.ite (fine_parseBytes 8).discard.zero
    (.ite (fine_addOne 0).discard (.ite (fine_addTwo 0).discard
    (.ite (fine_parseBytes 4).discard.zero (fine_readShort tag).discard)))))

theorem fine_readUtcDate : Fine N j 1 readUtcDate readUtcDate :=
  fine_parse8bit.bind fun _ => .ite (fine_parseBytes 8).discard.zero
    (.ite (fine_parseBytes 4).discard.zero fine_error)

theorem fine_readBool : Fine N j 1 readBool readBool :=
  fine_parse8bit.bind fun _ => .ite (fine_pure ()) fine_error

/-- Looking up a reference reads nothing. -/
theorem fine_findRef (id : ℕ) : Fine N j 0
    (get >>= fun s : Place => match s.refs[id]? with | some k => pure k | none => stop .error)
    (get >>= fun s : Place => match s.refs[id]? with | some k => pure k | none => stop .error) := by
  intro data s hj hs hN
  show Rel _ _ ((match s.refs[id]? with | some k => pure k | none => stop .error : Cursor Kind) data s)
    ((match s.refs[id]? with | some k => pure k | none => stop .error : Cursor Kind) data s)
  cases s.refs[id]? with
  | some k => exact .ok (Nat.le_refl _) hs
  | none => exact .stop (.inl rfl)

theorem fine_readRef : Fine N j 1 readRef readRef :=
  ((fine_parseBytes 4).bind fun id => fine_findRef id).mono (Nat.le_refl _) (by omega)

end

/-! ### Objects -/

section

variable {N j turns : ℕ} {read read' : Cursor Kind} {data : List UInt8} {s : Place}

/-- Peeking reads no byte. -/
theorem peek_eq {tag : UInt8} (h : data[s.curr]? = some tag) : peek data s = .ok (tag, s) := by
  have hlt : s.curr < data.length := (List.getElem?_eq_some_iff.mp h).1
  rw [peek, bind_apply, guardEnd, if_neg (by omega)]
  show deref data s = _
  rw [deref, h]

/-- **Two readers of objects agree**: they take a byte unless the next one is that of a null pointer, which
stays. -/
structure FineObject (N : ℕ) (c c' : Cursor Kind) : Prop where
  other {data : List UInt8} {s : Place} : s.curr ≤ data.length → data.length - s.curr < N →
    data[s.curr]? ≠ some 78 → Rel data.length (s.curr + 1) (c data s) (c' data s)
  null {data : List UInt8} {s : Place} : data.length - s.curr < N → data[s.curr]? = some 78 →
    c data s = .ok (.null, s) ∧ c' data s = .ok (.null, s)

/-- An object may be read where less is left. -/
theorem FineObject.fine (h : FineObject N read read') : Fine N j 0 read read' := by
  intro data s _ hs hN
  by_cases hnull : data[s.curr]? = some 78
  · rw [(h.null hN hnull).1, (h.null hN hnull).2]
    exact .ok (Nat.le_refl _) hs
  · exact (h.other hs hN hnull).mono (Nat.le_succ _)

theorem fine_addRef (k : Kind) : Fine N j 0 (addRef k) (addRef k) := fun _ _ _ hs _ =>
  .ok (Nat.le_refl _) hs

/-- **The source turns in a circle** where an entry of a map is null. -/
theorem readEntries_circle (hnull : data[s.curr]? = some 78) (hread : read data s = .ok (.null, s)) :
    ∀ turns, readEntries .source read turns data s = .error .again
  | 0 => rfl
  | turns + 1 => by
    rw [readEntries, bind_apply, peek_eq hnull]
    show (read data s).bind (fun p => (read data p.2).bind fun q =>
      readEntries .source read turns data q.2) = _
    rw [hread]
    show (read data s).bind (fun q => readEntries .source read turns data q.2) = _
    rw [hread]
    exact readEntries_circle hnull hread turns

theorem tested_entry : Mode.tested.entry data s =
    if data[s.curr]? = some 78 then .error .circle else .ok ((), s) := rfl

/-- **The entries of a map.** Every one takes a byte, or is null. -/
theorem fine_readEntries (hread : FineObject N read read') : ∀ {turns j : ℕ}, turns ≤ N →
    Fine turns j 0 (readEntries .source read turns) (readEntries .tested read' turns)
  | 0, _, _ => fun _ _ _ _ hN => absurd hN (Nat.not_lt_zero _)
  | turns + 1, j, hle => by
    rw [readEntries, readEntries]
    refine Fine.peek fun tag data s hj hs hN hget => ?_
    have hlt : s.curr < data.length := (List.getElem?_eq_some_iff.mp hget).1
    by_cases hend : tag = 0x5a
    · rw [if_pos hend, if_pos hend]
      exact .ok (by dsimp only; omega) hlt
    rw [if_neg hend, if_neg hend]
    show Rel _ _ ((read data s).bind fun p => (read data p.2).bind fun q =>
        readEntries .source read turns data q.2)
      ((Mode.tested.entry data s).bind fun p => (read' data p.2).bind fun p =>
        (Mode.tested.entry data p.2).bind fun q => (read' data q.2).bind fun q =>
          readEntries .tested read' turns data q.2)
    rw [tested_entry]
    by_cases hnull : data[s.curr]? = some 78
    · have hkey := (hread.null (by omega) hnull).1
      have hcircle := readEntries_circle hnull hkey turns
      rw [if_pos hnull, hkey]
      show Rel _ _ ((read data s).bind fun q => readEntries .source read turns data q.2) _
      rw [hkey]
      show Rel _ _ (readEntries .source read turns data s) _
      rw [hcircle]
      exact .circle
    · rw [if_neg hnull]
      refine (hread.other hs (by omega) hnull).bind fun p hp hn => ?_
      rw [tested_entry]
      by_cases hnull' : data[p.2.curr]? = some 78
      · have hvalue := (hread.null (by omega) hnull').1
        rw [if_pos hnull', hvalue]
        show Rel _ _ (readEntries .source read turns data p.2) _
        rw [readEntries_circle hnull' hvalue turns]
        exact .circle
      · rw [if_neg hnull']
        refine (hread.other hn (by omega) hnull').bind fun q hq hqn => ?_
        exact (fine_readEntries hread (j := j) (by omega) data q.2 (by omega) hqn (by omega)).mono
          (by omega)

/-- **The fields of an exception.** Every one takes the tag of its key. -/
theorem fine_readFields (hread : FineObject N read read') : ∀ {turns j : ℕ}, turns ≤ N →
    Fine turns j 0 (readFields .source d read turns) (readFields .tested d read' turns)
  | 0, _, _ => fun _ _ _ _ hN => absurd hN (Nat.not_lt_zero _)
  | turns + 1, j, hle => by
    rw [readFields, readFields]
    refine Fine.peek fun tag data s hj hs hN hget => ?_
    have hlt : s.curr < data.length := (List.getElem?_eq_some_iff.mp hget).1
    have hrest : ∀ {j'}, Fine turns j' 0 (readFields .source d read turns)
        (readFields .tested d read' turns) := fine_readFields hread (by omega)
    have hobject : ∀ {j'}, Fine turns j' 0 read read' :=
      hread.fine.mono (by omega) (Nat.le_refl 0)
    by_cases hend : tag = 0x7a
    · rw [if_pos hend, if_pos hend]
      exact .ok (by dsimp only; omega) hlt
    rw [if_neg hend, if_neg hend]
    by_cases hkey : tag = 0x53 ∨ tag = 0x73
    · rw [if_pos hkey, if_pos hkey]
      refine (Fine.zero (k := 1 + 0) (fine_readUtf8String.safeguard.bind fun key => ?_)) data s hj hs hN
      refine .ite ?_ (.ite ?_ (.ite ?_ ?_))
      · exact fine_readDetailMessage.zero.bind (l := 0) fun _ => hrest
      · exact hobject.bind (l := 0) fun cause => .ite fine_error hrest
      · exact fine_parse8bit.zero.bind (l := 0) fun tag => .ite hrest fine_error
      · exact hobject.bind (l := 0) fun _ => hrest
    · rw [if_neg hkey, if_neg hkey]
      exact .stop (.inl rfl)

/-- A map without a type is read inside the bounds. -/
theorem fine_readPlainMap (hread : FineObject N read read') (hle : turns ≤ N) :
    Fine turns j 0 (readPlainMap .source read turns) (readPlainMap .tested read' turns) :=
  (fine_addRef .other).bind (l := 0) fun _ => (fine_readEntries hread hle).next

/-- **An exception** is read inside the bounds. -/
theorem fine_exceptionDeserialize (hread : FineObject N read read') (hle : turns ≤ N) :
    Fine turns j 0 (exceptionDeserialize .source d read turns)
      (exceptionDeserialize .tested d read' turns) :=
  (fine_addRef .exception).bind (l := 0) fun _ => (fine_readFields hread hle).next

/-- **A map** takes its tag. -/
theorem fine_readMap (hread : FineObject N read read') (hle : turns ≤ N) (classname : List UInt8) :
    Fine (turns + 1) j 1 (readMap .source d read turns classname)
      (readMap .tested d read' turns classname) := by
  refine fine_parse8bit.bind (l := 0) fun tag => ?_
  refine .ite (fine_readPlainMap hread hle) (.ite ?_ (.ite (fine_pure _) fine_error))
  refine Fine.zero (k := 1 + 0) (fine_readUtf8String.bind fun type => ?_)
  cases type with
  | none => exact fun _ _ _ _ _ => .stop (.inr (.inl rfl))
  | some type =>
    have hshort : turns + 1 - 1 - 1 ≤ turns := by omega
    exact .ite ((fine_exceptionDeserialize hread hle).mono hshort (Nat.le_refl 0))
      ((fine_readPlainMap hread hle).mono hshort (Nat.le_refl 0))

/-- A reader of objects looks at the tag. -/
theorem FineObject.peek {f f' : UInt8 → Cursor Kind}
    (h : ∀ tag, tag ≠ 78 → ∀ j, Fine N j 1 (f tag) (f' tag)) (hf : f 78 = pure .null)
    (hf' : f' 78 = pure .null) : FineObject N (Bounds.peek >>= f) (Bounds.peek >>= f') := by
  refine ⟨fun {data s} hs hN hother => ?_, fun {data s} hN hnull => ?_⟩
  · rw [bind_apply, bind_apply]
    cases hget : data[s.curr]? with
    | none =>
      have hend : data.length ≤ s.curr := getElem?_eq_none_iff.mp hget
      have hpeek : Bounds.peek data s = .error .error := by
        rw [Bounds.peek, bind_apply, guardEnd, if_pos (by omega)]
        rfl
      rw [hpeek]
      exact .stop (.inl rfl)
    | some tag =>
      rw [peek_eq hget]
      have htag : tag ≠ 78 := fun heq => hother (heq ▸ hget)
      exact h tag htag s.curr data s (Nat.le_refl _) hs hN
  · rw [bind_apply, bind_apply, peek_eq hnull]
    show f 78 data s = _ ∧ f' 78 data s = _
    rw [hf, hf']
    exact ⟨rfl, rfl⟩

/-- **The readers of objects agree**, with a step for every byte. -/
theorem fine_readObject : ∀ fuel, FineObject fuel (readObject .source d fuel) (readObject .tested d fuel)
  | 0 => ⟨fun _ hN => absurd hN (Nat.not_lt_zero _), fun hN => absurd hN (Nat.not_lt_zero _)⟩
  | fuel + 1 => by
    rw [readObject, readObject]
    refine FineObject.peek (fun tag htag j => ?_) rfl rfl
    refine .ite fine_readUtf8String.next (.ite fine_readBytes.next (.ite fine_readInt64.next
      (.ite fine_readDouble.next (.ite fine_readBool.next (.ite ?_ (.ite fine_readInt32.next
      (.ite fine_readUtcDate.next ?_)))))))
    · exact fine_readMap (fine_readObject fuel) (Nat.le_refl _) []
    · rw [if_neg htag]
      exact .ite fine_readRef fine_error

/-- **The entry points agree**, with a step for every byte. -/
theorem fine_run (fuel : ℕ) : ∀ e : Entry, Fine fuel j 0 (e.run .source d fuel) (e.run .tested d fuel)
  | .object => (fine_readObject fuel).fine.discard
  | .utf8String => fine_readUtf8String.zero.discard
  | .bytes => fine_readBytes.zero.discard
  | .int32 => fine_readInt32.zero
  | .int64 => fine_readInt64.zero
  | .double => fine_readDouble.zero
  | .map classname =>
    ((fine_readMap (fine_readObject fuel) (Nat.le_refl _) classname).mono (Nat.le_succ _)
      (Nat.zero_le 1)).discard

end

/-! ### More steps -/

/-- What `c` comes to before its steps are used up, `c'` comes to as well. -/
def Le (c c' : Cursor α) : Prop := ∀ data s, c data s ≠ .error .again → c' data s = c data s

section

variable {m : Mode} {c c' : Cursor α} {f f' : α → Cursor β}

theorem Le.refl (c : Cursor α) : Le c c := fun _ _ _ => rfl

theorem le_again : Le (stop .again) c := fun _ _ h => absurd rfl h

/-- A reader that stops no later, followed by one that stops no later. -/
theorem Le.bind (h : Le c c') (hf : ∀ a, Le (f a) (f' a)) : Le (c >>= f) (c' >>= f') := by
  intro data s hne
  rw [bind_apply] at hne ⊢
  rw [bind_apply]
  cases hc : c data s with
  | error e =>
    rw [hc] at hne
    have hce : c data s ≠ .error .again := by
      rw [hc]
      rintro ⟨⟩
      exact hne rfl
    rw [h data s hce, hc]
    rfl
  | ok p =>
    have hcp : c data s ≠ .error .again := by
      rw [hc]
      exact nofun
    rw [h data s hcp, hc]
    rw [hc] at hne
    exact hf p.1 data p.2 hne

theorem Le.map (h : Le c c') (g : α → β) : Le (g <$> c) (g <$> c') := by
  rw [map_eq_pure_bind, map_eq_pure_bind]
  exact h.bind fun _ => .refl _

theorem Le.ite {p : Prop} [Decidable p] {q q' : Cursor α} (h : Le c c') (hq : Le q q') :
    Le (if p then c else q) (if p then c' else q') := by
  split
  · exact h
  · exact hq

theorem Le.trans {c'' : Cursor α} (h : Le c c') (h' : Le c' c'') : Le c c'' := by
  intro data s hne
  have heq := h data s hne
  rw [h' data s (by rw [heq]; exact hne), heq]

variable {read read' : Cursor Kind}

/-- More turns read the entries of a map as well. -/
theorem readEntries_le (h : Le read read') : ∀ turns : ℕ,
    Le (readEntries m read turns) (readEntries m read' (turns + 1))
  | 0 => le_again
  | turns + 1 => by
    rw [readEntries, readEntries]
    refine (Le.refl _).bind fun tag => .ite (.refl _) ?_
    exact (Le.refl _).bind fun _ => h.bind fun _ => (Le.refl _).bind fun _ => h.bind fun _ =>
      readEntries_le h turns

/-- More turns of an object's fields do no more than go on. -/
theorem readFields_le (h : Le read read') : ∀ turns : ℕ,
    Le (readFields m d read turns) (readFields m d read' (turns + 1))
  | 0 => le_again
  | turns + 1 => by
    have hrest := readFields_le h turns
    rw [readFields, readFields]
    refine (Le.refl _).bind fun tag => .ite (.refl _) (.ite ?_ (.refl _))
    refine (Le.refl _).bind fun key => .ite ?_ (.ite ?_ (.ite ?_ ?_))
    · exact (Le.refl _).bind fun _ => hrest
    · exact h.bind fun _ => .ite (.refl _) hrest
    · exact (Le.refl _).bind fun _ => .ite hrest (.refl _)
    · exact h.bind fun _ => hrest

/-- Likewise of the entries of a map. -/
theorem readMap_le (h : Le read read') (turns : ℕ) (classname : List UInt8) :
    Le (readMap m d read turns classname) (readMap m d read' (turns + 1) classname) := by
  have hplain : Le (readPlainMap m read turns) (readPlainMap m read' (turns + 1)) :=
    (Le.refl _).bind fun _ => (readEntries_le h turns).bind fun _ => .refl _
  refine (Le.refl _).bind fun tag => .ite hplain (.ite ?_ (.refl _))
  refine (Le.refl _).bind fun type => ?_
  cases type with
  | none => exact .refl _
  | some type =>
    exact .ite ((Le.refl _).bind fun _ => (readFields_le h turns).bind fun _ => .refl _) hplain

/-- **More fuel** does not change what is read. -/
theorem readObject_le : ∀ fuel : ℕ, Le (readObject m d fuel) (readObject m d (fuel + 1))
  | 0 => le_again
  | fuel + 1 => by
    rw [readObject, readObject]
    refine (Le.refl _).bind fun tag => ?_
    refine .ite (.refl _) (.ite (.refl _) (.ite (.refl _) (.ite (.refl _) (.ite (.refl _)
      (.ite ?_ (.refl _))))))
    exact readMap_le (readObject_le fuel) fuel []

/-- Likewise for every entry of the decoder. -/
theorem run_le (fuel : ℕ) : ∀ e : Entry, Le (e.run m d fuel) (e.run m d (fuel + 1))
  | .object => (readObject_le fuel).map _
  | .utf8String => .refl _
  | .bytes => .refl _
  | .int32 => .refl _
  | .int64 => .refl _
  | .double => .refl _
  | .map classname => (readMap_le (readObject_le fuel) fuel classname).map _

/-- **More steps** change nothing. -/
theorem run_mono (e : Entry) {fuel fuel' : ℕ} (h : fuel ≤ fuel') :
    Le (e.run m d fuel) (e.run m d fuel') := by
  induction h with
  | refl => exact .refl _
  | step _ ih => exact ih.trans (run_le _ e)

end

/-! ### When the reader is safe -/

/-- The reader gives a value or throws an exception. -/
def Good (r : Except Stop (Unit × Place)) : Prop := (∃ p, r = .ok p) ∨ r = .error .error

/-- **The reader of the source is safe**: it ends, with a value or an exception, before it has read a byte
behind the end. -/
def Entry.Safe (d : Doubles) (e : Entry) (data : List UInt8) (s : Place) : Prop :=
  ∃ fuel, Good (e.run .source d fuel data s)

/-- With a test before every byte: the end of the data cuts a character of a string, a key or a value of a
map is null, the type of a map is, or the key or the detail message of an exception cannot be read. -/
def Entry.Breaks (d : Doubles) (e : Entry) (data : List UInt8) (s : Place) : Prop :=
  e.run .tested d (data.length + 1) data s ∈
    [.error .cut, .error .circle, .error .null, .error .freed]

theorem Good.ne_again {r : Except Stop (Unit × Place)} (h : Good r) : r ≠ .error .again := by
  rcases h with ⟨p, rfl⟩ | rfl <;> exact nofun

/-- What is done with floating point numbers does not matter here. -/
def noDoubles : Doubles := ⟨fun _ => [], fun _ => 0, fun _ => 0, fun _ => 0⟩

/-- An exception whose first key is cut: `Safeguard` frees the key, which is on the stack. -/
example : exceptionDeserialize .source noDoubles (readObject .source noDoubles 1) 1 [0x53] ⟨0, []⟩ =
    .error .freed := rfl

end Hengine.Hessian.Bounds
