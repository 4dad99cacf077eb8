import Mathlib.Algebra.Order.Ring.Int
import Hengine.Http2.TableRing

/-!
# The Dynamic Table Is the Table of RFC 7541

The strings of the entries stand one behind the other in the circular storage, oldest
first, and end at `pos`; with 32 bytes more for each entry they and the free bytes make the
limit. So the strings of a new entry, for which room has been made, overwrite none that is
still in use.

The limit itself is not always the one the client set: the memory of the table is allocated
by the first insertion, which sets the limit to 4096 and so forgets a size update that
came before it.
-/

namespace Hengine

open List

/-! ### Strings in the storage -/

/-- The bytes of a header that are stored. -/
def Header.bytes (x : Header) : ℕ := x.name.length + x.value.length

/-- The entry `e` says where the strings of `x` are: from position `p` of the storage on. -/
structure Entry.Holds (e : Entry) (storage : List UInt8) (p : ℕ) (x : Header) : Prop where
  nameLen : e.nameLen = x.name.length
  valueLen : e.valueLen = x.value.length
  nameData_le : e.nameData ≤ tableSize
  nameData : e.nameData % tableSize = p % tableSize
  valueData_le : e.valueData ≤ tableSize
  valueData : e.valueData % tableSize = (p + x.name.length) % tableSize
  name : circ storage tableSize p x.name.length = x.name.map some
  value : circ storage tableSize (p + x.name.length) x.value.length = x.value.map some

/-- The strings of the headers stand one behind the other from position `p` on. -/
def Placed (storage : List UInt8) : ℕ → List Entry → List Header → Prop
  | _, [], [] => True
  | p, e :: es, x :: xs => e.Holds storage p x ∧ Placed storage (p + x.bytes) es xs
  | _, [], _ :: _ => False
  | _, _ :: _, [] => False

/-- How many bytes are stored. -/
def bytesStored (xs : List Header) : ℕ := (xs.map Header.bytes).sum

/-- The size of the entries, as it is counted. -/
def tableTotal (xs : List Header) : ℕ := (xs.map Header.size).sum

@[simp] theorem bytesStored_nil : bytesStored [] = 0 := rfl

@[simp] theorem bytesStored_cons (x : Header) (xs : List Header) :
    bytesStored (x :: xs) = x.bytes + bytesStored xs := by simp [bytesStored]

@[simp] theorem bytesStored_concat (xs : List Header) (x : Header) :
    bytesStored (xs ++ [x]) = bytesStored xs + x.bytes := by simp [bytesStored]

@[simp] theorem tableTotal_nil : tableTotal [] = 0 := rfl

@[simp] theorem tableTotal_cons (x : Header) (xs : List Header) :
    tableTotal (x :: xs) = x.size + tableTotal xs := by simp [tableTotal]

@[simp] theorem tableTotal_concat (xs : List Header) (x : Header) :
    tableTotal (xs ++ [x]) = tableTotal xs + x.size := by simp [tableTotal]

@[simp] theorem tableTotal_reverse (xs : List Header) : tableTotal xs.reverse = tableTotal xs := by
  simp [tableTotal, sum_reverse]

variable {storage : List UInt8} {cs : List TableCall} {x : Header}

theorem Header.size_le_total {xs : List Header} (h : x ∈ xs) : x.size ≤ tableTotal xs := by
  induction xs with
  | nil => simp at h
  | cons y xs ih =>
    rw [tableTotal_cons]
    rcases mem_cons.mp h with rfl | hmem
    · omega
    · have := ih hmem
      omega

theorem Header.size_eq (x : Header) : x.size = x.bytes + 32 := rfl

theorem bytesStored_le (xs : List Header) :
    bytesStored xs + 32 * xs.length = tableTotal xs := by
  induction xs with
  | nil => rfl
  | cons x xs ih =>
    rw [bytesStored_cons, tableTotal_cons, length_cons, x.size_eq]
    omega

/-- One entry for each header. -/
theorem Placed.length_eq :
    ∀ {p : ℕ} {es : List Entry} {xs : List Header}, Placed storage p es xs →
      es.length = xs.length := by
  intro p es
  induction es generalizing p with
  | nil =>
    intro xs h
    cases xs with
    | nil => rfl
    | cons x xs => exact h.elim
  | cons e es ih =>
    intro xs h
    cases xs with
    | nil => exact h.elim
    | cons x xs => rw [length_cons, length_cons, ih h.2]

/-- The entry of a header. -/
theorem Placed.getElem? :
    ∀ {p : ℕ} {es : List Entry} {xs : List Header} {i : ℕ} {x : Header},
      Placed storage p es xs → xs[i]? = some x →
        ∃ e q, es[i]? = some e ∧ e.Holds storage q x := by
  intro p es
  induction es generalizing p with
  | nil =>
    intro xs i x h hx
    cases xs with
    | nil => simp at hx
    | cons y xs => exact h.elim
  | cons e es ih =>
    intro xs i x h hx
    cases xs with
    | nil => exact h.elim
    | cons y xs =>
      cases i with
      | zero =>
        rw [getElem?_cons_zero, Option.some.injEq] at hx
        subst hx
        exact ⟨e, p, rfl, h.1⟩
      | succ i => exact ih h.2 (by simpa using hx)

/-- An entry depends on its own bytes only. -/
theorem Entry.Holds.frame {e : Entry} {storage storage' : List UInt8} {p : ℕ}
    (h : e.Holds storage p x)
    (hsame : ∀ i < x.bytes, storage'[(p + i) % tableSize]? = storage[(p + i) % tableSize]?) :
    e.Holds storage' p x := by
  refine ⟨h.nameLen, h.valueLen, h.nameData_le, h.nameData, h.valueData_le, h.valueData, ?_, ?_⟩
  · rw [circ_congr fun i hi => hsame i (by rw [Header.bytes]; omega)]
    exact h.name
  · rw [circ_congr fun i hi => ?_]
    · exact h.value
    · rw [Nat.add_assoc]
      exact hsame _ (by rw [Header.bytes]; omega)

/-- Likewise for all of them. -/
theorem Placed.frame {storage storage' : List UInt8} :
    ∀ {p : ℕ} {es : List Entry} {xs : List Header}, Placed storage p es xs →
      (∀ i < bytesStored xs, storage'[(p + i) % tableSize]? = storage[(p + i) % tableSize]?) →
        Placed storage' p es xs := by
  intro p es
  induction es generalizing p with
  | nil =>
    intro xs h _
    cases xs with
    | nil => trivial
    | cons x xs => exact h.elim
  | cons e es ih =>
    intro xs h hsame
    cases xs with
    | nil => exact h.elim
    | cons x xs =>
      rw [bytesStored_cons] at hsame
      refine ⟨h.1.frame fun i hi => hsame i (by omega), ih h.2 fun i hi => ?_⟩
      rw [Nat.add_assoc]
      exact hsame _ (by omega)

/-- A header behind the others. -/
theorem Placed.concat {e : Entry} :
    ∀ {p : ℕ} {es : List Entry} {xs : List Header}, Placed storage p es xs →
      e.Holds storage (p + bytesStored xs) x → Placed storage p (es ++ [e]) (xs ++ [x]) := by
  intro p es
  induction es generalizing p with
  | nil =>
    intro xs h hx
    cases xs with
    | nil => exact ⟨by simpa using hx, trivial⟩
    | cons y xs => exact h.elim
  | cons e' es ih =>
    intro xs h hx
    cases xs with
    | nil => exact h.elim
    | cons y xs =>
      refine ⟨h.1, ih h.2 ?_⟩
      rwa [bytesStored_cons, ← Nat.add_assoc] at hx

/-- Positions count around the storage. -/
theorem Entry.Holds.shift {e : Entry} {p q : ℕ} (h : e.Holds storage p x)
    (hpq : p % tableSize = q % tableSize) : e.Holds storage q x := by
  have hval : (p + x.name.length) % tableSize = (q + x.name.length) % tableSize := by
    rw [Nat.add_mod, hpq, ← Nat.add_mod]
  refine ⟨h.nameLen, h.valueLen, h.nameData_le, h.nameData.trans hpq, h.valueData_le,
    h.valueData.trans hval, ?_, ?_⟩
  · rw [circ_congr_mod _ hpq.symm]
    exact h.name
  · rw [circ_congr_mod _ hval.symm]
    exact h.value

namespace Hpack

variable {h : Hpack}

/-- **Reading a string**, in one piece or in two. -/
theorem copyOut_eq (hN : h.storage.length = tableSize) {data len p : ℕ} {s : List UInt8}
    (hdata : data ≤ tableSize) (hlen : len = s.length) (hs : s.length ≤ tableSize)
    (hp : data % tableSize = p % tableSize)
    (hcirc : circ h.storage tableSize p s.length = s.map some) : h.copyOut data len = s := by
  subst hlen
  rw [circ_congr_mod _ hp.symm] at hcirc
  have hinj : Function.Injective (some : UInt8 → Option UInt8) := Option.some_injective _
  rw [copyOut]
  split
  · rename_i hwrap
    rw [circ_two_piece hN hdata hs (by omega)] at hcirc
    exact map_injective_iff.mpr hinj hcirc
  · rename_i hone
    rw [circ_eq_part hN (by omega)] at hcirc
    exact map_injective_iff.mpr hinj hcirc

/-- **An entry is read back** from the storage. -/
theorem copyOut_entry (hN : h.storage.length = tableSize) {e : Entry} {p : ℕ} {x : Header}
    (he : e.Holds h.storage p x) (hx : x.bytes ≤ tableSize) :
    h.copyOut e.nameData e.nameLen = x.name ∧ h.copyOut e.valueData e.valueLen = x.value := by
  rw [Header.bytes] at hx
  exact ⟨copyOut_eq hN he.nameData_le he.nameLen (by omega) he.nameData he.name,
    copyOut_eq hN he.valueData_le he.valueLen (by omega) he.valueData he.value⟩

/-- What writing `n` bytes behind `pos` does to the storage: it is as long as before, `pos`
moves by `n`, and a window that ends at the old `pos` keeps its cells. -/
structure Wrote (h h' : Hpack) (n : ℕ) : Prop where
  length : h'.storage.length = tableSize
  pos_le : h'.pos ≤ tableSize
  pos : h'.pos % tableSize = (h.pos + n) % tableSize
  window : ∀ q m, (q + m) % tableSize = h.pos % tableSize → m + n ≤ tableSize →
    circ h'.storage tableSize q m = circ h.storage tableSize q m

/-- **Writing a string.** `avail` is what is left up to the end of the storage, or less but
enough. -/
theorem copyIn_spec (hN : h.storage.length = tableSize) (hpos : h.pos ≤ tableSize) (avail : ℕ)
    {s : List UInt8} (hs : s.length ≤ tableSize)
    (havail : avail = tableSize - h.pos ∨ s.length ≤ avail ∧ avail ≤ tableSize - h.pos) :
    Wrote h (h.copyIn avail s) s.length ∧
      circ (h.copyIn avail s).storage tableSize h.pos s.length = s.map some := by
  by_cases hone : avail ≥ s.length
  · have hend : h.pos + s.length ≤ tableSize := by omega
    rw [copyIn, if_pos hone]
    refine ⟨⟨?_, hend, rfl, fun q m hq hm => circ_putAt_window s hN hq hend hm⟩,
      circ_putAt s hN hend⟩
    rw [putAt_length (by omega), hN]
  · obtain rfl : avail = tableSize - h.pos := by omega
    have hround : putAt (putAt h.storage h.pos (s.take (tableSize - h.pos))) 0
        (s.drop (tableSize - h.pos)) = putRound h.storage h.pos s := by
      rw [putRound, hN]
    rw [copyIn, if_neg hone, hround]
    refine ⟨⟨?_, ?_, ?_, fun q m hq hm => circ_putRound_window hN hpos hq (by omega) hm⟩,
      circ_putRound hN hpos (by omega) hs⟩
    · rw [putRound_length (by omega) (by omega), hN]
    · exact Nat.le_trans (Nat.sub_le _ _) hs
    · have hpast : h.pos + s.length = s.length - (tableSize - h.pos) + tableSize := by omega
      rw [hpast, Nat.add_mod_right]

/-- **Writing a header.** -/
theorem storeHeader_spec (hN : h.storage.length = tableSize) (hpos : h.pos ≤ tableSize)
    {x : Header} (hx : x.bytes ≤ tableSize) :
    Wrote h (h.storeHeader x).2 x.bytes ∧
      (h.storeHeader x).1.Holds (h.storeHeader x).2.storage h.pos x := by
  rw [Header.bytes] at hx
  obtain ⟨hw₁, hname⟩ := copyIn_spec hN hpos (tableSize - h.pos) (s := x.name) (by omega)
    (Or.inl rfl)
  set h₁ := h.copyIn (tableSize - h.pos) x.name with hh₁
  set avail := (if tableSize - h.pos ≥ x.name.length then tableSize - h.pos else tableSize)
    - x.name.length with havail
  -- After a name that passed the end, `avail` is less than what is left, but enough.
  have henough : avail = tableSize - h₁.pos ∨
      x.value.length ≤ avail ∧ avail ≤ tableSize - h₁.pos := by
    rw [havail, hh₁, copyIn]
    split
    · left
      dsimp only
      omega
    · right
      dsimp only
      omega
  obtain ⟨hw₂, hvalue⟩ := copyIn_spec hw₁.length hw₁.pos_le avail (s := x.value) (by omega) henough
  have hpos₂ : (h.pos + x.name.length) % tableSize = h₁.pos % tableSize := hw₁.pos.symm
  have hstore : h.storeHeader x = (⟨x.name.length, h.pos, x.value.length, h₁.pos⟩,
      h₁.copyIn avail x.value) := rfl
  rw [hstore]
  constructor
  · refine ⟨hw₂.length, hw₂.pos_le, ?_, ?_⟩
    · rw [hw₂.pos, Nat.add_mod, ← hpos₂, ← Nat.add_mod, Header.bytes, Nat.add_assoc]
    · intro q m hq hm
      rw [Header.bytes] at hm
      have hq₂ : (q + (m + x.name.length)) % tableSize = h₁.pos % tableSize := by
        rw [← Nat.add_assoc, Nat.add_mod, hq, ← Nat.add_mod, hpos₂]
      have hlong := hw₂.window q (m + x.name.length) hq₂ (by omega)
      rw [circ_add, circ_add] at hlong
      rw [(append_inj hlong (by simp)).1, hw₁.window q m hq (by omega)]
  · refine ⟨rfl, rfl, hpos, rfl, hw₁.pos_le, hpos₂.symm, ?_, ?_⟩
    · rw [hw₂.window h.pos x.name.length hpos₂ (by omega)]
      exact hname
    · rw [circ_congr_mod _ hpos₂]
      exact hvalue

end Hpack

/-! ### Room -/

/-- Where all headers fit, all are kept. -/
theorem keepNewest_of_le : ∀ {xs : List Header} {n : ℕ}, tableTotal xs ≤ n →
    keepNewest n xs = xs := by
  intro xs
  induction xs with
  | nil =>
    intro n _
    rfl
  | cons x xs ih =>
    intro n h
    rw [tableTotal_cons] at h
    rw [keepNewest, if_pos (by omega), ih (by omega)]

/-- When they do not all fit, the oldest one is not kept. -/
theorem keepNewest_concat : ∀ {xs : List Header} {x : Header} {n : ℕ},
    n < tableTotal (xs ++ [x]) → keepNewest n (xs ++ [x]) = keepNewest n xs := by
  intro xs
  induction xs with
  | nil =>
    intro x n h
    rw [nil_append, tableTotal_cons, tableTotal_nil] at h
    have hlt : ¬ x.size ≤ n := by omega
    simp [keepNewest, hlt]
  | cons y xs ih =>
    intro x n h
    rw [cons_append, tableTotal_cons] at h
    rw [cons_append, keepNewest, keepNewest]
    split
    · rw [ih (by omega)]
    · rfl

/-- The newest headers are kept. -/
theorem keepNewest_newest (n : ℕ) : ∀ xs : List Header, keepNewest n xs <+: xs := by
  intro xs
  induction xs generalizing n with
  | nil => exact prefix_rfl
  | cons x xs ih =>
    rw [keepNewest]
    split
    · exact (prefix_cons_inj x).mpr (ih _)
    · exact nil_prefix

namespace Hpack

variable {h : Hpack} {xs : List Header}

/-- The table has memory, and holds the headers `xs`, newest first: they stand in the ring and
in the storage in the opposite order, and with the free bytes they make the limit. -/
structure Holds (h : Hpack) (xs : List Header) : Prop where
  entries : ∃ es a d r m, Entries h es a d r m ∧ ∃ q, Placed h.storage q es xs.reverse ∧
    (q + bytesStored xs.reverse) % tableSize = h.pos % tableSize
  storage : h.storage.length = tableSize
  pos_le : h.pos ≤ tableSize
  account : h.free + tableTotal xs = h.size
  size_le : h.size ≤ tableSize

/-- **One eviction** gives up the oldest header. -/
theorem Holds.evictOne {x : Header} (H : h.Holds (xs ++ [x])) : h.evictOne.Holds xs := by
  obtain ⟨es, a, d, r, m, hring, q, hplaced, hq⟩ := H.entries
  rw [reverse_append, reverse_singleton, singleton_append] at hplaced hq
  cases es with
  | nil => exact hplaced.elim
  | cons e es =>
    obtain ⟨hring', hfree⟩ := hring.evictOne
    refine ⟨⟨es, a, d + 1, r, m, hring', q + x.bytes, hplaced.2, ?_⟩, H.storage, H.pos_le, ?_,
      H.size_le⟩
    · rw [bytesStored_cons, ← Nat.add_assoc] at hq
      exact hq
    · have hacc := H.account
      have hname := hplaced.1.nameLen
      have hvalue := hplaced.1.valueLen
      rw [tableTotal_concat, x.size_eq, Header.bytes] at hacc
      have hsize : h.evictOne.size = h.size := rfl
      omega

theorem evictWhile_size (needed : ℤ) (n : ℕ) : ∀ h : Hpack, (evictWhile needed n h).size = h.size := by
  induction n with
  | zero =>
    intro h
    rfl
  | succ n ih =>
    intro h
    rw [evictWhile]
    split
    · rw [ih]
      rfl
    · rfl

/-- **Making room**: the newest headers that leave `needed` bytes free are kept. -/
theorem Holds.evictWhile (needed : ℤ) (hneeded : needed ≤ h.size) :
    ∀ {n : ℕ} {h' : Hpack} {xs : List Header}, h'.Holds xs → h'.size = h.size →
      needed - h'.free ≤ n →
        (evictWhile needed n h').Holds (keepNewest (h.size - needed).toNat xs) ∧
          needed ≤ (Hpack.evictWhile needed n h').free := by
  intro n
  induction n with
  | zero =>
    intro h' xs H hsize hn
    have hacc := H.account
    rw [Hpack.evictWhile, keepNewest_of_le (by omega)]
    exact ⟨H, by omega⟩
  | succ n ih =>
    intro h' xs H hsize hn
    have hacc := H.account
    rw [Hpack.evictWhile]
    split
    · rename_i hlack
      -- There is an entry to give up, or all of the limit would be free.
      rcases eq_nil_or_concat' xs with rfl | ⟨ys, y, rfl⟩
      · rw [tableTotal_nil] at hacc
        omega
      · have H' := H.evictOne
        have hacc' := H'.account
        have hsize' : h'.evictOne.size = h'.size := rfl
        rw [tableTotal_concat] at hacc
        have hmore : 32 ≤ y.size := by rw [y.size_eq]; omega
        rw [keepNewest_concat (by rw [tableTotal_concat]; omega)]
        exact ih H' (hsize'.trans hsize) (by omega)
    · rw [keepNewest_of_le (by omega)]
      exact ⟨H, by omega⟩

/-- **The account**: room for a header that can fit, and nothing kept for one that cannot. -/
theorem Holds.tableAccount (H : h.Holds xs) (x : Header) :
    (h.tableAccount x.bytes).2 = decide (x.size ≤ h.size) ∧
    (h.tableAccount x.bytes).1.size = h.size ∧
    if x.size ≤ h.size then
      ∃ f, { (h.tableAccount x.bytes).1 with free := f }.Holds
          (keepNewest (h.size - x.size) xs) ∧
        (h.tableAccount x.bytes).1.free + x.size = f
    else (h.tableAccount x.bytes).1.Holds [] := by
  have hacc := H.account
  have hx := x.size_eq
  have hmeasure : x.bytes + 32 = x.size := hx.symm
  rw [Hpack.tableAccount]
  simp only [hmeasure]
  by_cases hfits : x.size ≤ h.free
  · rw [if_pos hfits, if_pos (by omega), keepNewest_of_le (by omega)]
    refine ⟨by simp; omega, rfl, h.free, H, by dsimp only; omega⟩
  · rw [if_neg hfits]
    by_cases hlarge : x.size > h.size
    · rw [if_pos hlarge, if_neg (by omega)]
      obtain ⟨es, a, d, r, m, hring, q, hplaced, hq⟩ := H.entries
      refine ⟨by simp; omega, rfl, ⟨[], a, a, r, m, hring.evictAll, h.pos, trivial, ?_⟩, H.storage,
        H.pos_le, rfl, H.size_le⟩
      rfl
    · rw [if_neg hlarge, if_pos (by omega)]
      -- The first entry is given up before the condition is looked at, which holds then.
      have hfirst : Hpack.evictWhile x.size (x.size + 1) h
          = Hpack.evictWhile x.size x.size h.evictOne := by
        rw [Hpack.evictWhile, if_pos (by omega)]
      obtain ⟨H', hroom⟩ := Holds.evictWhile (h := h) x.size (by omega)
        (n := x.size + 1) H rfl (by omega)
      rw [hfirst] at H' hroom
      have hsize := evictWhile_size x.size x.size h.evictOne
      have hkeep : (h.size - x.size : ℤ).toNat = h.size - x.size := by omega
      rw [hkeep] at H'
      refine ⟨by simp; omega, hsize, (Hpack.evictWhile x.size x.size h.evictOne).free, H', ?_⟩
      exact Nat.sub_add_cancel (by omega)

theorem takeEntry_storage (h : Hpack) :
    h.takeEntry.2.storage = h.storage ∧ h.takeEntry.2.pos = h.pos ∧
      h.takeEntry.2.free = h.free ∧ h.takeEntry.2.size = h.size := by
  rw [takeEntry]
  split
  · exact ⟨rfl, rfl, rfl, rfl⟩
  · exact ⟨rfl, rfl, rfl, rfl⟩

theorem copyIn_eq (h : Hpack) (avail : ℕ) (s : List UInt8) :
    ∃ storage pos, h.copyIn avail s = { h with storage := storage, pos := pos } := by
  rw [copyIn]
  split
  · exact ⟨_, _, rfl⟩
  · exact ⟨_, _, rfl⟩

/-- Storing a header changes the storage and the position only. -/
theorem storeHeader_eq (h : Hpack) (x : Header) :
    ∃ storage pos, (h.storeHeader x).2 = { h with storage := storage, pos := pos } := by
  obtain ⟨s₁, p₁, h₁⟩ := h.copyIn_eq (tableSize - h.pos) x.name
  obtain ⟨s₂, p₂, h₂⟩ := (h.copyIn (tableSize - h.pos) x.name).copyIn_eq
    ((if tableSize - h.pos ≥ x.name.length then tableSize - h.pos else tableSize)
      - x.name.length) x.value
  refine ⟨s₂, p₂, ?_⟩
  rw [storeHeader]
  dsimp only
  rw [h₂, h₁]

theorem grow_storage (h : Hpack) :
    h.grow.storage = h.storage ∧ h.grow.pos = h.pos ∧ h.grow.free = h.free ∧
      h.grow.size = h.size ∧ h.grow.headers = h.headers := by
  rw [grow]
  split
  · exact ⟨rfl, rfl, rfl, rfl, rfl⟩
  · exact ⟨rfl, rfl, rfl, rfl, rfl⟩

/-- **A header enters the table**, for which room has been made. -/
theorem Holds.enter {x : Header} {f : ℕ} (H : { h with free := f }.Holds xs)
    (hf : h.free + x.size = f) : (h.enter x).Holds (x :: xs) ∧ (h.enter x).size = h.size := by
  obtain ⟨es, a, d, r, m, hring, q, hplaced, hq⟩ := H.entries
  have hacc : f + tableTotal xs = h.size := H.account
  have hle : h.size ≤ tableSize := H.size_le
  have hbytes := bytesStored_le xs.reverse
  rw [tableTotal_reverse] at hbytes
  have hx := x.size_eq
  have hlen := hplaced.length_eq
  obtain ⟨r', E₁, S₁⟩ := (hring.congr h rfl rfl rfl rfl rfl rfl).takeEntry
  set h₁ := h.takeEntry.2 with hh₁
  obtain ⟨hst, hpos, hfree, hsize⟩ := h.takeEntry_storage
  rw [← hh₁] at hst hpos hfree hsize
  obtain ⟨hw, hholds⟩ := storeHeader_spec (h := h₁) (x := x) (hst ▸ H.storage) (hpos ▸ H.pos_le)
    (by omega)
  obtain ⟨st, ps, hstore⟩ := h₁.storeHeader_eq x
  set entry := (h₁.storeHeader x).1
  set h₂ := (h₁.storeHeader x).2 with hh₂
  have E₂ : Entries h₂ es a d r' m :=
    E₁.congr _ (by rw [hstore]) (by rw [hstore]) (by rw [hstore]) (by rw [hstore]) (by rw [hstore])
      (by rw [hstore])
  have S₂ : Entries.Spare h₂ h.takeEntry.1 a d r' m := by
    rw [hstore]
    exact ⟨S₁.valid, S₁.apart, S₁.room⟩
  obtain ⟨E₃, S₃⟩ := E₂.fill S₂ entry
  have hfew : es.length < 128 := by
    rw [length_reverse] at hlen hbytes
    have htab : tableSize = 4096 := rfl
    omega
  obtain ⟨a', d', r'', m', E₄, S₄, hroom⟩ := E₃.grow S₃ hfew
  obtain ⟨hgst, hgpos, hgfree, hgsize, hghead⟩ :=
    grow_storage { h₂ with headers := h₂.headers.set h.takeEntry.1 entry }
  have E₅ := E₄.link S₄ hroom (by rw [hghead]; exact Entries.fill_get S₂ entry)
  have henter : h.enter x
      = { h₂ with headers := h₂.headers.set h.takeEntry.1 entry }.grow.link h.takeEntry.1 := rfl
  rw [henter]
  have hend : (q + bytesStored xs.reverse) % tableSize = h₁.pos % tableSize := by
    rw [hpos]
    exact hq
  -- The strings of the others stand before `pos`, and there was room behind it.
  have hwindow := hw.window q (bytesStored xs.reverse) hend (by omega)
  have hold : Placed h₂.storage q es xs.reverse := by
    refine Placed.frame hplaced fun i hi => ?_
    rw [circ_cells hwindow hi, hst]
  refine ⟨⟨⟨es ++ [entry], a' + 1, d', r'', m', E₅, q, ?_, ?_⟩, ?_, ?_, ?_, ?_⟩, ?_⟩
  · rw [reverse_cons]
    change Placed ({ h₂ with headers := h₂.headers.set h.takeEntry.1 entry }.grow).storage _ _ _
    rw [hgst]
    exact hold.concat (hholds.shift hend.symm)
  · rw [reverse_cons, bytesStored_concat]
    change _ = ({ h₂ with headers := h₂.headers.set h.takeEntry.1 entry }.grow).pos % _
    rw [hgpos, hw.pos, ← Nat.add_assoc, Nat.add_mod, hend, ← Nat.add_mod]
  · exact (congrArg List.length hgst).trans hw.length
  · exact hgpos.le.trans hw.pos_le
  · change ({ h₂ with headers := h₂.headers.set h.takeEntry.1 entry }.grow).free + _
      = ({ h₂ with headers := h₂.headers.set h.takeEntry.1 entry }.grow).size
    rw [hgfree, hgsize, tableTotal_cons]
    change h₂.free + _ = h₂.size
    rw [hstore]
    dsimp only
    omega
  · change ({ h₂ with headers := h₂.headers.set h.takeEntry.1 entry }.grow).size ≤ _
    rw [hgsize]
    change h₂.size ≤ _
    rw [hstore]
    dsimp only
    omega
  · change ({ h₂ with headers := h₂.headers.set h.takeEntry.1 entry }.grow).size = _
    rw [hgsize]
    change h₂.size = _
    rw [hstore]
    exact hsize

theorem Holds.entries_ne_nil (H : h.Holds xs) : h.entries ≠ [] := by
  obtain ⟨es, a, d, r, m, hring, -⟩ := H.entries
  intro hnil
  have hm := hring.places
  have hpos := hring.cap_pos
  rw [hnil] at hm
  exact hpos.ne hm

/-- **Adding a header** to a table that has memory. -/
theorem Holds.addHeader (H : h.Holds xs) (x : Header) :
    (h.addHeader x).Holds
        (if x.size ≤ h.size then x :: keepNewest (h.size - x.size) xs else []) ∧
      (h.addHeader x).size = h.size := by
  obtain ⟨hok, hsize, hacc⟩ := H.tableAccount x
  have halloc : h.allocate = h := by rw [allocate, if_neg H.entries_ne_nil]
  have hadd : h.addHeader x = if (h.tableAccount x.bytes).2 then (h.tableAccount x.bytes).1.enter x
      else (h.tableAccount x.bytes).1 := by
    rw [Hpack.addHeader, halloc]
    rfl
  rw [hadd, hok]
  by_cases hfits : x.size ≤ h.size
  · rw [if_pos hfits] at hacc
    obtain ⟨f, H', hf⟩ := hacc
    obtain ⟨henter, hsame⟩ := H'.enter hf
    rw [if_pos (decide_eq_true hfits), if_pos hfits]
    exact ⟨henter, hsame.trans hsize⟩
  · rw [if_neg hfits] at hacc
    rw [if_neg (by simpa using hfits), if_neg hfits]
    exact ⟨hacc, hsize⟩

/-- **A size update** of a table that has memory. -/
theorem Holds.setTableSize (H : h.Holds xs) {n : ℕ} (hn : n ≤ tableSize) :
    ∃ h', h.setTableSize n = some h' ∧ h'.Holds (keepNewest n xs) ∧ h'.size = n := by
  have hneeded : ((h.size : ℤ) - n) ≤ h.size := by omega
  have hkeep : ((h.size : ℤ) - ((h.size : ℤ) - n)).toNat = n := by omega
  obtain ⟨H', hroom⟩ := Holds.evictWhile _ hneeded (n := ((h.size : ℤ) - n).toNat) H rfl (by omega)
  rw [hkeep] at H'
  have hsize := evictWhile_size ((h.size : ℤ) - n) ((h.size : ℤ) - n).toNat h
  set h₁ := Hpack.evictWhile ((h.size : ℤ) - n) ((h.size : ℤ) - n).toNat h with hh₁
  have hacc := H'.account
  refine ⟨{ h₁ with size := n, free := (h₁.free - ((h.size : ℤ) - n)).toNat }, ?_,
    ⟨?_, H'.storage, H'.pos_le, ?_, hn⟩, rfl⟩
  · rw [Hpack.setTableSize, if_neg (by omega), hh₁]
  · obtain ⟨es, a, d, r, m, hring, q, hplaced⟩ := H'.entries
    exact ⟨es, a, d, r, m, hring.congr _ rfl rfl rfl rfl rfl rfl, q, hplaced⟩
  · dsimp only
    omega

/-! ### Before the first insertion -/

/-- The table has no memory yet. A size update has set `free` along with `size`. -/
structure Unused (h : Hpack) : Prop where
  entries : h.entries = []
  added : h.added = 0
  deleted : h.deleted = 0
  reused : h.reused = 0
  free : h.free = h.size
  size_le : h.size ≤ tableSize

/-- The first insertion makes an empty table. -/
theorem Unused.allocate (U : h.Unused) : h.allocate.Holds [] ∧ h.allocate.size = tableSize := by
  rw [Hpack.allocate, if_pos U.entries]
  refine ⟨⟨⟨[], 0, 0, 0, 64, ?_, 0, trivial, rfl⟩, length_replicate, Nat.zero_le _, rfl,
    Nat.le_refl _⟩, rfl⟩
  refine ⟨U.added, U.deleted, U.reused, rfl, Or.inl rfl, length_replicate, Nat.le_refl 0, rfl,
    by omega, ?_, ?_, ?_⟩
  · intro k _ hk
    omega
  · intro j k _ hj
    omega
  · intro i e hi
    simp at hi

/-- A size update before the first insertion. -/
theorem Unused.setTableSize (U : h.Unused) {n : ℕ} (hn : n ≤ tableSize) :
    ∃ h', h.setTableSize n = some h' ∧ h'.Unused ∧ h'.size = n := by
  have hfree := U.free
  -- Nothing is given up: all of the limit is free.
  have hstop : Hpack.evictWhile ((h.size : ℤ) - n) ((h.size : ℤ) - n).toNat h = h := by
    cases ((h.size : ℤ) - n).toNat with
    | zero => rfl
    | succ k => rw [Hpack.evictWhile, if_neg (by omega)]
  refine ⟨{ h with size := n, free := n }, ?_, ⟨U.entries, U.added, U.deleted, U.reused, rfl, hn⟩,
    rfl⟩
  rw [Hpack.setTableSize, if_neg (by omega)]
  simp only [hstop]
  congr 2
  omega

/-- The headers of a table, with or without memory. -/
def Live (h : Hpack) (xs : List Header) : Prop := h.Unused ∧ xs = [] ∨ h.Holds xs

theorem live_fresh : fresh.Live [] :=
  Or.inl ⟨⟨rfl, rfl, rfl, rfl, rfl, Nat.zero_le _⟩, rfl⟩

section

variable (L : h.Live xs)
include L

theorem Live.allocate : h.allocate.Holds xs := by
  rcases L with ⟨U, rfl⟩ | H
  · exact U.allocate.1
  · rwa [Hpack.allocate, if_neg H.entries_ne_nil]

/-- **Adding a header** to any table. -/
theorem Live.addHeader (x : Header) :
    (h.addHeader x).Holds (if x.size ≤ h.allocate.size
        then x :: keepNewest (h.allocate.size - x.size) xs else []) ∧
      (h.addHeader x).size = h.allocate.size := by
  have H := L.allocate
  have hagain : h.allocate.allocate = h.allocate := by
    rw [Hpack.allocate, if_neg H.entries_ne_nil]
  have hsame : h.addHeader x = h.allocate.addHeader x := by
    rw [Hpack.addHeader, Hpack.addHeader, hagain]
  rw [hsame]
  exact H.addHeader x

/-- **A size update** of any table. -/
theorem Live.setTableSize {n : ℕ} (hn : n ≤ tableSize) :
    ∃ h', h.setTableSize n = some h' ∧ h'.Live (keepNewest n xs) ∧ h'.size = n := by
  rcases L with ⟨U, rfl⟩ | H
  · obtain ⟨h', hset, U', hsize⟩ := U.setTableSize hn
    exact ⟨h', hset, Or.inl ⟨U', rfl⟩, hsize⟩
  · obtain ⟨h', hset, H', hsize⟩ := H.setTableSize hn
    exact ⟨h', hset, Or.inr H', hsize⟩

/-! ### Lookups -/

/-- The counters differ by the number of entries. -/
theorem Live.count : h.added - h.deleted = UInt64.ofNat xs.length := by
  rcases L with ⟨U, rfl⟩ | H
  · rw [U.added, U.deleted]
    rfl
  · obtain ⟨es, a, d, r, m, hring, q, hplaced, -⟩ := H.entries
    rw [hring.count_eq, hplaced.length_eq, length_reverse]

theorem Live.length_le : xs.length ≤ 128 := by
  rcases L with ⟨-, rfl⟩ | H
  · simp
  · have h₁ := bytesStored_le xs
    have h₂ := H.account
    have h₃ := H.size_le
    have htab : tableSize = 4096 := rfl
    omega

/-- **The strings of a header are read back.** -/
theorem Live.entry {i : ℕ} {x : Header} (hx : xs[i]? = some x) :
    ∃ e, h.entryAt (h.slot (h.added - UInt64.ofNat i - 1)) = e ∧
      h.copyOut e.nameData e.nameLen = x.name ∧ h.copyOut e.valueData e.valueLen = x.value := by
  have hi := (List.getElem?_eq_some_iff.mp hx).1
  rcases L with ⟨-, rfl⟩ | H
  · simp at hi
  · obtain ⟨es, a, d, r, m, hring, q, hplaced, -⟩ := H.entries
    have hlen := hplaced.length_eq
    rw [length_reverse] at hlen
    have hrev : xs.reverse[es.length - 1 - i]? = some x := by
      rw [getElem?_reverse (by omega), hlen]
      rw [← hx]
      congr 1
      omega
    obtain ⟨e, p, he, hholds⟩ := hplaced.getElem? hrev
    have hbytes : x.bytes ≤ tableSize := by
      have hmem := Header.size_le_total (mem_of_getElem? hx)
      have h₁ := H.account
      have h₂ := H.size_le
      have h₃ := x.size_eq
      omega
    exact ⟨e, hring.lookup_eq (by omega) he, copyOut_entry H.storage hholds hbytes⟩

end

/-- An index behind the static ones, as the code counts it down. -/
theorem index_words {index : UInt64} {i : ℕ} (h : index.toNat = staticTable.length + 1 + i) :
    index ≠ 0 ∧ ¬ index - 1 < UInt64.ofNat staticTable.length ∧
      index - 1 - UInt64.ofNat staticTable.length = UInt64.ofNat i := by
  have hstatic : (UInt64.ofNat staticTable.length).toNat = staticTable.length := rfl
  have hpos : (1 : UInt64).toNat ≤ index.toNat := by
    rw [h]
    exact Nat.le_add_right_of_le (Nat.le_add_left _ _)
  have hone : (index - 1).toNat = staticTable.length + i := by
    rw [UInt64.toNat_sub_of_le _ _ (UInt64.le_iff_toNat_le.mpr hpos), h, Nat.add_right_comm]
    exact Nat.add_sub_cancel _ _
  refine ⟨?_, ?_, ?_⟩
  · rintro rfl
    rw [UInt64.toNat_zero] at h
    omega
  · rw [UInt64.lt_iff_toNat_lt, hone, hstatic]
    omega
  · rw [← UInt64.ofNat_toNat (x := index - 1), hone, ← UInt64.ofNat_sub (Nat.le_add_right _ _),
      Nat.add_sub_cancel_left]

/-- **A lookup of a dynamic entry.** -/
theorem Live.getIndexed_dynamic (L : h.Live xs) {index : UInt64} {i : ℕ}
    (hindex : index.toNat = staticTable.length + 1 + i) (header : Header) (nameOnly : Bool) :
    h.getIndexedHeader header index nameOnly
      = xs[i]?.map fun x => if nameOnly then { header with name := x.name } else x := by
  obtain ⟨h0, hdyn, hword⟩ := index_words hindex
  have hfew := L.length_le
  have hbound := UInt64.toNat_lt index
  rw [Hpack.getIndexedHeader, if_neg h0, if_neg hdyn, hword, L.count]
  have hcmp : UInt64.ofNat i < UInt64.ofNat xs.length ↔ i < xs.length := by
    rw [UInt64.lt_iff_toNat_lt, UInt64.toNat_ofNat', UInt64.toNat_ofNat',
      Nat.mod_eq_of_lt (by omega), Nat.mod_eq_of_lt (by omega)]
  by_cases hlt : i < xs.length
  · rw [if_pos (hcmp.mpr hlt), getElem?_eq_getElem hlt]
    obtain ⟨e, he, hname, hvalue⟩ := L.entry (getElem?_eq_getElem hlt)
    rw [he]
    simp only [hname, hvalue]
    cases nameOnly with
    | false => rfl
    | true => rfl
  · rw [if_neg (mt hcmp.mp hlt), getElem?_eq_none (Nat.le_of_not_lt hlt)]
    rfl

/-- **A lookup** answers what the list of the static and the dynamic headers has there. -/
theorem Live.getIndexedHeader (L : h.Live xs) (header : Header) (index : UInt64) (nameOnly : Bool)
    (limit : ℕ) : TableReply.ofLookup nameOnly (h.getIndexedHeader header index nameOnly)
      = TableReply.ofLookup nameOnly ((⟨limit, xs⟩ : Table).lookup index) := by
  rw [Table.lookup]
  by_cases h0 : index = 0
  · rw [Hpack.getIndexedHeader, if_pos h0, if_pos h0]
  rw [if_neg h0]
  have hpos : (1 : UInt64).toNat ≤ index.toNat := by
    rcases Nat.eq_zero_or_pos index.toNat with hz | hz
    · exact absurd (UInt64.toNat_inj.mp (hz.trans UInt64.toNat_zero.symm)) h0
    · exact hz
  have hone : (index - 1).toNat = index.toNat - 1 :=
    UInt64.toNat_sub_of_le _ _ (UInt64.le_iff_toNat_le.mpr hpos)
  have hone' : (1 : UInt64).toNat = 1 := rfl
  rcases Nat.lt_or_ge (index.toNat - 1) staticTable.length with hlt | hge
  · have hstatic : index - 1 < UInt64.ofNat staticTable.length := by
      rw [UInt64.lt_iff_toNat_lt, hone]
      exact hlt
    rw [Hpack.getIndexedHeader, if_neg h0, if_pos hstatic, hone, getElem?_append_left hlt]
  · rw [L.getIndexed_dynamic (i := index.toNat - 1 - staticTable.length) (by omega),
      getElem?_append_right hge]
    cases xs[index.toNat - 1 - staticTable.length]? with
    | none => rfl
    | some x =>
      cases nameOnly with
      | false => rfl
      | true => rfl

end Hpack

/-! ### Sequences of calls -/

/-- The limit the first insertion of a sequence of calls finds, if there is one: that of the
last size update accepted before it, or `n`. -/
@[grind =]
def limitAtFirstAdd (n : ℕ) : List TableCall → Option ℕ
  | [] => none
  | .add _ :: _ => some n
  | .size k :: cs => limitAtFirstAdd (if k ≤ tableSize then k else n) cs
  | .get _ _ :: cs => limitAtFirstAdd n cs

/-- The code's table and that of RFC 7541 hold the same headers. Once there is memory the
limits are the same; before that, it is the code's limit that is `n`, unless there was no
size update yet. -/
def SameTable (h : Hpack) (t : Table) (cs : List TableCall) : Prop :=
  h.Holds t.entries ∧ h.size = t.limit ∨
    h.Unused ∧ t.entries = [] ∧ ∀ k, limitAtFirstAdd t.limit cs = some k → k = tableSize

theorem SameTable.live {h : Hpack} {t : Table} (S : SameTable h t cs) : h.Live t.entries := by
  rcases S with ⟨H, -⟩ | ⟨U, hnil, -⟩
  · exact Or.inr H
  · exact Or.inl ⟨U, hnil⟩

/-- **One call** keeps the tables the same and answers the same. -/
theorem SameTable.call {h : Hpack} {t : Table} {c : TableCall} (S : SameTable h t (c :: cs))
    (header : Header) :
    (Hpack.call (h, header) c).2 = (t.call c).2 ∧
      SameTable (Hpack.call (h, header) c).1.1 (t.call c).1 cs := by
  cases c with
  | add x =>
    refine ⟨rfl, Or.inl ?_⟩
    have hlimit : h.allocate.size = t.limit := by
      rcases S with ⟨H, hsize⟩ | ⟨U, -, hfirst⟩
      · rwa [Hpack.allocate, if_neg H.entries_ne_nil]
      · rw [U.allocate.2]
        exact (hfirst t.limit rfl).symm
    have hadd := S.live.addHeader x
    rw [hlimit] at hadd
    exact hadd
  | size n =>
    by_cases hn : n ≤ tableSize
    · have hresize : t.resize n = some ⟨n, keepNewest n t.entries⟩ := by
        rw [Table.resize, if_pos hn]
      have htcall : t.call (.size n) = (⟨n, keepNewest n t.entries⟩, .done) := by
        rw [Table.call, hresize]
      rw [htcall]
      rcases S with ⟨H, -⟩ | ⟨U, hnil, hfirst⟩
      · obtain ⟨h', hset, H', hsize⟩ := H.setTableSize hn
        rw [Hpack.call, hset]
        exact ⟨rfl, Or.inl ⟨H', hsize⟩⟩
      · obtain ⟨h', hset, U', -⟩ := U.setTableSize hn
        rw [Hpack.call, hset]
        refine ⟨rfl, Or.inr ⟨U', by rw [hnil]; rfl, fun k hk => hfirst k ?_⟩⟩
        rw [limitAtFirstAdd, if_pos hn]
        exact hk
    · have hset : h.setTableSize n = none := by rw [Hpack.setTableSize, if_pos (by omega)]
      have hresize : t.resize n = none := by rw [Table.resize, if_neg hn]
      rw [Hpack.call, Table.call, hset, hresize]
      refine ⟨rfl, ?_⟩
      rcases S with S | ⟨U, hnil, hfirst⟩
      · exact Or.inl S
      · refine Or.inr ⟨U, hnil, fun k hk => hfirst k ?_⟩
        rw [limitAtFirstAdd, if_neg hn]
        exact hk
  | get index nameOnly =>
    exact ⟨S.live.getIndexedHeader header index nameOnly t.limit, S⟩

/-- **All answers are the same.** -/
theorem SameTable.replies : ∀ {h : Hpack} {t : Table} (header : Header),
    SameTable h t cs → Hpack.replies (h, header) cs = t.replies cs := by
  induction cs with
  | nil =>
    intro h t header _
    rfl
  | cons c cs ih =>
    intro h t header S
    obtain ⟨hreply, S'⟩ := S.call header
    rw [Hpack.replies, Table.replies, hreply]
    congr 1
    exact ih (Hpack.call (h, header) c).1.2 S'

/-- **The dynamic table is the table of RFC 7541.** On a new connection, every call of a
sequence is answered as that table answers it, if the first insertion finds the limit at
4096: because no size update was accepted before it, or because the last one said so. -/
theorem table_refines (calls : List TableCall) (header : Header)
    (h : ∀ n, limitAtFirstAdd tableSize calls = some n → n = tableSize) :
    Hpack.replies (.fresh, header) calls = Table.fresh.replies calls := by
  refine SameTable.replies header (Or.inr ⟨?_, rfl, h⟩)
  exact ⟨rfl, rfl, rfl, rfl, rfl, Nat.zero_le _⟩

/-- A size update to 4096 comes first; the larger one is refused, and the last one makes the
table forget the older header. -/
theorem table_refines_updates :
    let calls : List TableCall := [.size 4096, .add ⟨str "a", str "b"⟩, .add ⟨str "c", str "d"⟩,
      .size 5000, .get 63 false, .size 40, .get 62 true, .get 63 false]
    (∀ n, limitAtFirstAdd tableSize calls = some n → n = tableSize) ∧
      Hpack.replies (.fresh, ⟨[], []⟩) calls = Table.fresh.replies calls := by
  refine ⟨?_, table_refines _ _ ?_⟩
  · intro n hn
    exact (Option.some.inj hn).symm
  · intro n hn
    exact (Option.some.inj hn).symm

/-- **A size update before the first insertion is forgotten.** The limit is set to 0, and yet
a header is added and found; the table of RFC 7541 has none. -/
theorem table_forgets_update :
    let calls : List TableCall := [.size 0, .add ⟨str "a", str "b"⟩, .get 62 false]
    Hpack.replies (.fresh, ⟨[], []⟩) calls = [.done, .done, .header ⟨str "a", str "b"⟩] ∧
      Table.fresh.replies calls = [.done, .done, .error] := by
  decide

/-! ### The strings -/

/-- The headers that `ngx_http_v2_add_header` has stored in a sequence of calls, newest first,
and those stored before. -/
@[grind =]
def stored (s : Hpack × Header) (log : List Header) : List TableCall → List Header
  | [] => log
  | .add x :: cs =>
    stored (Hpack.call s (.add x)).1
      (if (s.1.allocate.tableAccount (x.name.length + x.value.length)).2 then x :: log else log) cs
  | .size n :: cs => stored (Hpack.call s (.size n)).1 log cs
  | .get i b :: cs => stored (Hpack.call s (.get i b)).1 log cs

/-- **Whatever the calls**, the table holds the newest of the headers that were stored. -/
theorem live_newest (cs : List TableCall) : ∀ {s : Hpack × Header} {xs log : List Header},
    s.1.Live xs → xs <+: log →
      ∃ ys, (Hpack.after s cs).1.Live ys ∧ ys <+: stored s log cs := by
  induction cs with
  | nil =>
    intro s xs log L hlog
    exact ⟨xs, L, hlog⟩
  | cons c cs ih =>
    intro s xs log L hlog
    rw [Hpack.after]
    cases c with
    | add x =>
      have H := (L.addHeader x).1
      have hok := (L.allocate.tableAccount x).1
      refine ih (Or.inr H) ?_
      change _ <+: if (s.1.allocate.tableAccount x.bytes).2 then x :: log else log
      rw [hok]
      by_cases hfits : x.size ≤ s.1.allocate.size
      · rw [if_pos hfits, if_pos (decide_eq_true hfits)]
        exact (prefix_cons_inj x).mpr ((keepNewest_newest _ xs).trans hlog)
      · rw [if_neg hfits]
        exact nil_prefix
    | size n =>
      rw [stored]
      by_cases hn : n ≤ tableSize
      · obtain ⟨h', hset, L', -⟩ := L.setTableSize hn
        rw [Hpack.call, hset]
        exact ih L' ((keepNewest_newest n xs).trans hlog)
      · have hset : s.1.setTableSize n = none := by rw [Hpack.setTableSize, if_pos (by omega)]
        rw [Hpack.call, hset]
        exact ih L hlog
    | get i b => exact ih L hlog

/-- **A lookup answers the strings that were inserted.** After any sequence of calls on a new
connection, the entry with number `i` in the dynamic table, counted from the newest one, is
the header that was stored `i` insertions before the last one: its name and its value are
read back byte for byte. -/
theorem table_strings_intact (calls : List TableCall) (header : Header) :
    let s := Hpack.after (.fresh, header) calls
    ∀ i < (s.1.added - s.1.deleted).toNat, ∃ x,
      (stored (.fresh, header) [] calls)[i]? = some x ∧
      ∀ old : Header,
        s.1.getIndexedHeader old (UInt64.ofNat (62 + i)) false = some x ∧
        s.1.getIndexedHeader old (UInt64.ofNat (62 + i)) true = some { old with name := x.name } := by
  intro s i hi
  obtain ⟨xs, L, hlog⟩ := live_newest (s := (.fresh, header)) calls
    Hpack.live_fresh prefix_rfl
  have hfew := L.length_le
  have hi' : i < xs.length := by
    rw [L.count, UInt64.toNat_ofNat_of_lt' (by have : UInt64.size = 2 ^ 64 := rfl; omega)] at hi
    exact hi
  have hx : xs[i]? = some xs[i] := getElem?_eq_getElem hi'
  refine ⟨xs[i], ?_, ?_⟩
  · obtain ⟨rest, hrest⟩ := hlog
    rw [← hrest, getElem?_append_left hi', hx]
  · intro old
    have hindex : (UInt64.ofNat (62 + i)).toNat = staticTable.length + 1 + i := by
      have hlen : staticTable.length = 61 := rfl
      rw [UInt64.toNat_ofNat_of_lt' (by have : UInt64.size = 2 ^ 64 := rfl; omega), hlen]
    constructor
    · rw [L.getIndexed_dynamic hindex, hx]
      rfl
    · rw [L.getIndexed_dynamic hindex, hx]
      rfl

/-- The second header takes the place of the first one; its name begins at the end of the storage and
goes on at its start. -/
example :
    let name : List UInt8 := (List.range 40).map UInt8.ofNat
    let h := (Hpack.after (.fresh, ⟨[], []⟩) [.add ⟨[], List.replicate 4064 0⟩, .add ⟨name, []⟩]).1
    h.getIndexedHeader ⟨[], []⟩ 62 true = some ⟨name, []⟩ := by
  decide +kernel

end Hengine
