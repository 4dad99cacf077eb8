import Hengine.Http.SubFilter
import Mathlib.Data.List.Count
import Mathlib.Data.List.GetD

/-!
# The Search of the Substitution Filter

What `ngx_http_sub_init_tables` makes of the search strings, and what the search loop finds
with it. `looked` and the rest of the buffer are one text, and a position is a number of
bytes from its start. A search string that differs from the text differs whatever follows,
so that a place the loop has left behind stays behind.
-/

namespace Hengine

open List Function Option

/-! ### Comparison -/

@[simp] theorem compareRun_nil (t : List UInt8) : compareRun t [] = some [] := by
  cases t <;> rfl

/-- **Comparison goes on** where it stopped. -/
theorem compareRun_append (x y p : List UInt8) :
    compareRun (x ++ y) p = (compareRun x p).bind (compareRun y) := by
  induction x generalizing p with
  | nil => cases p <;> simp [compareRun]
  | cons t ts ih =>
    cases p with
    | nil => simp
    | cons q ps =>
      rw [cons_append, compareRun, compareRun]
      split
      · rfl
      · exact ih ps

theorem compareRun_none_append {x p : List UInt8} (h : compareRun x p = none) (y : List UInt8) :
    compareRun (x ++ y) p = none := by
  rw [compareRun_append, h, bind_none]

variable {q : Option (List UInt8)} {t p : List UInt8}

/-- The bytes that were compared are the same. -/
theorem compareRun_get (h : compareRun t p ≠ none) {r : ℕ} (ht : r < t.length)
    (hp : r < p.length) : tolower (t.getD r 0) = p.getD r 0 := by
  induction t generalizing p r with
  | nil => simp at ht
  | cons c cs ih =>
    cases p with
    | nil => simp at hp
    | cons q ps =>
      rw [compareRun] at h
      split at h
      · exact absurd rfl h
      · rename_i hc
        rw [ne_eq, not_not] at hc
        cases r with
        | zero => simpa using hc
        | succ r =>
          simp only [getD_cons_succ]
          exact ih h (by simpa using ht) (by simpa using hp)

/-- A search string is found where the text in lower case starts with it. -/
theorem compareRun_found : compareRun t p = some [] ↔ p <+: t.map tolower := by
  induction t generalizing p with
  | nil => cases p <;> simp [compareRun]
  | cons c cs ih =>
    cases p with
    | nil => simp
    | cons q ps =>
      rw [compareRun, map_cons, cons_prefix_cons]
      split
      · rename_i hc
        exact iff_of_false (by simp) fun h => hc h.1.symm
      · rename_i hc
        rw [ne_eq, not_not] at hc
        rw [ih]
        exact ⟨fun h => ⟨hc.symm, h⟩, fun h => h.2⟩

theorem compareRun_found_length (h : compareRun t p = some []) : p.length ≤ t.length := by
  have hpre := (compareRun_found.mp h).length_le
  rwa [length_map] at hpre

section Window

variable {looked data p : List UInt8} {start offset : ℤ}

/-- A comparison across the end of what is looked back at. -/
theorem subMatch_eq (hlow : 0 ≤ looked.length + start) :
    subMatch looked data start p
      = matchRc (compareRun ((looked ++ data).drop (looked.length + start).toNat) p) := by
  rw [subMatch]
  split
  · have hdrop : (looked.length + start).toNat = looked.length + start.toNat := by omega
    have hnil : looked.drop (looked.length + start.toNat) = [] :=
      drop_eq_nil_of_le (Nat.le_add_right _ _)
    rw [hdrop, drop_append, hnil, nil_append, Nat.add_sub_cancel_left]
  · rw [drop_append_of_le_length (by omega), compareRun_append]

theorem subByte_eq (hlow : 0 ≤ looked.length + offset) :
    subByte looked data offset = (looked ++ data).getD (looked.length + offset).toNat 0 := by
  rw [subByte]
  split
  · rw [getD_append _ _ _ _ (by omega)]
  · rw [getD_append_right _ _ _ _ (by omega)]
    congr 1
    omega

end Window

theorem matchRc_declined : matchRc q = .declined ↔ q = none := by
  cases q with
  | none => simp [matchRc]
  | some l => cases l <;> simp [matchRc]

theorem matchRc_ok : matchRc q = .ok ↔ q = some [] := by
  cases q with
  | none => simp [matchRc]
  | some l => cases l <;> simp [matchRc]

theorem matchRc_again : matchRc q = .again ↔ ∃ l, q = some l ∧ l ≠ [] := by
  cases q with
  | none => simp [matchRc]
  | some l => cases l <;> simp [matchRc]

/-! ### The sort -/

section Insertion

variable {α : Type*}

/-- An insertion keeps the elements. -/
theorem ngxSortInsert_perm (greater : α → α → Bool) (x : α) (l : List α) :
    (ngxSortInsert greater x l).Perm (x :: l) := by
  induction l with
  | nil => exact List.Perm.refl _
  | cons y ys ih =>
    rw [ngxSortInsert]
    split
    · exact (ih.cons y).trans (List.Perm.swap x y ys)
    · exact List.Perm.refl _

/-- The loop of the sort keeps the elements. -/
theorem ngxSort_perm (greater : α → α → Bool) (xs : List α) : (ngxSort greater xs).Perm xs := by
  have hloop : ∀ (xs acc : List α),
      (xs.foldl (fun sorted x => ngxSortInsert greater x sorted) acc).Perm (xs ++ acc) := by
    intro xs
    induction xs with
    | nil => exact fun acc => List.Perm.refl _
    | cons x xs ih =>
      intro acc
      rw [foldl_cons]
      refine (ih _).trans ?_
      exact ((ngxSortInsert_perm greater x acc).append_left xs).trans perm_middle
  have hxs := hloop xs []
  rw [append_nil] at hxs
  exact (reverse_perm _).trans hxs

variable {key : α → ℕ}

/-- An insertion into a sorted list, read from its end. -/
theorem ngxSortInsert_sorted (x : α) {l : List α}
    (h : l.Pairwise fun a b => key b ≤ key a) :
    (ngxSortInsert (fun a b => decide (key b < key a)) x l).Pairwise
      fun a b => key b ≤ key a := by
  induction l with
  | nil => simp [ngxSortInsert]
  | cons y ys ih =>
    rw [pairwise_cons] at h
    rw [ngxSortInsert]
    split
    · rename_i hlt
      rw [decide_eq_true_eq] at hlt
      refine pairwise_cons.mpr ⟨fun z hz => ?_, ih h.2⟩
      rcases mem_cons.mp ((ngxSortInsert_perm _ x ys).mem_iff.mp hz) with rfl | hz
      · exact Nat.le_of_lt hlt
      · exact h.1 z hz
    · rename_i hge
      rw [decide_eq_true_eq] at hge
      refine pairwise_cons.mpr ⟨fun z hz => ?_, pairwise_cons.mpr h⟩
      rcases mem_cons.mp hz with rfl | hz
      · omega
      · have := h.1 z hz
        omega

variable (key) in
/-- A sorted list is in order. -/
theorem ngxSort_sorted (xs : List α) :
    (ngxSort (fun a b => decide (key b < key a)) xs).Pairwise fun a b => key a ≤ key b := by
  have hloop : ∀ (xs acc : List α), acc.Pairwise (fun a b => key b ≤ key a) →
      (xs.foldl (fun sorted x => ngxSortInsert (fun a b => decide (key b < key a)) x sorted)
        acc).Pairwise fun a b => key b ≤ key a := by
    intro xs
    induction xs with
    | nil => exact fun acc h => h
    | cons x xs ih => exact fun acc h => ih _ (ngxSortInsert_sorted x h)
  exact pairwise_reverse.mpr (hloop xs [] List.Pairwise.nil)

end Insertion

/-! ### The tables -/

/-- The minimum is below all. -/
theorem foldl_min_le (l : List ℕ) (a : ℕ) :
    l.foldl min a ≤ a ∧ ∀ x ∈ l, l.foldl min a ≤ x := by
  induction l generalizing a with
  | nil => exact ⟨Nat.le_refl a, fun x hx => by cases hx⟩
  | cons b l ih =>
    obtain ⟨h1, h2⟩ := ih (min a b)
    rw [foldl_cons]
    refine ⟨by omega, fun x hx => ?_⟩
    rcases mem_cons.mp hx with rfl | hx
    · omega
    · exact h2 x hx

theorem foldl_min_pos (l : List ℕ) {a : ℕ} (ha : 0 < a) (hl : ∀ x ∈ l, 0 < x) :
    0 < l.foldl min a := by
  induction l generalizing a with
  | nil => exact ha
  | cons b l ih =>
    have hb := hl b (by simp)
    exact ih (by omega) fun x hx => hl x (by simp [hx])

/-- One more byte of a pattern lowers the shift of this byte. -/
theorem shiftPattern_succ (last : ℕ) (pattern : List UInt8) (shift : UInt8 → ℕ) (n : ℕ) :
    shiftPattern last pattern shift (n + 1)
      = update (shiftPattern last pattern shift n) (pattern.getD (last - n) 0)
          (min (shiftPattern last pattern shift n (pattern.getD (last - n) 0)) n) := by
  simp only [shiftPattern, range_succ, foldl_append, foldl_cons, foldl_nil]

/-- Shifts are only lowered. -/
theorem shiftPattern_le (last : ℕ) (pattern : List UInt8) (shift : UInt8 → ℕ) (n : ℕ)
    (c : UInt8) : shiftPattern last pattern shift n c ≤ shift c := by
  induction n with
  | zero => exact Nat.le_refl _
  | succ n ih =>
    rw [shiftPattern_succ]
    by_cases hc : c = pattern.getD (last - n) 0
    · subst hc
      rw [update_self]
      omega
    · rwa [update_of_ne hc]

/-- The shift of a byte is at most its distance from the end of the window. -/
theorem shiftPattern_place (last : ℕ) (pattern : List UInt8) (shift : UInt8 → ℕ) {n j : ℕ}
    (hj : j < n) : shiftPattern last pattern shift n (pattern.getD (last - j) 0) ≤ j := by
  induction n with
  | zero => omega
  | succ n ih =>
    rw [shiftPattern_succ]
    by_cases hc : pattern.getD (last - j) 0 = pattern.getD (last - n) 0
    · rw [hc, update_self]
      rcases Nat.lt_succ_iff_lt_or_eq.mp hj with hlt | rfl
      · have := ih hlt
        rw [hc] at this
        omega
      · omega
    · rw [update_of_ne hc]
      have hne : j ≠ n := by
        rintro rfl
        exact hc rfl
      exact ih (by omega)

/-- The shifts over all entries. -/
theorem shifts_spec (last n : ℕ) (table : List SubMatch) (shift : UInt8 → ℕ) :
    (∀ c, table.foldl (fun shift m => shiftPattern last m.pattern shift n) shift c ≤ shift c) ∧
    ∀ m ∈ table, ∀ j < n,
      table.foldl (fun shift m => shiftPattern last m.pattern shift n) shift
        (m.pattern.getD (last - j) 0) ≤ j := by
  induction table generalizing shift with
  | nil => exact ⟨fun c => Nat.le_refl _, fun m hm => by cases hm⟩
  | cons e es ih =>
    obtain ⟨h1, h2⟩ := ih (shiftPattern last e.pattern shift n)
    simp only [foldl_cons]
    refine ⟨fun c => (h1 c).trans (shiftPattern_le last e.pattern shift n c), ?_⟩
    intro m hm j hj
    rcases mem_cons.mp hm with rfl | hm
    · exact (h1 _).trans (shiftPattern_place last m.pattern shift hj)
    · exact h2 m hm j hj

/-- What `index` holds: where the entries with a byte start. -/
theorem fillIndex_get (cs : List UInt8) (i : ℕ) (index : List ℕ)
    (hsorted : cs.Pairwise fun a b => a.toNat ≤ b.toNat) (hfit : i + cs.length < 256) {ch : ℕ}
    (hch : ch < 257) (hlow : index.length ≤ ch) :
    (fillIndex cs i index).getD ch 0 = i + cs.countP fun c => decide (c.toNat < ch) := by
  induction cs generalizing i index with
  | nil =>
    rw [fillIndex, getD_append_right _ _ _ _ hlow, getD_replicate _ (by omega),
      countP_nil, Nat.mod_eq_of_lt (by simpa using hfit), Nat.add_zero]
  | cons c cs ih =>
    rw [pairwise_cons] at hsorted
    rw [length_cons] at hfit
    rw [fillIndex]
    by_cases hin : c.toNat < ch
    · rw [ih _ _ hsorted.2 (by omega), countP_cons_of_pos (by simpa using hin)]
      · omega
      · rw [length_append, length_replicate]
        omega
    · -- The entries from here on have this byte or a greater one.
      have hzero : cs.countP (fun c => decide (c.toNat < ch)) = 0 := by
        rw [countP_eq_zero]
        intro d hd
        have := hsorted.1 d hd
        simp only [decide_eq_true_eq]
        omega
      rw [countP_cons_of_neg (by simpa using hin), hzero]
      have hget : ∀ (cs : List UInt8) (i : ℕ) (index : List ℕ), ch < index.length →
          (fillIndex cs i index).getD ch 0 = index.getD ch 0 := by
        intro cs
        induction cs with
        | nil =>
          intro i index hlt
          rw [fillIndex, getD_append _ _ _ _ hlt]
        | cons d ds ihd =>
          intro i index hlt
          rw [fillIndex, ihd _ _ (by rw [length_append]; omega),
            getD_append _ _ _ _ hlt]
      rw [hget _ _ _ (by rw [length_append, length_replicate]; omega),
        getD_append_right _ _ _ _ hlow, getD_replicate _ (by omega),
        Nat.mod_eq_of_lt (by omega), Nat.add_zero]

/-- In a sorted list an element stands behind all smaller ones and before all greater ones. -/
theorem countP_sorted {cs : List UInt8} (hsorted : cs.Pairwise fun a b => a.toNat ≤ b.toNat)
    {k : ℕ} {c : UInt8} (hk : cs[k]? = some c) :
    (cs.countP fun d => decide (d.toNat < c.toNat)) ≤ k ∧
      k < cs.countP fun d => decide (d.toNat < c.toNat + 1) := by
  induction cs generalizing k with
  | nil => simp at hk
  | cons d ds ih =>
    rw [pairwise_cons] at hsorted
    cases k with
    | zero =>
      rw [getElem?_cons_zero, Option.some.injEq] at hk
      subst hk
      rw [countP_cons_of_neg (by simp), countP_cons_of_pos (by simp)]
      refine ⟨Nat.le_of_eq ?_, by omega⟩
      rw [countP_eq_zero]
      intro e he
      have := hsorted.1 e he
      simp only [decide_eq_true_eq]
      omega
    | succ k =>
      rw [getElem?_cons_succ] at hk
      obtain ⟨h1, h2⟩ := ih hsorted.2 hk
      have hle := hsorted.1 c (mem_of_getElem? hk)
      rw [countP_cons_of_pos (a := d) (p := fun d => decide (d.toNat < c.toNat + 1))
        (by simp only [decide_eq_true_eq]; omega)]
      refine ⟨?_, by omega⟩
      have := countP_cons (p := fun d => decide (d.toNat < c.toNat)) (a := d) (l := ds)
      split at this <;> omega

/-- **The tables are right** for the entries of the table. -/
structure TableOk (tables : SubTables) (table : List SubMatch) : Prop where
  pos : 0 < tables.minMatchLen
  len : ∀ e ∈ table, tables.minMatchLen ≤ e.pattern.length
  shiftLe : ∀ c, tables.shift c ≤ tables.minMatchLen
  shift : ∀ e ∈ table, ∀ j < tables.minMatchLen,
    tables.shift (e.pattern.getD (tables.minMatchLen - 1 - j) 0) ≤ j
  index : ∀ (k : ℕ) (e : SubMatch), table[k]? = some e →
    tables.index.getD (e.key (tables.minMatchLen - 1)).toNat 0 ≤ k ∧
      k < tables.index.getD ((e.key (tables.minMatchLen - 1)).toNat + 1) 0
  indexLe : ∀ ch < 257, tables.index.getD ch 0 ≤ table.length

/-- The patterns of a configuration are not empty and no more than 255. -/
theorem SubConf.entries_spec (conf : SubConf) :
    (∀ e ∈ conf.entries, 0 < e.pattern.length) ∧ conf.entries.length ≤ 255 := by
  constructor
  · intro e he
    obtain ⟨m, hm, rfl⟩ := mem_map.mp he
    have hne := (mem_filter.mp hm).2
    rw [Bool.not_eq_true', isEmpty_eq_false_iff] at hne
    rw [length_map]
    exact length_pos_of_ne_nil hne
  · rw [SubConf.entries, length_map]
    exact (length_filter_le _ _).trans conf.pairs_le

/-- `ngx_http_sub_init_tables` makes the tables. -/
theorem subInitTables_ok {entries : List SubMatch} (hne : entries ≠ [])
    (hpos : ∀ e ∈ entries, 0 < e.pattern.length) (hlen : entries.length ≤ 255) :
    TableOk (subInitTables entries).1 (subInitTables entries).2 := by
  have hperm : (subInitTables entries).2.Perm entries := ngxSort_perm _ entries
  have hmin := foldl_min_le (entries.map fun m => m.pattern.length)
    ((entries.map fun m => m.pattern.length).head?.getD 0)
  have hminPos : 0 < (subInitTables entries).1.minMatchLen := by
    refine foldl_min_pos _ ?_ ?_
    · cases entries with
      | nil => exact absurd rfl hne
      | cons e es => exact hpos e (by simp)
    · intro x hx
      obtain ⟨m, hm, rfl⟩ := mem_map.mp hx
      exact hpos m hm
  have hshifts := shifts_spec ((subInitTables entries).1.minMatchLen - 1)
    (min (subInitTables entries).1.minMatchLen 255) (subInitTables entries).2
    fun _ => min (subInitTables entries).1.minMatchLen 255
  have hsorted : ((subInitTables entries).2.map
      (SubMatch.key ((subInitTables entries).1.minMatchLen - 1))).Pairwise
        fun a b => a.toNat ≤ b.toNat := by
    rw [pairwise_map]
    exact ngxSort_sorted (fun m : SubMatch =>
      (m.key ((subInitTables entries).1.minMatchLen - 1)).toNat) entries
  have hfit : 0 + ((subInitTables entries).2.map
      (SubMatch.key ((subInitTables entries).1.minMatchLen - 1))).length < 256 := by
    rw [length_map, hperm.length_eq]
    omega
  have hget : ∀ ch < 257, (subInitTables entries).1.index.getD ch 0
      = 0 + ((subInitTables entries).2.map
          (SubMatch.key ((subInitTables entries).1.minMatchLen - 1))).countP
            fun c => decide (c.toNat < ch) :=
    fun ch hch => fillIndex_get _ 0 [] hsorted hfit hch (Nat.zero_le _)
  refine ⟨hminPos, ?_, fun c => (hshifts.1 c).trans (Nat.min_le_left _ _), ?_, ?_, ?_⟩
  · intro e he
    exact hmin.2 _ (mem_map.mpr ⟨e, hperm.mem_iff.mp he, rfl⟩)
  · intro e he j hj
    by_cases hlt : j < min (subInitTables entries).1.minMatchLen 255
    · exact hshifts.2 e he j hlt
    · exact (hshifts.1 _).trans (Nat.le_of_not_lt hlt)
  · intro k e hk
    have hcount : ((subInitTables entries).2.map
        (SubMatch.key ((subInitTables entries).1.minMatchLen - 1)))[k]?
          = some (e.key ((subInitTables entries).1.minMatchLen - 1)) := by
      rw [getElem?_map, hk, map_some]
    have hbyte := (e.key ((subInitTables entries).1.minMatchLen - 1)).toNat_lt
    obtain ⟨h1, h2⟩ := countP_sorted hsorted hcount
    rw [hget _ (by omega), hget _ (by omega), Nat.zero_add, Nat.zero_add]
    exact ⟨h1, h2⟩
  · intro ch hch
    rw [hget ch hch, Nat.zero_add]
    exact countP_le_length.trans (Nat.le_of_eq (length_map _))

theorem SubConf.tableOk (conf : SubConf) (hne : conf.entries ≠ []) :
    TableOk conf.tables conf.table :=
  subInitTables_ok hne conf.entries_spec.1 conf.entries_spec.2

/-! ### The search loop -/

/-- Every search string differs from the text. -/
def Declines (table : List SubMatch) (t : List UInt8) : Prop :=
  ∀ e ∈ table, compareRun t e.pattern = none

/-- The search strings before an entry differ from the text. -/
def DeclinesBefore (table : List SubMatch) (k : ℕ) (t : List UInt8) : Prop :=
  ∀ i < k, ∀ e, table[i]? = some e → compareRun t e.pattern = none

/-- `ctx->index` when the loop is at a place: the entries before it differ there, and if it
is not the first, it is one of those the byte at the end of the window stands for. -/
structure ResumeAt (conf : SubConf) (w : List UInt8) (s index : ℕ) : Prop where
  before : DeclinesBefore conf.table index (w.drop s)
  live : index ≠ 0 → s + conf.tables.minMatchLen ≤ w.length ∧ ∃ e, conf.table[index]? = some e ∧
    tolower (w.getD (s + conf.tables.minMatchLen - 1) 0) = e.key (conf.tables.minMatchLen - 1)

/-- The loop has gone from one place to another, and all search strings differ between. -/
structure Passed (conf : SubConf) (l : ℕ) (w : List UInt8) (s t : ℕ) (offset : ℤ) : Prop where
  offset_eq : offset = (t : ℤ) + conf.tables.minMatchLen - 1 - l
  le : s ≤ t
  dead : ∀ i, s ≤ i → i < t → Declines conf.table (w.drop i)

/-- What the search loop says where it stops, from the place `s` of the text `w`. -/
def SearchSpec (conf : SubConf) (l : ℕ) (w : List UInt8) (s : ℕ) : SubStop → Prop
  | .found k offset => ∃ t, Passed conf l w s t offset ∧ DeclinesBefore conf.table k (w.drop t) ∧
      ∃ e, conf.table[k]? = some e ∧ compareRun (w.drop t) e.pattern = some []
  | .part k offset => ∃ t, Passed conf l w s t offset ∧ DeclinesBefore conf.table k (w.drop t) ∧
      t + conf.tables.minMatchLen ≤ w.length ∧
      ∃ e q, conf.table[k]? = some e ∧ compareRun (w.drop t) e.pattern = some q ∧ q ≠ []
  | .ended offset index => ∃ t, Passed conf l w s t offset ∧ t ≤ w.length ∧
      w.length < t + conf.tables.minMatchLen ∧ index = 0

/-- Places where no pattern begins may be passed. -/
theorem Passed.before {conf : SubConf} {l : ℕ} {w : List UInt8} {s r t : ℕ} {offset : ℤ}
    (h : Passed conf l w r t offset) (hle : s ≤ r)
    (hdead : ∀ i, s ≤ i → i < r → Declines conf.table (w.drop i)) :
    Passed conf l w s t offset := by
  refine ⟨h.offset_eq, hle.trans h.le, fun i hs ht => ?_⟩
  rcases Nat.lt_or_ge i r with hlt | hge
  · exact hdead i hs hlt
  · exact h.dead i hge ht

/-- What the rest of the loop says, the loop says. -/
theorem SearchSpec.before {conf : SubConf} {l : ℕ} {w : List UInt8} {s r : ℕ} {stop : SubStop}
    (h : SearchSpec conf l w r stop) (hle : s ≤ r)
    (hdead : ∀ i, s ≤ i → i < r → Declines conf.table (w.drop i)) :
    SearchSpec conf l w s stop := by
  cases stop with
  | found k offset =>
    obtain ⟨t, hpass, hrest⟩ := h
    exact ⟨t, hpass.before hle hdead, hrest⟩
  | part k offset =>
    obtain ⟨t, hpass, hrest⟩ := h
    exact ⟨t, hpass.before hle hdead, hrest⟩
  | ended offset index =>
    obtain ⟨t, hpass, hrest⟩ := h
    exact ⟨t, hpass.before hle hdead, hrest⟩

section Loop

variable {conf : SubConf} {ctx : SubCtx} {data : List UInt8}

variable (conf) in
theorem start_offset (s l : ℕ) :
    conf.start ((s : ℤ) + conf.tables.minMatchLen - 1 - l) = (s : ℤ) - l := by
  rw [SubConf.start]
  omega

/-- Comparing at a place compares with the text from there. -/
theorem subMatch_place {s : ℕ} (p : List UInt8) :
    subMatch ctx.looked data
        (conf.start ((s : ℤ) + conf.tables.minMatchLen - 1 - ctx.looked.length)) p
      = matchRc (compareRun ((ctx.looked ++ data).drop s) p) := by
  rw [start_offset conf, subMatch_eq (by omega)]
  congr 3
  omega

variable {e : SubMatch} {w : List UInt8}

/-- A pattern that may still match agrees with the text in its first bytes. -/
theorem TableOk.key_eq (hok : TableOk conf.tables conf.table) {s : ℕ}
    (hs : s + conf.tables.minMatchLen ≤ w.length) (he : e ∈ conf.table)
    (hlive : compareRun (w.drop s) e.pattern ≠ none) {j : ℕ} (hj : j < conf.tables.minMatchLen) :
    tolower (w.getD (s + j) 0) = e.pattern.getD j 0 := by
  have hget := compareRun_get hlive (r := j) (by rw [length_drop]; omega)
    (Nat.lt_of_lt_of_le hj (hok.len e he))
  rwa [getD_eq_getElem?_getD, getElem?_drop, ← getD_eq_getElem?_getD] at hget

/-- **A shift passes no match**: the byte at the end of the window is too far from the end of
every search string. -/
theorem TableOk.shift_dead (hok : TableOk conf.tables conf.table) {s : ℕ}
    (hs : s + conf.tables.minMatchLen ≤ w.length) {i : ℕ} (hi : s ≤ i)
    (hlt : i < s + conf.tables.shift (tolower (w.getD (s + conf.tables.minMatchLen - 1) 0))) :
    Declines conf.table (w.drop i) := by
  intro e he
  by_contra hlive
  have hshift := hok.shiftLe (tolower (w.getD (s + conf.tables.minMatchLen - 1) 0))
  have hget := compareRun_get hlive (r := s + conf.tables.minMatchLen - 1 - i)
    (by rw [length_drop]; omega) (by have := hok.len e he; omega)
  rw [getD_eq_getElem?_getD, getElem?_drop, ← getD_eq_getElem?_getD] at hget
  have hplace : i + (s + conf.tables.minMatchLen - 1 - i) = s + conf.tables.minMatchLen - 1 := by
    omega
  have hfar := hok.shift e he (i - s) (by omega)
  have hsame : conf.tables.minMatchLen - 1 - (i - s) = s + conf.tables.minMatchLen - 1 - i := by
    omega
  rw [hplace] at hget
  rw [hsame, ← hget] at hfar
  omega

/-- No candidate is left: all of them differ. -/
theorem subCandidates_none (honce : conf.once = false) {start : ℤ} {n i : ℕ}
    (h : subCandidates conf ctx data start n i = none) {k : ℕ} (hlow : i ≤ k) (hk : k < i + n)
    (he : conf.table[k]? = some e) : subMatch ctx.looked data start e.pattern = .declined := by
  induction n generalizing i with
  | zero => omega
  | succ n ih =>
    rw [subCandidates, honce, Bool.false_and, if_neg Bool.false_ne_true] at h
    split at h
    · rename_i hdecl
      rcases Nat.lt_or_ge i k with hlt | hge
      · exact ih h hlt (by omega)
      · obtain rfl : i = k := by omega
        rwa [he, map_some, getD_some] at hdecl
    · cases h

/-- The first candidate that does not differ. -/
theorem subCandidates_some (honce : conf.once = false) {start : ℤ} {n i k : ℕ} {rc : SubRc}
    (h : subCandidates conf ctx data start n i = some (k, rc)) :
    i ≤ k ∧ k < i + n ∧ rc ≠ .declined ∧
      (∀ e, conf.table[k]? = some e → subMatch ctx.looked data start e.pattern = rc) ∧
      ∀ r, i ≤ r → r < k → ∀ e, conf.table[r]? = some e →
        subMatch ctx.looked data start e.pattern = .declined := by
  induction n generalizing i with
  | zero => cases h
  | succ n ih =>
    rw [subCandidates, honce, Bool.false_and, if_neg Bool.false_ne_true] at h
    split at h
    · rename_i hdecl
      obtain ⟨h1, h2, h3, h4, h5⟩ := ih h
      refine ⟨by omega, by omega, h3, h4, fun r hr hrk e he => ?_⟩
      rcases Nat.lt_or_ge i r with hlt | hge
      · exact h5 r hlt hrk e he
      · obtain rfl : i = r := by omega
        rwa [he, map_some, getD_some] at hdecl
    · rename_i hlive
      rw [Option.some.injEq, Prod.mk.injEq] at h
      obtain ⟨rfl, rfl⟩ := h
      refine ⟨Nat.le_refl i, by omega, hlive, fun e he => ?_, fun r hr hrk => by omega⟩
      rw [he, map_some, getD_some]

/-- The candidates at a place are all that may match there. -/
theorem TableOk.candidate (hok : TableOk conf.tables conf.table) {s index : ℕ}
    (hres : ResumeAt conf w s index) (hs : s + conf.tables.minMatchLen ≤ w.length) {k : ℕ}
    (hk : conf.table[k]? = some e) (hlive : compareRun (w.drop s) e.pattern ≠ none) :
    max (conf.tables.index.getD
        (tolower (w.getD (s + conf.tables.minMatchLen - 1) 0)).toNat 0) index ≤ k ∧
      k < conf.tables.index.getD
        ((tolower (w.getD (s + conf.tables.minMatchLen - 1) 0)).toNat + 1) 0 := by
  have hpos := hok.pos
  have hkey := hok.key_eq hs (mem_of_getElem? hk) hlive
    (j := conf.tables.minMatchLen - 1) (by omega)
  rw [← Nat.add_sub_assoc hpos] at hkey
  obtain ⟨hlow, hhigh⟩ := hok.index k e hk
  rw [SubMatch.key, ← hkey] at hlow hhigh
  refine ⟨Nat.max_le.mpr ⟨hlow, ?_⟩, hhigh⟩
  by_contra hlt
  exact hlive (hres.before k (Nat.lt_of_not_le hlt) e hk)

/-- The loop over the candidates, from `low` up to `high`, when only these may match. -/
theorem candidates_cases (honce : conf.once = false) {start : ℤ} {t : List UInt8} {low high : ℕ}
    (hmatch : ∀ p, subMatch ctx.looked data start p = matchRc (compareRun t p))
    (hhigh : high ≤ conf.table.length)
    (hcand : ∀ k e, conf.table[k]? = some e → compareRun t e.pattern ≠ none →
      low ≤ k ∧ k < high) :
    (subCandidates conf ctx data start (high - low) low = none → Declines conf.table t) ∧
    ∀ k rc, subCandidates conf ctx data start (high - low) low = some (k, rc) →
      rc ≠ .declined ∧ DeclinesBefore conf.table k t ∧
      ∃ e, conf.table[k]? = some e ∧ matchRc (compareRun t e.pattern) = rc := by
  constructor
  · intro hnone e he
    by_contra hlive
    obtain ⟨k, hk⟩ := mem_iff_getElem?.mp he
    obtain ⟨hlow, hlt⟩ := hcand k e hk hlive
    have hdecl := subCandidates_none honce hnone hlow (by omega) hk
    rw [hmatch, matchRc_declined] at hdecl
    exact hlive hdecl
  · intro k rc hsome
    obtain ⟨h1, h2, h3, h4, h5⟩ := subCandidates_some honce hsome
    refine ⟨h3, fun r hr e he => ?_, ?_⟩
    · by_contra hlive
      have hdecl := h5 r (hcand r e he hlive).1 hr e he
      rw [hmatch, matchRc_declined] at hdecl
      exact hlive hdecl
    · obtain ⟨e, he⟩ : ∃ e, conf.table[k]? = some e :=
        ⟨_, getElem?_eq_getElem (by omega)⟩
      exact ⟨e, he, by rw [← hmatch, h4 e he]⟩

variable (ctx data) in
/-- **The search loop**: from a place of the text it goes to where it stops past places where
all search strings differ. -/
theorem subScan_spec (hok : TableOk conf.tables conf.table) (honce : conf.once = false)
    (fuel s index : ℕ) (hs : s ≤ (ctx.looked ++ data).length)
    (hres : ResumeAt conf (ctx.looked ++ data) s index)
    (hfuel : (data.length : ℤ) - ((s : ℤ) + conf.tables.minMatchLen - 1 - ctx.looked.length)
      ≤ fuel) :
    SearchSpec conf ctx.looked.length (ctx.looked ++ data) s
      (subScan conf ctx data fuel ((s : ℤ) + conf.tables.minMatchLen - 1 - ctx.looked.length)
        index) := by
  have hpos := hok.pos
  have hended : ∀ s index, s ≤ (ctx.looked ++ data).length →
      ResumeAt conf (ctx.looked ++ data) s index →
      (data.length : ℤ) ≤ (s : ℤ) + conf.tables.minMatchLen - 1 - ctx.looked.length →
      SearchSpec conf ctx.looked.length (ctx.looked ++ data) s
        (.ended ((s : ℤ) + conf.tables.minMatchLen - 1 - ctx.looked.length) index) := by
    intro s index hs hres hend
    have hlt : (ctx.looked ++ data).length < s + conf.tables.minMatchLen := by
      rw [length_append]
      omega
    refine ⟨s, ⟨rfl, Nat.le_refl s, fun i hi hlt => by omega⟩, hs, hlt, ?_⟩
    by_contra hne
    exact absurd (hres.live hne).1 (Nat.not_le.mpr hlt)
  induction fuel generalizing s index with
  | zero =>
    rw [subScan]
    exact hended s index hs hres (by omega)
  | succ fuel ih =>
    rw [subScan]
    split
    · rename_i hlt
      have hwin : s + conf.tables.minMatchLen ≤ (ctx.looked ++ data).length := by
        rw [length_append]
        omega
      have hplace : ((ctx.looked.length : ℤ)
          + ((s : ℤ) + conf.tables.minMatchLen - 1 - ctx.looked.length)).toNat
            = s + conf.tables.minMatchLen - 1 := by omega
      have hlow : (0 : ℤ) ≤ ctx.looked.length
          + ((s : ℤ) + conf.tables.minMatchLen - 1 - ctx.looked.length) := by omega
      simp only [subByte_eq hlow, hplace]
      split
      · -- A shift: there is no entry to go on with, and the places between are passed.
        rename_i hshift
        have hle := hok.shiftLe
          (tolower ((ctx.looked ++ data).getD (s + conf.tables.minMatchLen - 1) 0))
        have hzero : index = 0 := by
          by_contra hne
          obtain ⟨-, e, he, hkey⟩ := hres.live hne
          have hfar := hok.shift e (mem_of_getElem? he) 0 hpos
          rw [Nat.sub_zero] at hfar
          rw [hkey, SubMatch.key] at hshift
          omega
        subst hzero
        have hnext : (s : ℤ) + conf.tables.minMatchLen - 1 - ctx.looked.length
            + conf.tables.shift
              (tolower ((ctx.looked ++ data).getD (s + conf.tables.minMatchLen - 1) 0))
            = ((s + conf.tables.shift
              (tolower ((ctx.looked ++ data).getD (s + conf.tables.minMatchLen - 1) 0)) : ℕ) : ℤ)
              + conf.tables.minMatchLen - 1 - ctx.looked.length := by omega
        rw [hnext]
        refine (ih _ 0 (by omega) ⟨fun i hi => by omega, fun h => absurd rfl h⟩
          (by omega)).before (by omega) ?_
        exact fun i hi hlt => hok.shift_dead hwin hi hlt
      · have hbyte := (tolower
          ((ctx.looked ++ data).getD (s + conf.tables.minMatchLen - 1) 0)).toNat_lt
        obtain ⟨hnone, hsome⟩ := candidates_cases honce subMatch_place (hok.indexLe _ (by omega))
          fun k e hk hlive => hok.candidate hres hwin hk hlive
        split
        · rename_i k hfound
          obtain ⟨-, hbefore, e, he, hrc⟩ := hsome k _ hfound
          exact ⟨s, ⟨rfl, Nat.le_refl s, fun i hi hlt => by omega⟩, hbefore, e, he,
            matchRc_ok.mp hrc⟩
        · rename_i k rc hne hfound
          obtain ⟨hlive, hbefore, e, he, hrc⟩ := hsome k rc hfound
          have hagain : rc = .again := by
            cases rc with
            | ok => exact absurd rfl hne
            | again => rfl
            | declined => exact absurd rfl hlive
          obtain ⟨q, hq, hqne⟩ := matchRc_again.mp (hrc.trans hagain)
          exact ⟨s, ⟨rfl, Nat.le_refl s, fun i hi hlt => by omega⟩, hbefore, hwin, e, q, he, hq,
            hqne⟩
        · rename_i hfound
          have hnext : (s : ℤ) + conf.tables.minMatchLen - 1 - ctx.looked.length + 1
              = ((s + 1 : ℕ) : ℤ) + conf.tables.minMatchLen - 1 - ctx.looked.length := by omega
          rw [hnext]
          refine (ih _ 0 (by omega) ⟨fun i hi => by omega, fun h => absurd rfl h⟩
            (by omega)).before (by omega) ?_
          intro i hi hlt
          obtain rfl : i = s := by omega
          exact hnone hfound
    · rename_i hge
      exact hended s index hs hres (by omega)

/-- A text shorter than all patterns has none of them. -/
theorem TableOk.not_found (hok : TableOk conf.tables conf.table) {t : List UInt8}
    (ht : t.length < conf.tables.minMatchLen) (he : e ∈ conf.table) :
    compareRun t e.pattern ≠ some [] := by
  intro hfound
  have := compareRun_found_length hfound
  have := hok.len e he
  omega

/-- **The flush loop** passes places where all search strings differ. -/
theorem subFlush_spec (hok : TableOk conf.tables conf.table) (fuel s : ℕ)
    (hs : s ≤ (ctx.looked ++ data).length)
    (hend : (ctx.looked ++ data).length < s + conf.tables.minMatchLen)
    (hfuel : (data.length : ℤ) - ((s : ℤ) - ctx.looked.length) ≤ fuel) :
    ∃ t, Passed conf ctx.looked.length (ctx.looked ++ data) s t
        (subFlush conf ctx data fuel
          ((s : ℤ) + conf.tables.minMatchLen - 1 - ctx.looked.length)) ∧
      t ≤ (ctx.looked ++ data).length := by
  have hstay : Passed conf ctx.looked.length (ctx.looked ++ data) s s
      ((s : ℤ) + conf.tables.minMatchLen - 1 - ctx.looked.length) :=
    ⟨rfl, Nat.le_refl s, fun i hi hlt => by omega⟩
  induction fuel generalizing s with
  | zero => exact ⟨s, hstay, hs⟩
  | succ fuel ih =>
    rw [subFlush]
    split
    · exact ⟨s, hstay, hs⟩
    · rename_i hlt
      rw [start_offset conf] at hlt
      split
      · exact ⟨s, hstay, hs⟩
      · rename_i hany
        have hdead : Declines conf.table ((ctx.looked ++ data).drop s) := by
          intro e he
          by_contra hlive
          refine hany (any_eq_true.mpr ⟨e, he, ?_⟩)
          rw [decide_eq_true_eq, subMatch_place, matchRc_again]
          obtain ⟨q, hq⟩ := ne_none_iff_exists'.mp hlive
          refine ⟨q, hq, ?_⟩
          rintro rfl
          exact hok.not_found (by rw [length_drop]; omega) he hq
        have hnext : (s : ℤ) + conf.tables.minMatchLen - 1 - ctx.looked.length + 1
            = ((s + 1 : ℕ) : ℤ) + conf.tables.minMatchLen - 1 - ctx.looked.length := by omega
        have hlen : s + 1 ≤ (ctx.looked ++ data).length := by
          rw [length_append]
          omega
        rw [hnext]
        obtain ⟨t, hpass, ht⟩ := ih (s + 1) hlen (by omega) (by omega)
          ⟨rfl, Nat.le_refl _, fun i hi hlt => by omega⟩
        refine ⟨t, hpass.before (by omega) fun i hi hlt => ?_, ht⟩
        obtain rfl : i = s := by omega
        exact hdead

end Loop

end Hengine
