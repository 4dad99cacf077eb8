import Hengine.Http.SubSearch

/-!
# What the Substitution Filter Makes of a Response

`naiveSub` is plain replacement: at each place of the body the first entry of the table that
matches there is replaced, and the scan goes on behind it. The filter does this up to the
first place where the body ends inside a search string that stands before every one that
matches there: it waits for the rest of that search string, and when the body is over it
passes on what it has kept. `heldTail` is that end of the body, empty for most bodies.
-/

namespace Hengine

open List Option

/-! ### Replacement -/

/-- The first entry that matches at the start of a text, case-insensitively. -/
def firstMatch (table : List SubMatch) (t : List UInt8) : Option SubMatch :=
  table.find? fun e => e.pattern.isPrefixOf (t.map tolower)

/-- **Plain replacement**, from left to right. -/
@[grind =]
def naiveSub (table : List SubMatch) : List UInt8 → List UInt8
  | [] => []
  | c :: cs =>
    match firstMatch table (c :: cs) with
    | some e => e.value ++ naiveSub table (cs.drop (e.pattern.length - 1))
    | none => c :: naiveSub table cs
termination_by t => t.length
decreasing_by all_goals simp only [length_drop, length_cons]; omega

/-- The first entry that does not differ from a text, and whether it ends in it. -/
@[grind =]
def firstLive : List SubMatch → List UInt8 → Option (SubMatch × Bool)
  | [], _ => none
  | e :: es, t =>
    match compareRun t e.pattern with
    | none => firstLive es t
    | some q => some (e, q.isEmpty)

/-- Replacement up to where the text ends inside a search string. -/
@[grind =]
def heldSub (table : List SubMatch) : List UInt8 → List UInt8
  | [] => []
  | c :: cs =>
    match firstLive table (c :: cs) with
    | none => c :: heldSub table cs
    | some (e, true) => e.value ++ heldSub table (cs.drop (e.pattern.length - 1))
    | some (_, false) => c :: cs
termination_by t => t.length
decreasing_by all_goals simp only [length_drop, length_cons]; omega

/-- The end of a text from the first place where it ends inside a search string that stands
before all that match there. -/
@[grind =]
def heldTail (table : List SubMatch) : List UInt8 → List UInt8
  | [] => []
  | c :: cs =>
    match firstLive table (c :: cs) with
    | none => heldTail table cs
    | some (e, true) => heldTail table (cs.drop (e.pattern.length - 1))
    | some (_, false) => c :: cs
termination_by t => t.length
decreasing_by all_goals simp only [length_drop, length_cons]; omega

section Spec

variable {table : List SubMatch} {t : List UInt8} {e : SubMatch}

/-- No pattern is live when the table declines the text. -/
theorem firstLive_none : firstLive table t = none ↔ Declines table t := by
  induction table with
  | nil => exact iff_of_true rfl fun e he => by cases he
  | cons d ds ih =>
    rw [firstLive, Declines, forall_mem_cons]
    cases hd : compareRun t d.pattern with
    | none => exact ih.trans ⟨fun h => ⟨rfl, h⟩, fun h => h.2⟩
    | some q => simp

/-- The first that does not. -/
theorem firstLive_some {k : ℕ} {q : List UInt8} (hbefore : DeclinesBefore table k t)
    (he : table[k]? = some e) (hq : compareRun t e.pattern = some q) :
    firstLive table t = some (e, q.isEmpty) := by
  induction table generalizing k with
  | nil => simp at he
  | cons d ds ih =>
    rw [firstLive]
    cases k with
    | zero =>
      rw [getElem?_cons_zero, Option.some.injEq] at he
      subst he
      rw [hq]
    | succ k =>
      have hd : compareRun t d.pattern = none := hbefore 0 (Nat.succ_pos k) d rfl
      rw [hd]
      exact ih (fun i hi => hbefore (i + 1) (Nat.succ_lt_succ hi)) he

/-- The entry is one of the table. -/
theorem firstLive_mem {b : Bool} (h : firstLive table t = some (e, b)) :
    e ∈ table ∧ ∃ q, compareRun t e.pattern = some q ∧ q.isEmpty = b := by
  induction table with
  | nil => cases h
  | cons d ds ih =>
    rw [firstLive] at h
    cases hd : compareRun t d.pattern with
    | none =>
      rw [hd] at h
      exact ⟨mem_cons_of_mem d (ih h).1, (ih h).2⟩
    | some q =>
      simp only [hd, Option.some.injEq, Prod.mk.injEq] at h
      obtain ⟨rfl, rfl⟩ := h
      exact ⟨mem_cons_self, q, hd, rfl⟩

theorem firstMatch_none (h : firstLive table t = none) : firstMatch table t = none := by
  rw [firstMatch, find?_eq_none]
  intro d hd hpre
  rw [ isPrefixOf_iff_prefix, ← compareRun_found, firstLive_none.mp h d hd] at hpre
  cases hpre

/-- An entry that ends in the text before any other goes on matches. -/
theorem firstMatch_found (h : firstLive table t = some (e, true)) :
    firstMatch table t = some e := by
  rw [firstMatch]
  induction table with
  | nil => cases h
  | cons d ds ih =>
    rw [firstLive] at h
    cases hd : compareRun t d.pattern with
    | none =>
      rw [hd] at h
      rw [find?_cons_of_neg, ih h]
      intro hpre
      rw [ isPrefixOf_iff_prefix, ← compareRun_found, hd] at hpre
      cases hpre
    | some q =>
      simp only [hd, Option.some.injEq, Prod.mk.injEq, List.isEmpty_iff] at h
      obtain ⟨rfl, rfl⟩ := h
      rw [List.find?_cons_of_pos]
      rw [ isPrefixOf_iff_prefix, ← compareRun_found]
      exact hd

/-- **Up to the end that is kept** the filter's replacement and plain replacement agree. -/
theorem heldSub_tail (table : List SubMatch) (t : List UInt8) :
    ∃ out, heldSub table t = out ++ heldTail table t ∧
      naiveSub table t = out ++ naiveSub table (heldTail table t) := by
  induction t using heldSub.induct table with
  | case1 => exact ⟨[], by simp [heldSub, heldTail, naiveSub]⟩
  | case2 c cs hlive ih =>
    obtain ⟨out, h1, h2⟩ := ih
    refine ⟨c :: out, ?_, ?_⟩
    · rw [heldSub, heldTail, hlive]
      simp [h1]
    · rw [naiveSub, heldTail, hlive, firstMatch_none hlive]
      simp [h2]
  | case3 c cs e hlive ih =>
    obtain ⟨out, h1, h2⟩ := ih
    refine ⟨e.value ++ out, ?_, ?_⟩
    · rw [heldSub, heldTail, hlive]
      simp [h1]
    · rw [naiveSub, heldTail, hlive, firstMatch_found hlive]
      simp [h2]
  | case4 c cs e hlive =>
    refine ⟨[], ?_, ?_⟩
    · rw [heldSub, heldTail, hlive]
      rfl
    · rw [heldTail, hlive]
      rfl

/-! ### Places of a text -/

theorem heldSub_dead {c : UInt8} {cs : List UInt8} (h : Declines table (c :: cs)) :
    heldSub table (c :: cs) = c :: heldSub table cs := by
  rw [heldSub, firstLive_none.mpr h]

/-- A match is replaced. -/
theorem heldSub_found (h : firstLive table t = some (e, true)) (hpos : 0 < e.pattern.length) :
    heldSub table t = e.value ++ heldSub table (t.drop e.pattern.length) := by
  cases t with
  | nil =>
    obtain ⟨-, q, hq, hempty⟩ := firstLive_mem h
    rw [List.isEmpty_iff] at hempty
    subst hempty
    have := compareRun_found_length hq
    rw [length_nil] at this
    omega
  | cons c cs =>
    obtain ⟨n, hn⟩ := Nat.exists_eq_succ_of_ne_zero (Nat.ne_of_gt hpos)
    rw [heldSub, h]
    simp only [hn, drop_succ_cons, Nat.succ_sub_one]

theorem heldSub_part (h : firstLive table t = some (e, false)) : heldSub table t = t := by
  cases t with
  | nil => rw [heldSub]
  | cons c cs => rw [heldSub, h]

theorem Declines.append (h : Declines table t) (y : List UInt8) : Declines table (t ++ y) :=
  fun e he => compareRun_none_append (h e he) y

theorem DeclinesBefore.append {k : ℕ} (h : DeclinesBefore table k t) (y : List UInt8) :
    DeclinesBefore table k (t ++ y) :=
  fun i hi e he => compareRun_none_append (h i hi e he) y

/-- **The places that were passed are copied**, whatever follows. -/
theorem heldSub_passed {w : List UInt8} {s : ℕ}
    (h : ∀ i < s, Declines table (w.drop i)) (hs : s ≤ w.length) (y : List UInt8) :
    heldSub table (w ++ y) = w.take s ++ heldSub table (w.drop s ++ y) := by
  induction w generalizing s with
  | nil =>
    obtain rfl : s = 0 := by simpa using hs
    rfl
  | cons c cs ih =>
    cases s with
    | zero => rfl
    | succ s =>
      have hhead : Declines table (c :: cs) := h 0 (Nat.succ_pos s)
      rw [cons_append, heldSub_dead (by simpa using hhead.append y),
        ih (fun i hi => h (i + 1) (Nat.succ_lt_succ hi)) (by simpa using hs)]
      rfl

end Spec

/-! ### One call of the parser -/

/-- The context between two calls: `ctx->offset` stands for the start of `looked`, and
`ctx->index` for the entries that differ there. -/
structure SubCtxOk (conf : SubConf) (ctx : SubCtx) : Prop where
  notOnce : ctx.once = false
  offset : ctx.offset = (conf.tables.minMatchLen : ℤ) - 1 - ctx.looked.length
  resume : ResumeAt conf ctx.looked 0 ctx.index

section Parse

variable {conf : SubConf} {ctx : SubCtx} {data : List UInt8}

/-- A place to go on from stays one when bytes come behind. -/
theorem ResumeAt.append {w : List UInt8} {index : ℕ} (h : ResumeAt conf w 0 index)
    (hpos : 0 < conf.tables.minMatchLen) (y : List UInt8) : ResumeAt conf (w ++ y) 0 index := by
  refine ⟨?_, fun hne => ?_⟩
  · have := h.before.append y
    simpa using this
  · obtain ⟨hle, e, he, hkey⟩ := h.live hne
    refine ⟨by rw [length_append]; omega, e, he, ?_⟩
    rw [getD_append _ _ _ _ (by omega)]
    exact hkey

theorem ResumeAt.zero (w : List UInt8) (s : ℕ) : ResumeAt conf w s 0 :=
  ⟨fun i hi => by omega, fun h => absurd rfl h⟩

variable (ctx data) in
/-- **The end of a call**: what is sent is the text up to `s`, and what is kept and what is
left of the buffer is the text from `n`. -/
theorem subDone_spec (found : Option ℕ) (offset : ℤ) (index s n stop : ℕ)
    (hstop : n - ctx.looked.length ≤ stop) :
    (subDone ctx data found offset index (s - ctx.looked.length) (n - ctx.looked.length)
        stop).saved ++
      (subDone ctx data found offset index (s - ctx.looked.length) (n - ctx.looked.length)
        stop).copied = (ctx.looked ++ data).take s ∧
    (subDone ctx data found offset index (s - ctx.looked.length) (n - ctx.looked.length)
        stop).ctx.looked ++
      (subDone ctx data found offset index (s - ctx.looked.length) (n - ctx.looked.length)
        stop).rest = (ctx.looked ++ data).drop n := by
  have hmin : ∀ k : ℕ, ((ctx.looked.length : ℤ) + min ((k : ℤ) - ctx.looked.length) 0).toNat
      = min k ctx.looked.length := fun k => by omega
  have hmax : ∀ k : ℕ, (max ((k : ℤ) - ctx.looked.length) 0).toNat = k - ctx.looked.length :=
    fun k => by omega
  simp only [subDone, hmin, hmax]
  constructor
  · have htake : ctx.looked.take (min s ctx.looked.length) = ctx.looked.take s :=
      take_eq_take_min.symm
    rw [take_append, htake]
  · have hkept : ctx.looked.drop (min n ctx.looked.length) = ctx.looked.drop n := by
      rcases Nat.le_total n ctx.looked.length with hle | hle
      · rw [Nat.min_eq_left hle]
      · rw [Nat.min_eq_right hle, drop_length, drop_eq_nil_of_le hle]
    have hrest : data.drop stop
        = (data.drop (n - ctx.looked.length)).drop (stop - (n - ctx.looked.length)) := by
      rw [drop_drop]
      congr 1
      omega
    rw [hkept, hrest, append_assoc, take_append_drop, drop_append]

/-- A text shorter than the window is copied. -/
theorem heldSub_short (hok : TableOk conf.tables conf.table) {t : List UInt8}
    (ht : t.length < conf.tables.minMatchLen) : heldSub conf.table t = t := by
  induction t with
  | nil => rw [heldSub]
  | cons c cs ih =>
    rw [heldSub]
    split
    · rw [ih (by rw [length_cons] at ht; omega)]
    · rename_i e hlive
      obtain ⟨he, q, hq, hempty⟩ := firstLive_mem hlive
      rw [List.isEmpty_iff] at hempty
      subst hempty
      exact absurd hq (hok.not_found ht he)
    · rfl

/-- A call that finds nothing: the buffer is used up. -/
structure ParsedAgain (conf : SubConf) (ctx : SubCtx) (data : List UInt8) (p : SubParsed) :
    Prop where
  found : p.found = none
  rest : p.rest = []
  ok : SubCtxOk conf p.ctx
  held : heldSub conf.table p.ctx.looked = p.ctx.looked
  sent : ∀ y, heldSub conf.table (ctx.looked ++ data ++ y)
    = p.saved ++ p.copied ++ heldSub conf.table (p.ctx.looked ++ y)

/-- A call that finds an entry: less of the text is left. -/
structure ParsedFound (conf : SubConf) (ctx : SubCtx) (data : List UInt8) (p : SubParsed) (i : ℕ)
    (e : SubMatch) : Prop where
  found : p.found = some i
  entry : conf.table[i]? = some e
  ok : SubCtxOk conf (p.ctx.apply conf i)
  less : (p.ctx.looked ++ p.rest).length < (ctx.looked ++ data).length
  held : p.rest = [] → p.ctx.looked = []
  sent : ∀ y, heldSub conf.table (ctx.looked ++ data ++ y)
    = p.saved ++ p.copied ++ e.value ++ heldSub conf.table (p.ctx.looked ++ p.rest ++ y)

/-- From `again`: the text is kept from the place where the search stopped. -/
theorem subAgain_spec (honce : ctx.once = false) {t index : ℕ} {offset : ℤ}
    (hpass : Passed conf ctx.looked.length (ctx.looked ++ data) 0 t offset)
    (ht : t ≤ (ctx.looked ++ data).length)
    (hres : ResumeAt conf ((ctx.looked ++ data).drop t) 0 index)
    (hheld : heldSub conf.table ((ctx.looked ++ data).drop t) = (ctx.looked ++ data).drop t) :
    ParsedAgain conf ctx data (subAgain conf ctx data offset index) := by
  obtain ⟨rfl, -, hdead⟩ := hpass
  have hlen := @List.length_append _ ctx.looked data
  have hrest : (subAgain conf ctx data
      ((t : ℤ) + conf.tables.minMatchLen - 1 - ctx.looked.length) index).rest = [] :=
    drop_length
  obtain ⟨hsent, hkept⟩ := subDone_spec ctx data none
    ((t : ℤ) + conf.tables.minMatchLen - 1 - ctx.looked.length) index t t data.length
    (by omega)
  rw [← start_offset conf] at hsent hkept
  have hlooked : (subAgain conf ctx data
      ((t : ℤ) + conf.tables.minMatchLen - 1 - ctx.looked.length) index).ctx.looked
        = (ctx.looked ++ data).drop t := by
    have happ := hkept
    rw [← subAgain, hrest, append_nil] at happ
    exact happ
  refine ⟨rfl, hrest, ⟨honce, ?_, ?_⟩, ?_, fun y => ?_⟩
  · rw [hlooked, length_drop]
    simp only [subAgain, subDone]
    omega
  · rw [hlooked]
    exact hres
  · rw [hlooked]
    exact hheld
  · rw [hlooked, heldSub_passed (fun i hi => hdead i (Nat.zero_le i) hi) ht]
    exact congrArg (· ++ _) hsent.symm

/-- From a match: what stands before it is sent, and the search goes on behind it. -/
theorem subFound_spec (hok : TableOk conf.tables conf.table) (hconf : conf.once = false)
    (hdata : data ≠ []) {t k : ℕ} {offset : ℤ} {e : SubMatch}
    (hpass : Passed conf ctx.looked.length (ctx.looked ++ data) 0 t offset)
    (hbefore : DeclinesBefore conf.table k ((ctx.looked ++ data).drop t))
    (he : conf.table[k]? = some e)
    (hfound : compareRun ((ctx.looked ++ data).drop t) e.pattern = some []) :
    ParsedFound conf ctx data
      (subDone ctx data (some k) (offset + e.pattern.length) k (conf.start offset)
        (conf.start offset + e.pattern.length)
        (max (conf.start offset + e.pattern.length) 0).toNat) k e := by
  obtain ⟨rfl, -, hdead⟩ := hpass
  have hlen := @List.length_append _ ctx.looked data
  have hpat : 0 < e.pattern.length :=
    Nat.lt_of_lt_of_le hok.pos (hok.len e (mem_of_getElem? he))
  have hfit := compareRun_found_length hfound
  rw [length_drop] at hfit
  have hnext : conf.start ((t : ℤ) + conf.tables.minMatchLen - 1 - ctx.looked.length)
      + e.pattern.length = ((t + e.pattern.length : ℕ) : ℤ) - ctx.looked.length := by
    rw [start_offset conf]
    omega
  rw [hnext, start_offset conf]
  have hstop : (max (((t + e.pattern.length : ℕ) : ℤ) - ctx.looked.length) 0).toNat
      = t + e.pattern.length - ctx.looked.length := by omega
  rw [hstop]
  obtain ⟨hsent, hkept⟩ := subDone_spec ctx data (some k)
    ((t : ℤ) + conf.tables.minMatchLen - 1 - ctx.looked.length + e.pattern.length) k t
    (t + e.pattern.length) (t + e.pattern.length - ctx.looked.length) (Nat.le_refl _)
  have hlooked : (subDone ctx data (some k)
      ((t : ℤ) + conf.tables.minMatchLen - 1 - ctx.looked.length + e.pattern.length) k
      ((t : ℤ) - ctx.looked.length) (((t + e.pattern.length : ℕ) : ℤ) - ctx.looked.length)
      (t + e.pattern.length - ctx.looked.length)).ctx.looked.length
        = ctx.looked.length - (t + e.pattern.length) := by
    simp only [subDone, length_append, length_drop, length_take, hstop, Nat.sub_self, Nat.zero_min,
      Nat.add_zero]
    omega
  refine ⟨rfl, he, ⟨?_, ?_, ResumeAt.zero _ _⟩, ?_, ?_, fun y => ?_⟩
  · simp [SubCtx.apply, hconf]
  · have hoff : ((subDone ctx data (some k)
        ((t : ℤ) + conf.tables.minMatchLen - 1 - ctx.looked.length + e.pattern.length) k
        ((t : ℤ) - ctx.looked.length) (((t + e.pattern.length : ℕ) : ℤ) - ctx.looked.length)
        (t + e.pattern.length - ctx.looked.length)).ctx.apply conf k).offset
          = (t : ℤ) + conf.tables.minMatchLen - 1 - ctx.looked.length + e.pattern.length
            - (t + e.pattern.length - ctx.looked.length : ℕ) := rfl
    rw [hoff]
    simp only [SubCtx.apply, hlooked]
    omega
  · rw [hkept, length_drop]
    omega
  · intro hrest
    have hdrop : (data.drop (t + e.pattern.length - ctx.looked.length)).length = 0 := by
      rw [← length_nil (α := UInt8)]
      exact congrArg List.length hrest
    have hpos := length_pos_of_ne_nil hdata
    rw [length_drop] at hdrop
    refine length_eq_zero_iff.mp (hlooked.trans ?_)
    omega
  · have hstill : compareRun ((ctx.looked ++ data).drop t ++ y) e.pattern = some [] := by
      rw [compareRun_append, hfound, bind_some, compareRun_nil]
    rw [hkept, heldSub_passed (fun i hi => hdead i (Nat.zero_le i) hi) (by omega), hsent,
      heldSub_found (firstLive_some (hbefore.append y) he hstill) hpat,
      drop_append_of_le_length (by rw [length_drop]; omega), drop_drop,
      append_assoc]

/-- **One call of the parser.** -/
theorem subParse_spec (hok : TableOk conf.tables conf.table) (hconf : conf.once = false)
    (h : SubCtxOk conf ctx) (hdata : data ≠ []) (flush : Bool) :
    ParsedAgain conf ctx data (subParse conf ctx data flush) ∨
      ∃ i e, ParsedFound conf ctx data (subParse conf ctx data flush) i e := by
  have hpos := hok.pos
  have hoff : ctx.offset = ((0 : ℕ) : ℤ) + conf.tables.minMatchLen - 1 - ctx.looked.length := by
    rw [h.offset]
    omega
  have hscan := subScan_spec ctx data hok hconf
    (data.length - ctx.offset).toNat 0 ctx.index (Nat.zero_le _) (h.resume.append hpos data)
    (by omega)
  rw [← hoff] at hscan
  rw [subParse, if_neg (by simp [h.notOnce])]
  split
  · rename_i k offset hstop
    rw [hstop] at hscan
    obtain ⟨t, hpass, hbefore, e, he, hfound⟩ := hscan
    simp only [he, map_some, getD_some]
    exact Or.inr ⟨k, e, subFound_spec hok hconf hdata hpass hbefore he hfound⟩
  · rename_i k offset hstop
    rw [hstop] at hscan
    obtain ⟨t, hpass, hbefore, hwin, e, q, he, hq, hqne⟩ := hscan
    have hlive := firstLive_some hbefore he hq
    rw [isEmpty_eq_false_iff.mpr hqne] at hlive
    refine Or.inl (subAgain_spec h.notOnce hpass (by omega) ⟨by simpa using hbefore, fun _ => ?_⟩
      (heldSub_part hlive))
    refine ⟨by rw [length_drop]; omega, e, he, ?_⟩
    have hkey := hok.key_eq hwin (mem_of_getElem? he) (by simp [hq])
      (j := conf.tables.minMatchLen - 1) (by omega)
    rw [getD_eq_getElem?_getD, getElem?_drop, ← getD_eq_getElem?_getD, Nat.zero_add]
    exact hkey
  · rename_i offset index hstop
    rw [hstop] at hscan
    obtain ⟨t, hpass, ht, hend, rfl⟩ := hscan
    split
    · have hfuel : (data.length : ℤ) - ((t : ℤ) - ctx.looked.length)
          ≤ ((data.length - conf.start offset).toNat : ℤ) := by
        rw [hpass.offset_eq, start_offset conf]
        omega
      obtain ⟨r, hflush, hr⟩ := subFlush_spec hok _ t ht hend hfuel
      rw [← hpass.offset_eq] at hflush
      refine Or.inl (subAgain_spec h.notOnce (hflush.before hpass.le hpass.dead) hr
        (ResumeAt.zero _ _) (heldSub_short hok ?_))
      have := hflush.le
      rw [length_drop]
      omega
    · refine Or.inl (subAgain_spec h.notOnce hpass ht (ResumeAt.zero _ _) (heldSub_short hok ?_))
      rw [length_drop]
      omega

end Parse

/-! ### Whole responses -/

/-- The context between two buffers. -/
structure BetweenOk (conf : SubConf) (ctx : SubCtx) : Prop where
  ok : SubCtxOk conf ctx
  held : heldSub conf.table ctx.looked = ctx.looked

theorem subBytes_append (x y : List SubBuf) : subBytes (x ++ y) = subBytes x ++ subBytes y := by
  simp [subBytes]

theorem subBytes_cons (b : SubBuf) (x : List SubBuf) : subBytes (b :: x) = b.data ++ subBytes x := by
  simp [subBytes]

theorem subBytes_copied (b : SubBuf) (p : SubParsed) :
    subBytes (subCopied b p) = p.saved ++ p.copied := by
  rw [subCopied]
  split <;> split <;> simp_all [subBytes]

theorem subReplacement_data {conf : SubConf} {i : ℕ} {e : SubMatch} (he : conf.table[i]? = some e) :
    (subReplacement conf i).data = e.value := by
  simp only [subReplacement, he, map_some, getD_some]
  split
  · rename_i hnil
    exact hnil.symm
  · rfl

/-- Flags are no bytes. -/
theorem subBytes_finish (b : SubBuf) (out : List SubBuf) :
    subBytes (subFinish b out) = subBytes out := by
  rw [subFinish]
  split
  · cases h : out.getLast? with
    | none =>
      rw [getLast?_eq_none_iff] at h
      subst h
      rfl
    | some last =>
      obtain ⟨init, rfl⟩ := getLast?_eq_some_iff.mp h
      simp only [dropLast_concat, subBytes_append]
      rfl
  · rfl

section Run

variable {conf : SubConf}

section

variable (hok : TableOk conf.tables conf.table)
include hok

section

variable (hconf : conf.once = false)
include hconf

/-- **The loop over a buffer** sends what is decided, whatever follows. -/
theorem subLoop_spec (b : SubBuf) (flush : Bool) (fuel : ℕ) (ctx : SubCtx) (data : List UInt8)
    (h : SubCtxOk conf ctx) (hheld : data = [] → heldSub conf.table ctx.looked = ctx.looked)
    (hfuel : (ctx.looked ++ data).length < fuel) :
    BetweenOk conf (subLoop conf b flush fuel ctx data).1 ∧
      ∀ y, heldSub conf.table (ctx.looked ++ data ++ y)
        = subBytes (subLoop conf b flush fuel ctx data).2 ++
          heldSub conf.table ((subLoop conf b flush fuel ctx data).1.looked ++ y) := by
  induction fuel generalizing ctx data with
  | zero => omega
  | succ fuel ih =>
    rw [subLoop]
    split
    · rename_i hnil
      subst hnil
      exact ⟨⟨h, hheld rfl⟩, fun y => by rw [append_nil]; rfl⟩
    · rename_i hne
      rcases subParse_spec hok hconf h hne flush with hagain | ⟨i, e, hfound⟩
      · -- The buffer is used up: the next turn ends the loop.
        simp only [hagain.found]
        have hpos : 0 < fuel := by
          have := length_pos_of_ne_nil hne
          rw [length_append] at hfuel
          omega
        obtain ⟨f, rfl⟩ := Nat.exists_eq_succ_of_ne_zero (Nat.ne_of_gt hpos)
        have hend : subLoop conf b flush (f + 1) (subParse conf ctx data flush).ctx
            (subParse conf ctx data flush).rest = ((subParse conf ctx data flush).ctx, []) := by
          rw [subLoop, if_pos hagain.rest]
        rw [Nat.succ_eq_add_one, hend]
        refine ⟨⟨hagain.ok, hagain.held⟩, fun y => ?_⟩
        rw [hagain.sent y, subBytes_append, subBytes_copied]
        simp [subBytes]
      · simp only [hfound.found]
        have hless := hfound.less
        obtain ⟨hbetween, hsent⟩ := ih _ (subParse conf ctx data flush).rest hfound.ok
          (fun hnil => by
            have hlooked : ((subParse conf ctx data flush).ctx.apply conf i).looked = [] :=
              hfound.held hnil
            rw [hlooked, heldSub])
          (by
            have hsame : ((subParse conf ctx data flush).ctx.apply conf i).looked
                = (subParse conf ctx data flush).ctx.looked := rfl
            rw [hsame]
            omega)
        refine ⟨hbetween, fun y => ?_⟩
        have hgoes : heldSub conf.table ((subParse conf ctx data flush).ctx.looked ++
            (subParse conf ctx data flush).rest ++ y)
              = subBytes (subLoop conf b flush fuel
                  ((subParse conf ctx data flush).ctx.apply conf i)
                  (subParse conf ctx data flush).rest).2 ++
                heldSub conf.table ((subLoop conf b flush fuel
                  ((subParse conf ctx data flush).ctx.apply conf i)
                  (subParse conf ctx data flush).rest).1.looked ++ y) := hsent y
        rw [hfound.sent y, hgoes, subBytes_append, subBytes_cons, subBytes_copied,
          subReplacement_data hfound.entry]
        simp

section

variable {ctx : SubCtx} (h : BetweenOk conf ctx)
include h

/-- **A buffer in the middle**: what is passed on and what is held back is what was held back,
replaced. -/
theorem subBuffer_spec (flush : Bool) {b : SubBuf} (hb : (b.lastBuf || b.lastInChain) = false) :
    BetweenOk conf (subBuffer conf flush ctx b).1 ∧
      ∀ y, heldSub conf.table (ctx.looked ++ b.data ++ y)
        = subBytes (subBuffer conf flush ctx b).2 ++
          heldSub conf.table ((subBuffer conf flush ctx b).1.looked ++ y) := by
  obtain ⟨hbetween, hsent⟩ := subLoop_spec hok hconf b flush
    (ctx.looked.length + b.data.length + 1) ctx b.data h.ok (fun _ => h.held)
    (by rw [length_append]; omega)
  rw [subBuffer, if_neg (by simp [hb])]
  refine ⟨hbetween, fun y => ?_⟩
  rw [subBytes_finish]
  exact hsent y

/-- **The last buffer**: what was kept is passed on. -/
theorem subBuffer_last (flush : Bool) {b : SubBuf} (hb : (b.lastBuf || b.lastInChain) = true) :
    subBytes (subBuffer conf flush ctx b).2 = heldSub conf.table (ctx.looked ++ b.data) := by
  obtain ⟨hbetween, hsent⟩ := subLoop_spec hok hconf b flush
    (ctx.looked.length + b.data.length + 1) ctx b.data h.ok (fun _ => h.held)
    (by rw [length_append]; omega)
  have hall := hsent []
  rw [append_nil, append_nil, hbetween.held] at hall
  rw [subBuffer]
  split
  · rw [subBytes_finish, subBytes_append, hall]
    simp [subBytes]
  · rename_i hnone
    have hnil : (subLoop conf b flush (ctx.looked.length + b.data.length + 1) ctx
        b.data).1.looked = [] := by
      by_contra hne
      exact hnone ⟨hne, by simpa using hb⟩
    rw [subBytes_finish, hall, hnil, append_nil]

/-- A chain that does not end the response. -/
theorem subBuffers_spec (flush : Bool) {bs : List SubBuf}
    (hbs : ∀ b ∈ bs, (b.lastBuf || b.lastInChain) = false) :
    BetweenOk conf (subBuffers conf flush ctx bs).1 ∧
      ∀ y, heldSub conf.table (ctx.looked ++ subBytes bs ++ y)
        = subBytes (subBuffers conf flush ctx bs).2 ++
          heldSub conf.table ((subBuffers conf flush ctx bs).1.looked ++ y) := by
  induction bs generalizing ctx flush with
  | nil => exact ⟨h, fun y => by simp [subBuffers, subBytes]⟩
  | cons b bs ih =>
    rw [subBuffers]
    obtain ⟨hbetween, hsent⟩ := subBuffer_spec hok hconf h
      (bs.isEmpty && (flush || b.flush || b.recycled)) (hbs b (by simp))
    obtain ⟨hrest, hsentRest⟩ := ih hbetween (flush || b.flush || b.recycled)
      fun c hc => hbs c (by simp [hc])
    refine ⟨hrest, fun y => ?_⟩
    have hgoes := hsentRest y
    rw [append_assoc] at hgoes
    rw [subBytes_cons, subBytes_append, append_assoc (subBytes _), ← hgoes, ← hsent]
    simp

/-- The chain that ends the response. -/
theorem subBuffers_last (flush : Bool) {bs : List SubBuf} {last : SubBuf}
    (hbs : ∀ b ∈ bs, (b.lastBuf || b.lastInChain) = false)
    (hlast : (last.lastBuf || last.lastInChain) = true) :
    subBytes (subBuffers conf flush ctx (bs ++ [last])).2
      = heldSub conf.table (ctx.looked ++ subBytes (bs ++ [last])) := by
  induction bs generalizing ctx flush with
  | nil =>
    rw [nil_append, subBuffers, subBytes_append, subBuffer_last hok hconf h _ hlast,
      subBytes_cons]
    simp [subBuffers, subBytes]
  | cons b bs ih =>
    rw [cons_append, subBuffers]
    obtain ⟨hbetween, hsent⟩ := subBuffer_spec hok hconf h
      ((bs ++ [last]).isEmpty && (flush || b.flush || b.recycled)) (hbs b (by simp))
    have hrest := ih hbetween (flush || b.flush || b.recycled) fun c hc => hbs c (by simp [hc])
    have hall := hsent (subBytes (bs ++ [last]))
    rw [subBytes_append, hrest, ← hall, subBytes_cons, append_assoc]

end

end

end

end Run

/-- A response as the body filter gets it: the chains of its calls, of which the last ends
with the only buffer that is marked as the last. -/
structure SubResponse where
  before : List (List SubBuf)
  chain : List SubBuf
  last : SubBuf
  isLast : (last.lastBuf || last.lastInChain) = true
  beforeNot : ∀ c ∈ before, ∀ b ∈ c, (b.lastBuf || b.lastInChain) = false
  chainNot : ∀ b ∈ chain, (b.lastBuf || b.lastInChain) = false

/-- The chains. -/
def SubResponse.chains (r : SubResponse) : List (List SubBuf) := r.before ++ [r.chain ++ [r.last]]

/-- The body. -/
def SubResponse.body (r : SubResponse) : List UInt8 := subBytes r.chains.flatten

/-- The calls of the filter for a response. -/
theorem subCalls_held {conf : SubConf} (hok : TableOk conf.tables conf.table)
    (hconf : conf.once = false) {ctx : SubCtx} (h : BetweenOk conf ctx) {chain : List SubBuf}
    {last : SubBuf} (hlast : (last.lastBuf || last.lastInChain) = true)
    (hchain : ∀ b ∈ chain, (b.lastBuf || b.lastInChain) = false) {before : List (List SubBuf)}
    (hbefore : ∀ c ∈ before, ∀ b ∈ c, (b.lastBuf || b.lastInChain) = false) :
    subBytes (subCalls conf ctx (before ++ [chain ++ [last]]))
      = heldSub conf.table (ctx.looked ++ subBytes (before ++ [chain ++ [last]]).flatten) := by
  induction before generalizing ctx with
  | nil =>
    rw [nil_append, subCalls, subBodyFilter, if_neg (by simp [h.ok.notOnce]),
      subBytes_append, subBuffers_last hok hconf h false hchain hlast, flatten_singleton]
    simp [subCalls, subBytes]
  | cons c cs ih =>
    obtain ⟨hbetween, hsent⟩ := subBuffers_spec hok hconf h false (hbefore c (by simp))
    rw [cons_append, subCalls, subBodyFilter, if_neg (by simp [h.ok.notOnce]),
      subBytes_append, ih hbetween fun d hd => hbefore d (by simp [hd]), ← hsent,
      flatten_cons, subBytes_append, append_assoc]

/-- **The output of the filter**, for every division of the body into buffers. -/
theorem subFilter_held (conf : SubConf) (hconf : conf.once = false) (r : SubResponse) :
    subBytes (subFilter conf r.chains) = heldSub conf.table r.body := by
  rw [subFilter]
  split
  · rename_i hnone
    have htable : conf.table = [] := by rw [SubConf.table, hnone]; rfl
    have hcopy : ∀ t, heldSub [] t = t := by
      intro t
      induction t with
      | nil => rw [heldSub]
      | cons c cs ih => rw [heldSub_dead (fun e he => by cases he), ih]
    rw [htable, hcopy, SubResponse.body]
  · rename_i hsome
    have hok := conf.tableOk hsome
    have hfresh : BetweenOk conf conf.freshCtx := by
      refine ⟨⟨rfl, ?_, ResumeAt.zero _ _⟩, by rw [SubConf.freshCtx, heldSub]⟩
      simp [SubConf.freshCtx]
    rw [SubResponse.chains, subCalls_held hok hconf hfresh r.isLast r.chainNot r.beforeNot]
    rfl

/-- **The substitution filter and plain replacement**: without `once`, the output is that of
plain replacement exactly when plain replacement does not change the end of the body that the
filter keeps. -/
theorem subFilter_naive (conf : SubConf) (hconf : conf.once = false) (r : SubResponse) :
    subBytes (subFilter conf r.chains) = naiveSub conf.table r.body ↔
      naiveSub conf.table (heldTail conf.table r.body) = heldTail conf.table r.body := by
  obtain ⟨out, hheld, hnaive⟩ := heldSub_tail conf.table r.body
  rw [subFilter_held conf hconf r, hheld, hnaive, append_cancel_left_eq]
  exact eq_comm

/-- Two search strings, one of them the start of the other. -/
def nestedConf : SubConf :=
  ⟨[⟨[97, 98, 99, 100, 101, 102], [88]⟩, ⟨[97, 98, 99], [89]⟩], false, by simp⟩

/-- A response in one buffer, which is the last. -/
def oneBuffer (data : List UInt8) : SubResponse where
  before := []
  chain := []
  last := { data := data, memory := true, lastBuf := true }
  isLast := rfl
  beforeNot := forall_mem_nil _
  chainNot := forall_mem_nil _

/-- `abcdefABCx` in two buffers that are cut inside `abcdef`. -/
def cutResponse : SubResponse where
  before := [[{ data := [97, 98, 99, 100], memory := true, flush := true }]]
  chain := []
  last := { data := [101, 102, 65, 66, 67, 120], memory := true, lastBuf := true }
  isLast := rfl
  beforeNot := by simp
  chainNot := forall_mem_nil _

theorem nestedConf_table :
    nestedConf.table = [⟨[97, 98, 99, 100, 101, 102], [88]⟩, ⟨[97, 98, 99], [89]⟩] := by
  decide

/-- The longer search string is replaced across the cut, and the shorter one behind it. -/
theorem subFilter_naive_cut :
    subBytes (subFilter nestedConf cutResponse.chains)
      = naiveSub nestedConf.table cutResponse.body := by
  refine (subFilter_naive nestedConf rfl cutResponse).mpr ?_
  have htail : heldTail nestedConf.table cutResponse.body = [] := by
    have hbody : cutResponse.body = [97, 98, 99, 100, 101, 102, 65, 66, 67, 120] := by
      decide
    rw [nestedConf_table, hbody]
    simp +decide [heldTail, firstLive, compareRun]
  rw [htail, naiveSub]

/-- **The end of the body is not replaced**: the body is `abc`, and it ends inside
`abcdef`. -/
theorem subFilter_keeps :
    subBytes (subFilter nestedConf (oneBuffer [97, 98, 99]).chains) = [97, 98, 99] ∧
      naiveSub nestedConf.table (oneBuffer [97, 98, 99]).body = [89] := by
  refine ⟨by decide +kernel, ?_⟩
  have hbody : (oneBuffer [97, 98, 99]).body = [97, 98, 99] := by decide
  rw [nestedConf_table, hbody]
  simp +decide [naiveSub, firstMatch]

end Hengine
