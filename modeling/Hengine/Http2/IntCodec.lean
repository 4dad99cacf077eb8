import Mathlib.Data.List.TakeWhile
import Mathlib.Tactic.Ring

/-!
# Numbers of a header block

The model of `ngx_http_v2_parse_int` in `ngx_http_v2.c` and `ngx_http_v2_write_int` in
`ngx_http_v2_encode.c`.

A number begins in the low bits of an octet. If it does not fit there these are all set, and the rest
follows in groups of seven bits, the lowest first, each in an octet whose highest bit says that there are
more. The parser reads four octets at most. What it may read is bounded twice: by what has come in, and by
`h2c->state.length`, what is left of the block.
-/

namespace Hengine.HpackInt

open List

/-- `NGX_HTTP_V2_INT_OCTETS` -/
def intOctets : ℕ := 4

/-- `ngx_http_v2_prefix`. -/
def prefixOf (bits : ℕ) : ℕ := 2 ^ bits - 1

/-! ### The parser and the writer -/

/-- The results of `ngx_http_v2_parse_int`: `NGX_ERROR`, `NGX_DECLINED`, `NGX_AGAIN`, or the value and
the number of octets by which `*pos` moves on and `h2c->state.length` decreases. -/
inductive IntResult
  | error
  | declined
  | again
  | ok (value used : ℕ)
  deriving DecidableEq

/-- The loop over the groups up to `end`. `used` is `p - start`, and `none` is that the loop has come to
`end`. -/
@[grind =]
def intLoop (length : ℕ) : List UInt8 → ℕ → ℕ → ℕ → Option IntResult
  | [], _, _, _ => none
  | octet :: p, used, shift, value =>
    let value := (value + ((octet.toNat &&& 0x7f) <<< shift) % 2 ^ 64) % 2 ^ 64
    if octet < 128 then
      if length < used + 1 then some .error else some (.ok value (used + 1))
    else intLoop length p (used + 1) (shift + 7) value

/-- `ngx_http_v2_parse_int`: `first` is the octet at `*pos`, and `rest` is what has come in behind it. -/
def parseInt (length : ℕ) (first : UInt8) (rest : List UInt8) (pre : ℕ) : IntResult :=
  let value := first.toNat &&& pre
  if value ≠ pre then
    if length = 0 then .error else .ok value 1
  else
    let rest := rest.take (intOctets - 1)
    match intLoop length rest 1 0 value with
    | some r => r
    | none =>
      if length ≤ rest.length + 1 then .error
      else if rest.length + 1 = intOctets then .declined
      else .again

/-- The loop of `ngx_http_v2_write_int`. -/
def writeGroups (value : ℕ) : List UInt8 :=
  if 128 ≤ value then .ofNat (value % 128 + 128) :: writeGroups (value / 128) else [.ofNat value]
  decreasing_by omega

/-- `ngx_http_v2_write_int`, where `flags` is what stands at `pos`. -/
def writeInt (flags : UInt8) (pre value : ℕ) : UInt8 × List UInt8 :=
  if value < pre then (flags ||| .ofNat value, [])
  else (flags ||| .ofNat pre, writeGroups (value - pre))

/-! ### Groups -/

/-- The number that groups stand for. -/
def groupsValue : List UInt8 → ℕ
  | [] => 0
  | octet :: p => octet.toNat % 128 + 128 * groupsValue p

/-- There are more groups. -/
def more (octet : UInt8) : Bool := 128 ≤ octet

/-- The groups of the number that begins here, with the last one. -/
def groups (p : List UInt8) : List UInt8 := p.take ((p.takeWhile more).length + 1)

theorem groupsValue_lt (p : List UInt8) : groupsValue p < 128 ^ p.length := by
  induction p with
  | nil => exact Nat.one_pos
  | cons octet p ih =>
    rw [groupsValue, length_cons, Nat.pow_succ]
    have := Nat.mod_lt octet.toNat (by decide : 0 < 128)
    omega

theorem groups_cons_more {octet : UInt8} (h : more octet = true) (p : List UInt8) :
    groups (octet :: p) = octet :: groups p := by
  rw [groups, takeWhile_cons_of_pos h, length_cons, take_succ_cons, groups]

theorem groups_cons_last {octet : UInt8} (h : more octet ≠ true) (p : List UInt8) :
    groups (octet :: p) = [octet] := by
  rw [groups, takeWhile_cons_of_neg h]
  rfl

theorem length_groups_le (p : List UInt8) : (groups p).length ≤ p.length :=
  (take_sublist _ _).length_le

/-- **The loop** comes to its end if all octets say that there are more, and else gives the number. -/
theorem intLoop_eq (length : ℕ) : ∀ (p : List UInt8) (used shift value : ℕ),
    value + 2 ^ shift * 128 ^ p.length < 2 ^ 64 + 2 ^ shift → intLoop length p used shift value =
      if p.all more then none
      else if length < used + (groups p).length then some .error
      else some (.ok (value + 2 ^ shift * groupsValue (groups p)) (used + (groups p).length)) := by
  intro p
  induction p with
  | nil => exact fun _ _ _ _ => rfl
  | cons octet p ih =>
    intro used shift value hfits
    have hone : 1 ≤ 128 ^ p.length := Nat.one_le_pow _ _ (by decide)
    have hmod := Nat.mod_lt octet.toNat (by decide : 0 < 128)
    have hgroup : 2 ^ shift * (octet.toNat % 128) ≤ 2 ^ shift * 127 :=
      Nat.mul_le_mul_left _ (by omega)
    have hpow : 2 ^ (shift + 7) = 2 ^ shift * 128 := Nat.pow_add 2 shift 7
    have hrest : 2 ^ shift * 128 ^ (octet :: p).length = 2 ^ (shift + 7) * 128 ^ p.length := by
      rw [length_cons, Nat.pow_succ, hpow]
      ring
    have hleft : 2 ^ (shift + 7) ≤ 2 ^ (shift + 7) * 128 ^ p.length := Nat.le_mul_of_pos_right _ hone
    have hvalue : (value + ((octet.toNat &&& 0x7f) <<< shift) % 2 ^ 64) % 2 ^ 64 =
        value + 2 ^ shift * (octet.toNat % 128) := by
      rw [show octet.toNat &&& 0x7f = octet.toNat % 128 from Nat.and_two_pow_sub_one_eq_mod _ 7,
        Nat.shiftLeft_eq, Nat.mul_comm, Nat.mod_eq_of_lt (b := 2 ^ 64) (by omega),
        Nat.mod_eq_of_lt (by omega)]
    rw [intLoop, hvalue, all_cons]
    by_cases hmore : more octet = true
    · have hlast : ¬ octet < 128 := by simpa [more] using hmore
      rw [if_neg hlast, ih _ _ _ (by omega), hmore, Bool.true_and, groups_cons_more hmore,
        length_cons, groupsValue]
      have hused : used + 1 + (groups p).length = used + ((groups p).length + 1) := by omega
      have hsum : value + 2 ^ shift * (octet.toNat % 128) + 2 ^ (shift + 7) * groupsValue (groups p) =
          value + 2 ^ shift * (octet.toNat % 128 + 128 * groupsValue (groups p)) := by
        rw [hpow]
        ring
      rw [hused, hsum]
    · have hlast : octet < 128 := by simpa [more] using hmore
      have hfalse : more octet = false := by simpa using hmore
      rw [if_pos hlast, groups_cons_last hmore, hfalse, Bool.false_and,
        if_neg Bool.false_ne_true, length_singleton]
      simp [groupsValue]

/-! ### What is read -/

variable {length pre : ℕ} {first : UInt8} {rest : List UInt8}

/-- The groups that are looked at. -/
def window (rest : List UInt8) : List UInt8 := rest.take (intOctets - 1)

/-- **The parser**, for a prefix of one octet: a number that fits into it; else the groups. -/
theorem parseInt_eq (hpre : pre < 256) : parseInt length first rest pre =
    if first.toNat &&& pre ≠ pre then if length = 0 then .error else .ok (first.toNat &&& pre) 1
    else if (window rest).all more then
      if length ≤ (window rest).length + 1 then .error
      else if (window rest).length + 1 = intOctets then .declined
      else .again
    else if length < 1 + (groups (window rest)).length then .error
    else .ok (pre + groupsValue (groups (window rest))) (1 + (groups (window rest)).length) := by
  have hlen : (window rest).length ≤ 3 := length_take_le _ _
  have hpow : 128 ^ (window rest).length ≤ 128 ^ 3 := Nat.pow_le_pow_right (by decide) hlen
  rw [parseInt]
  by_cases hfirst : first.toNat &&& pre ≠ pre
  · rw [if_pos hfirst, if_pos hfirst]
  · rw [if_neg hfirst, if_neg hfirst]
    rw [not_not] at hfirst
    dsimp only
    rw [show rest.take (intOctets - 1) = window rest from rfl, intLoop_eq _ _ _ _ _ (by omega), hfirst]
    split_ifs <;> simp_all

theorem window_append_full (h : (window rest).length + 1 = intOctets) (more' : List UInt8) :
    window (rest ++ more') = window rest := by
  rw [window, length_take, intOctets] at h
  exact take_append_of_le_length (by rw [intOctets]; omega)

/-- The last group stays where it is. -/
theorem groups_append {p : List UInt8} (h : p.all more ≠ true) (q : List UInt8) :
    (p ++ q).all more ≠ true ∧ groups (p ++ q) = groups p := by
  induction p with
  | nil => exact absurd rfl h
  | cons octet p ih =>
    by_cases hmore : more octet = true
    · have hp : p.all more ≠ true := fun hall => h (by rw [all_cons, hmore, hall]; rfl)
      obtain ⟨hall, hgroups⟩ := ih hp
      refine ⟨fun hc => hall ?_, ?_⟩
      · rw [cons_append, all_cons, hmore, Bool.true_and] at hc
        exact hc
      · rw [cons_append, groups_cons_more hmore, groups_cons_more hmore, hgroups]
    · refine ⟨fun hc => hmore ?_, ?_⟩
      · rw [cons_append, all_cons, Bool.and_eq_true] at hc
        exact hc.1
      · rw [cons_append, groups_cons_last hmore, groups_cons_last hmore]

theorem window_append (rest more' : List UInt8) :
    window (rest ++ more') = window rest ++ more'.take (intOctets - 1 - rest.length) := by
  rw [window, take_append, window]

/-! ### A number that is written -/

theorem writeGroups_last {v : ℕ} (h : ¬ 128 ≤ v) : writeGroups v = [.ofNat v] := by
  rw [writeGroups, if_neg h]

theorem writeGroups_more {v : ℕ} (h : 128 ≤ v) :
    writeGroups v = .ofNat (v % 128 + 128) :: writeGroups (v / 128) := by
  rw [writeGroups, if_pos h]

/-- The last group of a number that is written. -/
theorem writeGroups_small {v : ℕ} (hv : v < 128) (rest : List UInt8) :
    (writeGroups v).length = 1 ∧ (writeGroups v).all more ≠ true ∧
      groups (writeGroups v ++ rest) = writeGroups v ∧ groupsValue (writeGroups v) = v := by
  have hlast : more (.ofNat v) = false := by
    rw [more, decide_eq_false_iff_not, UInt8.not_le, UInt8.lt_iff_toNat_lt, UInt8.toNat_ofNat']
    show v % 256 < 128
    omega
  rw [writeGroups_last (by omega)]
  refine ⟨rfl, ?_, ?_, ?_⟩
  · simpa using hlast
  · rw [singleton_append, groups_cons_last (by simp [hlast])]
  · rw [groupsValue, groupsValue, UInt8.toNat_ofNat']
    omega

/-- **Groups that are written**: what follows them is not taken for one, and they stand for the
number. -/
theorem writeGroups_spec : ∀ (k v : ℕ) (rest : List UInt8), v < 128 ^ (k + 1) →
    (writeGroups v).length ≤ k + 1 ∧ (writeGroups v).all more ≠ true ∧
      groups (writeGroups v ++ rest) = writeGroups v ∧ groupsValue (writeGroups v) = v := by
  intro k
  induction k with
  | zero =>
    intro v rest hv
    obtain ⟨hlen, hspec⟩ := writeGroups_small hv rest
    exact ⟨hlen.le, hspec⟩
  | succ k ih =>
    intro v rest hv
    by_cases hmore : 128 ≤ v
    · have hsmall : v / 128 < 128 ^ (k + 1) := by
        rw [Nat.pow_succ] at hv
        exact Nat.div_lt_of_lt_mul (by rw [Nat.mul_comm]; exact hv)
      obtain ⟨hlen, hall, hgroups, hvalue⟩ := ih (v / 128) rest hsmall
      have hoctet : more (.ofNat (v % 128 + 128)) = true := by
        rw [more, decide_eq_true_eq, UInt8.le_iff_toNat_le, UInt8.toNat_ofNat']
        show 128 ≤ (v % 128 + 128) % 256
        omega
      rw [writeGroups_more hmore]
      refine ⟨Nat.succ_le_succ hlen, ?_, ?_, ?_⟩
      · rw [all_cons, hoctet, Bool.true_and]
        exact hall
      · rw [cons_append, groups_cons_more hoctet, hgroups]
      · rw [groupsValue, hvalue, UInt8.toNat_ofNat']
        omega
    · obtain ⟨hlen, hspec⟩ := writeGroups_small (Nat.lt_of_not_le hmore) rest
      exact ⟨hlen.le.trans (Nat.le_add_left 1 _), hspec⟩

/-- The flags above a prefix do not disturb it. -/
theorem and_prefixOf {bits v : ℕ} {flags : UInt8} (hbits : bits ≤ 8) (hv : v < 2 ^ bits)
    (hflags : flags.toNat % 2 ^ bits = 0) :
    (flags ||| .ofNat v).toNat &&& prefixOf bits = v := by
  have hoctet : v < 256 := hv.trans_le (Nat.pow_le_pow_right (by decide) hbits)
  rw [prefixOf, Nat.and_two_pow_sub_one_eq_mod, UInt8.toNat_or, UInt8.toNat_ofNat',
    Nat.mod_eq_of_lt hoctet, Nat.or_mod_two_pow, hflags, Nat.zero_or, Nat.mod_eq_of_lt hv]

/-- **A number that is written is read**, whatever follows it. -/
theorem parseInt_writeInt {bits v : ℕ} {flags : UInt8} (hbits : bits ≤ 8)
    (hv : v < 2 ^ bits - 1 + 2 ^ 21) (hflags : flags.toNat % 2 ^ bits = 0) (rest : List UInt8)
    (hlength : (writeInt flags (prefixOf bits) v).2.length + 1 ≤ length) :
    parseInt length (writeInt flags (prefixOf bits) v).1
        ((writeInt flags (prefixOf bits) v).2 ++ rest) (prefixOf bits) =
      .ok v ((writeInt flags (prefixOf bits) v).2.length + 1) := by
  have hpos : 0 < 2 ^ bits := Nat.pow_pos (by decide)
  have hpow : 2 ^ bits ≤ 2 ^ 8 := Nat.pow_le_pow_right (by decide) hbits
  have hpre : prefixOf bits < 256 := by
    rw [prefixOf]
    omega
  have hpre' : prefixOf bits = 2 ^ bits - 1 := rfl
  by_cases hsmall : v < prefixOf bits
  · have hwrite : writeInt flags (prefixOf bits) v = (flags ||| .ofNat v, []) := by
      rw [writeInt, if_pos hsmall]
    rw [hwrite] at hlength ⊢
    have hne : length ≠ 0 := Nat.ne_of_gt hlength
    rw [parseInt_eq hpre, and_prefixOf hbits (by omega) hflags, if_pos hsmall.ne, if_neg hne]
    rfl
  · have hwrite : writeInt flags (prefixOf bits) v =
        (flags ||| .ofNat (prefixOf bits), writeGroups (v - prefixOf bits)) := by
      rw [writeInt, if_neg hsmall]
    obtain ⟨hlen, hall, hgroups, hvalue⟩ := writeGroups_spec 2 (v - prefixOf bits)
      (rest.take (intOctets - 1 - (writeGroups (v - prefixOf bits)).length)) (by omega)
    have hwindow : window (writeGroups (v - prefixOf bits) ++ rest) = writeGroups (v - prefixOf bits) ++
        rest.take (intOctets - 1 - (writeGroups (v - prefixOf bits)).length) := by
      rw [window_append, window, take_of_length_le (by exact hlen)]
    rw [hwrite] at hlength ⊢
    dsimp only at hlength ⊢
    rw [parseInt_eq hpre, and_prefixOf hbits (by omega) hflags, if_neg (not_not.2 rfl), hwindow,
      if_neg (groups_append hall _).1, hgroups, hvalue, if_neg (by omega), Nat.add_comm 1]
    congr 1
    omega

/-! ### What the results say -/

/-- The number that begins in the first octet ends among these. -/
def Complete (pre : ℕ) : List UInt8 → Prop
  | [] => False
  | first :: rest => first.toNat &&& pre ≠ pre ∨ rest.all more ≠ true

/-- The number that begins here. -/
def numberOf (pre : ℕ) (first : UInt8) (rest : List UInt8) : ℕ :=
  if first.toNat &&& pre ≠ pre then first.toNat &&& pre else pre + groupsValue (groups rest)

/-- What a result of the parser says about its input, `whole` being the parser on more input. -/
def Says (length pre : ℕ) (first : UInt8) (rest : List UInt8) (whole : List UInt8 → IntResult) :
    IntResult → Prop
  | .ok value used => used ≤ length ∧ used ≤ rest.length + 1 ∧ used ≤ intOctets ∧
      Complete pre ((first :: rest).take used) ∧ value = numberOf pre first rest ∧
      value < pre + 2 ^ 21 ∧ ∀ input, whole input = .ok value used
  | .again => rest.length + 1 < length ∧ rest.length + 1 < intOctets ∧ ¬ Complete pre (first :: rest) ∧
      ∃ input value used, whole input = .ok value used
  | .declined => intOctets < length ∧ intOctets ≤ rest.length + 1 ∧
      ¬ Complete pre ((first :: rest).take intOctets) ∧ ∀ input, whole input = .declined
  | .error => length ≤ rest.length + 1 ∧ ¬ Complete pre ((first :: rest).take length) ∧
      ∀ input, whole input = .error

theorem groups_append_all {p : List UInt8} (h : p.all more = true) (q : List UInt8) :
    groups (p ++ q) = p ++ groups q := by
  induction p with
  | nil => rfl
  | cons octet p ih =>
    rw [all_cons, Bool.and_eq_true] at h
    rw [cons_append, groups_cons_more h.1, ih h.2, cons_append]

/-- The last group says that none follows. -/
theorem groups_ends {p : List UInt8} (h : p.all more ≠ true) :
    1 ≤ (groups p).length ∧ (groups p).all more ≠ true := by
  induction p with
  | nil => exact absurd rfl h
  | cons octet p ih =>
    by_cases hmore : more octet = true
    · rw [all_cons, hmore, Bool.true_and] at h
      rw [groups_cons_more hmore, all_cons, hmore, Bool.true_and]
      exact ⟨Nat.succ_pos _, (ih h).2⟩
    · rw [groups_cons_last hmore]
      exact ⟨le_rfl, by simpa using hmore⟩

/-- The groups before the last one say that there are more. -/
theorem take_groups_all : ∀ {p : List UInt8} {n : ℕ}, n < (groups p).length →
    (p.take n).all more = true := by
  intro p
  induction p with
  | nil => exact fun h => absurd h (Nat.not_lt_zero _)
  | cons octet p ih =>
    intro n hn
    cases n with
    | zero => rfl
    | succ n =>
      by_cases hmore : more octet = true
      · rw [groups_cons_more hmore, length_cons] at hn
        rw [take_succ_cons, all_cons, hmore, Bool.true_and]
        exact ih (Nat.lt_of_succ_lt_succ hn)
      · rw [groups_cons_last hmore] at hn
        exact absurd hn (Nat.not_lt_of_le (Nat.le_add_left 1 n))

/-- **More input** changes no result but that there is too little. -/
theorem parseInt_append (hpre : pre < 256) (h : parseInt length first rest pre ≠ .again)
    (input : List UInt8) :
    parseInt length first (rest ++ input) pre = parseInt length first rest pre := by
  rw [parseInt_eq hpre] at h ⊢
  rw [parseInt_eq hpre]
  by_cases hfirst : first.toNat &&& pre ≠ pre
  · rw [if_pos hfirst, if_pos hfirst]
  rw [if_neg hfirst] at h ⊢
  rw [if_neg hfirst, window_append]
  by_cases hall : (window rest).all more = true
  · rw [if_pos hall] at h ⊢
    by_cases hlength : length ≤ (window rest).length + 1
    · rw [if_pos hlength]
      by_cases hall' : (window rest ++ input.take (intOctets - 1 - rest.length)).all more = true
      · rw [if_pos hall', if_pos]
        rw [length_append]
        omega
      · have hinput : (input.take (intOctets - 1 - rest.length)).all more ≠ true := fun hc =>
          hall' (by rw [all_append, hall, hc]; rfl)
        have hone := (groups_ends hinput).1
        rw [if_neg hall', groups_append_all hall, length_append, if_pos (by omega)]
    · rw [if_neg hlength] at h ⊢
      by_cases hfull : (window rest).length + 1 = intOctets
      · rw [← window_append, window_append_full hfull, if_pos hall, if_neg hlength]
      · rw [if_neg hfull] at h
        exact absurd rfl h
  · obtain ⟨hall', hgroups⟩ := groups_append hall (input.take (intOctets - 1 - rest.length))
    rw [if_neg hall, if_neg hall', hgroups]

theorem length_window_le (rest : List UInt8) :
    (window rest).length ≤ rest.length ∧ (window rest).length < intOctets :=
  ⟨(take_sublist _ _).length_le, Nat.lt_succ_of_le (length_take_le _ _)⟩

/-- A number that the octets before `n` do not end. -/
theorem not_complete_take {n : ℕ} (hfirst : ¬ first.toNat &&& pre ≠ pre)
    (hall : (window rest).all more = true) (hn : n ≤ (window rest).length + 1) :
    ¬ Complete pre ((first :: rest).take n) := by
  cases n with
  | zero => exact id
  | succ n =>
    rintro (h | h)
    · exact hfirst h
    · refine h (all_eq_true.2 fun octet hmem => all_eq_true.1 hall octet ?_)
      have hbegins : rest.take n = (window rest).take n := by
        rw [window, length_take] at hn
        rw [window, take_take, Nat.min_eq_left (by omega)]
      rw [hbegins] at hmem
      exact mem_of_mem_take hmem

/-- **Each result says what the input is.** -/
theorem parseInt_says (hpre : pre < 256) (length : ℕ) (first : UInt8) (rest : List UInt8) :
    Says length pre first rest (fun input => parseInt length first (rest ++ input) pre)
      (parseInt length first rest pre) := by
  obtain ⟨hwindow, hwindow'⟩ := length_window_le rest
  have hsame : parseInt length first rest pre ≠ .again → ∀ input : List UInt8,
      parseInt length first (rest ++ input) pre = parseInt length first rest pre :=
    parseInt_append hpre
  have heq : parseInt length first rest pre = _ := parseInt_eq hpre
  by_cases hfirst : first.toNat &&& pre ≠ pre
  · rw [if_pos hfirst] at heq
    by_cases hlength : length = 0
    · rw [if_pos hlength] at heq
      rw [heq] at hsame ⊢
      subst hlength
      exact ⟨Nat.zero_le _, id, hsame nofun⟩
    · rw [if_neg hlength] at heq
      rw [heq] at hsame ⊢
      have hand : first.toNat &&& pre ≤ pre := Nat.and_le_right
      refine ⟨Nat.pos_of_ne_zero hlength, Nat.succ_pos _, by decide, .inl hfirst, ?_, by omega,
        hsame nofun⟩
      rw [numberOf, if_pos hfirst]
  rw [if_neg hfirst] at heq
  by_cases hall : (window rest).all more = true
  · rw [if_pos hall] at heq
    by_cases hlength : length ≤ (window rest).length + 1
    · rw [if_pos hlength] at heq
      rw [heq] at hsame ⊢
      exact ⟨by omega, not_complete_take hfirst hall hlength, hsame nofun⟩
    rw [if_neg hlength] at heq
    by_cases hfull : (window rest).length + 1 = intOctets
    · rw [if_pos hfull] at heq
      rw [heq] at hsame ⊢
      exact ⟨by omega, by omega, not_complete_take hfirst hall hfull.ge, hsame nofun⟩
    · rw [if_neg hfull] at heq
      rw [heq]
      have hshort : rest.length < 3 := by
        rw [window, length_take, intOctets] at hfull
        omega
      have hrest : window rest = rest := take_of_length_le (by rw [intOctets]; omega)
      rw [hrest] at hall hlength
      have hcomplete := not_complete_take (n := rest.length + 1) hfirst (hrest.symm ▸ hall)
        (by rw [hrest])
      rw [← length_cons (a := first), take_length] at hcomplete
      -- One more octet ends the number.
      have hzero : more 0 ≠ true := by decide
      have hlonger : window (rest ++ [0]) = rest ++ [0] :=
        take_of_length_le (by rw [length_append, length_singleton, intOctets]; omega)
      have hgroups : groups (rest ++ [0]) = rest ++ [0] := by
        rw [groups_append_all hall, groups_cons_last hzero]
      have hok : parseInt length first (rest ++ [0]) pre = _ := parseInt_eq hpre
      rw [if_neg hfirst, hlonger, hgroups, if_neg (by simp [hzero]),
        if_neg (by rw [length_append, length_singleton]; omega)] at hok
      exact ⟨by omega, by rw [intOctets]; omega, hcomplete, [0], _, _, hok⟩
  · rw [if_neg hall] at heq
    have hgroups : groups (window rest) = groups rest := by
      rw [← (groups_append hall (rest.drop (intOctets - 1))).2, window, take_append_drop]
    have hends := groups_ends hall
    have hlen := length_groups_le (window rest)
    by_cases hlength : length < 1 + (groups (window rest)).length
    · rw [if_pos hlength] at heq
      rw [heq] at hsame ⊢
      refine ⟨by omega, ?_, hsame nofun⟩
      cases length with
      | zero => exact id
      | succ n =>
        rintro (h | h)
        · exact hfirst h
        · exact h (take_groups_all (by rw [← hgroups]; omega))
    · rw [if_neg hlength] at heq
      rw [heq] at hsame ⊢
      have hvalue := groupsValue_lt (groups (window rest))
      have hpow : 128 ^ (groups (window rest)).length ≤ 128 ^ 3 :=
        Nat.pow_le_pow_right (by decide) (by rw [intOctets] at hwindow'; omega)
      refine ⟨by omega, by omega, by omega, ?_, ?_, by omega, hsame nofun⟩
      · rw [Nat.add_comm 1, take_succ_cons, hgroups]
        have htake : groups rest = rest.take (groups rest).length :=
          prefix_iff_eq_take.1 ( take_prefix _ _)
        rw [hgroups] at hends
        exact .inr (htake ▸ hends.2)
      · rw [numberOf, if_neg hfirst, hgroups]

/-- **The codec of numbers.** A number that is written is read; and each result of the parser says what
its input is. -/
theorem intCodec {bits : ℕ} (hbits : bits ≤ 8) :
    (∀ (v length : ℕ) (flags : UInt8) (rest : List UInt8), v < 2 ^ bits - 1 + 2 ^ 21 →
      flags.toNat % 2 ^ bits = 0 → (writeInt flags (prefixOf bits) v).2.length + 1 ≤ length →
      parseInt length (writeInt flags (prefixOf bits) v).1
          ((writeInt flags (prefixOf bits) v).2 ++ rest) (prefixOf bits) =
        .ok v ((writeInt flags (prefixOf bits) v).2.length + 1)) ∧
    ∀ (length : ℕ) (first : UInt8) (rest : List UInt8), Says length (prefixOf bits) first rest
      (fun input => parseInt length first (rest ++ input) (prefixOf bits))
      (parseInt length first rest (prefixOf bits)) := by
  have hpow : 2 ^ bits ≤ 2 ^ 8 := Nat.pow_le_pow_right (by decide) hbits
  have hpre : prefixOf bits < 256 := by
    rw [prefixOf]
    omega
  exact ⟨fun v length flags rest hv hflags hlength =>
    parseInt_writeInt hbits hv hflags rest hlength, parseInt_says hpre⟩

/-- The number 300 in a prefix of seven bits, and a number that has only begun. -/
theorem intCodec_seven : (parseInt 9 (writeInt 0x80 (prefixOf 7) 300).1
      ((writeInt 0x80 (prefixOf 7) 300).2 ++ [0xff]) (prefixOf 7) =
        .ok 300 ((writeInt 0x80 (prefixOf 7) 300).2.length + 1)) ∧
    Says 9 (prefixOf 7) 0x7f [0x80] (fun input => parseInt 9 0x7f ([0x80] ++ input) (prefixOf 7))
      (parseInt 9 0x7f [0x80] (prefixOf 7)) := by
  have hcodec := intCodec (by decide : 7 ≤ 8)
  refine ⟨hcodec.1 300 9 0x80 [0xff] (by decide) (by decide) ?_, hcodec.2 9 0x7f [0x80]⟩
  have hgroups : (writeInt 0x80 (prefixOf 7) 300).2 = writeGroups 173 := rfl
  rw [hgroups, writeGroups_more (by decide), writeGroups_last (by decide)]
  decide

end Hengine.HpackInt
