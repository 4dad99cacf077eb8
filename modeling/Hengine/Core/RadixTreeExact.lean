import Hengine.Core.RadixTreeKeys

/-!
# Radix Trees as Prefix Maps

A radix tree is meant to be a map from prefixes of addresses to values, in which a search finds
the value of the longest prefix of an address. Over whole runs of insertions and deletions, with
any preallocation, it is one as long as no deletion comes to a node without children that has no
value of its own, such as a preallocated one, or that is the root: of such a node the program
says that it has deleted a prefix, or follows the null pointer to the parent of the root.
-/

namespace Hengine

open List Option Function

/-- The functions for keys of some width, and the number that a key is. -/
structure RadixApi (K : Type) where
  width : ℕ
  number : K → ℕ
  insert : RadixTree → K → K → ℕ → Option (RadixTree × RadixCode)
  delete : RadixTree → K → K → Option (RadixTree × RadixCode)
  find : RadixTree → K → Option ℕ

/-- The functions for IPv4 addresses. -/
def radix32 : RadixApi UInt32 :=
  ⟨32, UInt32.toNat, radix32treeInsert, radix32treeDelete, radix32treeFind⟩

/-- The functions for IPv6 addresses; they read 16 bytes as a number of 128 bits. -/
def radix128 : RadixApi (ℕ → UInt8) :=
  ⟨128, fun key => bigEndian key 16, radix128treeInsert, radix128treeDelete, radix128treeFind⟩

/-- A key with a contiguous mask. -/
structure RadixPrefix {K : Type} (A : RadixApi K) where
  key : K
  mask : K
  len : ℕ
  len_le : len ≤ A.width
  contiguous : A.number mask = 2 ^ A.width - 2 ^ (A.width - len)

/-- What is done to a tree. -/
inductive RadixOp {K : Type} (A : RadixApi K)
  | insert (p : RadixPrefix A) (value : ℕ)
  | delete (p : RadixPrefix A)

/-! ### The prefix map -/

/-- A map from prefixes to values, `NGX_RADIX_NO_VALUE` where a prefix is not present. -/
abbrev PrefixMap := List Bool → ℕ

/-- `v` is the value of the longest present prefix of some bits. -/
def PrefixMap.Longest (m : PrefixMap) (bits : List Bool) (v : ℕ) : Prop :=
  (∃ p, p <+: bits ∧ m p = v ∧ m p ≠ radixNoValue ∧
      ∀ q, q <+: bits → m q ≠ radixNoValue → q.length ≤ p.length) ∨
    v = radixNoValue ∧ ∀ p, p <+: bits → m p = radixNoValue

variable {K : Type} {A : RadixApi K}

/-- The bits of a prefix. -/
def RadixPrefix.word (p : RadixPrefix A) : List Bool :=
  (topBits A.width (A.number p.key)).take p.len

/-- What an operation is to do to the map, and to return. -/
def RadixOp.answer (m : PrefixMap) : RadixOp A → PrefixMap × RadixCode
  | .insert p value =>
    if m p.word ≠ radixNoValue then (m, .busy) else (update m p.word value, .ok)
  | .delete p =>
    if m p.word ≠ radixNoValue then (update m p.word radixNoValue, .ok) else (m, .error)

namespace RadixApi

/-- An operation of the program. -/
def apply (A : RadixApi K) (t : RadixTree) : RadixOp A → Option (RadixTree × RadixCode)
  | .insert p value => A.insert t p.key p.mask value
  | .delete p => A.delete t p.key p.mask

/-- A tree and the map that it is to be, under any operations. -/
def machine (A : RadixApi K) (t₀ : RadixTree) : Machine (RadixTree × PrefixMap) (RadixOp A) where
  init s := s = (t₀, fun _ => radixNoValue)
  step s op s' := (∃ rc, A.apply s.1 op = some (s'.1, rc)) ∧ s'.2 = (op.answer s.2).1

/-- An operation returns what it is to return, and leaves the tree alone unless it succeeds. -/
def Serves (A : RadixApi K) (s : RadixTree × PrefixMap) (op : RadixOp A) : Prop :=
  ∃ t, A.apply s.1 op = some (t, (op.answer s.2).2) ∧ ((op.answer s.2).2 ≠ .ok → t = s.1)

/-- A search finds the value of the longest present prefix of its key. -/
def Finds (A : RadixApi K) (s : RadixTree × PrefixMap) (key : K) : Prop :=
  ∃ v, A.find s.1 key = some v ∧ s.2.Longest (topBits A.width (A.number key)) v

/-- The condition: a deletion does not come to a node without children that has no value or is
the root. -/
def Careful (t : RadixTree) : RadixOp A → Prop
  | .insert _ _ => True
  | .delete p => ¬ t.Stray p.word

/-- What the functions do to the values of words. -/
structure Lawful (A : RadixApi K) : Prop where
  insert : ∀ {t : RadixTree}, t.Wf A.width → ∀ (p : RadixPrefix A) (v : ℕ),
    (t.val p.word ≠ radixNoValue ∧ A.insert t p.key p.mask v = some (t, .busy)) ∨
      t.val p.word = radixNoValue ∧ ∃ t', A.insert t p.key p.mask v = some (t', .ok) ∧
        t'.Wf A.width ∧ ∀ q, t'.val q = if q = p.word then v else t.val q
  delete : ∀ {t : RadixTree}, t.Wf A.width → ∀ p : RadixPrefix A, ¬ t.Stray p.word →
    (t.val p.word = radixNoValue ∧ A.delete t p.key p.mask = some (t, .error)) ∨
      t.val p.word ≠ radixNoValue ∧ ∃ t', A.delete t p.key p.mask = some (t', .ok) ∧
        t'.Wf A.width ∧ ∀ q, t'.val q = if q = p.word then radixNoValue else t.val q
  stray : ∀ {t : RadixTree}, t.Wf A.width → ∀ p : RadixPrefix A, t.Stray p.word →
    A.delete t p.key p.mask = none ∨
      t.val p.word = radixNoValue ∧ ∃ t', A.delete t p.key p.mask = some (t', .ok)
  find : ∀ {t : RadixTree}, t.Wf A.width → ∀ key, ∃ v, A.find t key = some v ∧
    PrefixMap.Longest t.val (topBits A.width (A.number key)) v

/-- The invariant: the values of words are those of the map. -/
def Agrees (A : RadixApi K) (s : RadixTree × PrefixMap) : Prop :=
  s.1.Wf A.width ∧ s.1.val = s.2

/-! ### The functions of the program -/

/-- Where the cursor always advances, a path is as long as is asked for. -/
theorem length_taken {κ : Type} {C : BitCursor κ} (hadv : ∀ c, ∃ c', C.advance c = some c') :
    ∀ {n : ℕ} {c : κ}, (RadixTree.taken C n c).length = n := by
  intro n
  induction n with
  | zero => exact rfl
  | succ n ih =>
    intro c
    obtain ⟨c', hc'⟩ := hadv c
    rw [RadixTree.taken, hc', length_cons, elim_some, ih]

/-- A search along a key finds the value of the longest prefix of the key. -/
theorem find_longest {κ : Type} {C : BitCursor κ} {c : ℕ → κ} {t : RadixTree} {W key fuel : ℕ}
    (hwf : t.Wf W) (hC : RadixTree.Reads C W key c) (hadv : ∀ c, ∃ c', C.advance c = some c')
    (hfuel : W + 1 < fuel) :
    ∃ v, t.find C fuel (c 0) (some t.root) radixNoValue = some v ∧
      PrefixMap.Longest t.val (topBits W key) v := by
  obtain ⟨v, hrun, hlong⟩ := (RadixTree.find_spec hwf hadv fuel (c 0) [] radixNoValue
    (by simpa using hfuel) (Nat.zero_le _)).2 t.root rfl
  refine ⟨v, hrun, ?_⟩
  -- The prefixes of the key are the bits taken.
  have hbits : (topBits W key).length = W := by rw [topBits, length_map, length_range]
  have htake : ∀ p, p <+: topBits W key → p = RadixTree.taken C p.length (c 0) := by
    intro p hp
    rw [hC.taken (hbits ▸ hp.length_le)]
    exact prefix_iff_eq_take.mp hp
  rcases hlong with ⟨n, hv, hne, hlater⟩ | ⟨hv, hall⟩
  · rw [nil_append] at hv
    have hn : n ≤ W := by
      by_contra hlt
      have hnone : t.node (RadixTree.taken C n (c 0)) = none := by
        cases hnode : t.node (RadixTree.taken C n (c 0)) with
        | none => rfl
        | some x =>
          have := hwf.deep _ _ hnode
          rw [length_taken hadv] at this
          omega
      rw [RadixTree.val, hnone] at hv
      exact hne hv.symm
    refine Or.inl ⟨RadixTree.taken C n (c 0), ?_, hv, hv ▸ hne, fun q hq hval => ?_⟩
    · rw [hC.taken hn]
      exact take_prefix ..
    · rw [length_taken hadv]
      by_contra hlt
      have := hlater q.length (by omega)
      rw [nil_append, ← htake q hq] at this
      exact hval this
  · refine Or.inr ⟨hv, fun p hp => ?_⟩
    rw [htake p hp]
    exact hall p.length

/-- **Functions that go through the bits of their keys** do what they should to the values. -/
theorem lawful_of_cursors {κ : Type} {A : RadixApi K} {C : K → K → BitCursor κ}
    {F : K → BitCursor κ} {c : ℕ → κ} {fuel fuel' : ℕ} (hW : 0 < A.width) (hfuel : A.width < fuel)
    (hfuel' : A.width + 1 < fuel')
    (hC : ∀ key mask, RadixTree.Spells (C key mask) A.width (A.number key) (A.number mask) c)
    (hF : ∀ key, RadixTree.Reads (F key) A.width (A.number key) c)
    (hadv : ∀ key c, ∃ c', (F key).advance c = some c')
    (hins : ∀ t key mask v, A.insert t key mask v = t.insert (C key mask) fuel (c 0) v)
    (hdel : ∀ t key mask, A.delete t key mask = t.delete (C key mask) fuel (c 0))
    (hfind : ∀ t key, A.find t key = t.find (F key) fuel' (c 0) (some t.root) radixNoValue) :
    A.Lawful := by
  have hword : ∀ p : RadixPrefix A, RadixTree.Word (C p.key p.mask) (c 0) p.word := by
    intro p
    have h := (hC p.key p.mask).word hW
    rwa [p.contiguous, maskedBits_contiguous p.len_le] at h
  have hlen : ∀ p : RadixPrefix A, p.word.length ≤ A.width := by
    intro p
    rw [RadixPrefix.word, length_take]
    exact Nat.le_trans (Nat.min_le_left ..) p.len_le
  refine ⟨fun hwf p v => ?_, fun hwf p hstray => ?_, fun hwf p hstray => ?_, fun hwf key => ?_⟩
  · rw [hins]
    exact RadixTree.insert_spec hwf (hword p) (hlen p) hfuel v
  · rw [hdel]
    exact RadixTree.delete_spec hwf (hword p) (hlen p) hfuel hstray
  · rw [hdel]
    exact RadixTree.delete_stray hwf (hword p) (hlen p) hfuel hstray
  · rw [hfind]
    exact find_longest hwf (hF key) (hadv key) hfuel'

/-- **The keys of 32 bits** are read bit by bit. -/
theorem radix32_lawful : radix32.Lawful :=
  lawful_of_cursors (C := cursor32) (F := fun key => cursor32 key 0) (by decide)
    (show 32 < 33 by decide) (show 32 + 1 < 34 by decide) RadixTree.spells32
    (fun key => RadixTree.reads32 key 0) (fun _ _ => ⟨_, rfl⟩) (fun _ _ _ _ => rfl)
    (fun _ _ _ => rfl) fun _ _ => rfl

/-- **The keys of 128 bits** likewise, over their byte boundaries. -/
theorem radix128_lawful : radix128.Lawful := by
  refine lawful_of_cursors (C := cursor128) (F := cursorFind128) (by decide)
    (show 128 < 129 by decide) (show 128 + 1 < 130 by decide) RadixTree.spells128
    RadixTree.reads128 (fun key c => ?_) (fun _ _ _ _ => rfl) (fun _ _ _ => rfl) fun _ _ => rfl
  by_cases h : c.2 >>> 1 = 0
  · exact ⟨_, if_pos h⟩
  · exact ⟨_, if_neg h⟩

/-! ### Steps and runs -/

theorem val_eq_update {t t' : RadixTree} {w : List Bool} {v : ℕ}
    (h : ∀ q, t'.val q = if q = w then v else t.val q) : t'.val = update t.val w v := by
  funext q
  rw [h, update_apply]

/-- **One operation** is served exactly if it is careful, and then the invariant is kept. -/
theorem Agrees.step (hA : A.Lawful) {s : RadixTree × PrefixMap} (h : A.Agrees s) (op : RadixOp A) :
    (A.Serves s op ↔ Careful s.1 op) ∧ (Careful s.1 op →
      ∀ t rc, A.apply s.1 op = some (t, rc) → A.Agrees (t, (op.answer s.2).1)) := by
  obtain ⟨t, m⟩ := s
  obtain ⟨hwf, rfl : t.val = m⟩ := h
  cases op with
  | insert p v =>
    rcases hA.insert hwf p v with ⟨hval, hrun⟩ | ⟨hval, t', hrun, hwf', hval'⟩
    · have hans : RadixOp.answer t.val (.insert p v) = (t.val, .busy) := if_pos hval
      refine ⟨⟨fun _ => trivial, fun _ => ⟨t, by rw [hans]; exact hrun, fun _ => rfl⟩⟩, ?_⟩
      intro _ t₁ rc hrc
      obtain ⟨rfl, -⟩ : t = t₁ ∧ _ := by simpa [apply, hrun] using hrc
      exact ⟨hwf, by rw [hans]⟩
    · have hans : RadixOp.answer t.val (.insert p v) = (update t.val p.word v, .ok) :=
        if_neg (not_not.mpr hval)
      refine ⟨⟨fun _ => trivial, fun _ => ⟨t', by rw [hans]; exact hrun, ?_⟩⟩, ?_⟩
      · rw [hans]
        exact fun hne => absurd rfl hne
      · intro _ t₁ rc hrc
        obtain ⟨rfl, -⟩ : t' = t₁ ∧ _ := by simpa [apply, hrun] using hrc
        exact ⟨hwf', by rw [hans]; exact val_eq_update hval'⟩
  | delete p =>
    by_cases hstray : t.Stray p.word
    · refine ⟨⟨fun hserves => ?_, fun hcareful => absurd hstray hcareful⟩,
        fun hcareful => absurd hstray hcareful⟩
      obtain ⟨t₁, hrun, -⟩ := hserves
      rcases hA.stray hwf p hstray with hnone | ⟨hval, t', hok⟩
      · simp [apply, hnone] at hrun
      · have hans : RadixOp.answer t.val (.delete p) = (t.val, .error) :=
          if_neg (not_not.mpr hval)
        simp [apply, hok, hans] at hrun
    · rcases hA.delete hwf p hstray with ⟨hval, hrun⟩ | ⟨hval, t', hrun, hwf', hval'⟩
      · have hans : RadixOp.answer t.val (.delete p) = (t.val, .error) :=
          if_neg (not_not.mpr hval)
        refine ⟨⟨fun _ => hstray, fun _ => ⟨t, by rw [hans]; exact hrun, fun _ => rfl⟩⟩, ?_⟩
        intro _ t₁ rc hrc
        obtain ⟨rfl, -⟩ : t = t₁ ∧ _ := by simpa [apply, hrun] using hrc
        exact ⟨hwf, by rw [hans]⟩
      · have hans : RadixOp.answer t.val (.delete p) =
            (update t.val p.word radixNoValue, .ok) := if_pos hval
        refine ⟨⟨fun _ => hstray, fun _ => ⟨t', by rw [hans]; exact hrun, ?_⟩⟩, ?_⟩
        · rw [hans]
          exact fun hne => absurd rfl hne
        · intro _ t₁ rc hrc
          obtain ⟨rfl, -⟩ : t' = t₁ ∧ _ := by simpa [apply, hrun] using hrc
          exact ⟨hwf', by rw [hans]; exact val_eq_update hval'⟩

/-- **Whole runs**: if all deletions are careful, the tree is the prefix map in every state. -/
theorem prefix_map (hA : A.Lawful) {t₀ : RadixTree} (hwf : t₀.Wf A.width)
    (hval : ∀ q, t₀.val q = radixNoValue) {tr : List ((RadixTree × PrefixMap) × RadixOp A)}
    {s : RadixTree × PrefixMap} (hrun : (A.machine t₀).Run tr s)
    (hcareful : ∀ e ∈ tr, Careful e.1.1 e.2) :
    Machine.Everywhere (fun s => (∀ key, A.Finds s key) ∧ ∀ op, A.Serves s op ↔ Careful s.1 op)
      tr s := by
  have hinv : Machine.Everywhere A.Agrees tr s := by
    refine hrun.invariant_of_steps (C := fun s op => Careful s.1 op) ?_ ?_ hcareful
    · rintro s rfl
      exact ⟨hwf, funext hval⟩
    · rintro s op s' hs hop ⟨⟨rc, hstep⟩, hmap⟩
      have hnext := (hs.step hA op).2 hop s'.1 rc hstep
      rwa [← hmap] at hnext
  have hright : ∀ s, A.Agrees s →
      (∀ key, A.Finds s key) ∧ ∀ op, A.Serves s op ↔ Careful s.1 op := by
    intro s hs
    refine ⟨fun key => ?_, fun op => (hs.step hA op).1⟩
    obtain ⟨v, hfind, hlong⟩ := hA.find hs.1 key
    exact ⟨v, hfind, hs.2 ▸ hlong⟩
  exact ⟨fun e he => hright _ (hinv.1 e he), hright _ hinv.2⟩

end RadixApi

/-! ### The tree at the start -/

namespace RadixTree

theorem Wf.mono {t : RadixTree} {W W' : ℕ} (h : t.Wf W) (hle : W ≤ W') : t.Wf W' :=
  ⟨h.tree, h.root, fun p x hp => Nat.le_trans (h.deep p x hp) hle, h.live, h.free_nodup, h.free_lt⟩

theorem follow_empty (p : List Bool) {x : ℕ} (h : RadixTree.empty.node p = some x) :
    p = [] ∧ x = 0 := by
  cases p with
  | nil =>
    cases h
    exact ⟨rfl, rfl⟩
  | cons b p => cases h

/-- The empty tree is well formed. -/
theorem empty_wf (W : ℕ) : RadixTree.empty.Wf W := by
  refine ⟨⟨fun p b x y hx hxy => ?_, fun p q x hp hq => ?_⟩, rfl, fun p x hp => ?_, fun p x hp => ?_,
    nodup_nil, fun x hx => ?_⟩
  · cases hxy
  · rw [(follow_empty p hp).1, (follow_empty q hq).1]
  · rw [(follow_empty p hp).1]
    exact Nat.zero_le _
  · rw [(follow_empty p hp).2]
    exact ⟨Nat.zero_lt_one, not_mem_nil⟩
  · cases hx

/-- A tree without values. -/
def Blank (t : RadixTree) : Prop := t.Wf 32 ∧ ∀ q, t.val q = radixNoValue

/-- A preallocating insertion leaves a tree without values. -/
theorem Blank.insert {t : RadixTree} (h : t.Blank) (key mask : UInt32) :
    ∃ t', radix32treeInsert t key mask radixNoValue = some (t', .ok) ∧ t'.Blank := by
  have hword := (spells32 key mask).word (by decide)
  have hlen : (maskedBits 32 key.toNat mask.toNat).length ≤ 32 := by
    rw [maskedBits, length_map]
    exact ( takeWhile_prefix _).length_le.trans (by rw [length_range])
  rcases insert_spec h.1 hword hlen (show 32 < 33 by decide) radixNoValue with
    ⟨hval, -⟩ | ⟨-, t', hrun, hwf, hval⟩
  · exact absurd (h.2 _) hval
  · exact ⟨t', hrun, hwf, fun q => by rw [hval, h.2, ite_self]⟩

/-- **One level** of preallocation comes to an end: the prefixes of the level are counted up until
the last one overflows. -/
theorem Blank.preallocateLevel (mask : UInt32) {inc : UInt32} (hinc : inc.toNat ∣ 2 ^ 32 ∨ inc = 0) :
    ∀ (fuel : ℕ) (t : RadixTree) (key : UInt32), t.Blank → inc.toNat ∣ key.toNat →
      2 ^ 32 ≤ key.toNat + fuel → (inc = 0 → key = 0) →
      ∃ t', Hengine.preallocateLevel mask inc fuel t key = some t' ∧ t'.Blank := by
  intro fuel
  induction fuel with
  | zero =>
    intro t key _ _ hfuel _
    have := key.toNat_lt
    omega
  | succ fuel ih =>
    intro t key ht hdvd hfuel hzero
    obtain ⟨t₁, hrun, ht₁⟩ := ht.insert key mask
    simp only [Hengine.preallocateLevel, hrun, bind_eq_bind, bind_some, ne_eq,
      not_true_eq_false, if_false]
    by_cases hend : key + inc = 0
    · exact ⟨t₁, if_pos hend, ht₁⟩
    · rw [if_neg hend]
      have hinc0 : inc ≠ 0 := by
        rintro rfl
        exact hend (by rw [hzero rfl]; rfl)
      have hpos : 0 < inc.toNat := by
        rcases Nat.eq_zero_or_pos inc.toNat with h0 | hpos
        · exact absurd (UInt32.toNat_inj.mp h0) hinc0
        · exact hpos
      obtain ⟨a, ha⟩ := hdvd
      obtain ⟨b, hb⟩ := hinc.resolve_right hinc0
      -- The next key is again a multiple of the increment, and so does not exceed the end.
      have hlt : a < b := by
        have := key.toNat_lt
        rw [ha] at this
        exact Nat.lt_of_mul_lt_mul_left (this.trans_eq hb)
      have hle : inc.toNat * (a + 1) ≤ 2 ^ 32 := by
        rw [hb]
        exact Nat.mul_le_mul_left _ hlt
      have hsum : (key + inc).toNat = inc.toNat * (a + 1) := by
        have hne : (key + inc).toNat ≠ 0 := fun h0 => hend (UInt32.toNat_inj.mp h0)
        rw [UInt32.toNat_add, ha, ← Nat.mul_succ] at hne ⊢
        rcases Nat.lt_or_eq_of_le hle with hlt' | heq
        · exact Nat.mod_eq_of_lt hlt'
        · rw [Nat.succ_eq_add_one, heq, Nat.mod_self] at hne
          exact absurd rfl hne
      refine ih t₁ _ ht₁ ⟨a + 1, hsum⟩ ?_ (fun h0 => absurd h0 hinc0)
      rw [hsum, Nat.mul_add, Nat.mul_one, ← ha]
      omega

/-- **All levels**: the increments are the powers of two, and then zero. -/
theorem Blank.preallocate : ∀ {n j : ℕ} {t : RadixTree} {mask : UInt32}, t.Blank →
    ∃ t', Hengine.preallocate n t mask (at32 j) = some t' ∧ t'.Blank := by
  intro n
  induction n with
  | zero => exact fun ht => ⟨_, rfl, ht⟩
  | succ n ih =>
    intro j t mask ht
    have hinc : (at32 j).toNat ∣ 2 ^ 32 ∨ at32 j = 0 := by
      by_cases hj : j < 32
      · left
        rw [toNat_at32, Nat.pow_div (by omega) (by decide)]
        exact Nat.pow_dvd_pow 2 (by omega)
      · right
        rw [← UInt32.toNat_inj, toNat_at32]
        exact Nat.div_eq_of_lt (Nat.pow_lt_pow_right (by decide) (by omega))
    obtain ⟨t₁, hlevel, ht₁⟩ := Blank.preallocateLevel (mask >>> 1 ||| 0x80000000) hinc
      (2 ^ 32) t 0 ht (by exact Nat.dvd_zero _) (Nat.le_add_left ..) fun _ => rfl
    obtain ⟨t', hrest, ht'⟩ := ih (j := j + 1) ht₁
    refine ⟨t', ?_, ht'⟩
    rw [Hengine.preallocate, hlevel, at32_shift]
    exact hrest

/-- **A new tree** has no values, whatever the preallocation. -/
theorem create_blank (nodesPerPage : ℕ) (levels : Option ℕ) :
    ∃ t, radixTreeCreate nodesPerPage levels = some t ∧ t.Blank := by
  have hempty : RadixTree.empty.Blank := by
    refine ⟨empty_wf 32, fun q => ?_⟩
    cases hq : RadixTree.empty.node q with
    | none => rw [val, hq]; rfl
    | some x => rw [val, hq]; rfl
  exact Blank.preallocate (j := 0) hempty

end RadixTree

/-! ### The program -/

/-- **The tree for IPv4 addresses is a prefix map**: for every preallocation and in every run whose
deletions are careful, each search finds the longest present prefix, and an operation does what it
should exactly if it is careful. -/
theorem radix32_prefix_map (nodesPerPage : ℕ) (levels : Option ℕ) :
    ∃ t₀, radixTreeCreate nodesPerPage levels = some t₀ ∧
      ∀ tr s, (radix32.machine t₀).Run tr s → (∀ e ∈ tr, RadixApi.Careful e.1.1 e.2) →
        Machine.Everywhere (fun s => (∀ key, radix32.Finds s key) ∧
          ∀ op, radix32.Serves s op ↔ RadixApi.Careful s.1 op) tr s := by
  obtain ⟨t₀, hcreate, hblank⟩ := RadixTree.create_blank nodesPerPage levels
  refine ⟨t₀, hcreate, fun tr s hrun hcareful => ?_⟩
  exact RadixApi.prefix_map RadixApi.radix32_lawful hblank.1 hblank.2 hrun hcareful

/-- A careful run: the deleted prefix has a value, and the shorter one shows again behind it. -/
example :
    ((radixTreeCreate 128 (some 2)).bind fun t =>
      (radix32treeInsert t 0x0a000000 0xff000000 1).bind fun a =>
        (radix32treeInsert a.1 0x0a010000 0xffff0000 2).bind fun b =>
          (radix32treeDelete b.1 0x0a010000 0xffff0000).map fun c =>
            [a.1, b.1, c.1].map (radix32treeFind · 0x0a010203)) =
      some [some 1, some 2, some 1] := by
  decide +kernel

/-- The IPv4 addresses that start with a zero. -/
def radix32Zero : RadixPrefix radix32 := ⟨0, 0x80000000, 1, by decide, by decide⟩

/-- All IPv4 addresses. -/
def radix32All : RadixPrefix radix32 := ⟨0, 0, 0, by decide, by decide⟩

/-- **In a new tree** with one preallocated level, a deletion says that it has deleted what is not
there; in one without preallocation it may follow a null pointer. -/
theorem radix32_deletes_absent :
    (∃ t₀, radixTreeCreate 128 (some 1) = some t₀ ∧
        (radix32.machine t₀).Run [] (t₀, fun _ => radixNoValue) ∧
        ¬ radix32.Serves (t₀, fun _ => radixNoValue) (.delete radix32Zero)) ∧
      ∃ t₀, radixTreeCreate 128 (some 0) = some t₀ ∧
        radix32.apply t₀ (.delete radix32All) = none := by
  constructor
  · have hok : ((radixTreeCreate 128 (some 1)).bind fun t =>
        (radix32treeDelete t 0 0x80000000).map (·.2)) = some .ok := by decide
    obtain ⟨t₀, hcreate, hdelete⟩ := bind_eq_some_iff.mp hok
    refine ⟨t₀, hcreate, .start rfl, ?_⟩
    rintro ⟨t, hrun, -⟩
    have hrun : radix32treeDelete t₀ 0 0x80000000 = some (t, .error) := hrun
    rw [hrun] at hdelete
    cases hdelete
  · refine ⟨.empty, rfl, ?_⟩
    decide

/-- **The tree for IPv6 addresses is a prefix map** in the same sense. -/
theorem radix128_prefix_map (nodesPerPage : ℕ) (levels : Option ℕ) :
    ∃ t₀, radixTreeCreate nodesPerPage levels = some t₀ ∧
      ∀ tr s, (radix128.machine t₀).Run tr s → (∀ e ∈ tr, RadixApi.Careful e.1.1 e.2) →
        Machine.Everywhere (fun s => (∀ key, radix128.Finds s key) ∧
          ∀ op, radix128.Serves s op ↔ RadixApi.Careful s.1 op) tr s := by
  obtain ⟨t₀, hcreate, hblank⟩ := RadixTree.create_blank nodesPerPage levels
  refine ⟨t₀, hcreate, fun tr s hrun hcareful => ?_⟩
  exact RadixApi.prefix_map RadixApi.radix128_lawful (hblank.1.mono (by decide)) hblank.2 hrun
    hcareful

/-- A careful run: the deleted prefix has a value, and the shorter one shows again behind it. -/
example :
    let key (i : ℕ) : UInt8 := [0x20, 0x01, 0x0d, 0xb8].getD i 0
    let mask (len i : ℕ) : UInt8 := if i < len then 0xff else 0
    ((radixTreeCreate 128 (some 2)).bind fun t =>
      (radix128treeInsert t key (mask 2) 1).bind fun a =>
        (radix128treeInsert a.1 key (mask 4) 2).bind fun b =>
          (radix128treeDelete b.1 key (mask 4)).map fun c =>
            [a.1, b.1, c.1].map (radix128treeFind · key)) =
      some [some 1, some 2, some 1] := by
  decide +kernel

/-- The IPv6 addresses that start with a zero. -/
def radix128Zero : RadixPrefix radix128 :=
  ⟨fun _ => 0, fun i => if i = 0 then 0x80 else 0, 1, by decide, by decide⟩

/-- All IPv6 addresses. -/
def radix128All : RadixPrefix radix128 :=
  ⟨fun _ => 0, fun _ => 0, 0, by decide, by decide⟩

/-- **The same deletions** go wrong for IPv6 addresses. -/
theorem radix128_deletes_absent :
    (∃ t₀, radixTreeCreate 128 (some 1) = some t₀ ∧
        (radix128.machine t₀).Run [] (t₀, fun _ => radixNoValue) ∧
        ¬ radix128.Serves (t₀, fun _ => radixNoValue) (.delete radix128Zero)) ∧
      ∃ t₀, radixTreeCreate 128 (some 0) = some t₀ ∧
        radix128.apply t₀ (.delete radix128All) = none := by
  constructor
  · have hok : ((radixTreeCreate 128 (some 1)).bind fun t =>
        (radix128treeDelete t radix128Zero.key radix128Zero.mask).map (·.2)) = some .ok := by
      decide
    obtain ⟨t₀, hcreate, hdelete⟩ := bind_eq_some_iff.mp hok
    refine ⟨t₀, hcreate, .start rfl, ?_⟩
    rintro ⟨t, hrun, -⟩
    have hrun : radix128treeDelete t₀ radix128Zero.key radix128Zero.mask = some (t, .error) :=
      hrun
    rw [hrun] at hdelete
    cases hdelete
  · refine ⟨.empty, rfl, ?_⟩
    decide

end Hengine
