import Mathlib.Tactic.Ring

/-!
# The Segment Tree

The model of `ngx_segment_tree.c`: a tree over the positions `1` to `n` whose nodes are slots of
an array, the node in slot `i` with its children in slots `2 * i` and `2 * i + 1`. A slot holds
the node with the smallest key of its segment, and an operation on a position goes down to the
leaf and picks again on the way up.

Every access to the array is checked, so that an operation has a result only if all its slots
are there. The recursions have a bound on their depth, for they do not end in all cases.
-/

namespace Hengine

open Option Function

/-- `ngx_segment_node_t`. -/
structure SegNode (δ : Type*) where
  key : ℤ
  data : Option δ
deriving DecidableEq, Repr

/-- `ngx_segment_tree_t`, with the slots of `segments`. -/
structure SegTree (δ : Type*) where
  extreme : ℤ
  num : ℕ
  segments : Array (SegNode δ)

variable {δ : Type*}

/-- `ngx_segment_tree_min`: positive if the first node has the smaller key. -/
def segmentTreeMin (one two : SegNode δ) : ℤ := two.key - one.key

/-- The node that goes up: the first only if its key is smaller. -/
def SegNode.pick (one two : SegNode δ) : SegNode δ := if segmentTreeMin one two > 0 then one else two

/-- `NGX_MAX_UINT32_VALUE`. -/
def segExtreme : ℤ := 0xffffffff

namespace SegTree

/-- `ngx_segment_tree_init`: the slots are cleared, and the first holds the extreme key. -/
def init (num : ℕ) : SegTree δ :=
  { extreme := segExtreme
    num := num
    segments := (Array.replicate ((num + 1) <<< 2) ⟨0, none⟩).setIfInBounds 0 ⟨segExtreme, none⟩ }

/-- `tree->segments[index]`, if there is such a slot. -/
def get (t : SegTree δ) (index : ℕ) : Option (SegNode δ) := t.segments[index]?

/-- A write to `tree->segments[index]`, if there is such a slot. -/
def put (t : SegTree δ) (index : ℕ) (v : SegNode δ) : Option (SegTree δ) :=
  if index < t.segments.size then
    some { t with segments := t.segments.setIfInBounds index v }
  else none

/-- The slot of a node gets the better one of its children. -/
def pull (t : SegTree δ) (index child : ℕ) : Option (SegTree δ) := do
  let one ← t.get child
  let two ← t.get (child + 1)
  t.put index (one.pick two)

/-- `ngx_segment_tree_build`. -/
@[grind =]
def build : ℕ → SegTree δ → ℕ → ℕ → ℕ → Option (SegTree δ)
  | 0, _, _, _, _ => none
  | fuel + 1, t, index, l, r =>
    if l = r then do
      let v ← t.get index
      t.put index { v with key := l }
    else do
      let child := index <<< 1
      let mid := (l + r) >>> 1
      let t ← build fuel t child l mid
      let t ← build fuel t (child + 1) (mid + 1) r
      t.pull index child

/-- The common part of `ngx_segment_tree_insert` and `ngx_segment_tree_delete`: the leaf of `pos`
is changed, and the slots above it are picked again. -/
@[grind =]
def change (f : SegNode δ → SegNode δ) : ℕ → SegTree δ → ℕ → ℕ → ℕ → ℕ → Option (SegTree δ)
  | 0, _, _, _, _, _ => none
  | fuel + 1, t, index, l, r, pos =>
    if l = r ∧ l = pos then do
      let v ← t.get index
      t.put index (f v)
    else do
      let child := index <<< 1
      let mid := (l + r) >>> 1
      let t ←
        if pos ≤ mid then change f fuel t child l mid pos
        else change f fuel t (child + 1) (mid + 1) r pos
      t.pull index child

/-- `ngx_segment_tree_insert`. -/
def insert (fuel : ℕ) (t : SegTree δ) (index l r pos : ℕ) (node : SegNode δ) :
    Option (SegTree δ) :=
  change (fun _ => node) fuel t index l r pos

/-- `ngx_segment_tree_delete`: only the key changes. -/
def delete (fuel : ℕ) (t : SegTree δ) (index l r pos : ℕ) : Option (SegTree δ) :=
  change (fun v => { v with key := t.extreme }) fuel t index l r pos

/-- `ngx_segment_tree_query`. -/
@[grind =]
def query : ℕ → SegTree δ → ℕ → ℕ → ℕ → ℕ → ℕ → Option (SegNode δ)
  | 0, _, _, _, _, _, _ => none
  | fuel + 1, t, index, l, r, ll, rr =>
    if ll > rr then t.get 0
    else if l = ll ∧ r = rr then t.get index
    else
      let child := index <<< 1
      let mid := (l + r) >>> 1
      if rr ≤ mid then query fuel t child l mid ll rr
      else if ll > mid then query fuel t (child + 1) (mid + 1) r ll rr
      else do
        let one ← query fuel t child l mid ll mid
        let two ← query fuel t (child + 1) (mid + 1) r (mid + 1) rr
        some (one.pick two)

/-! ### Slots -/

/-- `Below i j`: the slot `j` is `i` or belongs to a node under it. -/
def Below (i j : ℕ) : Prop := ∃ k, j / 2 ^ k = i

variable {i j k l r n : ℕ} {t t' : SegTree δ} {leaf leaf' : ℕ → SegNode δ}

theorem Below.refl (i : ℕ) : Below i i := ⟨0, by simp⟩

theorem Below.le (h : Below i j) : i ≤ j := by
  obtain ⟨k, rfl⟩ := h
  exact Nat.div_le_self j _

theorem Below.up (h : Below k j) (hk : k / 2 = i) : Below i j := by
  obtain ⟨m, rfl⟩ := h
  refine ⟨m + 1, ?_⟩
  rw [pow_succ, ← Nat.div_div_eq_div_mul]
  exact hk

/-- Of two nodes above a third one, one is above the other. -/
theorem Below.either {a b : ℕ} (ha : Below a j) (hb : Below b j) : Below a b ∨ Below b a := by
  obtain ⟨m, rfl⟩ := ha
  obtain ⟨n, rfl⟩ := hb
  rcases Nat.le_total m n with hmn | hmn
  · obtain ⟨c, rfl⟩ := Nat.exists_eq_add_of_le hmn
    exact Or.inr ⟨c, by rw [pow_add, Nat.div_div_eq_div_mul]⟩
  · obtain ⟨c, rfl⟩ := Nat.exists_eq_add_of_le hmn
    exact Or.inl ⟨c, by rw [pow_add, Nat.div_div_eq_div_mul]⟩

/-- Nothing is below both children of a node. -/
theorem not_below_both (hi : 0 < i) (hl : Below (2 * i) j) : ¬ Below (2 * i + 1) j := by
  intro hr
  have hstep : ∀ {a b : ℕ}, Below a b → a = b ∨ a ≤ b / 2 := by
    rintro a b ⟨m, rfl⟩
    cases m with
    | zero => exact Or.inl (by simp)
    | succ m =>
      refine Or.inr ?_
      rw [pow_succ, Nat.mul_comm, ← Nat.div_div_eq_div_mul]
      exact Nat.div_le_self _ _
  rcases hl.either hr with h | h
  · have := hstep h
    omega
  · have := hstep h
    omega

/-- The slot `i` of a segment of `len` positions is there, in an array for `n` positions, and so
are those below it: it is at some depth `d`, at which segments have at most
`1 + (n - 1) / 2 ^ d` positions. -/
def Fits (n i len : ℕ) : Prop :=
  i < 4 * (n + 1) ∧ ∃ d, i < 2 ^ (d + 1) ∧ (len - 1) * 2 ^ d ≤ n - 1

theorem fits_root (n : ℕ) : Fits n 1 n := ⟨by omega, 0, by simp, by simp⟩

/-- A half of a range fits below its node. -/
theorem Fits.half {len len' : ℕ} (h : Fits n i len) (hlen : 2 ≤ len) (hk : k ≤ 2 * i + 1)
    (hlen' : 2 * (len' - 1) ≤ len - 1) : Fits n k len' := by
  obtain ⟨-, d, hd, hn⟩ := h
  refine ⟨?_, d + 1, ?_, ?_⟩
  · have hpow : 2 ^ d ≤ (len - 1) * 2 ^ d := Nat.le_mul_of_pos_left _ (by omega)
    rw [pow_succ] at hd
    omega
  · rw [pow_succ 2 (d + 1)]
    omega
  · calc (len' - 1) * 2 ^ (d + 1) = 2 * (len' - 1) * 2 ^ d := by ring
      _ ≤ (len - 1) * 2 ^ d := Nat.mul_le_mul_right _ hlen'
      _ ≤ n - 1 := hn

theorem Fits.left (h : Fits n i (r + 1 - l)) (hlr : l < r) :
    Fits n (2 * i) ((l + r) / 2 + 1 - l) :=
  h.half (by omega) (by omega) (by omega)

theorem Fits.right (h : Fits n i (r + 1 - l)) (hlr : l < r) :
    Fits n (2 * i + 1) (r + 1 - ((l + r) / 2 + 1)) :=
  h.half (by omega) (Nat.le_refl _) (by omega)

/-! ### What the slots hold -/

/-- `v` is the node with the smallest key of the positions `l` to `r`, the last one of several. -/
def Best (leaf : ℕ → SegNode δ) (l r : ℕ) (v : SegNode δ) : Prop :=
  ∃ p, l ≤ p ∧ p ≤ r ∧ v = leaf p ∧
    (∀ q, l ≤ q → q ≤ r → (leaf p).key ≤ (leaf q).key) ∧
    ∀ q, p < q → q ≤ r → (leaf p).key < (leaf q).key

theorem best_single (leaf : ℕ → SegNode δ) (l : ℕ) : Best leaf l l (leaf l) := by
  refine ⟨l, Nat.le_refl l, Nat.le_refl l, rfl, fun q h₁ h₂ => ?_, fun q h₁ h₂ => ?_⟩
  · obtain rfl : q = l := by omega
    exact Int.le_refl _
  · omega

/-- The best of two neighbouring segments. -/
theorem Best.pick {m : ℕ} {a b : SegNode δ} (ha : Best leaf l m a) (hb : Best leaf (m + 1) r b) :
    Best leaf l r (a.pick b) := by
  obtain ⟨p, hlp, hpm, rfl, hmin, hlast⟩ := ha
  obtain ⟨q, hmq, hqr, rfl, hmin', hlast'⟩ := hb
  rw [SegNode.pick]
  split
  · next hlt =>
      rw [segmentTreeMin] at hlt
      refine ⟨p, hlp, by omega, rfl, fun c h₁ h₂ => ?_, fun c h₁ h₂ => ?_⟩
      · by_cases hc : c ≤ m
        · exact hmin c h₁ hc
        · have := hmin' c (by omega) h₂
          omega
      · by_cases hc : c ≤ m
        · exact hlast c h₁ hc
        · have := hmin' c (by omega) h₂
          omega
  · next hge =>
      rw [segmentTreeMin] at hge
      refine ⟨q, by omega, hqr, rfl, fun c h₁ h₂ => ?_, fun c h₁ h₂ => ?_⟩
      · by_cases hc : c ≤ m
        · have := hmin c h₁ hc
          omega
        · exact hmin' c (by omega) h₂
      · exact hlast' c h₁ h₂

/-- The slots of a segment agree with the nodes that its positions store. -/
inductive Holds (t : SegTree δ) (leaf : ℕ → SegNode δ) : ℕ → ℕ → ℕ → Prop
  | leaf {i l : ℕ} : t.get i = some (leaf l) → Holds t leaf i l l
  | node {i l r : ℕ} {v : SegNode δ} : l < r → Holds t leaf (2 * i) l ((l + r) / 2) →
      Holds t leaf (2 * i + 1) ((l + r) / 2 + 1) r → t.get i = some v → Best leaf l r v →
      Holds t leaf i l r

theorem Holds.best (h : Holds t leaf i l r) : ∃ v, t.get i = some v ∧ Best leaf l r v := by
  cases h with
  | leaf hv => exact ⟨_, hv, best_single leaf l⟩
  | node _ _ _ hv hbest => exact ⟨_, hv, hbest⟩

/-- Only the slots below matter, and the nodes at these positions. -/
theorem Holds.congr (h : Holds t leaf i l r) (hget : ∀ j, Below i j → t'.get j = t.get j)
    (hleaf : ∀ p, l ≤ p → p ≤ r → leaf' p = leaf p) : Holds t' leaf' i l r := by
  induction h with
  | @leaf i l hv =>
    refine .leaf ?_
    rw [hget i (.refl i), hv, hleaf l (Nat.le_refl l) (Nat.le_refl l)]
  | @node i l r v hlr _ _ hv hbest ihl ihr =>
    refine .node hlr (ihl (fun j hj => hget j (hj.up (by omega))) fun p h₁ h₂ =>
      hleaf p h₁ (by omega)) (ihr (fun j hj => hget j (hj.up (by omega))) fun p h₁ h₂ =>
      hleaf p (by omega) h₂) ((hget i (.refl i)).trans hv) ?_
    obtain ⟨p, hlp, hpr, hvp, hmin, hlast⟩ := hbest
    refine ⟨p, hlp, hpr, by rw [hleaf p hlp hpr, hvp], fun q h₁ h₂ => ?_, fun q h₁ h₂ => ?_⟩
    · rw [hleaf p hlp hpr, hleaf q h₁ h₂]
      exact hmin q h₁ h₂
    · rw [hleaf p hlp hpr, hleaf q (by omega) h₂]
      exact hlast q h₁ h₂

/-- Nothing has changed but slots below `i`. -/
structure Frame (t : SegTree δ) (i : ℕ) (t' : SegTree δ) : Prop where
  extreme : t'.extreme = t.extreme
  num : t'.num = t.num
  size : t'.segments.size = t.segments.size
  get : ∀ j, ¬ Below i j → t'.get j = t.get j

theorem Frame.up (h : Frame t k t') (hk : k / 2 = i) : Frame t i t' :=
  ⟨h.extreme, h.num, h.size, fun j hj => h.get j fun hb => hj (hb.up hk)⟩

theorem Frame.trans {t'' : SegTree δ} (h : Frame t i t') (h' : Frame t' i t'') : Frame t i t'' :=
  ⟨h'.extreme.trans h.extreme, h'.num.trans h.num, h'.size.trans h.size,
    fun j hj => (h'.get j hj).trans (h.get j hj)⟩

/-- A slot inside the array can be written, and nothing else changes. -/
theorem put_spec (hi : i < t.segments.size) (v : SegNode δ) :
    ∃ t', t.put i v = some t' ∧ Frame t i t' ∧ t'.get i = some v ∧
      ∀ j, j ≠ i → t'.get j = t.get j := by
  have hother : ∀ j, j ≠ i → (t.segments.setIfInBounds i v)[j]? = t.segments[j]? := fun j hj =>
    Array.getElem?_setIfInBounds_ne (Ne.symm hj)
  refine ⟨_, if_pos hi, ⟨rfl, rfl, Array.size_setIfInBounds .., fun j hj => hother j ?_⟩, ?_, hother⟩
  · rintro rfl
    exact hj (.refl j)
  · exact Array.getElem?_setIfInBounds_self_of_lt hi

/-- **The way up.** When both halves of a segment hold, so does the segment once its slot has
been picked again. -/
theorem pull_spec (hi : 0 < i) (hlr : l < r) (hsize : i < t.segments.size)
    (hl : Holds t leaf (2 * i) l ((l + r) / 2)) (hr : Holds t leaf (2 * i + 1) ((l + r) / 2 + 1) r) :
    ∃ t', t.pull i (2 * i) = some t' ∧ Frame t i t' ∧ Holds t' leaf i l r := by
  obtain ⟨a, ha, hba⟩ := hl.best
  obtain ⟨b, hb, hbb⟩ := hr.best
  obtain ⟨t', hput, hframe, hget, hother⟩ := put_spec hsize (a.pick b)
  have hne : ∀ k j, i < k → Below k j → j ≠ i := by
    intro k j hk hj heq
    have := hj.le
    omega
  refine ⟨t', ?_, hframe, .node hlr ?_ ?_ hget (hba.pick hbb)⟩
  · simp only [pull, ha, hb, bind_eq_bind, bind_some]
    exact hput
  · exact hl.congr (fun j hj => hother j (hne _ j (by omega) hj)) fun _ _ _ => rfl
  · exact hr.congr (fun j hj => hother j (hne _ j (by omega) hj)) fun _ _ _ => rfl

/-! ### The operations -/

theorem Holds.of_frame_right (h : Holds t leaf (2 * i) l r) (hi : 0 < i)
    (hf : Frame t (2 * i + 1) t') : Holds t' leaf (2 * i) l r :=
  h.congr (fun j hj => hf.get j (not_below_both hi hj)) fun _ _ _ => rfl

theorem Holds.of_frame_left (h : Holds t leaf (2 * i + 1) l r) (hi : 0 < i)
    (hf : Frame t (2 * i) t') : Holds t' leaf (2 * i + 1) l r :=
  h.congr (fun j hj => hf.get j fun hl => not_below_both hi hl hj) fun _ _ _ => rfl

/-- **`ngx_segment_tree_build`** stores its number at each position. -/
theorem build_spec {t : SegTree δ} {fuel : ℕ} (hi : 0 < i) (hlr : l ≤ r) (hfuel : r < l + fuel)
    (hsize : t.segments.size = 4 * (n + 1)) (hfits : Fits n i (r + 1 - l))
    (hnull : ∀ j v, Below i j → t.get j = some v → v.data = none) :
    ∃ t', build fuel t i l r = some t' ∧ Frame t i t' ∧
      Holds t' (fun p => ⟨p, none⟩) i l r := by
  induction fuel generalizing t i l r with
  | zero => omega
  | succ fuel ih =>
    rw [build]
    by_cases heq : l = r
    · subst heq
      rw [if_pos rfl]
      have hlt : i < t.segments.size := hsize ▸ hfits.1
      have hget : t.get i = some t.segments[i] := Array.getElem?_eq_getElem hlt
      have hdata := hnull i _ (.refl i) hget
      obtain ⟨t', hput, hframe, hslot, -⟩ := put_spec hlt ⟨(l : ℤ), none⟩
      refine ⟨t', ?_, hframe, .leaf hslot⟩
      simp only [hget, bind_eq_bind, bind_some, hdata]
      exact hput
    · rw [if_neg heq]
      have hlt : l < r := by omega
      simp only [Nat.shiftLeft_eq, Nat.shiftRight_eq_div_pow, pow_one, Nat.mul_comm i 2]
      obtain ⟨t₁, hrun₁, hframe₁, hhold₁⟩ := ih (t := t) (i := 2 * i) (l := l) (r := (l + r) / 2)
        (by omega) (by omega) (by omega) hsize (hfits.left hlt)
        (fun j v hj hv => hnull j v (hj.up (by omega)) hv)
      obtain ⟨t₂, hrun₂, hframe₂, hhold₂⟩ := ih (t := t₁) (i := 2 * i + 1) (l := (l + r) / 2 + 1)
        (r := r) (by omega) (by omega) (by omega) (hframe₁.size.trans hsize) (hfits.right hlt)
        (fun j v hj hv => by
          rw [hframe₁.get j fun hl => not_below_both hi hl hj] at hv
          exact hnull j v (hj.up (by omega)) hv)
      have hframe : Frame t i t₂ := (hframe₁.up (by omega)).trans (hframe₂.up (by omega))
      obtain ⟨t₃, hrun₃, hframe₃, hhold₃⟩ := pull_spec hi hlt
        (by rw [hframe.size, hsize]; exact hfits.1) (hhold₁.of_frame_right hi hframe₂) hhold₂
      refine ⟨t₃, ?_, hframe.trans hframe₃, hhold₃⟩
      simp only [hrun₁, hrun₂, bind_eq_bind, bind_some]
      exact hrun₃

/-- **A change at a position** reaches its leaf and all slots above it. -/
theorem change_spec {t : SegTree δ} {fuel pos : ℕ} (f : SegNode δ → SegNode δ) (hi : 0 < i)
    (hfuel : r < l + fuel) (hsize : t.segments.size = 4 * (n + 1)) (hfits : Fits n i (r + 1 - l))
    (hlp : l ≤ pos) (hpr : pos ≤ r) (h : Holds t leaf i l r) :
    ∃ t', change f fuel t i l r pos = some t' ∧ Frame t i t' ∧
      Holds t' (update leaf pos (f (leaf pos))) i l r := by
  induction fuel generalizing t i l r with
  | zero => omega
  | succ fuel ih =>
    rw [change]
    have hlt : i < t.segments.size := hsize ▸ hfits.1
    cases h with
    | leaf hv =>
      obtain rfl : pos = l := by omega
      rw [if_pos ⟨rfl, rfl⟩]
      obtain ⟨t', hput, hframe, hslot, -⟩ := put_spec hlt (f (leaf pos))
      refine ⟨t', ?_, hframe, .leaf ?_⟩
      · simp only [hv, bind_eq_bind, bind_some]
        exact hput
      · rw [hslot, update_self]
    | node hlr hl hr _ _ =>
      rw [if_neg fun hc => by omega]
      simp only [Nat.shiftLeft_eq, Nat.shiftRight_eq_div_pow, pow_one, Nat.mul_comm i 2]
      -- The half without the position keeps its nodes.
      have hkeep : ∀ p, p ≠ pos → update leaf pos (f (leaf pos)) p = leaf p :=
        fun p hp => update_of_ne hp ..
      by_cases hmid : pos ≤ (l + r) / 2
      · obtain ⟨t₁, hrun₁, hframe₁, hhold₁⟩ := ih (t := t) (i := 2 * i) (l := l)
          (r := (l + r) / 2) (by omega) (by omega) hsize (hfits.left hlr) hlp hmid hl
        have hr' : Holds t₁ (update leaf pos (f (leaf pos))) (2 * i + 1)
            ((l + r) / 2 + 1) r :=
          (hr.of_frame_left hi hframe₁).congr (fun _ _ => rfl) fun p h₁ h₂ =>
            hkeep p (by omega)
        obtain ⟨t₂, hrun₂, hframe₂, hhold₂⟩ := pull_spec hi hlr
          (by rw [hframe₁.size]; exact hlt) hhold₁ hr'
        refine ⟨t₂, ?_, (hframe₁.up (by omega)).trans hframe₂, hhold₂⟩
        simp only [if_pos hmid, hrun₁, bind_eq_bind, bind_some]
        exact hrun₂
      · obtain ⟨t₁, hrun₁, hframe₁, hhold₁⟩ := ih (t := t) (i := 2 * i + 1)
          (l := (l + r) / 2 + 1) (r := r) (by omega) (by omega) hsize (hfits.right hlr)
          (by omega) hpr hr
        have hl' : Holds t₁ (update leaf pos (f (leaf pos))) (2 * i) l
            ((l + r) / 2) :=
          (hl.of_frame_right hi hframe₁).congr (fun _ _ => rfl) fun p h₁ h₂ =>
            hkeep p (by omega)
        obtain ⟨t₂, hrun₂, hframe₂, hhold₂⟩ := pull_spec hi hlr
          (by rw [hframe₁.size]; exact hlt) hl' hhold₁
        refine ⟨t₂, ?_, (hframe₁.up (by omega)).trans hframe₂, hhold₂⟩
        simp only [if_neg hmid, hrun₁, bind_eq_bind, bind_some]
        exact hrun₂

/-- **`ngx_segment_tree_query`** finds the best node of a range. -/
theorem query_spec {fuel ll rr : ℕ} (hfuel : r < l + fuel) (hll : l ≤ ll) (hrr : rr ≤ r)
    (hle : ll ≤ rr) (h : Holds t leaf i l r) :
    ∃ v, query fuel t i l r ll rr = some v ∧ Best leaf ll rr v := by
  induction fuel generalizing i l r ll rr with
  | zero => omega
  | succ fuel ih =>
    rw [query, if_neg (by omega)]
    by_cases heq : l = ll ∧ r = rr
    · obtain ⟨rfl, rfl⟩ := heq
      rw [if_pos ⟨rfl, rfl⟩]
      exact h.best
    · rw [if_neg heq]
      simp only [Nat.shiftLeft_eq, Nat.shiftRight_eq_div_pow, pow_one, Nat.mul_comm i 2]
      cases h with
      | leaf hv => omega
      | node hlr hl hr _ _ =>
        by_cases hleft : rr ≤ (l + r) / 2
        · rw [if_pos hleft]
          exact ih (by omega) hll hleft hle hl
        · rw [if_neg hleft]
          by_cases hright : ll > (l + r) / 2
          · rw [if_pos hright]
            exact ih (by omega) hright hrr hle hr
          · rw [if_neg hright]
            obtain ⟨a, ha, hba⟩ := ih (by omega) hll (Nat.le_refl ((l + r) / 2)) (by omega) hl
            obtain ⟨b, hb, hbb⟩ :=
              ih (by omega) (Nat.le_refl ((l + r) / 2 + 1)) hrr (by omega) hr
            refine ⟨a.pick b, ?_, hba.pick hbb⟩
            simp [ha, hb]

end SegTree

end Hengine
