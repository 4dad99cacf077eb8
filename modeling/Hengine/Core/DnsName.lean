import Mathlib.Data.List.Flatten
import Hengine.Http.Bytes

/-!
# Names in a DNS Response

The model of `ngx_resolver_copy` in `ngx_resolver.c`. A position is an offset from `buf`; a read
at `last` or behind it, and a write behind the bytes allocated, are outcomes of their own, and
proved never to come. The first pass measures the name and takes at most 128 turns; the second
walks the same way again, without a check and without a bound of its own.
-/

namespace Hengine.Dns

open List

/-- Why the call fails. -/
inductive Err
  | labelType
  | outOfResponse
  | loop
  | memory
deriving Repr, DecidableEq

/-- How a pass ends: `outside` is a read at `last` or behind it, `overflow` a write behind the
bytes that were allocated. -/
inductive Outcome (α : Type)
  | done (a : α)
  | error (err : Err)
  | outside
  | overflow
deriving Repr, DecidableEq

/-- What is stored in the `ngx_str_t`: how many bytes were allocated, what was written to them,
and `name->len`. -/
structure Name where
  size : ℕ
  written : List UInt8
  len : ℕ
deriving Repr, DecidableEq

/-- The bytes of the name. -/
def Name.text (name : Name) : List UInt8 := name.written.take name.len

/-! ### The code -/

/-- Where a compression pointer leads: `((n & 0x3f) << 8) + *p`. -/
def target (n lo : UInt8) : ℕ := ((n &&& 0x3f).toNat <<< 8) + lo.toNat

/-- The first pass, with the turns it has left: `len`. -/
def measure (buf : List UInt8) : ℕ → ℕ → ℕ → Outcome ℕ
  | 0, _, _ => .error .loop
  | turns + 1, p, len =>
    match buf[p]? with
    | none => .outside
    | some n =>
      if n = 0 then .done len
      else if n &&& 0xc0 ≠ 0 then
        if n &&& 0xc0 ≠ 0xc0 then .error .labelType
        else if buf.length ≤ p + 1 then .error .outOfResponse
        else
          match buf[p + 1]? with
          | none => .outside
          | some lo =>
            if buf.length ≤ target n lo then .error .outOfResponse
            else measure buf turns (target n lo) len
      else if buf.length ≤ p + 1 + n.toNat then .error .outOfResponse
      else measure buf turns (p + 1 + n.toNat) (len + (1 + n.toNat))

/-- The second pass, for at most `fuel` turns; `size` bytes are allocated at `dst`. -/
def copyLoop (buf : List UInt8) (size : ℕ) : ℕ → ℕ → List UInt8 → Option (Outcome Name)
  | 0, _, _ => none
  | fuel + 1, src, dst =>
    match buf[src]? with
    | none => some .outside
    | some n =>
      if n = 0 then some (.done ⟨size, dst, dst.length - 1⟩)
      else if n &&& 0xc0 ≠ 0 then
        match buf[src + 1]? with
        | none => some .outside
        | some lo => copyLoop buf size fuel (target n lo) dst
      else if buf.length < src + 1 + n.toNat then some .outside
      else if size < dst.length + n.toNat + 1 then some .overflow
      else
        copyLoop buf size fuel (src + 1 + n.toNat)
          (dst ++ (((buf.drop (src + 1)).take n.toNat).map tolower ++ [46]))

/-- `ngx_resolver_copy`: `wanted` says whether `name` is not `NULL`, `memory` whether the
allocation succeeds. Without a name there is nothing to copy. -/
def resolverCopy (wanted memory : Bool) (fuel : ℕ) (buf : List UInt8) (src : ℕ) :
    Option (Outcome (Option Name)) :=
  match measure buf 128 src 0 with
  | .done len =>
    if !wanted then some (.done none)
    else if len = 0 then some (.done (some ⟨0, [], 0⟩))
    else if !memory then some (.error .memory)
    else
      match copyLoop buf len fuel src [] with
      | none => none
      | some (.done name) => some (.done (some name))
      | some (.error err) => some (.error err)
      | some .outside => some .outside
      | some .overflow => some .overflow
  | .error err => some (.error err)
  | .outside => some .outside
  | .overflow => some .overflow

/-! ### Labels -/

/-- **The labels at a position**, with the compression pointers followed. -/
inductive Labels (buf : List UInt8) : ℕ → List (List UInt8) → Prop
  | nil {p : ℕ} (h : buf[p]? = some 0) : Labels buf p []
  | pointer {p : ℕ} {n lo : UInt8} {ls : List (List UInt8)} (h : buf[p]? = some n)
      (htype : n &&& 0xc0 = 0xc0) (hlo : buf[p + 1]? = some lo)
      (hrest : Labels buf (target n lo) ls) : Labels buf p ls
  | label {p : ℕ} {n : UInt8} {ls : List (List UInt8)} (h : buf[p]? = some n) (hn : n ≠ 0)
      (htype : n &&& 0xc0 = 0) (hin : p + 1 + n.toNat ≤ buf.length)
      (hrest : Labels buf (p + 1 + n.toNat) ls) :
      Labels buf p ((buf.drop (p + 1)).take n.toNat :: ls)

/-- What the second pass writes for the labels: each in lower case, with a dot behind it. -/
def dotted (ls : List (List UInt8)) : List UInt8 := ls.flatMap fun l => l.map tolower ++ [46]

@[simp] theorem dotted_nil : dotted [] = [] := rfl

@[simp] theorem dotted_cons (l : List UInt8) (ls : List (List UInt8)) :
    dotted (l :: ls) = l.map tolower ++ [46] ++ dotted ls := rfl

/-- The labels in lower case, with dots between them. -/
def joined (ls : List (List UInt8)) : List UInt8 := [46].intercalate (ls.map (List.map tolower))

/-- A name with dots is its labels joined, and a dot. -/
theorem dotted_eq : ∀ {ls : List (List UInt8)}, ls ≠ [] → dotted ls = joined ls ++ [46]
  | [], h => absurd rfl h
  | [l], _ => by simp [joined, List.intercalate]
  | l :: l' :: ls, _ => by
    rw [dotted_cons, dotted_eq (cons_ne_nil l' ls)]
    simp [joined, List.intercalate]

theorem dropLast_dotted (ls : List (List UInt8)) : (dotted ls).dropLast = joined ls := by
  by_cases h : ls = []
  · rw [h]
    rfl
  · rw [dotted_eq h, dropLast_concat]

/-! ### The two passes -/

variable {buf : List UInt8}

/-- **The first pass reads inside the response.** -/
theorem measure_inside : ∀ (turns p len : ℕ), p < buf.length →
    measure buf turns p len ≠ .outside ∧ measure buf turns p len ≠ .overflow
  | 0, _, _, _ => ⟨nofun, nofun⟩
  | turns + 1, p, len, h => by
    rw [measure, getElem?_eq_getElem h]
    dsimp only
    split_ifs with hzero hflags htype hend hnext
    · exact ⟨nofun, nofun⟩
    · exact ⟨nofun, nofun⟩
    · exact ⟨nofun, nofun⟩
    · rw [getElem?_eq_getElem (Nat.lt_of_not_le hend)]
      dsimp only
      split_ifs with hlead
      · exact ⟨nofun, nofun⟩
      · exact measure_inside turns _ len (Nat.lt_of_not_le hlead)
    · exact ⟨nofun, nofun⟩
    · exact measure_inside turns _ _ (Nat.lt_of_not_le hnext)

/-- **Both passes make one walk.** Where the first pass ends with a length, there are labels of
that length, and the second pass, in as many turns, writes them. -/
theorem measure_spec : ∀ {turns p len total : ℕ}, measure buf turns p len = .done total →
    ∃ ls, Labels buf p ls ∧ total = len + (dotted ls).length ∧
      ∀ (size : ℕ) (dst : List UInt8), dst.length + (dotted ls).length ≤ size →
        copyLoop buf size turns p dst =
          some (.done ⟨size, dst ++ dotted ls, (dst ++ dotted ls).length - 1⟩)
  | 0, _, _, _, h => nomatch h
  | turns + 1, p, len, total, h => by
    rw [measure] at h
    cases hn : buf[p]? with
    | none =>
      rw [hn] at h
      cases h
    | some n =>
      rw [hn] at h
      dsimp only at h
      split_ifs at h with hzero hflags htype hend hnext
      · cases h
        subst hzero
        refine ⟨[], .nil hn, by simp, fun size dst _ => ?_⟩
        simp [copyLoop, hn]
      · -- a compression pointer: both passes go where it leads
        cases hlo : buf[p + 1]? with
        | none =>
          rw [hlo] at h
          cases h
        | some lo =>
          rw [hlo] at h
          dsimp only at h
          split_ifs at h with hlead
          obtain ⟨ls, hls, htotal, hcopy⟩ := measure_spec h
          refine ⟨ls, .pointer hn (by simpa using htype) hlo hls, htotal, fun size dst hsize => ?_⟩
          rw [copyLoop, hn]
          dsimp only
          rw [if_neg hzero, if_pos hflags, hlo]
          exact hcopy size dst hsize
      · -- a label: what is measured for it is what is written for it
        have hin : p + 1 + n.toNat ≤ buf.length := Nat.le_of_lt (Nat.lt_of_not_le hnext)
        have hlen : ((buf.drop (p + 1)).take n.toNat).length = n.toNat := by
          rw [length_take, length_drop]
          omega
        obtain ⟨ls, hls, htotal, hcopy⟩ := measure_spec h
        refine ⟨_ :: ls, .label hn hzero (by simpa using hflags) hin hls, ?_, fun size dst hsize => ?_⟩
        · simp only [dotted_cons, length_append, length_map, hlen,
            length_singleton]
          omega
        · simp only [dotted_cons, length_append, length_map, hlen,
            length_singleton] at hsize
          rw [copyLoop, hn]
          dsimp only
          rw [if_neg hzero, if_neg hflags, if_neg (Nat.not_lt.mpr hin), if_neg (by omega),
            hcopy size _ (by simp only [length_append, length_map, hlen,
              length_singleton]; omega)]
          simp

/-- **A name that was measured** is copied, if its memory can be had. -/
theorem resolverCopy_of_measure {memory : Bool} {src len : ℕ} (h : measure buf 128 src 0 = .done len)
    (hmemory : len = 0 ∨ memory = true) :
    ∃ name ls, resolverCopy true memory 128 buf src = some (.done (some name)) ∧
      name.written.length = name.size ∧ Labels buf src ls ∧ name.text = joined ls := by
  obtain ⟨ls, hls, htotal, hcopy⟩ := measure_spec h
  rw [Nat.zero_add] at htotal
  rw [resolverCopy, h]
  dsimp only
  rw [if_neg (by simp)]
  by_cases hzero : len = 0
  · have hnil : ls = [] := by
      cases ls with
      | nil => rfl
      | cons l ls => simp [hzero] at htotal
    rw [if_pos hzero]
    exact ⟨_, ls, rfl, rfl, hls, by rw [hnil]; rfl⟩
  · rw [if_neg hzero, hmemory.resolve_left hzero, if_neg (by simp),
      hcopy len [] (by simp [htotal])]
    refine ⟨_, ls, rfl, by simp [htotal], hls, ?_⟩
    rw [Name.text, ← dropLast_dotted, dropLast_eq_take, nil_append]

/-- What a call that ends with an outcome other than an error gives: nothing where no name is wanted,
and else the name of the labels, all of the allocated bytes written. -/
def Outcome.Gives (wanted : Bool) (buf : List UInt8) (src : ℕ) (outcome : Outcome (Option Name)) :
    Prop :=
  (wanted = false ∧ outcome = .done none) ∨
    (wanted = true ∧ ∃ name ls, outcome = .done (some name) ∧ name.written.length = name.size ∧
      Labels buf src ls ∧ name.text = joined ls)

/-- **A name is copied safely.** From every position of a response, the call ends; it reads nothing
at the end of the response or behind it and writes nothing behind what it allocated; and it fails, or
where a name is wanted it gives one: it wrote all that it allocated, and the name is that of the
labels. -/
theorem copy_safe (wanted memory : Bool) (buf : List UInt8) (src : ℕ) (h : src < buf.length) :
    ∃ outcome, resolverCopy wanted memory 128 buf src = some outcome ∧
      outcome ≠ .outside ∧ outcome ≠ .overflow ∧
      ((∃ err, outcome = .error err) ∨ outcome.Gives wanted buf src) := by
  obtain ⟨hout, hover⟩ := measure_inside 128 src 0 h
  cases hmeasure : measure buf 128 src 0 with
  | outside => exact absurd hmeasure hout
  | overflow => exact absurd hmeasure hover
  | error err =>
    rw [resolverCopy, hmeasure]
    exact ⟨_, rfl, nofun, nofun, .inl ⟨err, rfl⟩⟩
  | done len =>
    cases wanted with
    | false =>
      rw [resolverCopy, hmeasure]
      exact ⟨_, rfl, nofun, nofun, .inr (.inl ⟨rfl, rfl⟩)⟩
    | true =>
      by_cases hmemory : len = 0 ∨ memory = true
      · obtain ⟨name, ls, hcopy, hgives⟩ := resolverCopy_of_measure hmeasure hmemory
        exact ⟨_, hcopy, nofun, nofun, .inr (.inr ⟨rfl, name, ls, rfl, hgives⟩)⟩
      · rw [not_or, Bool.not_eq_true] at hmemory
        have hnone : resolverCopy true memory 128 buf src = some (.error .memory) := by
          simp [resolverCopy, hmeasure, hmemory]
        exact ⟨_, hnone, nofun, nofun, .inl ⟨_, rfl⟩⟩

/-- A compression pointer to the name `A`: the name is `a`. -/
theorem copy_safe_pointer :
    ∃ name ls, resolverCopy true true 128 [1, 65, 0, 0xc0, 0] 3 = some (.done (some name)) ∧
      name.written.length = name.size ∧ Labels [1, 65, 0, 0xc0, 0] 3 ls ∧ name.text = joined ls ∧
      name.text = [97] := by
  have hrun : resolverCopy true true 128 [1, 65, 0, 0xc0, 0] 3 =
      some (.done (some ⟨2, [97, 46], 1⟩)) := by decide
  obtain ⟨outcome, hcopy, -, -, hgives⟩ := copy_safe true true [1, 65, 0, 0xc0, 0] 3 (by decide)
  obtain rfl := Option.some.inj (hrun.symm.trans hcopy)
  rcases hgives with ⟨err, herr⟩ | ⟨hwanted, -⟩ | ⟨-, name, ls, hdone, hsize, hls, htext⟩
  · cases herr
  · cases hwanted
  · cases hdone
    exact ⟨_, ls, hcopy, hsize, hls, htext, by decide⟩

end Hengine.Dns
