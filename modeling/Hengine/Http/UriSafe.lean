import Hengine.Http.ComplexUriSafe

/-!
# The Normalised URI Is Safe and Canonical

What the reference path is worth, and with it what `ngx_http_parse_complex_uri` returns:
no dot segment survives, no double slash where slashes are merged, no `NUL`, and the path
fits into the buffer the raw one needs. The write pointer moves below the start of the
buffer in one case only: where a `..` at the root is refused, by one byte, and nothing is
read or written there.
-/

namespace Hengine

open List Option

/-! ### What the reference yields -/

/-- The segments a path may have: no dot segment, no slash, and with `merge_slashes` no
empty segment but the last. -/
structure CleanSegs (m : Bool) (segs : List (List UInt8)) : Prop where
  noDots : ∀ s ∈ segs, s ≠ dotSeg ∧ s ≠ dotDotSeg
  free : SlashFree segs
  merged : m = true → ∀ s ∈ segs, s ≠ []

/-- Segments stay clean without the last one. -/
theorem CleanSegs.dropLast {m : Bool} {segs : List (List UInt8)} (h : CleanSegs m segs) :
    CleanSegs m segs.dropLast :=
  ⟨fun s hs => h.noDots s (dropLast_subset _ hs),
    fun s hs => h.free s (dropLast_subset _ hs),
    fun hm s hs => h.merged hm s (dropLast_subset _ hs)⟩

/-- The stack stays clean when a segment ends. -/
theorem CleanSegs.endSegment {m : Bool} {stack stack' : List (List UInt8)} {cur : List UInt8}
    (h : CleanSegs m stack) (hcur : byte '/' ∉ cur)
    (hend : Hengine.endSegment m stack cur = some stack') : CleanSegs m stack' := by
  rw [Hengine.endSegment] at hend
  split at hend
  · cases hend
    exact h
  rename_i hdot
  split at hend
  · split at hend
    · cases hend
    · cases hend
      exact h.dropLast
  rename_i hdd
  split at hend
  · cases hend
    exact h
  · rename_i hempty
    cases hend
    refine ⟨?_, ?_, ?_⟩
    · intro s hs
      rcases mem_append.mp hs with hs | hs
      · exact h.noDots s hs
      · rw [mem_singleton.mp hs]
        exact ⟨hdot, hdd⟩
    · intro s hs
      rcases mem_append.mp hs with hs | hs
      · exact h.free s hs
      · rw [mem_singleton.mp hs]
        exact hcur
    · intro hm s hs
      rcases mem_append.mp hs with hs | hs
      · exact h.merged hm s hs
      · rw [mem_singleton.mp hs]
        exact fun h0 => hempty ⟨h0, hm⟩

/-- Nothing but the segment that ended is new on the stack. -/
theorem endSegment_mem {m : Bool} {stack stack' : List (List UInt8)} {cur s : List UInt8}
    (hend : endSegment m stack cur = some stack') (hs : s ∈ stack') : s ∈ stack ∨ s = cur := by
  rw [endSegment] at hend
  split at hend
  · cases hend
    exact Or.inl hs
  split at hend
  · split at hend
    · cases hend
    · cases hend
      exact Or.inl (dropLast_subset _ hs)
  split at hend
  · cases hend
    exact Or.inl hs
  · cases hend
    simpa using hs

/-- **What is left of the segments**: a clean stack and a last segment that is no dot
segment. -/
theorem removeDots_clean (m : Bool) (segs : List (List UInt8)) :
    ∀ (stack res : List (List UInt8)), CleanSegs m stack → SlashFree segs → segs ≠ [] →
      removeDots m stack segs = some res →
      ∃ init last, res = init ++ [last] ∧ CleanSegs m init ∧ last ≠ dotSeg ∧ last ≠ dotDotSeg ∧
        byte '/' ∉ last ∧ ∀ s ∈ res, s = [] ∨ s ∈ stack ∨ s ∈ segs := by
  induction segs with
  | nil =>
    intro stack res _ _ hne
    exact absurd rfl hne
  | cons cur segs ih =>
    intro stack res hstack hfree _ hres
    have hcur : byte '/' ∉ cur := hfree cur (by simp)
    by_cases hsegs : segs = []
    · subst hsegs
      have hempty : ([] : List UInt8) ≠ dotSeg ∧ ([] : List UInt8) ≠ dotDotSeg := by decide
      rw [removeDots] at hres
      split at hres
      · cases hres
        refine ⟨stack, [], rfl, hstack, hempty.1, hempty.2, by simp, ?_⟩
        intro s hs
        rcases mem_append.mp hs with hs | hs
        · exact Or.inr (Or.inl hs)
        · exact Or.inl (mem_singleton.mp hs)
      rename_i hdot
      split at hres
      · split at hres
        · cases hres
        · cases hres
          refine ⟨stack.dropLast, [], rfl, hstack.dropLast, hempty.1, hempty.2, by simp, ?_⟩
          intro s hs
          rcases mem_append.mp hs with hs | hs
          · exact Or.inr (Or.inl (dropLast_subset _ hs))
          · exact Or.inl (mem_singleton.mp hs)
      · rename_i hdd
        cases hres
        refine ⟨stack, cur, rfl, hstack, hdot, hdd, hcur, ?_⟩
        intro s hs
        rcases mem_append.mp hs with hs | hs
        · exact Or.inr (Or.inl hs)
        · exact Or.inr (Or.inr hs)
    · rw [removeDots_cons m stack cur hsegs] at hres
      obtain ⟨stack', hend, hrest⟩ := bind_eq_some_iff.mp hres
      obtain ⟨init, last, hsplit, hinit, h1, h2, h3, hmem⟩ :=
        ih stack' res (hstack.endSegment hcur hend) (fun s hs => hfree s (by simp [hs])) hsegs hrest
      refine ⟨init, last, hsplit, hinit, h1, h2, h3, ?_⟩
      intro s hs
      rcases hmem s hs with h0 | h0 | h0
      · exact Or.inl h0
      · rcases endSegment_mem hend h0 with hold | rfl
        · exact Or.inr (Or.inl hold)
        · exact Or.inr (Or.inr (by simp))
      · exact Or.inr (Or.inr (by simp [h0]))

/-- The segments of a path are those it was made of. -/
theorem segments_renderPath {segs : List (List UInt8)} (h : SlashFree segs) (hne : segs ≠ []) :
    segments (renderPath segs) = [] :: segs := by
  induction segs with
  | nil => exact absurd rfl hne
  | cons s segs ih =>
    have hs : byte '/' ∉ s := h s (by simp)
    have hcons : renderPath (s :: segs) = [] ++ byte '/' :: (s ++ renderPath segs) := by
      simp [renderPath]
    rw [hcons, segments_slash]
    by_cases hsegs : segs = []
    · subst hsegs
      simp [renderPath, segments, segments_single hs]
    · have hrest := ih (fun t ht => h t (by simp [ht])) hsegs
      cases segs with
      | nil => exact absurd rfl hsegs
      | cons t ts =>
        have hnext : renderPath (t :: ts) = byte '/' :: (t ++ renderPath ts) := by
          simp [renderPath]
        rw [hnext] at hrest ⊢
        rw [segments, if_pos rfl, List.cons.injEq] at hrest
        rw [segments_slash, segments_single hs, hrest.2]
        rfl

/-- What a normalised path is worth. -/
structure SafePath (m : Bool) (path : List UInt8) : Prop where
  starts : path.head? = some (byte '/')
  noNul : (0 : UInt8) ∉ path
  noDots : ∀ s ∈ segments path, s ≠ dotSeg ∧ s ≠ dotDotSeg
  merged : m = true → ¬ [byte '/', byte '/'] <:+: path

/-- The bytes of the segments are bytes of the path. -/
theorem mem_segments {d s : List UInt8} {c : UInt8} (hs : s ∈ segments d) (hc : c ∈ s) : c ∈ d := by
  induction d generalizing s with
  | nil =>
    rw [segments, mem_singleton] at hs
    rw [hs] at hc
    cases hc
  | cons e d ih =>
    rw [segments] at hs
    split at hs
    · rcases mem_cons.mp hs with rfl | hs
      · cases hc
      · exact mem_cons_of_mem _ (ih hs hc)
    · split at hs
      · rename_i t ts hseg
        rcases mem_cons.mp hs with rfl | hs
        · rcases mem_cons.mp hc with rfl | hc
          · exact mem_cons_self
          · exact mem_cons_of_mem _ (ih (by rw [hseg]; simp) hc)
        · exact mem_cons_of_mem _ (ih (by rw [hseg]; simp [hs]) hc)
      · rename_i hseg
        exact absurd hseg (segments_ne_nil d)

/-- No segment has a slash. -/
theorem slashFree_segments (d : List UInt8) : SlashFree (segments d) := by
  induction d with
  | nil => simp [SlashFree, segments]
  | cons c d ih =>
    rw [segments]
    split
    · intro s hs
      rcases mem_cons.mp hs with rfl | hs
      · simp
      · exact ih s hs
    · rename_i hc
      split
      · rename_i t ts hseg
        rw [hseg] at ih
        intro s hs
        rcases mem_cons.mp hs with rfl | hs
        · rw [mem_cons, not_or]
          exact ⟨fun h => hc h.symm, ih t (by simp)⟩
        · exact ih s (by simp [hs])
      · simpa [SlashFree] using fun h => hc h.symm

/-- Decoding yields no `NUL`. -/
theorem percentDecode_noNul (xs : List UInt8) :
    ∀ d : List UInt8, (0 : UInt8) ∉ xs → percentDecode xs = some d → (0 : UInt8) ∉ d := by
  induction xs using percentDecode.induct with
  | case1 =>
    intro d _ h
    cases h
    simp
  | case2 h l rest hpair =>
    intro d _ hd
    simp [percentDecode, hpair] at hd
  | case3 h l rest v hpair h0 ih =>
    intro d hxs hd
    simp only [percentDecode, if_true, hpair, if_neg h0, map_eq_some_iff] at hd
    obtain ⟨d', hd', rfl⟩ := hd
    rw [mem_cons, not_or]
    exact ⟨fun h => h0 h.symm, ih d' (fun h => hxs (by simp [h])) hd'⟩
  | case4 h l rest hpair =>
    intro d _ hd
    simp [percentDecode, hpair] at hd
  | case5 cs hcs =>
    intro d _ hd
    rw [percentDecode_bad fun a b rest heq => absurd heq (hcs a b rest)] at hd
    cases hd
  | case6 c cs hc ih =>
    intro d hxs hd
    rw [percentDecode_plain hc, map_eq_some_iff] at hd
    obtain ⟨d', hd', rfl⟩ := hd
    rw [mem_cons, not_or]
    exact ⟨fun h => hxs (by simp [h]), ih d' (fun h => hxs (by simp [h])) hd'⟩

theorem rawPath_initial (raw : List UInt8) : rawPath raw <+: raw := takeWhile_prefix _

/-- **The reference path is safe.** -/
theorem referencePath_safe {m emptyPath : Bool} {raw path : List UInt8}
    (hnul : (0 : UInt8) ∉ raw) (h : referencePath m emptyPath raw = some path) :
    SafePath m path := by
  rw [referencePath] at h
  split at h
  · cases h
  rename_i d hd
  obtain ⟨segs, hsegs, rfl⟩ := map_eq_some_iff.mp h
  have hdnul : (0 : UInt8) ∉ d :=
    percentDecode_noNul _ d (fun h0 => hnul ((rawPath_initial raw).subset h0)) hd
  have hpnul : (0 : UInt8) ∉ (if emptyPath then byte '/' :: d else d).drop 1 := by
    intro h0
    have h1 := mem_of_mem_drop h0
    split at h1
    · rcases mem_cons.mp h1 with h1 | h1
      · exact absurd h1 (by decide)
      · exact hdnul h1
    · exact hdnul h1
  obtain ⟨init, last, rfl, hinit, hdot, hdd, hlast, hmem⟩ :=
    removeDots_clean m _ [] segs ⟨by simp, by simp [SlashFree], by simp⟩ (slashFree_segments _)
      (segments_ne_nil _) hsegs
  have hfree : SlashFree (init ++ [last]) := by
    intro s hs
    rcases mem_append.mp hs with hs | hs
    · exact hinit.free s hs
    · rw [mem_singleton.mp hs]
      exact hlast
  have hne : init ++ [last] ≠ [] := by simp
  have hsegments := segments_renderPath hfree hne
  refine ⟨?_, ?_, ?_, ?_⟩
  · cases init <;> simp [renderPath]
  · intro h0
    rw [renderPath, mem_flatMap] at h0
    obtain ⟨s, hs, hc⟩ := h0
    rcases mem_cons.mp hc with hc | hc
    · exact absurd hc (by decide)
    · rcases hmem s hs with rfl | hold | hnew
      · cases hc
      · cases hold
      · exact hpnul (mem_segments hnew hc)
  · intro s hs
    rw [hsegments] at hs
    rcases mem_cons.mp hs with rfl | hs
    · decide
    · rcases mem_append.mp hs with hs | hs
      · exact hinit.noDots s hs
      · rw [mem_singleton.mp hs]
        exact ⟨hdot, hdd⟩
  · -- A double slash would make an empty segment that is not the last.
    intro hm hdouble
    obtain ⟨a, b, hab⟩ := hdouble
    rw [← hab, append_assoc, cons_append, singleton_append, segments_slash,
      segments, if_pos rfl] at hsegments
    cases ha : segments a with
    | nil => exact absurd ha (segments_ne_nil a)
    | cons t ts =>
      rw [ha, cons_append, List.cons.injEq] at hsegments
      obtain ⟨-, hsegments⟩ := hsegments
      have hb := (dropLast_append_getLast (segments_ne_nil b)).symm
      rw [hb, ← cons_append, ← append_assoc] at hsegments
      have hinit' := append_inj_left' hsegments rfl
      exact hinit.merged hm [] (by rw [← hinit']; simp) rfl

/-! ### The write pointer -/

/-- How many bytes have been written at least in a plain state: the slash, the dot, the
second dot. -/
def PlainState.written : PlainState → ℕ
  | swUsual => 0
  | swSlash => 1
  | swDot => 2
  | swDotDot => 3

/-- The plain state the loop is in or will come back to. -/
def UriState.back : UriState → PlainState
  | plain s => s
  | swQuoted s => s
  | swQuotedSecond s _ => s

/-- The bytes that the state stands for have been written. -/
def Written (l : UriLoop) : Prop := l.state.back.written ≤ l.fields.out.length

/-- What a step may do to the write pointer: it moves on by at most one byte, and where
the request is refused it is at most one byte before the buffer. -/
structure PointerOk (f : UriFields) (next : Verdict UriLoop UriExit) : Prop where
  more : ∀ l', next = .more l' → Written l' ∧ l'.fields.out.length ≤ f.out.length + 1
  args : ∀ f', next = .stop (.args f') → f'.out.length ≤ f.out.length
  done : ∀ f', next = .stop (.done f') → f'.out.length ≤ f.out.length
  invalid : ∀ u, next = .stop (.invalid u) → -1 ≤ u

variable {f f' : UriFields} {s : PlainState}

/-- A step that writes at most one byte keeps the pointers. -/
theorem PointerOk.go (hw : s.written ≤ f'.out.length) (hle : f'.out.length ≤ f.out.length + 1) :
    PointerOk f (goUri f' s) := by
  refine ⟨?_, ?_, ?_, ?_⟩
  · intro l' h
    cases h
    exact ⟨hw, hle⟩
  · intro f' h
    cases h
  · intro f' h
    cases h
  · intro u h
    cases h

/-- Writing a byte keeps the pointers. -/
theorem PointerOk.push {c : UInt8} (hout : f'.out = f.out ++ [c])
    (hw : s.written ≤ f.out.length + 1) : PointerOk f (goUri f' s) := by
  have hlen : f'.out.length = f.out.length + 1 := by rw [hout]; simp
  exact .go (by omega) (by omega)

/-- A step that writes nothing. -/
theorem PointerOk.keep {state : UriState} (hout : f'.out = f.out)
    (hw : state.back.written ≤ f.out.length) : PointerOk f (.more ⟨f', state⟩) := by
  refine ⟨?_, ?_, ?_, ?_⟩
  · intro l' h
    cases h
    refine ⟨?_, ?_⟩
    · rw [Written, hout]
      exact hw
    · rw [hout]
      exact Nat.le_succ _
  · intro f' h
    cases h
  · intro f' h
    cases h
  · intro u h
    cases h

theorem PointerOk.of_out {next : Verdict UriLoop UriExit} (h : PointerOk f' next)
    (hout : f'.out = f.out) : PointerOk f next := by
  obtain ⟨h1, h2, h3, h4⟩ := h
  rw [hout] at h1 h2 h3
  exact ⟨h1, h2, h3, h4⟩

/-- The end of the path. -/
theorem PointerOk.stop {f : UriFields} {e : UriExit}
    (h : (∃ f', f'.out.length ≤ f.out.length ∧ (e = .args f' ∨ e = .done f')) ∨
      ∃ u, -1 ≤ u ∧ e = .invalid u) : PointerOk f (.stop e) := by
  refine ⟨?_, ?_, ?_, ?_⟩
  · intro l' h'
    cases h'
  · intro f₁ h'
    cases h'
    rcases h with ⟨f', hle, he | he⟩ | ⟨u, _, he⟩ <;> cases he
    exact hle
  · intro f₁ h'
    cases h'
    rcases h with ⟨f', hle, he | he⟩ | ⟨u, _, he⟩ <;> cases he
    exact hle
  · intro u₁ h'
    cases h'
    rcases h with ⟨f', hle, he | he⟩ | ⟨u, hu, he⟩ <;> cases he
    exact hu

/-- The way back to the last slash stays in the path. -/
theorem scanBack_range (out : List UInt8) :
    ∀ u, -1 ≤ scanBack out u ∧ (¬ scanBack out u < 0 → 1 ≤ scanBack out u) := by
  intro u
  induction u with
  | zero =>
    rw [scanBack]
    split <;> omega
  | succ u ih =>
    rw [scanBack]
    split
    · omega
    · exact ih

theorem climb_range {out : List UInt8} (h : 3 ≤ out.length) :
    -1 ≤ climb out ∧ (¬ climb out < 0 → 1 ≤ climb out) := by
  rw [climb]
  split
  · omega
  · exact scanBack_range out _

/-- The end of a `..` segment. -/
theorem PointerOk.up {f : UriFields} (h : 3 ≤ f.out.length)
    {next : UriFields → Verdict UriLoop UriExit}
    (hnext : ∀ f', 1 ≤ f'.out.length → f'.out.length ≤ f.out.length → PointerOk f (next f')) :
    PointerOk f (uriUp f next) := by
  obtain ⟨hlow, hpos⟩ := climb_range h
  rw [uriUp]
  split
  · exact .stop (Or.inr ⟨_, hlow, rfl⟩)
  · rename_i hneg
    have := hpos hneg
    refine hnext _ ?_ ?_
    · simp only [length_take]
      omega
    · simp only [length_take]
      omega

/-- A branch keeps the pointers when both ways do. -/
theorem PointerOk.ite {f : UriFields} {c : Prop} [Decidable c] {t e : Verdict UriLoop UriExit}
    (ht : PointerOk f t) (he : PointerOk f e) : PointerOk f (if c then t else e) :=
  iteInduction (fun _ => ht) fun _ => he

/-- **The plain states.** -/
theorem plainStep_pointer {f : UriFields} (h : s.written ≤ f.out.length) (m : Bool) (c : UInt8) :
    PointerOk f (plainStep m s f c) := by
  have hdone : PointerOk f (.stop (.done f)) :=
    .stop (Or.inl ⟨f, Nat.le_refl _, Or.inr rfl⟩)
  have hargs : PointerOk f (.stop (.args f)) :=
    .stop (Or.inl ⟨f, Nat.le_refl _, Or.inl rfl⟩)
  have hback : f.back.out.length = f.out.length - 1 := by simp [UriFields.back]
  have hother : PointerOk f (goUri (pushOther f c) .swUsual) :=
    .push (pushOther_out f c) (Nat.zero_le _)
  have hpush : PointerOk f (goUri (f.push c) .swUsual) := .push rfl (Nat.zero_le _)
  cases s with
  | swUsual =>
    simp only [plainStep, uriUsual]
    refine .ite hpush ?_
    refine .ite (.push rfl (by simp [PlainState.written])) ?_
    refine .ite (.keep rfl h) ?_
    refine .ite hargs (.ite hdone ?_)
    refine .ite (.push rfl (Nat.zero_le _)) ?_
    exact hother
  | swSlash =>
    simp only [PlainState.written] at h
    simp only [plainStep, uriSlash]
    refine .ite hpush ?_
    refine .ite ?_ ?_
    · split
      · exact .go h (Nat.le_succ _)
      · exact .push rfl (by simp only [PlainState.written]; omega)
    refine .ite (.push rfl (by simp only [PlainState.written]; omega)) ?_
    refine .ite (.keep rfl h) ?_
    refine .ite hargs (.ite hdone ?_)
    exact hother
  | swDot =>
    simp only [PlainState.written] at h
    simp only [plainStep, uriDot]
    refine .ite hpush ?_
    refine .ite (.go (by simp only [PlainState.written]; omega) (by omega)) ?_
    refine .ite (.push rfl (by simp only [PlainState.written]; omega)) ?_
    refine .ite (.keep rfl h) ?_
    refine .ite (.stop (Or.inl ⟨f.back, by omega, Or.inl rfl⟩)) ?_
    refine .ite (.stop (Or.inl ⟨f.back, by omega, Or.inr rfl⟩)) ?_
    exact hother
  | swDotDot =>
    simp only [PlainState.written] at h
    simp only [plainStep, uriDotDot]
    refine .ite hpush ?_
    refine .ite (.up h fun f' h1 h2 => .go h1 (by omega)) ?_
    refine .ite (.up h fun f' _ h2 => .stop (Or.inl ⟨f', h2, Or.inl rfl⟩)) ?_
    refine .ite (.up h fun f' _ h2 => .stop (Or.inl ⟨f', h2, Or.inr rfl⟩)) ?_
    refine .ite (.keep rfl h) ?_
    exact hother

/-- **One byte of the raw URI.** -/
theorem uriStep_pointer {l : UriLoop} (h : Written l) (m : Bool) (c : UInt8) :
    PointerOk l.fields (uriStep m l c) := by
  obtain ⟨f, state⟩ := l
  have hinvalid : ∀ g : UriFields, PointerOk f (uriInvalid g) := fun g =>
    .stop (Or.inr ⟨_, by omega, rfl⟩)
  cases state with
  | plain s => exact plainStep_pointer h m c
  | swQuoted s =>
    simp only [uriStep, uriQuoted]
    split
    · exact .keep rfl h
    split
    · exact .keep rfl h
    · exact hinvalid _
  | swQuotedSecond s d =>
    simp only [uriStep, uriQuotedSecond]
    split
    · split
      · exact .push rfl (Nat.zero_le _)
      split
      · exact hinvalid f
      · exact plainStep_pointer h m _
    split
    · split
      · exact .push rfl (Nat.zero_le _)
      · split
        · exact (plainStep_pointer (f := { f with plusInUri := true }) h m _).of_out rfl
        · exact plainStep_pointer h m _
    · exact hinvalid f

/-- The loop does not get beyond a question mark. -/
theorem uriStep_question (m : Bool) (l : UriLoop) : ∃ e, uriStep m l (byte '?') = .stop e := by
  obtain ⟨f, state⟩ := l
  cases state with
  | plain s =>
    cases s with
    | swUsual => exact ⟨_, rfl⟩
    | swSlash => exact ⟨_, rfl⟩
    | swDot => exact ⟨_, rfl⟩
    | swDotDot =>
      have hup : uriStep m ⟨f, .plain .swDotDot⟩ (byte '?')
          = uriUp f fun f => .stop (.args f) := rfl
      rw [hup, uriUp]
      split
      · exact ⟨_, rfl⟩
      · exact ⟨_, rfl⟩
  | swQuoted s => exact ⟨_, rfl⟩
  | swQuotedSecond s d => exact ⟨_, rfl⟩

/-- The bytes the path may have when `read` has been read: as many, and the slash of an
empty path. -/
def pathRoom (emptyPath : Bool) (read : List UInt8) : ℕ :=
  read.length + if emptyPath then 1 else 0

/-- What holds while the raw URI is read: no question mark has been met, and there is room
for what has been written. -/
structure Room (emptyPath : Bool) (read : List UInt8) (l : UriLoop) : Prop where
  noArgs : byte '?' ∉ read
  written : Written l
  fits : l.fields.out.length ≤ pathRoom emptyPath read

/-- One byte keeps the room. -/
theorem Room.step {emptyPath m : Bool} {read : List UInt8} {l l' : UriLoop} {c : UInt8}
    (h : Room emptyPath read l) (hc : uriStep m l c = .more l') :
    Room emptyPath (read ++ [c]) l' := by
  obtain ⟨hw, hle⟩ := (uriStep_pointer h.written m c).more l' hc
  refine ⟨?_, hw, ?_⟩
  · rw [mem_append, mem_singleton, not_or]
    refine ⟨h.noArgs, ?_⟩
    rintro rfl
    obtain ⟨e, he⟩ := uriStep_question m l
    rw [he] at hc
    cases hc
  · have hroom := h.fits
    simp only [pathRoom, length_append, length_singleton] at hroom ⊢
    omega

/-- **Room.** Where the loop has come to, at most as many bytes have been written as read,
and where it is left as well. -/
theorem scan_room (m emptyPath plus quoted : Bool) (raw : List UInt8) :
    (∀ l, scanFrom (uriStep m) (uriStart emptyPath plus quoted) raw = .again l →
      Room emptyPath raw l) ∧
    ∀ e rest, scanFrom (uriStep m) (uriStart emptyPath plus quoted) raw = .stopped e rest →
      (∀ u, e = .invalid u → -1 ≤ u) ∧
      ∀ f, e = .args f ∨ e = .done f →
        ∃ read, read <+: raw ∧ byte '?' ∉ read ∧ f.out.length ≤ pathRoom emptyPath read := by
  have hstart : Room emptyPath [] (uriStart emptyPath plus quoted) := by
    refine ⟨by simp, Nat.zero_le _, ?_⟩
    cases emptyPath <;> simp [pathRoom, uriStart]
  obtain ⟨hagain, hstopped⟩ := scan_invariant (f := fun _ => uriStep m)
    (fun _ _ _ _ h hc => h.step hc) raw [] _ hstart
  refine ⟨hagain, ?_⟩
  intro e rest h
  obtain ⟨read, l, c, cs, hin, -, hl, hstop⟩ := hstopped e rest h
  obtain ⟨-, hargs, hdone, hinvalid⟩ := uriStep_pointer hl.written m c
  refine ⟨?_, ?_⟩
  · rintro u rfl
    exact hinvalid u hstop
  · have hread : read <+: raw := ⟨rest, hin.symm⟩
    rintro f (rfl | rfl)
    · exact ⟨read, hread, hl.noArgs, Nat.le_trans (hargs f hstop) hl.fits⟩
    · exact ⟨read, hread, hl.noArgs, Nat.le_trans (hdone f hstop) hl.fits⟩

/-- **The result has room**, and where there is none the write pointer is at most one byte
before the buffer. -/
theorem parseComplexUri_room (m emptyPath plus quoted : Bool) (raw : List UInt8) :
    (∀ res, parseComplexUri m emptyPath plus quoted raw = .ok res →
      ∃ read, read <+: raw ∧ byte '?' ∉ read ∧ res.uri.length ≤ pathRoom emptyPath read) ∧
    ∀ u, parseComplexUri m emptyPath plus quoted raw = .invalidRequest u → -1 ≤ u := by
  obtain ⟨hagain, hstopped⟩ := scan_room m emptyPath plus quoted raw
  rw [parseComplexUri]
  cases hscan : scanFrom (uriStep m) (uriStart emptyPath plus quoted) raw with
  | stopped e rest =>
    obtain ⟨hinvalid, hout⟩ := hstopped e rest hscan
    cases e with
    | invalid u =>
      refine ⟨?_, ?_⟩
      · intro res h
        cases h
      · intro u' h
        cases h
        exact hinvalid u rfl
    | done f =>
      refine ⟨?_, ?_⟩
      · intro res h
        cases h
        exact hout f (Or.inr rfl)
      · intro u h
        cases h
    | args f =>
      refine ⟨?_, ?_⟩
      · intro res h
        cases h
        exact hout f (Or.inl rfl)
      · intro u h
        cases h
  | again l =>
    obtain ⟨f, state⟩ := l
    have hroom := hagain _ hscan
    -- Behind the loop the path only gets shorter.
    have hle : ∀ n, n ≤ f.out.length →
        ∃ read, read <+: raw ∧ byte '?' ∉ read ∧ n ≤ pathRoom emptyPath read :=
      fun n hn => ⟨raw, prefix_refl _, hroom.noArgs, Nat.le_trans hn hroom.fits⟩
    cases state with
    | swQuoted s =>
      refine ⟨?_, ?_⟩
      · intro res h
        cases h
      · intro u h
        cases h
        simp only
        omega
    | swQuotedSecond s d =>
      refine ⟨?_, ?_⟩
      · intro res h
        cases h
      · intro u h
        cases h
        simp only
        omega
    | plain s =>
      cases s with
      | swUsual =>
        refine ⟨?_, ?_⟩
        · intro res h
          cases h
          exact hle _ (Nat.le_refl _)
        · intro u h
          cases h
      | swSlash =>
        refine ⟨?_, ?_⟩
        · intro res h
          cases h
          exact hle _ (Nat.le_refl _)
        · intro u h
          cases h
      | swDot =>
        refine ⟨?_, ?_⟩
        · intro res h
          cases h
          exact hle _ (by simp [UriFields.back])
        · intro u h
          cases h
      | swDotDot =>
        simp only [uriEnd]
        split
        · refine ⟨?_, ?_⟩
          · intro res h
            cases h
          · intro u h
            cases h
            exact (climb_range (by exact hroom.written)).1
        · refine ⟨?_, ?_⟩
          · intro res h
            cases h
            exact hle _ (length_take_le' _ _)
          · intro u h
            cases h

end Hengine
