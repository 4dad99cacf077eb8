import Mathlib.Data.List.TakeWhile
import Hengine.Core.EscapeUri
import Hengine.Http.Bytes

/-!
# URIs from outside

The model of `ngx_http_parse_unsafe_uri` in `ngx_http_parse.c`, without `NGX_WIN32`.

The first loop reads the URI up to a `?`, and looks behind each `/` for two dots and the end or another
`/`. The end it knows is that of the URI: two dots before a `?` pass. If there was a `%` the path is
unescaped, and a second loop reads it anew, now to its own end.
-/

namespace Hengine.UnsafeUri

open List

open Escape

/-- `p[0] == '.' && p[1] == '.'`, and then the end or a separator. -/
def climbs (p : List UInt8) : Bool :=
  p[0]? = some (byte '.') ∧ p[1]? = some (byte '.') ∧ (p.length = 2 ∨ p[2]? = some (byte '/'))

/-- The first loop: what is left of the URI at a `?`, and `quoted`. -/
@[grind =]
def scan : List UInt8 → Bool → Option (List UInt8 × Bool)
  | [], quoted => some ([], quoted)
  | ch :: p, quoted =>
    if ch = byte '%' then scan p true
    else if usual ch then scan p quoted
    else if ch = byte '?' then some (ch :: p, quoted)
    else if ch = 0 then none
    else if ch = byte '/' ∧ climbs p then none
    else scan p quoted

/-- The second loop. -/
@[grind =]
def scanDecoded : List UInt8 → Bool
  | [] => true
  | ch :: p =>
    if ch = 0 then false
    else if ch = byte '/' ∧ climbs p then false
    else scanDecoded p

/-- `ngx_http_parse_unsafe_uri`: the path and the arguments, or `NGX_ERROR`. `alloc` is whether the pool
has memory for the path, and `args` is what the caller has put there. -/
def parseUnsafeUri (alloc : Bool) (uri args : List UInt8) : Option (List UInt8 × List UInt8) :=
  if uri.isEmpty ∨ uri[0]? = some (byte '?') then none
  else if climbs uri then none
  else
    match scan uri false with
    | none => none
    | some (rest, quoted) =>
      let path := uri.take (uri.length - rest.length)
      let args := if rest.isEmpty then args else rest.tail
      if quoted then
        if alloc then
          let path := (unescapeUri plain path).1
          if climbs path then none
          else if scanDecoded path then some (path, args)
          else none
        else none
      else some (path, args)

/-! ### What it is for -/

/-- `..` -/
def parent : List UInt8 := [byte '.', byte '.']

/-- The segments of a path. -/
def segments (path : List UInt8) : List (List UInt8) := path.splitOn (byte '/')

/-- The URI up to its `?`. -/
def cut (uri : List UInt8) : List UInt8 := uri.takeWhile (· ≠ byte '?')

/-- The arguments of a URI, if it has a `?`. -/
def argsOf (uri args : List UInt8) : List UInt8 :=
  if byte '?' ∈ uri then (uri.dropWhile (· ≠ byte '?')).tail else args

/-- A path that is taken has no segment `..` and no `NUL`, and the arguments are those of the URI. -/
def Safe (uri args : List UInt8) (r : Option (List UInt8 × List UInt8)) : Prop :=
  ∀ path args', r = some (path, args') →
    parent ∉ segments path ∧ 0 ∉ path ∧ args' = argsOf uri args

/-- A URI with `..` before its `?`, and nothing else before it that would be noticed. -/
def Missed (uri : List UInt8) : Prop :=
  byte '?' ∈ uri ∧ byte '%' ∉ cut uri ∧ 0 ∉ cut uri ∧
    (segments (cut uri)).getLast? = some parent ∧ parent ∉ (segments (cut uri)).dropLast

/-! ### Segments -/

theorem segments_cons (c : UInt8) (s : List UInt8) : segments (c :: s) =
    if c = byte '/' then [] :: segments s else (segments s).modifyHead (c :: ·) := by
  rw [segments, splitOn_cons_eq_if_modifyHead]
  simp [segments]

theorem segments_eq_cons (s : List UInt8) : ∃ x xs, segments s = x :: xs :=
  exists_cons_of_ne_nil (splitOn_ne_nil _ s)

theorem head_segments_nil (s : List UInt8) :
    (segments s).head? = some [] ↔ s = [] ∨ s[0]? = some (byte '/') := by
  cases s with
  | nil => simp [segments]
  | cons c s =>
    obtain ⟨x, xs, hs⟩ := segments_eq_cons s
    by_cases hc : c = byte '/' <;> simp [segments_cons, hs, hc]

theorem head_segments_cons {c : UInt8} (hc : c ≠ byte '/') (s w : List UInt8) :
    (segments (c :: s)).head? = some (c :: w) ↔ (segments s).head? = some w := by
  obtain ⟨x, xs, hs⟩ := segments_eq_cons s
  simp [segments_cons, hs, hc]

/-- **Two dots** that are looked for are a segment. -/
theorem climbs_iff (s : List UInt8) : climbs s = true ↔ (segments s).head? = some parent := by
  have hdot : byte '.' ≠ byte '/' := by decide
  have hfirst : ∀ (c d : UInt8) (t w : List UInt8), c ≠ d →
      (segments (c :: t)).head? ≠ some (d :: w) := by
    intro c d t w hne
    obtain ⟨x, xs, hs⟩ := segments_eq_cons t
    by_cases hc : c = byte '/' <;> simp [segments_cons, hs, hc, hne]
  rw [climbs, decide_eq_true_eq, parent]
  match s with
  | [] => simp [segments]
  | [a] =>
    by_cases ha : a = byte '.'
    · subst ha
      rw [head_segments_cons hdot]
      simp [segments]
    · simp [hfirst a (byte '.') [] _ ha]
  | a :: b :: t =>
    by_cases ha : a = byte '.'
    · subst ha
      rw [head_segments_cons hdot]
      by_cases hb : b = byte '.'
      · subst hb
        rw [head_segments_cons hdot, head_segments_nil]
        simp
      · simp [hfirst b (byte '.') t _ hb, hb]
    · simp [hfirst a (byte '.') (b :: t) _ ha, ha]

theorem mem_segments_iff (s w : List UInt8) :
    w ∈ segments s ↔ (segments s).head? = some w ∨ w ∈ (segments s).tail := by
  obtain ⟨x, xs, hs⟩ := segments_eq_cons s
  simp [hs, eq_comm]

/-- A later segment is `..` right here or further on. -/
theorem mem_tail_segments_cons (c : UInt8) (s : List UInt8) : parent ∈ (segments (c :: s)).tail ↔
    c = byte '/' ∧ climbs s = true ∨ parent ∈ (segments s).tail := by
  rw [segments_cons, climbs_iff]
  split_ifs with hc
  · rw [tail_cons, mem_segments_iff]
    simp [hc]
  · obtain ⟨x, xs, hs⟩ := segments_eq_cons s
    simp [hs, hc]

/-- **The second loop.** -/
theorem scanDecoded_iff (s : List UInt8) :
    scanDecoded s = true ↔ 0 ∉ s ∧ parent ∉ (segments s).tail := by
  induction s with
  | nil => simp [scanDecoded, segments]
  | cons c s ih =>
    rw [scanDecoded, mem_tail_segments_cons, mem_cons]
    split_ifs with hzero hclimb
    · simp [hzero]
    · simp [hclimb]
    · rw [ih]
      have := Ne.symm hzero
      tauto

/-- What the scan accepts has no segment `..` and no NUL. -/
theorem not_mem_segments {s : List UInt8} (hclimb : climbs s ≠ true) (h : scanDecoded s = true) :
    parent ∉ segments s ∧ 0 ∉ s := by
  obtain ⟨hzero, htail⟩ := (scanDecoded_iff s).1 h
  rw [mem_segments_iff, ← climbs_iff]
  exact ⟨not_or.2 ⟨hclimb, htail⟩, hzero⟩

/-! ### The first loop -/

/-- What the first loop reads: the URI with its `?`. -/
@[grind =]
def marked : List UInt8 → List UInt8
  | [] => []
  | c :: s => if c = byte '?' then [c] else c :: marked s

/-- What the scan for `..` sees: the path, with the question mark. -/
theorem marked_eq (uri : List UInt8) :
    marked uri = cut uri ++ if byte '?' ∈ uri then [byte '?'] else [] := by
  induction uri with
  | nil => rfl
  | cons c s ih =>
    rw [marked]
    split_ifs with hc hmem hmem
    · simp [cut, hc]
    · simp [hc] at hmem
    · rw [ih, cut, cut, takeWhile_cons_of_pos (by simpa using hc), if_pos]
      · rfl
      · simpa [Ne.symm hc] using hmem
    · rw [ih, cut, cut, takeWhile_cons_of_pos (by simpa using hc), if_neg]
      · rfl
      · exact fun h => hmem (mem_cons_of_mem _ h)

/-- The question mark changes nothing about climbing. -/
theorem climbs_marked (s : List UInt8) : climbs (marked s) = climbs s := by
  have hmark : byte '?' ≠ byte '.' ∧ byte '?' ≠ byte '/' := by decide
  match s with
  | [] => rfl
  | [a] => by_cases ha : a = byte '?' <;> simp [marked, ha]
  | [a, b] =>
    by_cases ha : a = byte '?' <;> by_cases hb : b = byte '?' <;>
      simp [marked, climbs, ha, hb, hmark]
  | a :: b :: c :: t =>
    by_cases ha : a = byte '?' <;> by_cases hb : b = byte '?' <;> by_cases hc : c = byte '?' <;>
      simp [marked, climbs, ha, hb, hc, hmark]

theorem usual_marks : usual 0 = false ∧ usual (byte '/') = false ∧ usual (byte '?') = false := by
  decide

/-- Whether there is something to notice in what is read. -/
def blocked (m : List UInt8) : Bool := 0 ∈ m ∨ parent ∈ (segments m).tail

/-- A URI is refused for a NUL, for a climb right here, or further on. -/
theorem blocked_cons (c : UInt8) (s : List UInt8) : blocked (c :: marked s) =
    (decide (c = 0) || (decide (c = byte '/') && climbs s) || blocked (marked s)) := by
  rw [Bool.eq_iff_iff, blocked, decide_eq_true_eq, mem_tail_segments_cons, climbs_marked,
    mem_cons, blocked]
  simp only [Bool.or_eq_true, Bool.and_eq_true, decide_eq_true_eq, eq_comm (a := (0 : UInt8))]
  tauto

/-- **The first loop.** -/
theorem scan_eq (s : List UInt8) : ∀ quoted : Bool, scan s quoted =
    if blocked (marked s) then none
    else some (s.dropWhile (· ≠ byte '?'), quoted || (byte '%') ∈ marked s) := by
  obtain ⟨hnul, hslash, hmark⟩ := usual_marks
  induction s with
  | nil => simp [scan, marked, blocked, segments]
  | cons c s ih =>
    intro quoted
    rw [scan]
    by_cases hquestion : c = byte '?'
    · subst hquestion
      rw [if_neg (by decide), hmark, if_neg Bool.false_ne_true, if_pos rfl]
      have hseg : segments [byte '?'] = [[byte '?']] := rfl
      have hblocked : blocked [byte '?'] = false := by
        rw [blocked, hseg]
        decide
      have hpercent : byte '%' ∉ [byte '?'] := by decide
      simp [marked, hblocked, hpercent]
    have hmarked : marked (c :: s) = c :: marked s := by rw [marked, if_neg hquestion]
    rw [hmarked, blocked_cons, dropWhile_cons_of_pos (by simpa using hquestion)]
    by_cases hpercent : c = byte '%'
    · subst hpercent
      rw [if_pos rfl, ih]
      have hne : byte '%' ≠ 0 ∧ byte '%' ≠ byte '/' := by decide
      simp [hne]
    have hmem : decide (byte '%' ∈ c :: marked s) = decide (byte '%' ∈ marked s) := by
      simp [Ne.symm hpercent]
    rw [if_neg hpercent, if_neg hquestion, hmem]
    by_cases husual : usual c = true
    · have hne : ∀ d, usual d = false → c ≠ d := by
        rintro d hd rfl
        rw [hd] at husual
        cases husual
      rw [if_pos husual, ih]
      simp [hne _ hnul, hne _ hslash]
    rw [if_neg husual]
    by_cases hzero : c = 0
    · simp [hzero]
    by_cases hclimb : c = byte '/' ∧ climbs s = true
    · simp [hclimb]
    · rw [if_neg hzero, if_neg hclimb, ih]
      have : (decide (c = byte '/') && climbs s) = false := by
        rw [← Bool.not_eq_true, Bool.and_eq_true, decide_eq_true_eq]
        exact hclimb
      simp [hzero, this]

/-! ### What is taken -/

/-- The segments of a text that is longer by one character. -/
theorem segments_concat {c : UInt8} (hc : c ≠ byte '/') (s : List UInt8) : ∃ ws w,
    segments s = ws ++ [w] ∧ segments (s ++ [c]) = ws ++ [w ++ [c]] := by
  induction s with
  | nil =>
    have hnil : segments [] = [[]] := rfl
    exact ⟨[], [], rfl, by simp [segments_cons, hc, hnil]⟩
  | cons d s ih =>
    obtain ⟨ws, w, hs, hsc⟩ := ih
    rw [cons_append, segments_cons, segments_cons, hs, hsc]
    by_cases hd : d = byte '/'
    · exact ⟨[] :: ws, w, by simp [hd], by simp [hd]⟩
    · cases ws with
      | nil => exact ⟨[], d :: w, by simp [hd], by simp [hd]⟩
      | cons v ws => exact ⟨(d :: v) :: ws, w, by simp [hd], by simp [hd]⟩

/-- The path is what stands before the question mark. -/
theorem take_eq_cut (uri : List UInt8) :
    uri.take (uri.length - (uri.dropWhile (· ≠ byte '?')).length) = cut uri := by
  have happ : cut uri ++ uri.dropWhile (· ≠ byte '?') = uri := takeWhile_append_dropWhile
  have hlen := congrArg List.length happ
  rw [length_append] at hlen
  have htake : (cut uri ++ uri.dropWhile (· ≠ byte '?')).take (cut uri).length = cut uri :=
    take_left
  rwa [happ, Nat.eq_sub_of_add_eq hlen] at htake

/-- The arguments are what stands behind it. -/
theorem argsOf_eq (uri args : List UInt8) :
    (if (uri.dropWhile (· ≠ byte '?')).isEmpty then args
      else (uri.dropWhile (· ≠ byte '?')).tail) = argsOf uri args := by
  rw [argsOf]
  by_cases hmem : byte '?' ∈ uri
  · have hne : uri.dropWhile (· ≠ byte '?') ≠ [] := by
      intro h
      simpa using dropWhile_eq_nil_iff.1 h _ hmem
    rw [if_pos hmem, if_neg (by simpa using hne)]
  · have hnil : uri.dropWhile (· ≠ byte '?') = [] := by
      refine dropWhile_eq_nil_iff.2 fun c hc => ?_
      have hne : c ≠ byte '?' := by
        rintro rfl
        exact hmem hc
      simpa using hne
    rw [if_neg hmem, hnil]
    rfl

theorem mem_marked_iff {c : UInt8} (hc : c ≠ byte '?') (uri : List UInt8) :
    c ∈ marked uri ↔ c ∈ cut uri := by
  rw [marked_eq, mem_append]
  split_ifs <;> simp [hc]

/-- A last segment is hidden by the question mark. -/
theorem mem_segments_marked {uri : List UInt8} (h : byte '?' ∈ uri) :
    parent ∈ segments (marked uri) ↔ parent ∈ (segments (cut uri)).dropLast := by
  obtain ⟨ws, w, hcut, hmarked⟩ := segments_concat (by decide : byte '?' ≠ byte '/') (cut uri)
  rw [marked_eq, if_pos h, hmarked, hcut, dropLast_concat, mem_append, mem_singleton]
  refine or_iff_left fun heq => ?_
  have hlast := congrArg List.getLast? heq
  rw [getLast?_concat] at hlast
  exact absurd hlast (by decide)

/-- What is noticed is not missed. -/
theorem not_missed_of_noticed {uri : List UInt8}
    (h : climbs uri = true ∨ blocked (marked uri) = true) : ¬ Missed uri := by
  rintro ⟨hmark, -, hzero, -, hparent⟩
  rw [← mem_marked_iff (by decide)] at hzero
  rw [← mem_segments_marked hmark, mem_segments_iff, ← climbs_iff, climbs_marked] at hparent
  rw [blocked, decide_eq_true_eq] at h
  tauto

/-- A path that is not unescaped. -/
theorem missed_iff {uri : List UInt8} (hclimb : climbs uri ≠ true)
    (hblocked : blocked (marked uri) ≠ true) (hpercent : byte '%' ∉ marked uri) :
    (parent ∉ segments (cut uri) ∧ 0 ∉ cut uri) ↔ ¬ Missed uri := by
  rw [blocked, Ne, decide_eq_true_eq, not_or, mem_marked_iff (by decide)] at hblocked
  obtain ⟨hzero, htail⟩ := hblocked
  have hparent : parent ∉ segments (marked uri) := by
    rw [mem_segments_iff, ← climbs_iff, climbs_marked]
    exact not_or.2 ⟨hclimb, htail⟩
  rw [mem_marked_iff (by decide)] at hpercent
  by_cases hmark : byte '?' ∈ uri
  · rw [mem_segments_marked hmark] at hparent
    obtain ⟨ws, w, hcut, -⟩ := segments_concat (by decide : byte '?' ≠ byte '/') (cut uri)
    rw [Missed, hcut]
    rw [hcut, dropLast_concat] at hparent
    simp [hmark, hpercent, hzero, hparent, eq_comm]
  · rw [marked_eq, if_neg hmark, append_nil] at hparent
    exact iff_of_true ⟨hparent, hzero⟩ fun h => hmark h.1

/-- **Two dots before a `?`** are all that is missed. -/
theorem safe_iff (alloc : Bool) (uri args : List UInt8) :
    Safe uri args (parseUnsafeUri alloc uri args) ↔ ¬ Missed uri := by
  rw [Safe, parseUnsafeUri]
  by_cases hstart : uri.isEmpty ∨ uri[0]? = some (byte '?')
  · have hcut : cut uri = [] := by
      cases uri with
      | nil => rfl
      | cons c s =>
        obtain rfl : c = byte '?' := by simpa using hstart
        rfl
    rw [if_pos hstart]
    refine iff_of_true nofun fun h => ?_
    have hlast := h.2.2.2.1
    rw [hcut] at hlast
    exact absurd hlast (by decide)
  rw [if_neg hstart]
  by_cases hclimb : climbs uri = true
  · rw [if_pos hclimb]
    exact iff_of_true nofun (not_missed_of_noticed (.inl hclimb))
  rw [if_neg hclimb, scan_eq]
  by_cases hblocked : blocked (marked uri) = true
  · rw [if_pos hblocked]
    exact iff_of_true nofun (not_missed_of_noticed (.inr hblocked))
  rw [if_neg hblocked]
  dsimp only
  rw [take_eq_cut, argsOf_eq, Bool.false_or]
  by_cases hpercent : byte '%' ∈ marked uri
  · rw [if_pos (decide_eq_true hpercent)]
    refine iff_of_true (fun path args' h => ?_) fun h =>
      h.2.1 ((mem_marked_iff (by decide) uri).1 hpercent)
    split_ifs at h with halloc hup hsafe
    obtain ⟨rfl, rfl⟩ := Prod.mk.inj (Option.some_inj.1 h)
    obtain ⟨hparent, hzero⟩ := not_mem_segments hup hsafe
    exact ⟨hparent, hzero, rfl⟩
  · rw [if_neg (by simpa using hpercent), ← missed_iff hclimb hblocked hpercent]
    refine ⟨fun h => ?_, fun h path args' heq => ?_⟩
    · obtain ⟨hparent, hzero, -⟩ := h _ _ rfl
      exact ⟨hparent, hzero⟩
    · obtain ⟨rfl, rfl⟩ := Prod.mk.inj (Option.some_inj.1 heq)
      exact ⟨h.1, h.2, rfl⟩

/-- `/..?x` is taken. -/
theorem climbing_taken : parseUnsafeUri true [0x2f, 0x2e, 0x2e, 0x3f, 0x78] [] =
      some ([0x2f, 0x2e, 0x2e], [0x78]) ∧
    ¬ Safe [0x2f, 0x2e, 0x2e, 0x3f, 0x78] []
      (parseUnsafeUri true [0x2f, 0x2e, 0x2e, 0x3f, 0x78] []) := by
  have hrun : parseUnsafeUri true [0x2f, 0x2e, 0x2e, 0x3f, 0x78] [] =
      some ([0x2f, 0x2e, 0x2e], [0x78]) := by decide
  refine ⟨hrun, fun h => ?_⟩
  exact (h _ _ hrun).1 (by decide)

end Hengine.UnsafeUri
