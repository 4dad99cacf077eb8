import Hengine.Lib.Scan
import Hengine.Http.Bytes

/-!
# The Chunked Body Parser

`ngx_http_parse_chunked` of `ngx_http_parse.c`, with the loop its callers drive it in: on
`NGX_OK` they take up to `ctx->size` bytes of data from the buffer themselves, lower
`ctx->size` by what they took, and call again; on `NGX_AGAIN` they wait for the next
buffer.

Over it stands a machine that reads one byte at a time, data included. The two agree on
every cut of the input into buffers, and all that is said about chunked bodies is said
of the byte machine.
-/

namespace Hengine

open List

/-- The states of `ngx_http_parse_chunked`. -/
inductive ChunkedState
  | swChunkStart | swChunkSize | swChunkExtension | swChunkExtensionAlmostDone | swChunkData
  | swAfterData | swAfterDataAlmostDone
  | swLastChunkExtension | swLastChunkExtensionAlmostDone
  | swTrailer | swTrailerAlmostDone | swTrailerHeader | swTrailerHeaderAlmostDone
deriving Repr, DecidableEq

/-- `ngx_http_chunked_t`. -/
structure ChunkedCtx where
  state : ChunkedState := .swChunkStart
  size : ℕ := 0
  length : ℕ := 0
deriving Repr, DecidableEq

/-- The loop: the local `state`, and `ctx->size`, which is updated in place. -/
structure ChunkLoop where
  state : ChunkedState
  size : ℕ
deriving Repr, DecidableEq

/-- How the loop is left before the end of the buffer. -/
inductive ChunkExit
  | data (s : ChunkLoop)
  | done (s : ChunkLoop)
  | invalid (s : ChunkLoop)
deriving Repr, DecidableEq

/-! ### The parser -/

/-- The value of a hexadecimal digit, as the two tests of the source find it. -/
def hexVal (ch : UInt8) : Option ℕ :=
  if isDigit ch then some (ch - byte '0').toNat
  else if byte 'a' ≤ fold20 ch && fold20 ch ≤ byte 'f' then some ((fold20 ch - byte 'a').toNat + 10)
  else none

/-- The characters that end a size and start an extension. -/
def isExtensionStart (ch : UInt8) : Bool :=
  ch == byte ';' || ch == byte ' ' || ch == byte '\t'

/-- The end of a size line: where `CR`, `LF` and the start of an extension lead. -/
def sizeEnd (onCr onLf onExt : ChunkedState) (s : ChunkLoop) (ch : UInt8) :
    Verdict ChunkLoop ChunkExit :=
  if ch = cr then .more { s with state := onCr }
  else if ch = lf then .more { s with state := onLf }
  else if isExtensionStart ch then .more { s with state := onExt }
  else .stop (.invalid s)

/-- `sw_chunk_start`. -/
def chunkStart (s : ChunkLoop) (ch : UInt8) : Verdict ChunkLoop ChunkExit :=
  match hexVal ch with
  | some v => .more ⟨.swChunkSize, v⟩
  | none => .stop (.invalid s)

/-- `sw_chunk_size`: the overflow guard stands before every byte, digit or not. -/
def chunkSize (s : ChunkLoop) (ch : UInt8) : Verdict ChunkLoop ChunkExit :=
  if s.size > maxOffT / 16 then .stop (.invalid s)
  else
    match hexVal ch with
    | some v => .more { s with size := s.size * 16 + v }
    | none =>
      if s.size = 0 then
        sizeEnd .swLastChunkExtensionAlmostDone .swTrailer .swLastChunkExtension s ch
      else sizeEnd .swChunkExtensionAlmostDone .swChunkData .swChunkExtension s ch

/-- The states that skip to the end of a line: on `CR` and on `LF` the line ends. -/
def skipLine (onCr onLf : ChunkedState) (s : ChunkLoop) (ch : UInt8) :
    Verdict ChunkLoop ChunkExit :=
  if ch = cr then .more { s with state := onCr }
  else if ch = lf then .more { s with state := onLf }
  else .more s

/-- The states that have seen a `CR`. -/
def expectLf (onLf : ChunkedState) (s : ChunkLoop) (ch : UInt8) : Verdict ChunkLoop ChunkExit :=
  if ch = lf then .more { s with state := onLf } else .stop (.invalid s)

/-- `sw_after_data`. -/
def afterData (s : ChunkLoop) (ch : UInt8) : Verdict ChunkLoop ChunkExit :=
  if ch = cr then .more { s with state := .swAfterDataAlmostDone }
  else if ch = lf then .more { s with state := .swChunkStart }
  else .stop (.invalid s)

/-- `sw_trailer`. -/
def trailer (s : ChunkLoop) (ch : UInt8) : Verdict ChunkLoop ChunkExit :=
  if ch = cr then .more { s with state := .swTrailerAlmostDone }
  else if ch = lf then .stop (.done s)
  else .more { s with state := .swTrailerHeader }

/-- `switch (state)`. -/
def chunkStep (s : ChunkLoop) (ch : UInt8) : Verdict ChunkLoop ChunkExit :=
  match s.state with
  | .swChunkStart => chunkStart s ch
  | .swChunkSize => chunkSize s ch
  | .swChunkExtension => skipLine .swChunkExtensionAlmostDone .swChunkData s ch
  | .swChunkExtensionAlmostDone => expectLf .swChunkData s ch
  | .swChunkData => .stop (.data s)
  | .swAfterData => afterData s ch
  | .swAfterDataAlmostDone => expectLf .swChunkStart s ch
  | .swLastChunkExtension => skipLine .swLastChunkExtensionAlmostDone .swTrailer s ch
  | .swLastChunkExtensionAlmostDone => expectLf .swTrailer s ch
  | .swTrailer => trailer s ch
  | .swTrailerAlmostDone => if ch = lf then .stop (.done s) else .stop (.invalid s)
  | .swTrailerHeader => skipLine .swTrailerHeaderAlmostDone .swTrailer s ch
  | .swTrailerHeaderAlmostDone => expectLf .swTrailer s ch

/-- The table behind `data:`: how many bytes the body still needs at least. -/
def chunkLength (s : ChunkLoop) : ℕ :=
  match s.state with
  | .swChunkStart => 3
  | .swChunkSize => 1 + (if s.size ≠ 0 then s.size + 4 else 1)
  | .swChunkExtension | .swChunkExtensionAlmostDone => 1 + s.size + 4
  | .swChunkData => s.size + 4
  | .swAfterData | .swAfterDataAlmostDone => 4
  | .swLastChunkExtension | .swLastChunkExtensionAlmostDone => 2
  | .swTrailer | .swTrailerAlmostDone => 1
  | .swTrailerHeader | .swTrailerHeaderAlmostDone => 2

/-- The entry of the parser: a chunk whose data has been taken is behind it. -/
def chunkEnter (s : ChunkLoop) : ChunkLoop :=
  if s.state = .swChunkData ∧ s.size = 0 then { s with state := .swAfterData } else s

/-- The loop variables of a context. -/
def ChunkedCtx.loop (ctx : ChunkedCtx) : ChunkLoop := ⟨ctx.state, ctx.size⟩

/-- `data:`. -/
def chunkData (rc : ParseCode) (ctx : ChunkedCtx) (s : ChunkLoop) (rest : List UInt8) :
    ParseCode × ChunkedCtx × List UInt8 :=
  if s.size > maxOffT - 5 then (.error, { ctx with state := s.state, size := s.size }, rest)
  else (rc, ⟨s.state, s.size, chunkLength s⟩, rest)

/-- `ngx_http_parse_chunked` on the bytes from `b->pos` to `b->last`; the last component
is where `b->pos` is left. -/
def parseChunked (ctx : ChunkedCtx) (b : List UInt8) : ParseCode × ChunkedCtx × List UInt8 :=
  match scanFrom chunkStep (chunkEnter ctx.loop) b with
  | .again s => chunkData .again ctx s []
  | .stopped (.data s) rest => chunkData .ok ctx s rest
  | .stopped (.done s) rest =>
    (.done, { ctx with state := .swChunkStart, size := s.size }, rest.drop 1)
  | .stopped (.invalid s) _ => (.error, { ctx with size := s.size }, b)

/-! ### The callers -/

/-- How much of the data in the buffer belongs to the chunk. -/
def ChunkedCtx.avail (ctx : ChunkedCtx) (b : List UInt8) : ℕ := min ctx.size b.length

/-- The context when that much has been taken. -/
def ChunkedCtx.take (ctx : ChunkedCtx) (b : List UInt8) : ChunkedCtx :=
  { ctx with size := ctx.size - ctx.avail b }

/-- What one byte can do: the moves of the state machine, with the sizes they keep. -/
inductive ChunkMove : ChunkLoop → ChunkLoop → Prop
  | start {n v : ℕ} : v < 16 → ChunkMove ⟨.swChunkStart, n⟩ ⟨.swChunkSize, v⟩
  | digit {n v : ℕ} : n ≤ maxOffT / 16 → v < 16 →
      ChunkMove ⟨.swChunkSize, n⟩ ⟨.swChunkSize, n * 16 + v⟩
  | lastSize {t : ChunkedState} :
      t = .swLastChunkExtensionAlmostDone ∨ t = .swTrailer ∨ t = .swLastChunkExtension →
      ChunkMove ⟨.swChunkSize, 0⟩ ⟨t, 0⟩
  | openSize {n : ℕ} {t : ChunkedState} : n ≤ maxOffT / 16 → n ≠ 0 →
      t = .swChunkExtensionAlmostDone ∨ t = .swChunkData ∨ t = .swChunkExtension →
      ChunkMove ⟨.swChunkSize, n⟩ ⟨t, n⟩
  | extension {n : ℕ} {t : ChunkedState} :
      t = .swChunkExtensionAlmostDone ∨ t = .swChunkData ∨ t = .swChunkExtension →
      ChunkMove ⟨.swChunkExtension, n⟩ ⟨t, n⟩
  | extensionEnd {n : ℕ} : ChunkMove ⟨.swChunkExtensionAlmostDone, n⟩ ⟨.swChunkData, n⟩
  | afterData {n : ℕ} {t : ChunkedState} : t = .swAfterDataAlmostDone ∨ t = .swChunkStart →
      ChunkMove ⟨.swAfterData, n⟩ ⟨t, n⟩
  | afterDataEnd {n : ℕ} : ChunkMove ⟨.swAfterDataAlmostDone, n⟩ ⟨.swChunkStart, n⟩
  | lastExtension {n : ℕ} {t : ChunkedState} :
      t = .swLastChunkExtensionAlmostDone ∨ t = .swTrailer ∨ t = .swLastChunkExtension →
      ChunkMove ⟨.swLastChunkExtension, n⟩ ⟨t, n⟩
  | lastExtensionEnd {n : ℕ} :
      ChunkMove ⟨.swLastChunkExtensionAlmostDone, n⟩ ⟨.swTrailer, n⟩
  | trailer {n : ℕ} {t : ChunkedState} : t = .swTrailerAlmostDone ∨ t = .swTrailerHeader →
      ChunkMove ⟨.swTrailer, n⟩ ⟨t, n⟩
  | trailerHeader {n : ℕ} {t : ChunkedState} :
      t = .swTrailerHeaderAlmostDone ∨ t = .swTrailer ∨ t = .swTrailerHeader →
      ChunkMove ⟨.swTrailerHeader, n⟩ ⟨t, n⟩
  | trailerHeaderEnd {n : ℕ} : ChunkMove ⟨.swTrailerHeaderAlmostDone, n⟩ ⟨.swTrailer, n⟩

variable {s s' : ChunkLoop} {ch : UInt8} {b rest : List UInt8}

/-- A digit is below 16. -/
theorem hexVal_lt {v : ℕ} (h : hexVal ch = some v) : v < 16 := by
  rw [hexVal] at h
  split_ifs at h with hdigit halpha <;> rw [Option.some_inj] at h
  · rw [isDigit, Bool.and_eq_true, decide_eq_true_eq, decide_eq_true_eq] at hdigit
    rw [UInt8.toNat_sub_of_le _ _ hdigit.1] at h
    have hhigh : ch.toNat ≤ 57 := UInt8.le_iff_toNat_le.1 hdigit.2
    have hbyte : (byte '0').toNat = 48 := rfl
    omega
  · rw [Bool.and_eq_true, decide_eq_true_eq, decide_eq_true_eq] at halpha
    rw [UInt8.toNat_sub_of_le _ _ halpha.1] at h
    have hhigh : (fold20 ch).toNat ≤ 102 := UInt8.le_iff_toNat_le.1 halpha.2
    have hbyte : (byte 'a').toNat = 97 := rfl
    omega

/-- The end of a size line. -/
theorem sizeEnd_more {a b c : ChunkedState} (h : sizeEnd a b c s ch = .more s') :
    ∃ t, (t = a ∨ t = b ∨ t = c) ∧ s' = { s with state := t } := by
  rw [sizeEnd] at h
  split at h
  · cases h
    exact ⟨a, Or.inl rfl, rfl⟩
  split at h
  · cases h
    exact ⟨b, Or.inr (Or.inl rfl), rfl⟩
  split at h
  · cases h
    exact ⟨c, Or.inr (Or.inr rfl), rfl⟩
  · cases h

/-- Inside a line only the state may change. -/
theorem skipLine_more {a b : ChunkedState} (h : skipLine a b s ch = .more s') :
    ∃ t, (t = a ∨ t = b ∨ t = s.state) ∧ s' = { s with state := t } := by
  rw [skipLine] at h
  split at h
  · cases h
    exact ⟨a, Or.inl rfl, rfl⟩
  split at h
  · cases h
    exact ⟨b, Or.inr (Or.inl rfl), rfl⟩
  · cases h
    exact ⟨s.state, Or.inr (Or.inr rfl), rfl⟩

theorem expectLf_more {a : ChunkedState} (h : expectLf a s ch = .more s') :
    s' = { s with state := a } := by
  rw [expectLf] at h
  split at h
  · cases h
    rfl
  · cases h

/-- **The moves.** Where the loop goes on it makes one of the moves. -/
theorem chunkStep_move (h : chunkStep s ch = .more s') : ChunkMove s s' := by
  obtain ⟨state, n⟩ := s
  cases state with
  | swChunkStart =>
    simp only [chunkStep, chunkStart] at h
    split at h
    · rename_i v hv
      cases h
      exact .start (hexVal_lt hv)
    · cases h
  | swChunkSize =>
    simp only [chunkStep, chunkSize] at h
    split at h
    · cases h
    rename_i hle
    split at h
    · rename_i v hv
      cases h
      exact .digit (by omega) (hexVal_lt hv)
    split at h
    · rename_i h0
      obtain ⟨t, ht, rfl⟩ := sizeEnd_more h
      subst h0
      exact .lastSize ht
    · rename_i h0
      obtain ⟨t, ht, rfl⟩ := sizeEnd_more h
      exact .openSize (by omega) h0 ht
  | swChunkExtension =>
    obtain ⟨t, ht, rfl⟩ := skipLine_more h
    exact .extension ht
  | swChunkExtensionAlmostDone =>
    rw [expectLf_more h]
    exact .extensionEnd
  | swChunkData => cases h
  | swAfterData =>
    simp only [chunkStep, afterData] at h
    split at h
    · cases h
      exact .afterData (Or.inl rfl)
    split at h
    · cases h
      exact .afterData (Or.inr rfl)
    · cases h
  | swAfterDataAlmostDone =>
    rw [expectLf_more h]
    exact .afterDataEnd
  | swLastChunkExtension =>
    obtain ⟨t, ht, rfl⟩ := skipLine_more h
    exact .lastExtension ht
  | swLastChunkExtensionAlmostDone =>
    rw [expectLf_more h]
    exact .lastExtensionEnd
  | swTrailer =>
    simp only [chunkStep, trailer] at h
    split at h
    · cases h
      exact .trailer (Or.inl rfl)
    split at h
    · cases h
    · cases h
      exact .trailer (Or.inr rfl)
  | swTrailerAlmostDone =>
    simp only [chunkStep] at h
    split at h <;> cases h
  | swTrailerHeader =>
    obtain ⟨t, ht, rfl⟩ := skipLine_more h
    exact .trailerHeader ht
  | swTrailerHeaderAlmostDone =>
    rw [expectLf_more h]
    exact .trailerHeaderEnd

/-- **The ways out.** The loop is left at a byte of data, at the line feed that ends the
trailer, or at a byte that is not allowed where it stands. -/
theorem chunkStep_stop {s : ChunkLoop} {e : ChunkExit} (h : chunkStep s ch = .stop e) :
    (e = .data s ∧ s.state = .swChunkData) ∨
      (e = .done s ∧ (s.state = .swTrailer ∨ s.state = .swTrailerAlmostDone) ∧ ch = lf) ∨
      e = .invalid s := by
  obtain ⟨state, n⟩ := s
  cases state with
  | swChunkData =>
    cases h
    exact Or.inl ⟨rfl, rfl⟩
  | swTrailer =>
    simp only [chunkStep, trailer] at h
    split at h
    · cases h
    split at h
    · rename_i hlf
      cases h
      exact Or.inr (Or.inl ⟨rfl, Or.inl rfl, hlf⟩)
    · cases h
  | swTrailerAlmostDone =>
    simp only [chunkStep] at h
    split at h
    · rename_i hlf
      cases h
      exact Or.inr (Or.inl ⟨rfl, Or.inr rfl, hlf⟩)
    · cases h
      exact Or.inr (Or.inr rfl)
  | swChunkStart =>
    simp only [chunkStep, chunkStart] at h
    split at h
    · cases h
    · cases h
      exact Or.inr (Or.inr rfl)
  | swChunkSize =>
    have hend : ∀ a b c, sizeEnd a b c ⟨.swChunkSize, n⟩ ch = .stop e →
        e = .invalid ⟨.swChunkSize, n⟩ := by
      intro a b c h
      rw [sizeEnd] at h
      split at h
      · cases h
      split at h
      · cases h
      split at h
      · cases h
      · cases h
        rfl
    simp only [chunkStep, chunkSize] at h
    split at h
    · cases h
      exact Or.inr (Or.inr rfl)
    split at h
    · cases h
    split at h
    · exact Or.inr (Or.inr (hend _ _ _ h))
    · exact Or.inr (Or.inr (hend _ _ _ h))
  | swAfterData =>
    simp only [chunkStep, afterData] at h
    split at h
    · cases h
    split at h
    · cases h
    · cases h
      exact Or.inr (Or.inr rfl)
  | swChunkExtension | swLastChunkExtension | swTrailerHeader =>
    simp only [chunkStep, skipLine] at h
    split at h
    · cases h
    split at h <;> cases h
  | swChunkExtensionAlmostDone | swAfterDataAlmostDone | swLastChunkExtensionAlmostDone
  | swTrailerHeaderAlmostDone =>
    simp only [chunkStep, expectLf] at h
    split at h
    · cases h
    · cases h
      exact Or.inr (Or.inr rfl)

theorem chunkStep_data (h : chunkStep s ch = .stop (.data s')) :
    s.state = .swChunkData ∧ s' = s := by
  rcases chunkStep_stop h with ⟨he, hs⟩ | ⟨he, _⟩ | he
  · cases he
    exact ⟨hs, rfl⟩
  · cases he
  · cases he

/-- What holds of the loop in every run from a fresh context: an open chunk has data to
come, and only a size that is still being read can be close to the limit. -/
structure ChunkOk (s : ChunkLoop) : Prop where
  open_pos : s.state = .swChunkExtension ∨ s.state = .swChunkExtensionAlmostDone → 0 < s.size
  size_le : s.size ≤ maxOffT
  settled : s.state ≠ .swChunkSize → s.size ≤ maxOffT / 16

theorem maxOffT_eq : maxOffT = 9223372036854775807 := by
  decide

theorem ChunkOk.fresh : ChunkOk ⟨.swChunkStart, 0⟩ := by
  refine ⟨?_, Nat.zero_le _, fun _ => Nat.zero_le _⟩
  rintro (h | h) <;> cases h

/-- A state between two bytes is right. -/
theorem ChunkOk.of_settled {t : ChunkedState} {n : ℕ} (hn : n ≤ maxOffT / 16)
    (hpos : t = .swChunkExtension ∨ t = .swChunkExtensionAlmostDone → 0 < n) :
    ChunkOk ⟨t, n⟩ :=
  ⟨hpos, Nat.le_trans hn (Nat.div_le_self _ _), fun _ => hn⟩

/-- **No overflow.** Every move keeps the size within `off_t`: the guard stands before the
multiplication. -/
theorem ChunkMove.ok (h : ChunkMove s s') (hok : ChunkOk s) : ChunkOk s' := by
  have hmax := maxOffT_eq
  cases h with
  | start hv =>
    refine ⟨?_, by simp only; omega, fun hne => absurd rfl hne⟩
    rintro (h | h) <;> cases h
  | digit hn hv =>
    refine ⟨?_, by simp only; omega, fun hne => absurd rfl hne⟩
    rintro (h | h) <;> cases h
  | lastSize ht =>
    refine .of_settled (Nat.zero_le _) ?_
    rcases ht with rfl | rfl | rfl <;> rintro (h | h) <;> cases h
  | openSize hn h0 ht => exact .of_settled hn fun _ => by omega
  | extension ht =>
    exact .of_settled (hok.settled (by simp)) fun _ => hok.open_pos (Or.inl rfl)
  | extensionEnd =>
    exact .of_settled (hok.settled (by simp)) fun _ => hok.open_pos (Or.inr rfl)
  | afterData ht =>
    refine .of_settled (hok.settled (by simp)) ?_
    rcases ht with rfl | rfl <;> rintro (h | h) <;> cases h
  | afterDataEnd =>
    refine .of_settled (hok.settled (by simp)) ?_
    rintro (h | h) <;> cases h
  | lastExtension ht =>
    refine .of_settled (hok.settled (by simp)) ?_
    rcases ht with rfl | rfl | rfl <;> rintro (h | h) <;> cases h
  | lastExtensionEnd =>
    refine .of_settled (hok.settled (by simp)) ?_
    rintro (h | h) <;> cases h
  | trailer ht =>
    refine .of_settled (hok.settled (by simp)) ?_
    rcases ht with rfl | rfl <;> rintro (h | h) <;> cases h
  | trailerHeader ht =>
    refine .of_settled (hok.settled (by simp)) ?_
    rcases ht with rfl | rfl | rfl <;> rintro (h | h) <;> cases h
  | trailerHeaderEnd =>
    refine .of_settled (hok.settled (by simp)) ?_
    rintro (h | h) <;> cases h

/-- A move ends outside of the states that are passed at once. -/
theorem ChunkMove.enter (h : ChunkMove s s') (hok : ChunkOk s) : chunkEnter s' = s' := by
  rw [chunkEnter, if_neg]
  rintro ⟨hstate, hsize⟩
  cases h with
  | openSize hn h0 ht => exact h0 hsize
  | extension ht => exact absurd hsize (Nat.ne_of_gt (hok.open_pos (Or.inl rfl)))
  | extensionEnd => exact absurd hsize (Nat.ne_of_gt (hok.open_pos (Or.inr rfl)))
  | lastSize ht | lastExtension ht | trailerHeader ht =>
    rcases ht with rfl | rfl | rfl <;> cases hstate
  | afterData ht | trailer ht => rcases ht with rfl | rfl <;> cases hstate
  | _ => cases hstate

theorem ChunkOk.enter {s : ChunkLoop} (h : ChunkOk s) : ChunkOk (chunkEnter s) := by
  rw [chunkEnter]
  split
  · rename_i hs
    refine .of_settled (by rw [hs.2]; exact Nat.zero_le _) ?_
    rintro (h | h) <;> cases h
  · exact h

theorem chunkEnter_idem (s : ChunkLoop) : chunkEnter (chunkEnter s) = chunkEnter s := by
  by_cases hs : s.state = .swChunkData ∧ s.size = 0
  · simp [chunkEnter, hs]
  · simp [chunkEnter, hs]

theorem chunkEnter_data_pos {s : ChunkLoop} (h : (chunkEnter s).state = .swChunkData) :
    chunkEnter s = s ∧ 0 < s.size := by
  rw [chunkEnter] at h ⊢
  split at h
  · cases h
  · rename_i hs
    rw [if_neg hs]
    exact ⟨rfl, Nat.pos_of_ne_zero fun h0 => hs ⟨h, h0⟩⟩

/-- The loop leaves the buffer at a byte of data: either it read something on the way
there, or the chunk was open. -/
theorem scan_data_progress (h : scanFrom chunkStep (chunkEnter s) b = .stopped (.data s') rest) :
    0 < rest.length ∧ (rest.length < b.length ∨ rest.length = b.length ∧ 0 < s'.size) := by
  cases b with
  | nil => cases h
  | cons c cs =>
    cases hc : chunkStep (chunkEnter s) c with
    | stop e =>
      rw [scanFrom_stop hc] at h
      cases h
      obtain ⟨hstate, rfl⟩ := chunkStep_data hc
      obtain ⟨heq, hpos⟩ := chunkEnter_data_pos hstate
      rw [heq]
      exact ⟨by simp, Or.inr ⟨rfl, hpos⟩⟩
    | more s₁ =>
      rw [scanFrom_more hc] at h
      obtain ⟨read, _, d, ds, hin, hrest, _⟩ :=
        (scanFrom_invariant (P := fun _ => True) (fun _ _ _ _ _ => trivial) trivial cs).2 _ _ h
      have hlen := congrArg List.length hin
      rw [length_append] at hlen
      rw [hrest] at hlen ⊢
      rw [length_cons] at hlen ⊢
      exact ⟨by omega, Or.inl (by rw [length_cons]; omega)⟩

/-- So a caller that has taken what is there has less to look at. -/
theorem parseChunked_ok_length {ctx ctx' : ChunkedCtx}
    (h : parseChunked ctx b = (.ok, ctx', rest)) :
    (rest.drop (ctx'.avail rest)).length < b.length := by
  rw [parseChunked] at h
  split at h
  · rw [chunkData] at h
    split at h <;> cases h
  · rename_i s rest' hscan
    obtain ⟨hpos, hless⟩ := scan_data_progress hscan
    rw [chunkData] at h
    split at h
    · cases h
    · cases h
      simp only [ChunkedCtx.avail, length_drop]
      rcases hless with hlt | ⟨heq, hsize⟩
      · omega
      · omega
  · cases h
  · cases h

/-- What the callers end up with: more is needed, the body is complete (with what is left
of the last buffer), or it is invalid. -/
inductive ChunkedRun
  | again (ctx : ChunkedCtx) (out : List UInt8)
  | done (out rest : List UInt8)
  | error
deriving Repr, DecidableEq

/-- The loop of the callers over one buffer; `out` is the data taken so far. -/
@[grind =]
def chunkedBuf (ctx : ChunkedCtx) (out b : List UInt8) : ChunkedRun :=
  match _h : parseChunked ctx b with
  | (.ok, ctx', rest) =>
    chunkedBuf (ctx'.take rest) (out ++ rest.take (ctx'.avail rest))
      (rest.drop (ctx'.avail rest))
  | (.again, ctx', _) => .again ctx' out
  | (.done, _, rest) => .done out rest
  | _ => .error
termination_by b.length
decreasing_by exact parseChunked_ok_length _h

/-- Buffer after buffer, as they arrive. -/
@[grind =]
def chunkedBufs (ctx : ChunkedCtx) (out : List UInt8) : List (List UInt8) → ChunkedRun
  | [] => .again ctx out
  | b :: bs =>
    match chunkedBuf ctx out b with
    | .again ctx' out' => chunkedBufs ctx' out' bs
    | .done out' rest => .done out' (rest ++ bs.flatten)
    | .error => .error

/-! ### The byte machine -/

/-- How the byte machine stops. -/
inductive ByteExit
  | done (out : List UInt8)
  | invalid
deriving Repr, DecidableEq

/-- One byte, data included: the data of an open chunk goes to the output, any other byte
to the parser. -/
def chunkByte (d : ChunkLoop × List UInt8) (ch : UInt8) :
    Verdict (ChunkLoop × List UInt8) ByteExit :=
  let s := chunkEnter d.1
  if s.state = .swChunkData then .more ({ s with size := s.size - 1 }, d.2 ++ [ch])
  else
    match chunkStep s ch with
    | .more s' => .more (s', d.2)
    | .stop (.done _) => .stop (.done d.2)
    | .stop _ => .stop .invalid

/-- What a run of the byte machine means to the callers. -/
def endOf : Scanned UInt8 (ChunkLoop × List UInt8) ByteExit → ChunkedRun
  | .again (s, out) =>
    if (chunkEnter s).size > maxOffT - 5 then .error
    else .again ⟨(chunkEnter s).state, (chunkEnter s).size, chunkLength (chunkEnter s)⟩ out
  | .stopped (.done out) rest => .done out (rest.drop 1)
  | .stopped .invalid _ => .error

/-- Entering the data of a chunk changes no result. -/
theorem endOf_enter (s : ChunkLoop) (out xs : List UInt8) :
    endOf (scanFrom chunkByte (chunkEnter s, out) xs) = endOf (scanFrom chunkByte (s, out) xs) := by
  cases xs with
  | nil => simp [endOf, chunkEnter_idem]
  | cons c cs =>
    have hbyte : chunkByte (chunkEnter s, out) c = chunkByte (s, out) c := by
      simp [chunkByte, chunkEnter_idem]
    rw [scanFrom, scan, scanFrom, scan, hbyte]

/-- A byte of data is put out. -/
theorem chunkByte_data {s : ChunkLoop} (h : (chunkEnter s).state = .swChunkData)
    (out : List UInt8) (ch : UInt8) :
    chunkByte (s, out) ch = .more (⟨.swChunkData, s.size - 1⟩, out ++ [ch]) := by
  obtain ⟨heq, -⟩ := chunkEnter_data_pos h
  rw [heq] at h
  simp only [chunkByte, heq, h, if_true]

/-- A byte outside the data goes to the state machine. -/
theorem chunkByte_frame {s : ChunkLoop} (h : (chunkEnter s).state ≠ .swChunkData)
    (out : List UInt8) (ch : UInt8) :
    chunkByte (s, out) ch
      = match chunkStep (chunkEnter s) ch with
        | .more s' => .more (s', out)
        | .stop (.done _) => .stop (.done out)
        | .stop _ => .stop .invalid := by
  simp only [chunkByte, if_neg h]

/-- **One call of the parser**, in the run of the byte machine: the framing it reads, up
to the next byte of data. -/
theorem endOf_scan (xs : List UInt8) :
    ∀ (s : ChunkLoop) (out : List UInt8), ChunkOk s →
      endOf (scanFrom chunkByte (s, out) xs)
        = match scanFrom chunkStep (chunkEnter s) xs with
          | .again s' =>
            if s'.size > maxOffT - 5 then .error
            else .again ⟨s'.state, s'.size, chunkLength s'⟩ out
          | .stopped (.data s') rest => endOf (scanFrom chunkByte (s', out) rest)
          | .stopped (.done _) rest => .done out (rest.drop 1)
          | .stopped (.invalid _) _ => .error := by
  induction xs with
  | nil =>
    intro s out _
    rfl
  | cons c cs ih =>
    intro s out hok
    by_cases hdata : (chunkEnter s).state = .swChunkData
    · have hstop : chunkStep (chunkEnter s) c = .stop (.data (chunkEnter s)) := by
        simp [chunkStep, hdata]
      rw [scanFrom_stop hstop]
      exact (endOf_enter s out (c :: cs)).symm
    · have hbyte := chunkByte_frame hdata out c
      cases hc : chunkStep (chunkEnter s) c with
      | more s' =>
        rw [hc] at hbyte
        have hmove := chunkStep_move hc
        rw [scanFrom_more hbyte, scanFrom_more hc, ih s' out (hmove.ok hok.enter),
          hmove.enter hok.enter]
      | stop e =>
        rw [hc] at hbyte
        cases e with
        | data s' => exact absurd (chunkStep_data hc).1 hdata
        | done s' =>
          rw [scanFrom_stop hbyte, scanFrom_stop hc]
          rfl
        | invalid s' =>
          rw [scanFrom_stop hbyte, scanFrom_stop hc]
          rfl

/-- **The data a caller takes**, in the run of the byte machine. -/
theorem scan_take (out : List UInt8) :
    ∀ (n k : ℕ) (xs : List UInt8), n ≤ k → n ≤ xs.length →
      scanFrom chunkByte (⟨.swChunkData, k⟩, out) xs
        = scanFrom chunkByte (⟨.swChunkData, k - n⟩, out ++ xs.take n) (xs.drop n) := by
  intro n
  induction n generalizing out with
  | zero =>
    intro k xs _ _
    simp
  | succ n ih =>
    intro k xs hk hxs
    cases xs with
    | nil => simp at hxs
    | cons c cs =>
      have hdata : (chunkEnter ⟨.swChunkData, k⟩).state = .swChunkData := by
        simp [chunkEnter, show k ≠ 0 by omega]
      rw [scanFrom_more (chunkByte_data hdata out c), ih (out ++ [c]) (k - 1) cs (by omega)
        (by simpa using hxs)]
      simp [Nat.sub_sub, Nat.add_comm 1 n]

/-- The loop of the callers, unfolded once. -/
theorem chunkedBuf_ok {ctx ctx' : ChunkedCtx} (h : parseChunked ctx b = (.ok, ctx', rest))
    (out : List UInt8) :
    chunkedBuf ctx out b
      = chunkedBuf (ctx'.take rest) (out ++ rest.take (ctx'.avail rest))
          (rest.drop (ctx'.avail rest)) := by
  rw [chunkedBuf]
  split
  · rename_i ctx₁ rest₁ h₁
    rw [h] at h₁
    cases h₁
    rfl
  · rename_i h₁
    rw [h] at h₁
    cases h₁
  · rename_i h₁
    rw [h] at h₁
    cases h₁
  · rename_i h₁ _ _
    exact absurd h (h₁ _ _)

/-- The end of the loop. -/
theorem chunkedBuf_end {ctx : ChunkedCtx} {b : List UInt8}
    (h : (parseChunked ctx b).1 ≠ .ok) (out : List UInt8) :
    chunkedBuf ctx out b
      = match parseChunked ctx b with
        | (.again, ctx', _) => .again ctx' out
        | (.done, _, rest) => .done out rest
        | _ => .error := by
  rw [chunkedBuf]
  split
  · rename_i h₁
    rw [h₁] at h
    exact absurd rfl h
  · rename_i h₁
    rw [h₁]
  · rename_i h₁
    rw [h₁]
  · rename_i h₁ h₂ h₃
    split
    · rename_i h₄
      exact absurd h₄ (h₂ _ _)
    · rename_i h₄
      exact absurd h₄ (h₃ _ _)
    · rfl

/-- The machine stops before data in the data state. -/
theorem scan_data (hok : ChunkOk s) (h : scanFrom chunkStep s b = .stopped (.data s') rest) :
    s'.state = .swChunkData ∧ ChunkOk s' := by
  obtain ⟨_, s₁, c, _, _, _, hok₁, hstop⟩ :=
    (scanFrom_invariant (fun _ _ _ h hstep => (chunkStep_move hstep).ok h) hok b).2 _ _ h
  obtain ⟨hstate, rfl⟩ := chunkStep_data hstop
  exact ⟨hstate, hok₁⟩

/-- **One buffer.** -/
theorem chunkedBuf_eq (b : List UInt8) :
    ∀ (ctx : ChunkedCtx) (out : List UInt8), ChunkOk ctx.loop →
      chunkedBuf ctx out b = endOf (scanFrom chunkByte (ctx.loop, out) b) := by
  induction hn : b.length using Nat.strongRecOn generalizing b with
  | _ n ih =>
    intro ctx out hok
    rw [endOf_scan b ctx.loop out hok]
    cases hscan : scanFrom chunkStep (chunkEnter ctx.loop) b with
    | again s =>
      have hparse : parseChunked ctx b = chunkData .again ctx s [] := by
        rw [parseChunked, hscan]
      by_cases hbig : s.size > maxOffT - 5
      · rw [chunkData, if_pos hbig] at hparse
        rw [chunkedBuf_end (by rw [hparse]; simp), hparse]
        simp only [if_pos hbig]
      · rw [chunkData, if_neg hbig] at hparse
        rw [chunkedBuf_end (by rw [hparse]; simp), hparse]
        simp only [if_neg hbig]
    | stopped e rest =>
      cases e with
      | data s =>
        obtain ⟨hstate, hoks⟩ := scan_data hok.enter hscan
        have hsize := hoks.settled (by rw [hstate]; simp)
        have hmax := maxOffT_eq
        have hsmall : ¬ s.size > maxOffT - 5 := by omega
        have hparse : parseChunked ctx b = (.ok, ⟨s.state, s.size, chunkLength s⟩, rest) := by
          rw [parseChunked, hscan]
          simp only [chunkData, if_neg hsmall]
        have hless := parseChunked_ok_length hparse
        obtain ⟨state, k⟩ := s
        simp only at hstate hsize
        subst hstate
        rw [chunkedBuf_ok hparse, ih _ (by omega) _ rfl]
        · exact congrArg endOf (scan_take out (min k rest.length) k rest
            (Nat.min_le_left _ _) (Nat.min_le_right _ _)).symm
        · refine .of_settled ?_ ?_
          · exact Nat.le_trans (Nat.sub_le _ _) hsize
          · rintro (h | h) <;> cases h
      | done s =>
        have hparse : parseChunked ctx b
            = (.done, { ctx with state := .swChunkStart, size := s.size }, rest.drop 1) := by
          rw [parseChunked, hscan]
        rw [chunkedBuf_end (by rw [hparse]; simp), hparse]
      | invalid s =>
        have hparse : parseChunked ctx b = (.error, { ctx with size := s.size }, b) := by
          rw [parseChunked, hscan]
        rw [chunkedBuf_end (by rw [hparse]; simp), hparse]

/-- A size beyond the limit is refused at the next byte. -/
theorem chunkByte_big {s : ChunkLoop} (hok : ChunkOk s)
    (hbig : (chunkEnter s).size > maxOffT - 5) (out : List UInt8) (ch : UInt8) :
    chunkByte (s, out) ch = .stop .invalid := by
  have hmax := maxOffT_eq
  have hstate : (chunkEnter s).state = .swChunkSize := by
    by_contra hne
    have := hok.enter.settled hne
    omega
  have hguard : (chunkEnter s).size > maxOffT / 16 := by omega
  have hne : (chunkEnter s).state ≠ .swChunkData := by
    rw [hstate]
    simp
  rw [chunkByte_frame hne]
  simp only [chunkStep, hstate, chunkSize, if_pos hguard]

/-- A byte keeps the invariant of the byte machine. -/
theorem chunkByte_ok {d d' : ChunkLoop × List UInt8} (hok : ChunkOk d.1)
    (h : chunkByte d ch = .more d') : ChunkOk d'.1 := by
  obtain ⟨s, out⟩ := d
  by_cases hdata : (chunkEnter s).state = .swChunkData
  · rw [chunkByte_data hdata] at h
    cases h
    obtain ⟨heq, -⟩ := chunkEnter_data_pos hdata
    rw [heq] at hdata
    refine .of_settled ?_ ?_
    · exact Nat.le_trans (Nat.sub_le _ _) (hok.settled (by rw [hdata]; simp))
    · rintro (h | h) <;> cases h
  · rw [chunkByte_frame hdata] at h
    split at h
    · rename_i s' hc
      cases h
      exact (chunkStep_move hc).ok hok.enter
    · cases h
    · cases h

/-- **A scan** keeps the state right. -/
theorem scan_chunkByte_ok {out out' xs : List UInt8} (hok : ChunkOk s)
    (h : scanFrom chunkByte (s, out) xs = .again (s', out')) : ChunkOk s' :=
  (scanFrom_invariant (P := fun d => ChunkOk d.1) (fun _ _ _ h hstep => chunkByte_ok h hstep)
    (s := (s, out)) hok xs).1 _ h

/-- **Fragmentation independence.** Driving the parser over any buffers is running the
byte machine over all their bytes. -/
theorem chunkedBufs_eq (bs : List (List UInt8)) :
    ∀ (ctx : ChunkedCtx) (out b : List UInt8), ChunkOk ctx.loop →
      chunkedBufs ctx out (b :: bs)
        = endOf (scanFrom chunkByte (ctx.loop, out) (b :: bs).flatten) := by
  induction bs with
  | nil =>
    intro ctx out b hok
    rw [chunkedBufs, chunkedBuf_eq b ctx out hok]
    simp only [flatten_cons, flatten_nil, append_nil]
    cases endOf (scanFrom chunkByte (ctx.loop, out) b) with
    | again ctx' out' => rfl
    | done out' rest => simp
    | error => rfl
  | cons b' bs ih =>
    intro ctx out b hok
    have hflat : (b :: b' :: bs).flatten = b ++ (b' :: bs).flatten := rfl
    rw [chunkedBufs, chunkedBuf_eq b ctx out hok, hflat, scanFrom_append]
    cases hscan : scanFrom chunkByte (ctx.loop, out) b with
    | again d =>
      obtain ⟨s, out'⟩ := d
      have hoks := scan_chunkByte_ok hok hscan
      simp only [Scanned.andThen]
      by_cases hbig : (chunkEnter s).size > maxOffT - 5
      · simp only [endOf, if_pos hbig]
        cases hrest : (b' :: bs).flatten with
        | nil => simp [if_pos hbig]
        | cons c cs => rw [scanFrom_stop (chunkByte_big hoks hbig out' c)]
      · simp only [endOf, if_neg hbig]
        rw [ih ⟨(chunkEnter s).state, (chunkEnter s).size, _⟩ out' b' hoks.enter]
        exact endOf_enter s out' _
    | stopped e rest =>
      obtain ⟨_, _, c, cs, _, hrest, _⟩ :=
        (scanFrom_invariant (P := fun _ => True) (fun _ _ _ _ _ => trivial) trivial b).2 _ _ hscan
      cases e with
      | done out' => simp [endOf, Scanned.andThen, hrest]
      | invalid => simp [endOf, Scanned.andThen]

end Hengine
