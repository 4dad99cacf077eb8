import Hengine.Http.Chunked

/-!
# Chunked Bodies: Exactness

What the chunked parser is for: reading back a body that was cut into chunks. A
`WireBody` is such a body as it stands on the wire, with all the freedom the format
leaves: the case of the digits and their leading zeros, extensions, trailers, and a bare
`LF` for each `CRLF`. Its chunks may have any size up to `NGX_MAX_OFF_T_VALUE / 16`: a
larger size passes no further byte, not even the end of its own line.

The second subject is `ctx->length`, the number of bytes the callers are told to wait
for. It goes down by at most one with each byte, so it is a lower bound; and for each
state there is a shortest way to the end that takes exactly that many bytes.
-/

namespace Hengine

open List Option

/-! ### The least number of bytes still needed -/

/-- A move takes at most one off the length. -/
theorem ChunkMove.length_le {s s' : ChunkLoop} (h : ChunkMove s s') :
    chunkLength s ≤ chunkLength s' + 1 := by
  cases h with
  | @start n v hv =>
    simp only [chunkLength]
    split <;> omega
  | @digit n v hn hv =>
    simp only [chunkLength]
    split <;> split <;> omega
  | lastSize ht => rcases ht with rfl | rfl | rfl <;> simp [chunkLength]
  | openSize hn h0 ht =>
    rcases ht with rfl | rfl | rfl <;> simp only [chunkLength, if_pos h0] <;> omega
  | extension ht => rcases ht with rfl | rfl | rfl <;> simp only [chunkLength] <;> omega
  | extensionEnd =>
    simp only [chunkLength]
    omega
  | afterData ht => rcases ht with rfl | rfl <;> simp [chunkLength]
  | lastExtension ht => rcases ht with rfl | rfl | rfl <;> simp [chunkLength]
  | trailer ht => rcases ht with rfl | rfl <;> simp [chunkLength]
  | trailerHeader ht => rcases ht with rfl | rfl | rfl <;> simp [chunkLength]
  | afterDataEnd | lastExtensionEnd | trailerHeaderEnd => simp [chunkLength]

/-- The length the callers are told in a state of the byte machine. -/
def needed (d : ChunkLoop × List UInt8) : ℕ := chunkLength (chunkEnter d.1)

/-- A byte takes at most one off the length. -/
theorem needed_le {d d' : ChunkLoop × List UInt8} {ch : UInt8} (hok : ChunkOk d.1)
    (h : chunkByte d ch = .more d') : needed d ≤ needed d' + 1 := by
  obtain ⟨s, out⟩ := d
  by_cases hdata : (chunkEnter s).state = .swChunkData
  · rw [chunkByte_data hdata] at h
    cases h
    obtain ⟨heq, hpos⟩ := chunkEnter_data_pos hdata
    rw [heq] at hdata
    simp only [needed, heq, chunkLength, hdata]
    by_cases h1 : s.size - 1 = 0
    · simp only [chunkEnter, h1, and_self, if_true]
      omega
    · simp only [chunkEnter, h1, and_false, if_false]
      omega
  · rw [chunkByte_frame hdata] at h
    split at h
    · rename_i s' hc
      cases h
      have hmove := chunkStep_move hc
      simp only [needed, hmove.enter hok.enter]
      exact hmove.length_le
    · cases h
    · cases h

variable {out : List UInt8} {ctx : ChunkedCtx} {s : ChunkLoop}

/-- The last byte is read where one byte is needed. -/
theorem needed_done {d : ChunkLoop × List UInt8} {ch : UInt8}
    (h : chunkByte d ch = .stop (.done out)) : needed d = 1 := by
  obtain ⟨s, out₁⟩ := d
  by_cases hdata : (chunkEnter s).state = .swChunkData
  · rw [chunkByte_data hdata] at h
    cases h
  · rw [chunkByte_frame hdata] at h
    split at h
    · cases h
    · rename_i s' hc
      rcases chunkStep_stop hc with ⟨he, _⟩ | ⟨_, hs | hs, _⟩ | he
      · cases he
      · simp [needed, chunkLength, hs]
      · simp [needed, chunkLength, hs]
      · cases he
    · cases h

/-- **A lower bound.** A run that completes the body reads at least as many bytes as the
length says; `rest` starts with the last byte of the body. -/
theorem needed_lower (xs : List UInt8) :
    ∀ (d : ChunkLoop × List UInt8) (out rest : List UInt8), ChunkOk d.1 →
      scanFrom chunkByte d xs = .stopped (.done out) rest →
      needed d + rest.length ≤ xs.length + 1 := by
  induction xs with
  | nil =>
    intro d out rest _ h
    cases h
  | cons c cs ih =>
    intro d out rest hok h
    cases hc : chunkByte d c with
    | more d' =>
      rw [scanFrom_more hc] at h
      have := ih d' out rest (chunkByte_ok hok hc) h
      have := needed_le hok hc
      rw [length_cons]
      omega
    | stop e =>
      rw [scanFrom_stop hc] at h
      cases h
      rw [needed_done hc]
      omega

/-! ### The data announced so far -/

/-- The shortest way from a state to the end of the body. -/
def closing (s : ChunkLoop) : List UInt8 :=
  let last := [lf, byte '0', lf, lf]
  match s.state with
  | .swChunkStart => [byte '0', lf, lf]
  | .swChunkSize => lf :: (if s.size ≠ 0 then List.replicate s.size 0 ++ last else [lf])
  | .swChunkExtension | .swChunkExtensionAlmostDone => lf :: (List.replicate s.size 0 ++ last)
  | .swChunkData => List.replicate s.size 0 ++ last
  | .swAfterData | .swAfterDataAlmostDone => last
  | .swLastChunkExtension | .swLastChunkExtensionAlmostDone => [lf, lf]
  | .swTrailer | .swTrailerAlmostDone => [lf]
  | .swTrailerHeader | .swTrailerHeaderAlmostDone => [lf, lf]

/-- It has the length the callers are told. -/
theorem closing_length (s : ChunkLoop) : (closing s).length = chunkLength s := by
  obtain ⟨state, n⟩ := s
  cases state with
  | swChunkSize =>
    simp only [closing, chunkLength, length_cons]
    split
    · simp only [length_append, length_replicate, length_cons, length_nil]
      omega
    · rfl
  | swChunkExtension | swChunkExtensionAlmostDone =>
    simp only [closing, chunkLength, length_cons, length_append,
      length_replicate, length_nil]
    omega
  | swChunkData => simp [closing, chunkLength]
  | _ => rfl

/-! ### Reading the framing -/

section Frame

variable {s s' : ChunkLoop} {c : UInt8}

theorem chunkEnter_frame (h : s.state ≠ .swChunkData) : chunkEnter s = s := by
  rw [chunkEnter, if_neg fun hs => h hs.1]

/-- A byte of the frame puts nothing out. -/
theorem scan_frame {t : ChunkLoop} (h : s.state ≠ .swChunkData) (hc : chunkStep s c = .more t)
    (out cs : List UInt8) :
    scanFrom chunkByte (s, out) (c :: cs) = scanFrom chunkByte (t, out) cs := by
  refine scanFrom_more ?_ cs
  rw [chunkByte_frame (by rwa [chunkEnter_frame h]), chunkEnter_frame h, hc]

theorem scan_frame_done (h : s.state = .swTrailer ∨ s.state = .swTrailerAlmostDone)
    (out cs : List UInt8) :
    scanFrom chunkByte (s, out) (lf :: cs) = .stopped (.done out) (lf :: cs) := by
  refine scanFrom_stop ?_ cs
  obtain ⟨state, n⟩ := s
  rcases h with rfl | rfl
  · rfl
  · rfl

/-- The data of a chunk is put out whole. -/
theorem scan_data_all (data out cs : List UInt8) :
    scanFrom chunkByte (⟨.swChunkData, data.length⟩, out) (data ++ cs)
      = scanFrom chunkByte (⟨.swChunkData, 0⟩, out ++ data) cs := by
  rw [scan_take out data.length data.length (data ++ cs) (Nat.le_refl _) (by simp)]
  simp

end Frame

/-- Behind the data, the shortest end of the body. -/
theorem scan_last (n : ℕ) (out : List UInt8) :
    scanFrom chunkByte (⟨.swAfterData, n⟩, out) [lf, byte '0', lf, lf] = .stopped (.done out) [lf] := by
  rw [scan_frame (t := ⟨.swChunkStart, n⟩) (by simp) rfl,
    scan_frame (t := ⟨.swChunkSize, 0⟩) (by simp) rfl,
    scan_frame (t := ⟨.swTrailer, 0⟩) (by simp) rfl]
  exact scan_frame_done (Or.inl rfl) out []

/-- Behind the data its end is due. -/
theorem scan_data_empty (out : List UInt8) {xs : List UInt8} (h : xs ≠ []) :
    scanFrom chunkByte (⟨.swChunkData, 0⟩, out) xs
      = scanFrom chunkByte (⟨.swAfterData, 0⟩, out) xs := by
  cases xs with
  | nil => exact absurd rfl h
  | cons c cs => rfl

/-- As many zero bytes as the chunk wants, and the end of the body. -/
theorem scan_data_last (n : ℕ) (out : List UInt8) :
    scanFrom chunkByte (⟨.swChunkData, n⟩, out) (List.replicate n 0 ++ [lf, byte '0', lf, lf])
      = .stopped (.done (out ++ List.replicate n 0)) [lf] := by
  have hdata := scan_data_all (List.replicate n 0) out [lf, byte '0', lf, lf]
  rw [length_replicate] at hdata
  rw [hdata, scan_data_empty _ (by simp), scan_last]

/-- **The bound is attained**, unless a size is beyond the guard. -/
theorem scan_closing (hguard : s.state = .swChunkSize → s.size ≤ maxOffT / 16) (out : List UInt8) :
    ∃ out', scanFrom chunkByte (s, out) (closing s) = .stopped (.done out') [lf] := by
  obtain ⟨state, n⟩ := s
  cases state with
  | swChunkStart =>
    refine ⟨out, ?_⟩
    simp only [closing]
    rw [scan_frame (t := ⟨.swChunkSize, 0⟩) (by simp) rfl,
      scan_frame (t := ⟨.swTrailer, 0⟩) (by simp) rfl]
    exact scan_frame_done (Or.inl rfl) out []
  | swChunkSize =>
    have hle : ¬ n > maxOffT / 16 := by
      have := hguard rfl
      simp only at this
      omega
    have hlf : hexVal lf = none := by decide
    by_cases h0 : n = 0
    · refine ⟨out, ?_⟩
      simp only [closing, h0]
      rw [scan_frame (t := ⟨.swTrailer, 0⟩) (by simp) rfl]
      exact scan_frame_done (Or.inl rfl) out []
    · refine ⟨out ++ List.replicate n 0, ?_⟩
      have hstep : chunkStep ⟨.swChunkSize, n⟩ lf = .more ⟨.swChunkData, n⟩ := by
        simp only [chunkStep, chunkSize, if_neg hle, hlf, if_neg h0]
        rfl
      simp only [closing, if_pos h0]
      rw [scan_frame (by simp) hstep, scan_data_last]
  | swChunkExtension =>
    refine ⟨out ++ List.replicate n 0, ?_⟩
    simp only [closing]
    rw [scan_frame (t := ⟨.swChunkData, n⟩) (by simp) rfl, scan_data_last]
  | swChunkExtensionAlmostDone =>
    refine ⟨out ++ List.replicate n 0, ?_⟩
    simp only [closing]
    rw [scan_frame (t := ⟨.swChunkData, n⟩) (by simp) rfl, scan_data_last]
  | swChunkData => exact ⟨out ++ List.replicate n 0, scan_data_last n out⟩
  | swAfterData => exact ⟨out, scan_last n out⟩
  | swAfterDataAlmostDone =>
    refine ⟨out, ?_⟩
    simp only [closing]
    rw [scan_frame (t := ⟨.swChunkStart, n⟩) (by simp) rfl,
      scan_frame (t := ⟨.swChunkSize, 0⟩) (by simp) rfl,
      scan_frame (t := ⟨.swTrailer, 0⟩) (by simp) rfl]
    exact scan_frame_done (Or.inl rfl) out []
  | swLastChunkExtension | swLastChunkExtensionAlmostDone | swTrailerHeader
  | swTrailerHeaderAlmostDone =>
    refine ⟨out, ?_⟩
    simp only [closing]
    rw [scan_frame (t := ⟨.swTrailer, n⟩) (by simp) rfl]
    exact scan_frame_done (Or.inl rfl) out []
  | swTrailer => exact ⟨out, scan_frame_done (Or.inl rfl) out []⟩
  | swTrailerAlmostDone => exact ⟨out, scan_frame_done (Or.inr rfl) out []⟩

/-! ### Bodies on the wire -/

/-- The end of a line, with or without the `CR`. -/
def eol (crlf : Bool) : List UInt8 := if crlf then [cr, lf] else [lf]

/-- The number that stands in the parser when the digits have been read after `n`. -/
def hexFrom (n : ℕ) (digits : List UInt8) : ℕ :=
  digits.foldl (fun n d => n * 16 + (hexVal d).getD 0) n

/-- The number a list of hexadecimal digits stands for. -/
def hexValue (digits : List UInt8) : ℕ := hexFrom 0 digits

/-- Hexadecimal digits, at least one. -/
def IsDigits (digits : List UInt8) : Prop :=
  digits ≠ [] ∧ ∀ d ∈ digits, (hexVal d).isSome

/-- Bytes that do not end a line. -/
def InLine (xs : List UInt8) : Prop := ∀ c ∈ xs, c ≠ cr ∧ c ≠ lf

/-- An extension: none, or a separator and anything up to the end of the line. -/
def IsExtension (ext : List UInt8) : Prop :=
  InLine ext ∧ ∀ c ∈ ext.head?, isExtensionStart c = true

theorem isExtension_nil : IsExtension [] := ⟨by simp [InLine], by simp⟩

theorem isDigits_zero : IsDigits [byte '0'] := ⟨by simp, all_eq_true.mp (by decide)⟩

/-- A chunk on the wire. -/
structure WireChunk where
  digits : List UInt8
  ext : List UInt8
  sizeCrlf : Bool
  data : List UInt8
  dataCrlf : Bool
  isDigits : IsDigits digits
  isExtension : IsExtension ext
  nonempty : data ≠ []
  size_eq : hexValue digits = data.length

/-- Its bytes. -/
def WireChunk.bytes (c : WireChunk) : List UInt8 :=
  c.digits ++ (c.ext ++ (eol c.sizeCrlf ++ (c.data ++ eol c.dataCrlf)))

/-- A trailer line. -/
structure WireTrailer where
  line : List UInt8
  crlf : Bool
  nonempty : line ≠ []
  inLine : InLine line

/-- Its bytes. -/
def WireTrailer.bytes (t : WireTrailer) : List UInt8 := t.line ++ eol t.crlf

/-- A body on the wire: the chunks, the last chunk with a size of zero, the trailer and
the terminating line. -/
structure WireBody where
  chunks : List WireChunk
  lastDigits : List UInt8
  lastExt : List UInt8
  lastCrlf : Bool
  trailers : List WireTrailer
  endCrlf : Bool
  isDigits : IsDigits lastDigits
  last_eq : hexValue lastDigits = 0
  isExtension : IsExtension lastExt

namespace WireBody

/-- What follows the chunks. -/
def tail (w : WireBody) : List UInt8 :=
  w.lastDigits ++ (w.lastExt ++ (eol w.lastCrlf
    ++ ((w.trailers.map WireTrailer.bytes).flatten ++ eol w.endCrlf)))

/-- All the bytes. -/
def bytes (w : WireBody) : List UInt8 := (w.chunks.map WireChunk.bytes).flatten ++ w.tail

/-- The body that was cut into the chunks. -/
def body (w : WireBody) : List UInt8 := (w.chunks.map WireChunk.data).flatten

/-- The sizes the parser lets pass. -/
def InRange (w : WireBody) : Prop := ∀ c ∈ w.chunks, c.data.length ≤ maxOffT / 16

end WireBody

/-! ### Reading a body back -/

section Read

variable {n : ℕ} (out cs : List UInt8)

theorem le_hexFrom (digits : List UInt8) : ∀ n : ℕ, n ≤ hexFrom n digits := by
  induction digits with
  | nil =>
    intro n
    exact Nat.le_refl n
  | cons d ds ih =>
    intro n
    calc n ≤ n * 16 + (hexVal d).getD 0 := by omega
      _ ≤ hexFrom n (d :: ds) := ih _

/-- The digits of a size behind the first. -/
theorem scan_digits (digits : List UInt8) :
    ∀ n : ℕ, (∀ d ∈ digits, (hexVal d).isSome) → hexFrom n digits ≤ maxOffT / 16 →
      scanFrom chunkByte (⟨.swChunkSize, n⟩, out) (digits ++ cs)
        = scanFrom chunkByte (⟨.swChunkSize, hexFrom n digits⟩, out) cs := by
  induction digits with
  | nil =>
    intro n _ _
    rfl
  | cons d ds ih =>
    intro n hhex hle
    obtain ⟨v, hv⟩ := isSome_iff_exists.mp (hhex d (by simp))
    have hnext : hexFrom n (d :: ds) = hexFrom (n * 16 + v) ds := by
      simp [hexFrom, hv]
    have hguard : ¬ n > maxOffT / 16 := by
      have := le_hexFrom ds (n * 16 + v)
      omega
    have hstep : chunkStep ⟨.swChunkSize, n⟩ d = .more ⟨.swChunkSize, n * 16 + v⟩ := by
      simp only [chunkStep, chunkSize, if_neg hguard, hv]
    rw [cons_append, scan_frame (by simp) hstep,
      ih (n * 16 + v) (fun e he => hhex e (by simp [he])) (hnext ▸ hle), hnext]

/-- A size, from the start of a chunk. -/
theorem scan_size {digits : List UInt8} (h : IsDigits digits)
    (hle : hexValue digits ≤ maxOffT / 16) :
    scanFrom chunkByte (⟨.swChunkStart, n⟩, out) (digits ++ cs)
      = scanFrom chunkByte (⟨.swChunkSize, hexValue digits⟩, out) cs := by
  obtain ⟨hne, hhex⟩ := h
  cases digits with
  | nil => exact absurd rfl hne
  | cons d ds =>
    obtain ⟨v, hv⟩ := isSome_iff_exists.mp (hhex d (by simp))
    have hnext : hexValue (d :: ds) = hexFrom v ds := by
      simp [hexValue, hexFrom, hv]
    have hstep : chunkStep ⟨.swChunkStart, n⟩ d = .more ⟨.swChunkSize, v⟩ := by
      simp only [chunkStep, chunkStart, hv]
    rw [cons_append, scan_frame (by simp) hstep,
      scan_digits out cs ds v (fun e he => hhex e (by simp [he])) (hnext ▸ hle), hnext]

/-- **The end of a line**, with a carriage return or without. -/
theorem scan_eol {t a b : ChunkedState} (crlf : Bool) (ht : t ≠ .swChunkData)
    (ha : a ≠ .swChunkData) (hcr : chunkStep ⟨t, n⟩ cr = .more ⟨a, n⟩)
    (hlf : chunkStep ⟨t, n⟩ lf = .more ⟨b, n⟩) (hend : chunkStep ⟨a, n⟩ lf = .more ⟨b, n⟩) :
    scanFrom chunkByte (⟨t, n⟩, out) (eol crlf ++ cs) = scanFrom chunkByte (⟨b, n⟩, out) cs := by
  cases crlf with
  | true =>
    simp only [eol, if_true, cons_append, nil_append]
    rw [scan_frame ht hcr, scan_frame ha hend]
  | false =>
    simp only [eol, Bool.false_eq_true, if_false, cons_append, nil_append]
    rw [scan_frame ht hlf]

/-- **An extension** is passed. -/
theorem scan_skip {t a b : ChunkedState} (ht : t ≠ .swChunkData)
    (hskip : ∀ c, chunkStep ⟨t, n⟩ c = skipLine a b ⟨t, n⟩ c) {line : List UInt8}
    (h : InLine line) :
    scanFrom chunkByte (⟨t, n⟩, out) (line ++ cs) = scanFrom chunkByte (⟨t, n⟩, out) cs := by
  induction line with
  | nil => rfl
  | cons c line ih =>
    obtain ⟨hcr, hlf⟩ := h c (by simp)
    have hstep : chunkStep ⟨t, n⟩ c = .more ⟨t, n⟩ := by
      rw [hskip, skipLine, if_neg hcr, if_neg hlf]
    rw [cons_append, scan_frame ht hstep]
    exact ih fun d hd => h d (by simp [hd])

/-- What ends a size is no digit. -/
theorem hexVal_sizeEnd : hexVal cr = none ∧ hexVal lf = none ∧
    ∀ c, isExtensionStart c = true → hexVal c = none := by
  refine ⟨by decide, by decide, ?_⟩
  intro c hc
  simp only [isExtensionStart, Bool.or_eq_true, beq_iff_eq] at hc
  rcases hc with (rfl | rfl) | rfl <;> decide

/-- The end of a size: in the three cases the state moves to `a`, `b` or `t`. -/
theorem chunkStep_sizeEnd {a b t : ChunkedState}
    (hend : ∀ c, hexVal c = none →
      chunkStep ⟨.swChunkSize, n⟩ c = sizeEnd a b t ⟨.swChunkSize, n⟩ c) :
    chunkStep ⟨.swChunkSize, n⟩ cr = .more ⟨a, n⟩ ∧
      chunkStep ⟨.swChunkSize, n⟩ lf = .more ⟨b, n⟩ ∧
      ∀ c, isExtensionStart c = true → c ≠ cr → c ≠ lf →
        chunkStep ⟨.swChunkSize, n⟩ c = .more ⟨t, n⟩ := by
  obtain ⟨hcr, hlf, hext⟩ := hexVal_sizeEnd
  refine ⟨?_, ?_, ?_⟩
  · rw [hend cr hcr]
    rfl
  · rw [hend lf hlf]
    rfl
  · intro c hc hncr hnlf
    rw [hend c (hext c hc), sizeEnd, if_neg hncr, if_neg hnlf, if_pos hc]

/-- The end of a size line, with its extension. -/
theorem scan_sizeLine {a b t : ChunkedState} {ext : List UInt8} (crlf : Bool)
    (h : IsExtension ext)
    (hend : ∀ c, hexVal c = none →
      chunkStep ⟨.swChunkSize, n⟩ c = sizeEnd a b t ⟨.swChunkSize, n⟩ c)
    (hskip : ∀ c, chunkStep ⟨t, n⟩ c = skipLine a b ⟨t, n⟩ c)
    (hlast : ∀ c, chunkStep ⟨a, n⟩ c = expectLf b ⟨a, n⟩ c)
    (ht : t ≠ .swChunkData) (ha : a ≠ .swChunkData) :
    scanFrom chunkByte (⟨.swChunkSize, n⟩, out) (ext ++ (eol crlf ++ cs))
      = scanFrom chunkByte (⟨b, n⟩, out) cs := by
  obtain ⟨hcr, hlf, hsep⟩ := chunkStep_sizeEnd hend
  have hlast' : chunkStep ⟨a, n⟩ lf = .more ⟨b, n⟩ := by
    rw [hlast]
    rfl
  obtain ⟨hline, hstart⟩ := h
  cases ext with
  | nil => exact scan_eol out cs crlf (by simp) ha hcr hlf hlast'
  | cons c ext =>
    obtain ⟨hncr, hnlf⟩ := hline c (by simp)
    rw [cons_append, scan_frame (by simp) (hsep c (hstart c (by simp)) hncr hnlf),
      scan_skip out _ ht hskip (fun d hd => hline d (by simp [hd]))]
    refine scan_eol out cs crlf ht ha ?_ ?_ hlast'
    · rw [hskip]
      rfl
    · rw [hskip]
      rfl

/-- **A chunk is read back**, and the parser is at the start of the next. -/
theorem scan_chunk (c : WireChunk) (hle : c.data.length ≤ maxOffT / 16) :
    scanFrom chunkByte (⟨.swChunkStart, n⟩, out) (c.bytes ++ cs)
      = scanFrom chunkByte (⟨.swChunkStart, 0⟩, out ++ c.data) cs := by
  have hsize := c.size_eq
  have hne : c.data.length ≠ 0 := by
    have := length_pos_of_ne_nil c.nonempty
    omega
  simp only [WireChunk.bytes, append_assoc]
  rw [scan_size out _ c.isDigits (by omega), hsize,
    scan_sizeLine (a := .swChunkExtensionAlmostDone) (b := .swChunkData) (t := .swChunkExtension)
      out _ c.sizeCrlf c.isExtension ?_ (fun _ => rfl) (fun _ => rfl) (by simp) (by simp),
    scan_data_all, scan_data_empty]
  · exact scan_eol (a := .swAfterDataAlmostDone) _ cs c.dataCrlf (by simp) (by simp) rfl rfl rfl
  · cases c.dataCrlf <;> simp [eol]
  · intro d hd
    simp only [chunkStep, chunkSize, hd, if_neg (Nat.not_lt.mpr hle), if_neg hne]

/-- All the chunks are read back. -/
theorem scan_chunks (chunks : List WireChunk) :
    ∀ (n : ℕ) (out : List UInt8), (∀ c ∈ chunks, c.data.length ≤ maxOffT / 16) →
      ∃ m, scanFrom chunkByte (⟨.swChunkStart, n⟩, out)
          ((chunks.map WireChunk.bytes).flatten ++ cs)
        = scanFrom chunkByte
            (⟨.swChunkStart, m⟩, out ++ (chunks.map WireChunk.data).flatten) cs := by
  induction chunks with
  | nil =>
    intro n out _
    exact ⟨n, by simp⟩
  | cons c chunks ih =>
    intro n out h
    obtain ⟨m, hm⟩ := ih 0 (out ++ c.data) fun d hd => h d (by simp [hd])
    refine ⟨m, ?_⟩
    simp only [map_cons, flatten_cons, append_assoc] at hm ⊢
    rw [scan_chunk out _ c (h c (by simp)), hm]

/-- The trailer is skipped. -/
theorem scan_trailers (trailers : List WireTrailer) :
    scanFrom chunkByte (⟨.swTrailer, n⟩, out) ((trailers.map WireTrailer.bytes).flatten ++ cs)
      = scanFrom chunkByte (⟨.swTrailer, n⟩, out) cs := by
  induction trailers with
  | nil => rfl
  | cons t trailers ih =>
    simp only [map_cons, flatten_cons, append_assoc, WireTrailer.bytes]
    have hline := t.inLine
    cases hl : t.line with
    | nil => exact absurd hl t.nonempty
    | cons c line =>
      rw [hl] at hline
      obtain ⟨hcr, hlf⟩ := hline c (by simp)
      have hstep : chunkStep ⟨.swTrailer, n⟩ c = .more ⟨.swTrailerHeader, n⟩ := by
        simp only [chunkStep, trailer, if_neg hcr, if_neg hlf]
      rw [cons_append, scan_frame (by simp) hstep,
        scan_skip (a := .swTrailerHeaderAlmostDone) (b := .swTrailer) out _ (by simp)
          (fun _ => rfl) (fun d hd => hline d (by simp [hd])),
        scan_eol (a := .swTrailerHeaderAlmostDone) (b := .swTrailer) out _ t.crlf (by simp)
          (by simp) rfl rfl rfl]
      exact ih

/-- **The end of the body is found**: the parser stops at the last line feed. -/
theorem scan_tail (w : WireBody) (following : List UInt8) :
    scanFrom chunkByte (⟨.swChunkStart, n⟩, out) (w.tail ++ following)
      = .stopped (.done out) (lf :: following) := by
  have hlast := w.last_eq
  simp only [WireBody.tail, append_assoc]
  rw [scan_size out _ w.isDigits (by omega), hlast,
    scan_sizeLine (a := .swLastChunkExtensionAlmostDone) (b := .swTrailer)
      (t := .swLastChunkExtension) out _ w.lastCrlf w.isExtension ?_
      (fun _ => rfl) (fun _ => rfl) (by simp) (by simp),
    scan_trailers]
  · cases w.endCrlf with
    | true =>
      simp only [eol, if_true, cons_append, nil_append]
      rw [scan_frame (t := ⟨.swTrailerAlmostDone, 0⟩) (by simp) rfl]
      exact scan_frame_done (Or.inr rfl) out following
    | false => exact scan_frame_done (Or.inl rfl) out following
  · intro d hd
    simp only [chunkStep, chunkSize, hd, if_neg (Nat.not_lt.mpr (Nat.zero_le _)), if_true]

/-- **A body on the wire is read back.** -/
theorem scan_body (w : WireBody) (hrange : w.InRange) (following : List UInt8) :
    scanFrom chunkByte (⟨.swChunkStart, n⟩, out) (w.bytes ++ following)
      = .stopped (.done (out ++ w.body)) (lf :: following) := by
  obtain ⟨m, hm⟩ := scan_chunks (w.tail ++ following) w.chunks n out hrange
  rw [WireBody.bytes, append_assoc, hm, scan_tail]
  rfl

/-- A size beyond the guard is refused at once. -/
theorem chunkByte_beyond (hbig : n > maxOffT / 16) (c : UInt8) :
    chunkByte (⟨.swChunkSize, n⟩, out) c = .stop .invalid := by
  have henter : chunkEnter ⟨.swChunkSize, n⟩ = ⟨.swChunkSize, n⟩ := chunkEnter_frame (by simp)
  rw [chunkByte_frame (by rw [henter]; simp), henter]
  simp only [chunkStep, chunkSize, if_pos hbig]

/-- Digits that lead beyond the guard. -/
theorem scan_digits_beyond (hcs : cs ≠ []) (digits : List UInt8) :
    ∀ n : ℕ, (∀ d ∈ digits, (hexVal d).isSome) → hexFrom n digits > maxOffT / 16 →
      ∃ rest, scanFrom chunkByte (⟨.swChunkSize, n⟩, out) (digits ++ cs)
        = .stopped .invalid rest := by
  induction digits with
  | nil =>
    intro n _ hbig
    cases cs with
    | nil => exact absurd rfl hcs
    | cons c cs => exact ⟨_, scanFrom_stop (chunkByte_beyond out hbig c) cs⟩
  | cons d ds ih =>
    intro n hhex hbig
    by_cases hguard : n > maxOffT / 16
    · exact ⟨_, scanFrom_stop (chunkByte_beyond out hguard d) _⟩
    · obtain ⟨v, hv⟩ := isSome_iff_exists.mp (hhex d (by simp))
      have hnext : hexFrom n (d :: ds) = hexFrom (n * 16 + v) ds := by
        simp [hexFrom, hv]
      have hstep : chunkStep ⟨.swChunkSize, n⟩ d = .more ⟨.swChunkSize, n * 16 + v⟩ := by
        simp only [chunkStep, chunkSize, if_neg hguard, hv]
      rw [cons_append, scan_frame (by simp) hstep]
      exact ih (n * 16 + v) (fun e he => hhex e (by simp [he])) (hnext ▸ hbig)

/-- A chunk beyond the guard. -/
theorem scan_chunk_beyond (c : WireChunk) (hbig : c.data.length > maxOffT / 16) :
    ∃ rest, scanFrom chunkByte (⟨.swChunkStart, n⟩, out) (c.bytes ++ cs)
      = .stopped .invalid rest := by
  obtain ⟨hne, hhex⟩ := c.isDigits
  have hsize := c.size_eq
  simp only [WireChunk.bytes, append_assoc]
  cases hd : c.digits with
  | nil => exact absurd hd hne
  | cons d ds =>
    rw [hd] at hhex hsize
    obtain ⟨v, hv⟩ := isSome_iff_exists.mp (hhex d (by simp))
    have hnext : hexValue (d :: ds) = hexFrom v ds := by
      simp [hexValue, hexFrom, hv]
    have hstep : chunkStep ⟨.swChunkStart, n⟩ d = .more ⟨.swChunkSize, v⟩ := by
      simp only [chunkStep, chunkStart, hv]
    rw [cons_append, scan_frame (by simp) hstep]
    refine scan_digits_beyond out _ ?_ ds v (fun e he => hhex e (by simp [he])) (by omega)
    cases c.sizeCrlf <;> simp [eol]

/-- Chunks of which one is beyond the guard. -/
theorem scan_chunks_beyond (chunks : List WireChunk) :
    ∀ (n : ℕ) (out : List UInt8), ¬ (∀ c ∈ chunks, c.data.length ≤ maxOffT / 16) →
      ∃ rest, scanFrom chunkByte (⟨.swChunkStart, n⟩, out)
          ((chunks.map WireChunk.bytes).flatten ++ cs) = .stopped .invalid rest := by
  induction chunks with
  | nil =>
    intro n out h
    exact absurd (by simp) h
  | cons c chunks ih =>
    intro n out h
    simp only [map_cons, flatten_cons, append_assoc]
    by_cases hc : c.data.length ≤ maxOffT / 16
    · rw [scan_chunk out _ c hc]
      refine ih 0 (out ++ c.data) fun hall => h fun d hd => ?_
      rcases mem_cons.mp hd with rfl | hd
      · exact hc
      · exact hall d hd
    · exact scan_chunk_beyond out _ c (Nat.lt_of_not_le hc)

/-- **A body with a chunk beyond the guard is refused.** -/
theorem scan_body_beyond (w : WireBody) (hrange : ¬ w.InRange) :
    ∃ rest, scanFrom chunkByte (⟨.swChunkStart, n⟩, out) w.bytes = .stopped .invalid rest :=
  scan_chunks_beyond w.tail w.chunks n out hrange

end Read

/-! ### What the callers see -/

/-- `ctx->length` at `NGX_AGAIN` is the least number of bytes that can complete the body:
no continuation completes it with fewer, and one completes it with that many. -/
structure NeedsExactly (ctx : ChunkedCtx) (out : List UInt8) : Prop where
  lower : ∀ (b : List UInt8) (bs : List (List UInt8)) (out' rest : List UInt8),
    chunkedBufs ctx out (b :: bs) = .done out' rest →
    ctx.length + rest.length ≤ (b :: bs).flatten.length
  attained : ∃ more out', more.length = ctx.length ∧
    chunkedBufs ctx out [more] = .done out' []

/-- A parser that waits stands in one state of the byte machine. -/
theorem endOf_again {r : Scanned UInt8 (ChunkLoop × List UInt8) ByteExit}
    (h : endOf r = .again ctx out) :
    ∃ s, r = .again (s, out) ∧ ctx.loop = chunkEnter s ∧ ctx.length = chunkLength ctx.loop := by
  cases r with
  | again d =>
    obtain ⟨s, out₁⟩ := d
    simp only [endOf] at h
    split at h
    · cases h
    · cases h
      exact ⟨s, rfl, rfl, rfl⟩
  | stopped e rest => cases e <;> cases h

/-- A run that completes the body, in terms of the byte machine. -/
theorem endOf_done {r : Scanned UInt8 (ChunkLoop × List UInt8) ByteExit} {out rest : List UInt8}
    (h : endOf r = .done out rest) :
    ∃ rest', r = .stopped (.done out) rest' ∧ rest = rest'.drop 1 := by
  cases r with
  | again d =>
    obtain ⟨s, out₁⟩ := d
    simp only [endOf] at h
    split at h <;> cases h
  | stopped e rest' =>
    cases e with
    | done out₁ =>
      cases h
      exact ⟨rest', rfl, rfl⟩
    | invalid => cases h

/-- **The length is a lower bound**, whatever was read before. -/
theorem needs_lower (hok : ChunkOk ctx.loop) (hlen : ctx.length = chunkLength ctx.loop)
    (henter : chunkEnter ctx.loop = ctx.loop) {out out' rest b : List UInt8}
    {bs : List (List UInt8)} (h : chunkedBufs ctx out (b :: bs) = .done out' rest) :
    ctx.length + rest.length ≤ (b :: bs).flatten.length := by
  rw [chunkedBufs_eq bs ctx out b hok] at h
  obtain ⟨rest', hscan, hrest⟩ := endOf_done h
  obtain ⟨_, _, c, cs, _, hcons, _⟩ :=
    (scanFrom_invariant (P := fun _ => True) (fun _ _ _ _ _ => trivial) trivial _).2 _ _ hscan
  have hlower := needed_lower _ _ _ _ hok hscan
  simp only [needed, henter] at hlower
  rw [hrest, hcons, drop_one, tail_cons, hlen]
  rw [hcons, length_cons] at hlower
  omega

/-- **The length is attained**, unless a size beyond the guard has been read. -/
theorem needs_attained (hok : ChunkOk ctx.loop) (hlen : ctx.length = chunkLength ctx.loop)
    (hguard : ctx.state = .swChunkSize → ctx.size ≤ maxOffT / 16) (out : List UInt8) :
    ∃ more out', more.length = ctx.length ∧ chunkedBufs ctx out [more] = .done out' [] := by
  obtain ⟨out', hscan⟩ := scan_closing (s := ctx.loop) hguard out
  refine ⟨closing ctx.loop, out', by rw [closing_length, hlen], ?_⟩
  rw [chunkedBufs_eq [] ctx out _ hok, flatten_singleton, hscan]
  rfl

/-- A fresh context, as `ngx_pcalloc` leaves it. -/
def freshChunked : ChunkedCtx := {}

@[simp]
theorem freshChunked_loop : freshChunked.loop = ⟨.swChunkStart, 0⟩ := rfl

/-- The output only grows. -/
theorem scan_out_prefix {out out' xs rest : List UInt8}
    (h : scanFrom chunkByte (s, out) xs = .stopped (.done out') rest) : out <+: out' := by
  have hgrow : ∀ (d : ChunkLoop × List UInt8) (c : UInt8) (d' : ChunkLoop × List UInt8),
      out <+: d.2 → chunkByte d c = .more d' → out <+: d'.2 := by
    rintro ⟨t, o⟩ c d' ho hc
    by_cases hdata : (chunkEnter t).state = .swChunkData
    · rw [chunkByte_data hdata] at hc
      cases hc
      exact ho.trans (prefix_append _ _)
    · rw [chunkByte_frame hdata] at hc
      split at hc
      · cases hc
        exact ho
      · cases hc
      · cases hc
  obtain ⟨_, ⟨t, o⟩, c, _, _, _, ho, hstop⟩ :=
    (scanFrom_invariant hgrow (s := (s, out)) prefix_rfl xs).2 _ _ h
  by_cases hdata : (chunkEnter t).state = .swChunkData
  · rw [chunkByte_data hdata] at hstop
    cases hstop
  · rw [chunkByte_frame hdata] at hstop
    split at hstop
    · cases hstop
    · cases hstop
      exact ho
    · cases hstop

/-- A size that is not refused is within the guard. -/
theorem size_of_accepted {c : UInt8} (h : chunkByte (s, out) c ≠ .stop .invalid)
    (hs : (chunkEnter s).state = .swChunkSize) : (chunkEnter s).size ≤ maxOffT / 16 := by
  by_contra hbig
  refine h ?_
  rw [chunkByte_frame (by rw [hs]; simp)]
  simp only [chunkStep, hs, chunkSize, if_pos (Nat.lt_of_not_le hbig)]

/-- **A proper part of a body.** The parser asks for more, and tells how much. -/
theorem chunked_part {w : WireBody} (hrange : w.InRange) {b : List UInt8}
    (bs : List (List UInt8)) {c : UInt8} {ys : List UInt8}
    (hw : w.bytes = (b :: bs).flatten ++ c :: ys) :
    ∃ ctx out, chunkedBufs freshChunked [] (b :: bs) = .again ctx out ∧ out <+: w.body ∧
      NeedsExactly ctx out := by
  have hbody := scan_body (n := 0) [] w hrange []
  rw [append_nil, hw, scanFrom_append] at hbody
  have hrun : chunkedBufs freshChunked [] (b :: bs)
      = endOf (scanFrom chunkByte (⟨.swChunkStart, 0⟩, []) (b :: bs).flatten) :=
    chunkedBufs_eq bs freshChunked [] b ChunkOk.fresh
  cases hscan : scanFrom chunkByte (⟨.swChunkStart, 0⟩, []) (b :: bs).flatten with
  | stopped e rest =>
    -- The run over all the bytes stops at the last of them.
    obtain ⟨_, _, d, ds, _, hrest, _⟩ :=
      (scanFrom_invariant (P := fun _ => True) (fun _ _ _ _ _ => trivial) trivial _).2 _ _ hscan
    rw [hscan, Scanned.andThen, hrest] at hbody
    simp at hbody
  | again d =>
    obtain ⟨s, out⟩ := d
    rw [hscan, Scanned.andThen] at hbody
    have hok := scan_chunkByte_ok ChunkOk.fresh hscan
    have haccept : chunkByte (s, out) c ≠ .stop .invalid := by
      intro hc
      rw [scanFrom_stop hc] at hbody
      cases hbody
    have hguard := size_of_accepted haccept
    have hsmall : ¬ (chunkEnter s).size > maxOffT - 5 := fun hbig =>
      haccept (chunkByte_big hok hbig out c)
    rw [hscan] at hrun
    simp only [endOf, if_neg hsmall] at hrun
    refine ⟨_, out, hrun, ?_, ?_, ?_⟩
    · exact scan_out_prefix hbody
    · intro b' bs' out' rest' hdone
      exact needs_lower (by exact hok.enter) rfl (by exact chunkEnter_idem s) hdone
    · exact needs_attained (by exact hok.enter) rfl (by exact hguard) out

/-- **Chunked decoding is exact.** A body on the wire whose sizes are in range, cut into
buffers in any way and followed by anything, is read back exactly, and `NGX_DONE` is
returned at its last byte. On a proper part of it the parser asks for more, has given a
part of the body, and `ctx->length` is the least number of bytes still needed. On any
input at all, `ctx->size` stays within `off_t`, byte by byte. -/
theorem chunked_exact (b : List UInt8) (bs : List (List UInt8)) :
    (∀ w : WireBody, w.InRange →
      (∀ following, (b :: bs).flatten = w.bytes ++ following →
        chunkedBufs freshChunked [] (b :: bs) = .done w.body following) ∧
      (∀ c ys, w.bytes = (b :: bs).flatten ++ c :: ys →
        ∃ ctx out, chunkedBufs freshChunked [] (b :: bs) = .again ctx out ∧ out <+: w.body ∧
          NeedsExactly ctx out)) ∧
      (∀ ctx out, chunkedBufs freshChunked [] (b :: bs) = .again ctx out →
        ∀ xs s, scanFrom chunkStep (chunkEnter ctx.loop) xs = .again s → s.size ≤ maxOffT) := by
  refine ⟨?_, ?_⟩
  · intro w hrange
    refine ⟨?_, fun c ys hw => chunked_part hrange _ hw⟩
    intro following hw
    rw [chunkedBufs_eq bs freshChunked [] b ChunkOk.fresh, hw]
    have hbody := scan_body (n := 0) [] w hrange following
    rw [nil_append] at hbody
    exact congrArg endOf hbody
  · intro ctx out h xs s hscan
    rw [chunkedBufs_eq bs freshChunked [] b ChunkOk.fresh] at h
    obtain ⟨s₀, hbyte, hloop, -⟩ := endOf_again h
    have hok := scan_chunkByte_ok ChunkOk.fresh hbyte
    rw [hloop] at hscan
    exact ((scanFrom_invariant (fun _ _ _ h hstep => (chunkStep_move hstep).ok h)
      hok.enter.enter xs).1 _ hscan).size_le

/-! ### A size beyond the guard -/

/-- The digits of 2 ^ 59. -/
def hugeDigits : List UInt8 := byte '8' :: List.replicate 14 (byte '0')

/-- The data of a chunk of that size. -/
noncomputable def hugeData : List UInt8 := List.replicate (2 ^ 59) 0

theorem hugeData_length : hugeData.length = 2 ^ 59 := length_replicate

/-- A body of one such chunk. -/
noncomputable def hugeBody : WireBody where
  chunks := [{
    digits := hugeDigits
    ext := []
    sizeCrlf := true
    data := hugeData
    dataCrlf := true
    isDigits := by
      refine ⟨by simp [hugeDigits], ?_⟩
      exact all_eq_true.mp (by decide)
    isExtension := isExtension_nil
    nonempty := by
      intro h
      have hlen := hugeData_length
      rw [h, length_nil] at hlen
      omega
    size_eq := by
      rw [hugeData_length]
      decide }]
  lastDigits := [byte '0']
  lastExt := []
  lastCrlf := true
  trailers := []
  endCrlf := true
  isDigits := isDigits_zero
  last_eq := by decide
  isExtension := isExtension_nil

theorem scan_hugeDigits :
    scanFrom chunkByte (⟨.swChunkStart, 0⟩, []) hugeDigits
      = .again (⟨.swChunkSize, 2 ^ 59⟩, []) := by
  decide

/-- The context the callers then have. -/
def hugeCtx : ChunkedCtx := ⟨.swChunkSize, 2 ^ 59, 2 ^ 59 + 5⟩

/-- A size of 2^59 is refused. -/
theorem chunkByte_huge (c : UInt8) :
    chunkByte (⟨.swChunkSize, 2 ^ 59⟩, []) c = .stop .invalid := by
  have hguard : (2 ^ 59 : ℕ) > maxOffT / 16 := by decide
  rw [chunkByte_frame (by simp [chunkEnter])]
  simp only [chunkEnter_frame (s := ⟨.swChunkSize, 2 ^ 59⟩) (by simp), chunkStep, chunkSize,
    if_pos hguard]

/-- **A chunk of 2 ^ 59 bytes is refused**: its size is a valid `off_t`, and no byte may
follow its digits; the length told at that point is one that no continuation attains. -/
theorem chunked_huge_refused :
    chunkedBufs freshChunked [] [hugeBody.bytes] = .error ∧
      chunkedBufs freshChunked [] [hugeDigits] = .again hugeCtx [] ∧
      ∀ b bs out rest, chunkedBufs hugeCtx [] (b :: bs) ≠ .done out rest := by
  have hfresh : ChunkOk freshChunked.loop := ChunkOk.fresh
  have hhuge : ChunkOk hugeCtx.loop := by
    refine ⟨?_, by decide, fun hne => absurd rfl hne⟩
    rintro (h | h) <;> cases h
  refine ⟨?_, ?_, ?_⟩
  · obtain ⟨xs, hxs⟩ : ∃ xs, hugeBody.bytes = hugeDigits ++ cr :: xs := by
      simp only [WireBody.bytes, hugeBody, map_cons, flatten_cons, WireChunk.bytes, eol,
        if_true, nil_append, append_assoc, cons_append]
      exact ⟨_, rfl⟩
    rw [chunkedBufs_eq [] freshChunked [] _ hfresh, flatten_singleton, hxs, freshChunked_loop,
      scanFrom_append_again scan_hugeDigits, scanFrom_stop (chunkByte_huge cr)]
    rfl
  · rw [chunkedBufs_eq [] freshChunked [] _ hfresh, flatten_singleton]
    exact congrArg endOf scan_hugeDigits
  · intro b bs out rest
    rw [chunkedBufs_eq bs hugeCtx [] b hhuge]
    cases (b :: bs).flatten with
    | nil => simp [endOf, hugeCtx, ChunkedCtx.loop, chunkEnter, maxOffT]
    | cons c cs =>
      have hstop : scanFrom chunkByte (hugeCtx.loop, []) (c :: cs) = .stopped .invalid (c :: cs) :=
        scanFrom_stop (chunkByte_huge c) cs
      rw [hstop]
      simp [endOf]

end Hengine
