import Hengine.Http.ChunkedExact
import Hengine.Http.ChunkedFilter

/-!
# Chunked Coding: the Round Trip

The chunked body filter and the chunked parser are inverse to each other. The encodings of
the calls of a response are a body on the wire, one chunk for each call that carries data,
with lower case digits, no extension and a `CRLF` at each end of a line; so the parser reads
it back.
-/

namespace Hengine

open List

/-! ### Digits -/

theorem hexVal_hexChar {d : ℕ} (h : d < 16) : hexVal (hexChar d) = some d := by
  have hall : ∀ d < 16, hexVal (hexChar d) = some d := by decide
  exact hall d h

theorem hexFrom_hexChar (m n : ℕ) (acc : List UInt8) :
    hexFrom m (hexChar (n % 16) :: acc) = hexFrom (m * 16 + n % 16) acc := by
  simp [hexFrom, hexVal_hexChar (Nat.mod_lt n (by omega))]

theorem hexFrom_sprintfHex (n : ℕ) (acc : List UInt8) :
    hexFrom 0 (sprintfHex n acc) = hexFrom n acc := by
  fun_induction sprintfHex n acc with
  | case1 n acc h =>
    rw [hexFrom_hexChar]
    congr 1
    omega
  | case2 n acc h ih =>
    rw [ih, hexFrom_hexChar]
    congr 1
    omega

/-- A printed number is made of hexadecimal digits. -/
theorem isDigits_sprintfHex (n : ℕ) {acc : List UInt8} (h : ∀ d ∈ acc, (hexVal d).isSome) :
    IsDigits (sprintfHex n acc) := by
  have hcons : ∀ n, ∀ acc : List UInt8, (∀ d ∈ acc, (hexVal d).isSome) →
      ∀ d ∈ hexChar (n % 16) :: acc, (hexVal d).isSome := by
    intro n acc hacc d hd
    rcases mem_cons.mp hd with rfl | hd
    · rw [hexVal_hexChar (Nat.mod_lt n (by omega))]
      rfl
    · exact hacc d hd
  fun_induction sprintfHex n acc with
  | case1 n acc h0 => exact ⟨by simp, hcons n acc h⟩
  | case2 n acc h0 ih => exact ih (hcons n acc h)

/-! ### Reading it back -/

/-- The calls of a response: only the last buffer of the last call is the last of the
response. -/
def LastCall (calls : List (List OutBuf)) : Prop :=
  ∃ before chain b, calls = before ++ [chain ++ [b]] ∧ b.lastBuf = true ∧
    (∀ c ∈ before, ∀ x ∈ c, x.lastBuf = false) ∧ ∀ x ∈ chain, x.lastBuf = false

/-- The body of a response. -/
def callsBody (calls : List (List OutBuf)) : List UInt8 := (calls.map chainBytes).flatten

/-- The chunk of a call that carries data. -/
def dataChunk (data : List UInt8) (h : data ≠ []) : WireChunk where
  digits := sprintfHex data.length []
  ext := []
  sizeCrlf := true
  data := data
  dataCrlf := true
  isDigits := isDigits_sprintfHex _ (forall_mem_nil _)
  isExtension := isExtension_nil
  nonempty := h
  size_eq := hexFrom_sprintfHex _ _

/-- The chunks of the calls. -/
@[grind =]
def dataChunks : List (List UInt8) → List WireChunk
  | [] => []
  | data :: rest => if h : data = [] then dataChunks rest else dataChunk data h :: dataChunks rest

/-- Trailers that do not break their lines. -/
def TrailersInLine (trailers : List TrailerElt) : Prop :=
  ∀ t ∈ trailers, InLine t.key ∧ InLine t.value

/-- A trailer on the wire. -/
def wireTrailer (t : TrailerElt) (hkey : InLine t.key) (hvalue : InLine t.value) : WireTrailer where
  line := t.line
  crlf := true
  nonempty := by simp [TrailerElt.line]
  inLine := by
    intro c hc
    rw [TrailerElt.line, mem_append, mem_cons, mem_cons] at hc
    rcases hc with hc | rfl | rfl | hc
    · exact hkey c hc
    · decide
    · decide
    · exact hvalue c hc

/-- The body on the wire. -/
def wireBody (trailers : List TrailerElt) (h : TrailersInLine trailers)
    (datas : List (List UInt8)) : WireBody where
  chunks := dataChunks datas
  lastDigits := [byte '0']
  lastExt := []
  lastCrlf := true
  trailers := (sentTrailers trailers).attach.map fun t =>
    wireTrailer t.1 (h t.1 (mem_of_mem_filter t.2)).1 (h t.1 (mem_of_mem_filter t.2)).2
  endCrlf := true
  isDigits := isDigits_zero
  last_eq := rfl
  isExtension := isExtension_nil

/-- The chunks of data carry the data. -/
theorem dataChunks_data (datas : List (List UInt8)) :
    ((dataChunks datas).map WireChunk.data).flatten = datas.flatten := by
  induction datas with
  | nil => rfl
  | cons data rest ih =>
    rw [dataChunks, flatten_cons]
    split
    · rename_i h0
      rw [ih, h0, nil_append]
    · rw [map_cons, flatten_cons, ih]
      rfl

/-- A chunk carries one of the pieces. -/
theorem mem_dataChunks {datas : List (List UInt8)} {c : WireChunk} (h : c ∈ dataChunks datas) :
    c.data ∈ datas := by
  induction datas with
  | nil => cases h
  | cons data rest ih =>
    rw [dataChunks] at h
    split at h
    · exact mem_cons_of_mem _ (ih h)
    · rcases mem_cons.mp h with rfl | h
      · exact mem_cons_self
      · exact mem_cons_of_mem _ (ih h)

/-- A part of the data is a chunk, unless it is empty. -/
theorem dataChunks_bytes (data : List UInt8) (rest : List (List UInt8)) :
    ((dataChunks (data :: rest)).map WireChunk.bytes).flatten
      = (if data = [] then [] else sizeLine data.length ++ data ++ [cr, lf])
        ++ ((dataChunks rest).map WireChunk.bytes).flatten := by
  rw [dataChunks]
  by_cases h0 : data = []
  · rw [dif_pos h0, if_pos h0, nil_append]
  · rw [dif_neg h0, if_neg h0, map_cons, flatten_cons]
    simp [WireChunk.bytes, dataChunk, sizeLine, eol]

/-- The trailers stand behind the last chunk. -/
theorem wireBody_tail (trailers : List TrailerElt) (h : TrailersInLine trailers)
    (datas : List (List UInt8)) :
    (wireBody trailers h datas).tail = (createTrailers trailers).drop 2 := by
  have hlines : ((wireBody trailers h datas).trailers.map WireTrailer.bytes)
      = (sentTrailers trailers).map fun t => t.line ++ [cr, lf] := by
    rw [wireBody, map_map]
    conv_rhs => rw [← attach_map_subtype_val (sentTrailers trailers), map_map]
    rfl
  rw [WireBody.tail, hlines, createTrailers_eq]
  rfl

theorem chainLast_before {chain : List OutBuf} (h : ∀ x ∈ chain, x.lastBuf = false) :
    chainLast chain = false := by
  rw [chainLast]
  cases hl : chain.getLast? with
  | none => rfl
  | some b => exact h b (mem_of_getLast? hl)

theorem chainLast_concat (chain : List OutBuf) (b : OutBuf) :
    chainLast (chain ++ [b]) = b.lastBuf := by
  rw [chainLast, getLast?_concat]
  rfl

/-- **The encodings of the calls of a response are a body on the wire.** The induction is on the
calls before the last. -/
theorem encode_eq_wireBody {trailers : List TrailerElt} (htrailers : TrailersInLine trailers)
    (last : List OutBuf) (hlast : chainLast last = true) (before : List (List OutBuf))
    (hbefore : ∀ c ∈ before, ∀ x ∈ c, x.lastBuf = false) :
    ((before ++ [last]).map (encodeCall trailers)).flatten
      = (wireBody trailers htrailers ((before ++ [last]).map chainBytes)).bytes := by
  rw [WireBody.bytes, wireBody_tail, wireBody]
  induction before with
  | nil =>
    rw [nil_append, map_singleton, map_singleton, dataChunks_bytes,
      flatten_singleton, encodeCall, callBytes, hlast, dataChunks, createTrailers_eq]
    by_cases h0 : chainBytes last = []
    · simp [h0]
    · simp [h0]
  | cons c before ih =>
    rw [cons_append, map_cons, map_cons, dataChunks_bytes, flatten_cons,
      ih fun d hd => hbefore d (by simp [hd]), encodeCall, callBytes,
      chainLast_before (hbefore c (by simp))]
    by_cases h0 : chainBytes c = []
    · simp [h0]
    · simp [h0]

/-- **What the filter writes is read back.** For every run of the filter over the calls of a
response, none of which carries more than the parser's guard lets pass, the output, cut into
buffers in any way, is decoded to the bytes the filter was given, and the parser is done at the
last byte of the output. -/
theorem chunkedFilter_decode (trailers : List TrailerElt) (htrailers : TrailersInLine trailers)
    (events : List FilterEvent) (hlast : LastCall (filterCalls events))
    (hsize : ∀ c ∈ filterCalls events, chainSize c ≤ maxOffT / 16)
    (b : List UInt8) (bs : List (List UInt8))
    (hcut : (b :: bs).flatten = (filterRun trailers freshFilter events).output) :
    chunkedBufs freshChunked [] (b :: bs) = .done (callsBody (filterCalls events)) [] := by
  obtain ⟨before, chain, x, hcalls, hx, hbefore, _⟩ := hlast
  have hlastBuf : chainLast (chain ++ [x]) = true := by rw [chainLast_concat, hx]
  have hwire := encode_eq_wireBody htrailers _ hlastBuf before hbefore
  rw [← hcalls] at hwire
  have hrange : (wireBody trailers htrailers ((filterCalls events).map chainBytes)).InRange := by
    intro c hc
    obtain ⟨call, hcall, hdata⟩ := mem_map.mp (mem_dataChunks hc)
    rw [← hdata, ← chainSize_eq]
    exact hsize call hcall
  have hbody := scan_body (n := 0) [] _ hrange []
  rw [chunkedBufs_eq bs freshChunked [] b ChunkOk.fresh, hcut, filterRun_output, hwire]
  rw [append_nil] at hbody
  refine (congrArg endOf hbody).trans ?_
  rw [nil_append, WireBody.body, wireBody, dataChunks_data]
  rfl

/-- A response in three calls: data that is sent late, a flush, and the last buffer with a trailer. -/
def lateEvents : List FilterEvent :=
  [.call [{ mem := some [1, 2] }, { file := some [3] }] 1, .send 3,
    .call [{ flush := true }] 4, .call [{ sync := true, mem := some [] }] 0,
    .call [{ mem := some [4] }, { lastBuf := true }] 2]

/-- Its trailer. -/
def lateTrailers : List TrailerElt := [⟨1, [byte 'k'], [byte 'v']⟩]

/-- It is read back. -/
theorem chunkedFilter_decode_late :
    chunkedBufs freshChunked [] [(filterRun lateTrailers freshFilter lateEvents).output]
      = .done [1, 2, 3, 4] [] := by
  refine chunkedFilter_decode lateTrailers ?_ lateEvents ?_ ?_ _ [] (by simp)
  · simp only [TrailersInLine, lateTrailers, forall_mem_singleton, InLine]
    decide
  · refine ⟨(filterCalls lateEvents).dropLast, [{ mem := some [4] }], { lastBuf := true }, rfl,
      rfl, ?_, ?_⟩
    · decide
    · decide
  · decide

/-- One call with a file of 2 ^ 59 bytes, the last of the response. -/
noncomputable def hugeCall : List OutBuf := [{ file := some hugeData, lastBuf := true }]

/-- **A call beyond the guard is not read back.** A call with a file of 2 ^ 59 bytes is written as
one chunk, and the parser refuses the size of it. -/
theorem chunkedFilter_huge :
    LastCall (filterCalls [.call hugeCall 0]) ∧ TrailersInLine [] ∧
      chunkedBufs freshChunked [] [(filterRun [] freshFilter [.call hugeCall 0]).output]
        = .error := by
  have htrailers : TrailersInLine [] := by simp [TrailersInLine]
  refine ⟨⟨[], [], _, rfl, rfl, by simp, by simp⟩, htrailers, ?_⟩
  have hwire := encode_eq_wireBody htrailers hugeCall rfl [] (by simp)
  rw [nil_append] at hwire
  have hbytes : chainBytes hugeCall = hugeData := by
    simp [chainBytes, hugeCall, OutBuf.bytes]
  have hne : hugeData ≠ [] := by
    intro h
    have hlen := hugeData_length
    rw [h, length_nil] at hlen
    omega
  have hrange : ¬ (wireBody [] htrailers ([hugeCall].map chainBytes)).InRange := by
    intro h
    have hle := h (dataChunk hugeData hne) (by
      simp only [wireBody, map_singleton, hbytes, dataChunks, dif_neg hne]
      exact mem_singleton_self _)
    have : hugeData.length ≤ maxOffT / 16 := hle
    rw [hugeData_length, maxOffT] at this
    omega
  obtain ⟨rest, hscan⟩ := scan_body_beyond (n := 0) [] _ hrange
  rw [chunkedBufs_eq [] freshChunked [] _ ChunkOk.fresh, flatten_singleton, filterRun_output,
    filterCalls]
  exact congrArg endOf ((congrArg _ hwire).trans hscan)

end Hengine
