import Hengine.Http2.HuffmanExact
import Hengine.Http2.IntCodec

/-!
# Strings of a header block

The model of `ngx_http_v2_string_encode` in `ngx_http_v2_encode.c`, and of the handlers
`ngx_http_v2_state_field_len`, `ngx_http_v2_state_field_huff` and `ngx_http_v2_state_field_raw` in
`ngx_http_v2.c`, for a block whose last frame this is and a string that is not skipped.

A handler is called with what has come in. What it does not use is kept, at most
`NGX_HTTP_V2_STATE_BUFFER_SIZE` bytes of it, and stands before what comes in next.
-/

namespace Hengine.HpackString

open List HpackInt

/-- `ngx_http_v2_string_encode`; `NGX_HTTP_V2_ENCODE_HUFF` is `0x80`. -/
def stringEncode (src : List UInt8) (lower : Bool) : List UInt8 :=
  let tmp := huffEncode src lower
  if 0 < tmp.length then
    let (flags, dst) := writeInt 0x80 (prefixOf 7) tmp.length
    flags :: (dst ++ tmp)
  else
    let (flags, dst) := writeInt 0 (prefixOf 7) src.length
    flags :: (dst ++ if lower then src.map tolower else src)

/-- The fields of `h2c->state` that concern a string: `length`, `field_rest`, `field_state` and the bytes
from `field_start` to `field_end`; and which of the two handlers is called. -/
structure Field where
  length : ℕ
  rest : ℕ
  huff : Bool
  state : ℕ
  out : List UInt8
  deriving DecidableEq

/-- The handler that is called next, and what is kept for it. -/
inductive Handler
  | len (length : ℕ) (buffer : List UInt8)
  | body (f : Field)
  deriving DecidableEq

/-- What a handler does: it ends the connection, waits for more, or passes the string on, with what is
left of the block and of the input. -/
inductive Result
  | error
  | save (h : Handler)
  | done (field : List UInt8) (length : ℕ) (pos : List UInt8)
  deriving DecidableEq

/-- `NGX_HTTP_V2_STATE_BUFFER_SIZE` -/
def stateBufferSize : ℕ := 16

/-- `ngx_http_v2_state_field_huff` and `ngx_http_v2_state_field_raw`. -/
def fieldBody (f : Field) (pos : List UInt8) : Result :=
  let size := min (min pos.length f.rest) f.length
  let run : HuffRun :=
    if f.huff then huffDecode f.state f.out (pos.take size) (f.rest - size = 0)
    else ⟨f.state, true, f.out ++ pos.take size, false⟩
  if run.failed then .error
  else if f.rest - size = 0 then .done run.out (f.length - size) (pos.drop size)
  else if f.length - size = 0 then .error
  else .save (.body { f with
    length := f.length - size, rest := f.rest - size, state := run.state, out := run.out })

/-- `ngx_http_v2_state_field_len`; `max` is the size of `large_client_header_buffers`. -/
def fieldLen (max length : ℕ) (pos : List UInt8) : Result :=
  if length < 1 then .error
  else
    match pos with
    | [] => .save (.len length [])
    | first :: rest =>
      match parseInt length first rest (prefixOf 7) with
      | .again =>
        if stateBufferSize < (first :: rest).length then .error else .save (.len length (first :: rest))
      | .declined | .error => .error
      | .ok len used =>
        if max < len then .error
        else
          fieldBody ⟨length - used, len, first >>> 7 = 1, 0, []⟩ ((first :: rest).drop used)

/-- The handler is called with what was kept and what has come in. -/
def Handler.call (max : ℕ) : Handler → List UInt8 → Result
  | .len length buffer, input => fieldLen max length (buffer ++ input)
  | .body f, input => fieldBody f input

/-- The input comes in pieces. Behind the string it is left to the next handler. -/
def read (max : ℕ) : Handler → List (List UInt8) → Result
  | h, [] => .save h
  | h, input :: inputs =>
    match h.call max input with
    | .error => .error
    | .save h' => read max h' inputs
    | .done field length pos => .done field length (pos ++ inputs.flatten)

/-! ### The bytes of the string -/

/-- The bytes behind the length. -/
def payload (src : List UInt8) (lower : Bool) : List UInt8 :=
  if 0 < (huffEncode src lower).length then huffEncode src lower
  else if lower then src.map tolower else src

/-- The flag of the code, in front of the length. -/
def flag (src : List UInt8) (lower : Bool) : UInt8 :=
  if 0 < (huffEncode src lower).length then 0x80 else 0

/-- The length, with the flag in front. -/
def header (src : List UInt8) (lower : Bool) : UInt8 × List UInt8 :=
  writeInt (flag src lower) (prefixOf 7) (payload src lower).length

/-- What is known of the string when its length has come in. -/
def start (length : ℕ) (src : List UInt8) (lower : Bool) : Field :=
  ⟨length - ((header src lower).2.length + 1), (payload src lower).length,
    0 < (huffEncode src lower).length, 0, []⟩

theorem stringEncode_eq (src : List UInt8) (lower : Bool) : stringEncode src lower =
    (header src lower).1 :: ((header src lower).2 ++ payload src lower) := by
  rw [stringEncode, header, flag, payload]
  split_ifs <;> simp

/-- The bytes that are still to come make the string, in whatever pieces. -/
def Field.Reads (f : Field) (rest field : List UInt8) : Prop :=
  if f.huff then ∀ pieces last, pieces.flatten ++ last = rest →
    (huffDecodePieces f.state f.out pieces last).failed = false ∧
      (huffDecodePieces f.state f.out pieces last).out = field
  else f.out ++ rest = field

variable {f : Field} {rest field following : List UInt8} {max length : ℕ}

/-- **All that is to come has come.** -/
theorem fieldBody_done (hrest : f.rest = rest.length) (hlength : rest.length ≤ f.length)
    (h : f.Reads rest field) :
    fieldBody f (rest ++ following) = .done field (f.length - rest.length) following := by
  have hsize : min (min (rest ++ following).length f.rest) f.length = rest.length := by
    rw [length_append]
    omega
  rw [fieldBody, hsize, hrest, Nat.sub_self, take_left, drop_left]
  rw [Field.Reads] at h
  cases hhuff : f.huff with
  | false => simpa [hhuff] using h
  | true =>
    obtain ⟨hfailed, hout⟩ := (if_pos hhuff ▸ h) [] rest rfl
    rw [huffDecodePieces] at hfailed hout
    simp [hfailed, hout]

/-- **Something is still to come.** -/
theorem fieldBody_save {pos : List UInt8} (hne : rest ≠ []) (hrest : f.rest = (pos ++ rest).length)
    (hlength : (pos ++ rest).length ≤ f.length) (h : f.Reads (pos ++ rest) field) :
    ∃ f', fieldBody f pos = .save (.body f') ∧ f'.rest = rest.length ∧
      f'.length = f.length - pos.length ∧ f'.Reads rest field := by
  have hpos := length_pos_of_ne_nil hne
  rw [length_append] at hrest hlength
  have hsize : min (min pos.length f.rest) f.length = pos.length := by omega
  have hmore : f.rest - pos.length ≠ 0 := by omega
  have hleft : f.length - pos.length ≠ 0 := by omega
  rw [fieldBody, hsize, take_length, decide_eq_false hmore]
  rw [Field.Reads] at h
  cases hhuff : f.huff with
  | false =>
    refine ⟨_, by simp [hmore, hleft]; rfl, by dsimp only; omega, rfl, ?_⟩
    simpa [Field.Reads, hhuff] using h
  | true =>
    have hpieces := if_pos hhuff ▸ h
    have hfailed : (huffDecode f.state f.out pos false).failed = false := by
      have hone := (hpieces [pos] rest (by simp)).1
      rw [huffDecodePieces] at hone
      by_contra hfail
      rw [if_pos (by simpa using hfail)] at hone
      exact hfail hone
    refine ⟨_, by simp [hfailed, hmore, hleft]; rfl, by dsimp only; omega, rfl, ?_⟩
    rw [Field.Reads, if_pos rfl]
    intro pieces last hlast
    have hall := hpieces (pos :: pieces) last (by simp [← hlast])
    rw [huffDecodePieces, hfailed, if_neg Bool.false_ne_true] at hall
    exact hall

theorem read_save {h h' : Handler} {input : List UInt8} (hcall : h.call max input = .save h')
    (inputs : List (List UInt8)) : read max h (input :: inputs) = read max h' inputs := by
  rw [read, hcall]

/-- What stands behind a field is left. -/
theorem read_done {h : Handler} {input pos : List UInt8}
    (hcall : h.call max input = .done field length pos) (inputs : List (List UInt8)) :
    read max h (input :: inputs) = .done field length (pos ++ inputs.flatten) := by
  rw [read, hcall]

/-- **The bytes of a string** are read, however they come in. -/
theorem read_body : ∀ (inputs : List (List UInt8)) {f : Field} {rest : List UInt8}, rest ≠ [] →
    f.rest = rest.length → rest.length ≤ f.length → f.Reads rest field →
    inputs.flatten = rest ++ following →
    read max (.body f) inputs = .done field (f.length - rest.length) following := by
  intro inputs
  induction inputs with
  | nil =>
    intro f rest hne _ _ _ hinputs
    exact absurd (append_eq_nil_iff.1 hinputs.symm).1 hne
  | cons input inputs ih =>
    intro f rest hne hrest hlength h hinputs
    rw [flatten_cons] at hinputs
    obtain ⟨later, rfl, hlater⟩ | ⟨pos, rfl, rfl⟩ := append_eq_append_iff.1 hinputs
    · cases later with
      | nil =>
        rw [append_nil] at hrest hlength h ⊢
        have hdone : fieldBody f (input ++ []) = .done field _ [] := fieldBody_done hrest hlength h
        rw [append_nil] at hdone
        rw [read_done (h := .body f) hdone, nil_append, hlater, nil_append]
      | cons c later =>
        obtain ⟨f', hsave, hrest', hlength', h'⟩ := fieldBody_save (cons_ne_nil c later) hrest hlength h
        rw [length_append] at hlength ⊢
        rw [read_save (h := .body f) hsave, ih (cons_ne_nil c later) hrest' (by omega) h' hlater,
          hlength', Nat.sub_sub]
    · exact read_done (h := .body f) (fieldBody_done hrest hlength h) inputs

/-! ### The length in front -/

variable {src : List UInt8} {lower : Bool}

/-- The first bit says whether the string is Huffman coded. -/
theorem header_flag (src : List UInt8) (lower : Bool) :
    ((header src lower).1 >>> 7 = 1) = (0 < (huffEncode src lower).length) := by
  have hor : ∀ n < 128, (0x80 ||| UInt8.ofNat n) >>> 7 = 1 ∧ (0 ||| UInt8.ofNat n) >>> 7 ≠ 1 := by
    decide
  have hfirst : ∃ n < 128, (header src lower).1 = flag src lower ||| .ofNat n := by
    rw [header, writeInt]
    split_ifs with hsmall
    · exact ⟨_, hsmall.trans (by decide), rfl⟩
    · exact ⟨_, by decide, rfl⟩
  obtain ⟨n, hn, hfirst⟩ := hfirst
  rw [hfirst, flag, eq_iff_iff]
  split_ifs with hcode
  · exact iff_of_true (hor n hn).1 hcode
  · exact iff_of_false (hor n hn).2 hcode

/-- The length is read back. -/
theorem parseInt_header (hfits : (payload src lower).length < 127 + 2 ^ 21)
    (hlength : (header src lower).2.length + 1 ≤ length) (rest : List UInt8) :
    parseInt length (header src lower).1 ((header src lower).2 ++ rest) (prefixOf 7) =
      .ok (payload src lower).length ((header src lower).2.length + 1) := by
  refine parseInt_writeInt (by decide) hfits ?_ rest hlength
  rw [flag]
  split_ifs <;> decide

/-- **The length** is read by the state machine, if it fits. -/
theorem fieldLen_header (hmax : (payload src lower).length ≤ max)
    (hfits : (payload src lower).length < 127 + 2 ^ 21)
    (hlength : (stringEncode src lower).length ≤ length) (pos : List UInt8) :
    fieldLen max length ((header src lower).1 :: ((header src lower).2 ++ pos)) =
      fieldBody (start length src lower) pos := by
  rw [stringEncode_eq, length_cons, length_append] at hlength
  rw [fieldLen, if_neg (by omega), parseInt_header hfits (by omega) pos]
  dsimp only
  rw [if_neg (by omega), drop_succ_cons, drop_left]
  simp only [header_flag, start]

/-- Something of the length is still to come. -/
theorem fieldLen_again (hfits : (payload src lower).length < 127 + 2 ^ 21)
    (hlength : (stringEncode src lower).length ≤ length) {pos later : List UInt8}
    (hne : later ≠ []) (h : (header src lower).1 :: (header src lower).2 = pos ++ later) :
    fieldLen max length pos = .save (.len length pos) := by
  rw [stringEncode_eq, length_cons, length_append] at hlength
  cases pos with
  | nil => rw [fieldLen, if_neg (by omega)]
  | cons first rest =>
    obtain ⟨rfl, hrest⟩ : (header src lower).1 = first ∧ (header src lower).2 = rest ++ later :=
      cons.inj h
    have hpos := length_pos_of_ne_nil hne
    have hwhole : parseInt length _ _ _ = _ := parseInt_header hfits (by omega) []
    rw [append_nil] at hwhole
    have hsays := parseInt_says (show prefixOf 7 < 256 by decide) length (header src lower).1 rest
    have hagain : parseInt length (header src lower).1 rest (prefixOf 7) = .again := by
      by_contra hno
      have happend := parseInt_append (by decide) hno later
      rw [← hrest, hwhole] at happend
      rw [← happend] at hsays
      have hused := hsays.2.1
      rw [hrest, length_append] at hused
      omega
    rw [hagain] at hsays
    have hshort : ((header src lower).1 :: rest).length < intOctets := hsays.2.1
    rw [fieldLen, if_neg (by omega), hagain]
    exact if_neg (Nat.not_lt.2 (hshort.le.trans (by decide)))

/-- **The bytes of a string** are read back in any pieces. -/
theorem reads_payload (length : ℕ) : (start length src lower).Reads (payload src lower)
    (if lower then src.map tolower else src) := by
  rw [Field.Reads, start, payload]
  by_cases hcode : 0 < (huffEncode src lower).length
  · rw [if_pos hcode, if_pos (decide_eq_true hcode)]
    intro pieces last hpieces
    obtain ⟨-, k, hk, hbits⟩ := huffEncode_bits src lower (ne_nil_of_length_pos hcode)
    refine huffDecodePieces_text hk (show 0 < 256 by decide) ?_
    rw [stateBits_zero, hpieces, nil_append, hbits]
    rfl
  · rw [if_neg hcode, if_neg (by simp [hcode]), nil_append]

/-- Once the length has come in, the bytes are read. -/
theorem read_header (hmax : (payload src lower).length ≤ max)
    (hfits : (payload src lower).length < 127 + 2 ^ 21)
    (hlength : (stringEncode src lower).length ≤ length) {buffer input pos : List UInt8}
    {inputs : List (List UInt8)}
    (hbuffer : buffer ++ input = (header src lower).1 :: (header src lower).2 ++ pos)
    (hpos : pos ++ inputs.flatten = payload src lower ++ following) :
    read max (.len length buffer) (input :: inputs) = .done (if lower then src.map tolower else src)
      (length - (stringEncode src lower).length) following := by
  have hcall : (Handler.len length buffer).call max input = fieldBody (start length src lower) pos := by
    rw [Handler.call, hbuffer]
    exact fieldLen_header hmax hfits hlength pos
  have hreads : (start length src lower).Reads _ _ := reads_payload length
  rw [stringEncode_eq, length_cons, length_append] at hlength ⊢
  have hrest : (start length src lower).rest = (payload src lower).length := rfl
  have hleft : (start length src lower).length = length - ((header src lower).2.length + 1) := rfl
  have hused : length - ((header src lower).2.length + (payload src lower).length + 1) =
    (start length src lower).length - (payload src lower).length := by omega
  rw [hused]
  by_cases hempty : payload src lower = []
  · rw [hempty] at hreads hrest hpos ⊢
    have hbody : fieldBody (start length src lower) ([] ++ pos) = _ :=
      fieldBody_done hrest (Nat.zero_le _) hreads
    rw [read_done (hcall.trans hbody), hpos]
    rfl
  · have hbody : read max (.body (start length src lower)) (pos :: inputs) = _ :=
      read_body (pos :: inputs) hempty hrest (by omega) hreads hpos
    rw [read, Handler.call] at hbody
    rw [read, hcall, hbody]

/-- **The whole string** is read, and nothing behind it. -/
theorem read_len (hmax : (payload src lower).length ≤ max)
    (hfits : (payload src lower).length < 127 + 2 ^ 21)
    (hlength : (stringEncode src lower).length ≤ length) :
    ∀ (inputs : List (List UInt8)) (buffer : List UInt8),
      (∃ later, later ≠ [] ∧ (header src lower).1 :: (header src lower).2 = buffer ++ later) →
      buffer ++ inputs.flatten = stringEncode src lower ++ following →
      read max (.len length buffer) inputs = .done (if lower then src.map tolower else src)
        (length - (stringEncode src lower).length) following := by
  intro inputs
  induction inputs with
  | nil =>
    rintro buffer ⟨later, hne, hheader⟩ hinputs
    rw [stringEncode_eq, ← cons_append, hheader, flatten_nil, append_assoc, append_assoc] at hinputs
    exact absurd (append_eq_nil_iff.1 (append_cancel_left hinputs).symm).1 hne
  | cons input inputs ih =>
    rintro buffer - hinputs
    rw [flatten_cons, ← append_assoc, stringEncode_eq, ← cons_append,
      append_assoc _ _ following] at hinputs
    obtain ⟨later, hheader, hlater⟩ | ⟨pos, hbuffer, hpos⟩ := append_eq_append_iff.1 hinputs
    · cases later with
      | nil =>
        rw [append_nil] at hheader
        have hbuffer : buffer ++ input = (header src lower).1 :: (header src lower).2 ++ [] := by
          rw [append_nil, hheader]
        refine read_header hmax hfits hlength hbuffer ?_
        rw [nil_append, hlater, nil_append]
      | cons c later =>
        have hcall : (Handler.len length buffer).call max input = .save (.len length (buffer ++ input)) :=
          fieldLen_again hfits hlength (cons_ne_nil c later) hheader
        rw [read_save hcall]
        refine ih _ ⟨_, cons_ne_nil c later, hheader⟩ ?_
        rw [hlater, stringEncode_eq, ← cons_append, hheader]
        simp only [append_assoc]
    · exact read_header hmax hfits hlength hbuffer hpos.symm

/-- **Strings of a header block.** A string that is written, in lower case if that was asked for, is read
back, however the input comes in: the string is passed on, with what stood behind it, and as many
bytes of the block are used as were written. This is so if the block has as many, the bytes fit in
the buffer of the reader, and their number in four octets. -/
theorem string_round_trip (src : List UInt8) (lower : Bool) (inputs : List (List UInt8))
    (hinputs : inputs.flatten = stringEncode src lower ++ following)
    (hlength : (stringEncode src lower).length ≤ length) (hmax : (payload src lower).length ≤ max)
    (hfits : (payload src lower).length < 127 + 2 ^ 21) :
    read max (.len length []) inputs = .done (if lower then src.map tolower else src)
      (length - (stringEncode src lower).length) following :=
  read_len hmax hfits hlength inputs [] ⟨_, cons_ne_nil _ _, rfl⟩ hinputs

/-- A name in capital letters, cut in its length. -/
theorem string_round_trip_name :
    read 64 (.len 20 []) [(stringEncode (str "WWW.example.com") true).take 1,
        (stringEncode (str "WWW.example.com") true).drop 1 ++ [0x40]] =
      .done (str "www.example.com") (20 - (stringEncode (str "WWW.example.com") true).length) [0x40] := by
  have h : read 64 (.len 20 []) [(stringEncode (str "WWW.example.com") true).take 1,
      (stringEncode (str "WWW.example.com") true).drop 1 ++ [0x40]] = .done _ _ [0x40] :=
    string_round_trip (str "WWW.example.com") true _ (by decide) (by decide) (by decide) (by decide)
  rw [h]
  decide

end Hengine.HpackString
