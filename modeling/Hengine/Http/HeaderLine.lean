import Hengine.Lib.Scan
import Hengine.Http.Bytes

/-!
# The Header Line Parser

`ngx_http_parse_header_line` of `ngx_http_parse.c`. Its loop has three local variables
that outlive a byte: `state`, the running `hash` and the index `i` into the lower-cased
copy of the name. They are loaded from the request on entry and stored in it at
`NGX_AGAIN`; at the end of a header line `hash` and `i` are stored too, at the end of the
header and on an error they are not.
-/

namespace Hengine

open List

/-- The states of `ngx_http_parse_header_line`. -/
inductive HeaderState
  | swStart | swName | swSpaceBeforeValue | swValue | swSpaceAfterValue | swIgnoreLine
  | swAlmostDone | swHeaderAlmostDone
deriving Repr, DecidableEq

/-- `NGX_HTTP_LC_HEADER_LEN`. -/
def lcHeaderLen : ℕ := 32

/-- What the header line parser reads and records in the request; `upstream` is whether
`r->upstream` is set. -/
structure HeaderFields where
  upstream : Bool := false
  headerNameStart : Option ℕ := none
  headerNameEnd : Option ℕ := none
  headerStart : Option ℕ := none
  headerEnd : Option ℕ := none
  lowcaseHeader : List UInt8 := List.replicate lcHeaderLen 0
  invalidHeader : Bool := false
deriving Repr, DecidableEq

/-- The request: the fields, and what the loop saves in it. -/
structure HeaderRequest extends HeaderFields where
  state : HeaderState := .swStart
  headerHash : UInt64 := 0
  lowcaseIndex : ℕ := 0
deriving Repr, DecidableEq

/-- The loop: the fields of `r`, and the locals `state`, `hash` and `i`. -/
structure HeaderLoop where
  fields : HeaderFields
  state : HeaderState
  hash : UInt64
  i : ℕ
deriving Repr, DecidableEq

/-- How the loop is left: `return NGX_HTTP_PARSE_INVALID_HEADER`, `goto done` or
`goto header_done`. -/
inductive HeaderExit
  | invalid (fields : HeaderFields)
  | done (fields : HeaderFields) (hash : UInt64) (i : ℕ)
  | headerDone (fields : HeaderFields)
deriving Repr, DecidableEq

/-! ### Names -/

/-- The lower-case letters. -/
def alphabet : List UInt8 := (List.range 26).map fun n => byte 'a' + n.toUInt8

/-- The digits. -/
def digits : List UInt8 := (List.range 10).map fun n => byte '0' + n.toUInt8

/-- The table `lowcase[]`: the lower case of a byte that may stand in a name, else 0. -/
def lowcaseTable : List UInt8 :=
  List.replicate 32 0
    ++ (List.replicate 13 0 ++ [byte '-', 0, 0] ++ digits ++ List.replicate 6 0)
    ++ ([0] ++ alphabet ++ List.replicate 5 0)
    ++ ([0] ++ alphabet ++ List.replicate 5 0)
    ++ List.replicate 128 0

/-- `lowcase[ch]`. -/
def lowcase (ch : UInt8) : UInt8 := lowcaseTable.getD ch.toNat 0

/-- `ngx_hash(key, c)`, in a 64-bit `ngx_uint_t`. -/
def ngxHash (key : UInt64) (c : UInt8) : UInt64 := key * 31 + c.toUInt64

/-- `r->lowcase_header[i++] = c; i &= (NGX_HTTP_LC_HEADER_LEN - 1)` and the hash. -/
def pushName (s : HeaderLoop) (c : UInt8) : HeaderLoop :=
  { s with hash := ngxHash s.hash c,
           fields := { s.fields with lowcaseHeader := s.fields.lowcaseHeader.set s.i c },
           i := (s.i + 1) &&& (lcHeaderLen - 1) }

/-- The first byte of a name: `hash = ngx_hash(0, c); r->lowcase_header[0] = c; i = 1`. -/
def firstName (s : HeaderLoop) (c : UInt8) : HeaderLoop :=
  { s with hash := ngxHash 0 c,
           fields := { s.fields with lowcaseHeader := s.fields.lowcaseHeader.set 0 c },
           i := 1 }

/-- `r->invalid_header = 1`. -/
def markInvalid (s : HeaderLoop) : HeaderLoop :=
  { s with fields := { s.fields with invalidHeader := true } }

/-! ### The states -/

/-- `default:` of `sw_start`, the first byte of a name. -/
def startName (allowUnderscores : Bool) (p : ℕ) (s : HeaderLoop) (ch : UInt8) :
    Verdict HeaderLoop HeaderExit :=
  let s := { s with state := .swName }
  let c := lowcase ch
  if c ≠ 0 then .more (firstName s c)
  else if ch = byte '_' then
    if allowUnderscores then .more (firstName s ch)
    else .more (markInvalid { s with hash := 0, i := 0 })
  else if ch ≤ 0x20 ∨ ch = 0x7f ∨ ch = byte ':' then
    .stop (.invalid { s.fields with headerEnd := some p })
  else .more (markInvalid { s with hash := 0, i := 0 })

/-- `sw_start`. -/
def headerStart (allowUnderscores : Bool) (p : ℕ) (s : HeaderLoop) (ch : UInt8) :
    Verdict HeaderLoop HeaderExit :=
  let s := { s with fields := { s.fields with headerNameStart := some p, invalidHeader := false } }
  if ch = cr then
    .more { s with fields := { s.fields with headerEnd := some p }, state := .swHeaderAlmostDone }
  else if ch = lf then .stop (.headerDone { s.fields with headerEnd := some p })
  else startName allowUnderscores p s ch

/-- An empty value that ends at `p`. -/
def emptyValue (p : ℕ) (f : HeaderFields) : HeaderFields :=
  { f with headerStart := some p, headerEnd := some p }

/-- `sw_name`; `seen` is the memory before the byte. -/
def headerName (allowUnderscores : Bool) (seen : List UInt8) (s : HeaderLoop) (ch : UInt8) :
    Verdict HeaderLoop HeaderExit :=
  let p := seen.length
  let c := lowcase ch
  if c ≠ 0 then .more (pushName s c)
  else if ch = byte '_' then
    if allowUnderscores then .more (pushName s ch) else .more (markInvalid s)
  else if ch = byte ':' then
    .more { s with fields := { s.fields with headerNameEnd := some p },
                   state := .swSpaceBeforeValue }
  else if ch = cr then
    .more { s with fields := emptyValue p { s.fields with headerNameEnd := some p },
                   state := .swAlmostDone }
  else if ch = lf then
    .stop (.done (emptyValue p { s.fields with headerNameEnd := some p }) s.hash s.i)
  -- IIS may send the duplicate "HTTP/1.1 ..." lines
  else if ch = byte '/' ∧ s.fields.upstream
      ∧ seen.drop (s.fields.headerNameStart.getD 0) = ['H', 'T', 'T', 'P'].map byte then
    .more { s with state := .swIgnoreLine }
  else if ch ≤ 0x20 ∨ ch = 0x7f then .stop (.invalid { s.fields with headerEnd := some p })
  else .more (markInvalid s)

/-- `sw_space_before_value`. -/
def spaceBeforeValue (p : ℕ) (s : HeaderLoop) (ch : UInt8) : Verdict HeaderLoop HeaderExit :=
  if ch = byte ' ' then .more s
  else if ch = cr then .more { s with fields := emptyValue p s.fields, state := .swAlmostDone }
  else if ch = lf then .stop (.done (emptyValue p s.fields) s.hash s.i)
  else if ch = 0 then .stop (.invalid { s.fields with headerEnd := some p })
  else .more { s with fields := { s.fields with headerStart := some p }, state := .swValue }

/-- `sw_value`. -/
def headerValue (p : ℕ) (s : HeaderLoop) (ch : UInt8) : Verdict HeaderLoop HeaderExit :=
  let ended := { s.fields with headerEnd := some p }
  if ch = byte ' ' then .more { s with fields := ended, state := .swSpaceAfterValue }
  else if ch = cr then .more { s with fields := ended, state := .swAlmostDone }
  else if ch = lf then .stop (.done ended s.hash s.i)
  else if ch = 0 then .stop (.invalid ended)
  else .more s

/-- `sw_space_after_value`. -/
def spaceAfterValue (p : ℕ) (s : HeaderLoop) (ch : UInt8) : Verdict HeaderLoop HeaderExit :=
  if ch = byte ' ' then .more s
  else if ch = cr then .more { s with state := .swAlmostDone }
  else if ch = lf then .stop (.done s.fields s.hash s.i)
  else if ch = 0 then .stop (.invalid { s.fields with headerEnd := some p })
  else .more { s with state := .swValue }

/-- `sw_almost_done`. -/
def headerAlmostDone (s : HeaderLoop) (ch : UInt8) : Verdict HeaderLoop HeaderExit :=
  if ch = lf then .stop (.done s.fields s.hash s.i)
  else if ch = cr then .more s
  else .stop (.invalid s.fields)

/-- `switch (state)`: what the byte `ch` at `p = seen.length` does. -/
def headerStep (allowUnderscores : Bool) (seen : List UInt8) (s : HeaderLoop) (ch : UInt8) :
    Verdict HeaderLoop HeaderExit :=
  match s.state with
  | .swStart => headerStart allowUnderscores seen.length s ch
  | .swName => headerName allowUnderscores seen s ch
  | .swSpaceBeforeValue => spaceBeforeValue seen.length s ch
  | .swValue => headerValue seen.length s ch
  | .swSpaceAfterValue => spaceAfterValue seen.length s ch
  | .swIgnoreLine => .more (if ch = lf then { s with state := .swStart } else s)
  | .swAlmostDone => headerAlmostDone s ch
  | .swHeaderAlmostDone =>
    if ch = lf then .stop (.headerDone s.fields) else .stop (.invalid s.fields)

/-- The locals are loaded from the request and saved in it. -/
def headerSaved : HeaderRequest ≃ HeaderLoop where
  toFun r := ⟨r.toHeaderFields, r.state, r.headerHash, r.lowcaseIndex⟩
  invFun s := { s.fields with state := s.state, headerHash := s.hash, lowcaseIndex := s.i }
  left_inv _ := rfl
  right_inv _ := rfl

/-- The parser as a resumable scanner. -/
def headerScanner (allowUnderscores : Bool) :
    Resumable UInt8 HeaderRequest HeaderLoop HeaderExit where
  saved := headerSaved
  step := headerStep allowUnderscores

/-- `ngx_http_parse_header_line`. -/
def parseHeaderLine (allowUnderscores : Bool) (r : HeaderRequest) (b : Buf) :
    ParseCode × HeaderRequest × Buf :=
  match (headerScanner allowUnderscores).call r b.before b.rest with
  | .again r' => (.again, r', b.drain)
  | .stopped (.invalid fields) _ => (.invalidHeader, { r with toHeaderFields := fields }, b)
  | .stopped (.done fields hash i) rest =>
    (.ok, { fields with state := .swStart, headerHash := hash, lowcaseIndex := i },
      b.advance (b.rest.length - rest.length + 1))
  | .stopped (.headerDone fields) rest =>
    (.headerDone, { r with toHeaderFields := fields, state := .swStart },
      b.advance (b.rest.length - rest.length + 1))

variable {allowUnderscores : Bool} {r r' : HeaderRequest} {b : Buf}

/-- A header line takes a byte at least. -/
theorem parseHeaderLine_ok_length {r : HeaderRequest}
    (h : (parseHeaderLine allowUnderscores r b).1 = .ok) :
    (parseHeaderLine allowUnderscores r b).2.2.rest.length < b.rest.length := by
  rw [parseHeaderLine] at h ⊢
  split at h
  · cases h
  · cases h
  · rename_i fields hash i rest hcall
    obtain ⟨hpos, hle⟩ := Resumable.call_stopped_length _ hcall
    simp only [Buf.advance, length_drop]
    omega
  · cases h

/-- `ngx_http_process_request_headers` on what is in the buffer: header after header, as
long as the parser returns one. The headers are kept as the request stands when each is
returned. -/
def headerLines (allowUnderscores : Bool) (r : HeaderRequest) (b : Buf) :
    List HeaderRequest × ParseCode × HeaderRequest × Buf :=
  if _h : (parseHeaderLine allowUnderscores r b).1 = .ok then
    let out := parseHeaderLine allowUnderscores r b
    let more := headerLines allowUnderscores out.2.1 out.2.2
    (out.2.1 :: more.1, more.2)
  else ([], parseHeaderLine allowUnderscores r b)
termination_by b.rest.length
decreasing_by exact parseHeaderLine_ok_length _h

/-- `ngx_http_process_request_headers`: parse what is there, and read more as long as the
parser asks for it: `x` is the first read, `xs` are the later ones. -/
@[grind =]
def headerPieces (allowUnderscores : Bool) (r : HeaderRequest) (b : Buf) (x : List UInt8) :
    List (List UInt8) → List HeaderRequest × ParseCode × HeaderRequest × Buf
  | [] => headerLines allowUnderscores r (b.append x)
  | y :: ys =>
    let out := headerLines allowUnderscores r (b.append x)
    if out.2.1 = .again then
      let more := headerPieces allowUnderscores out.2.2.1 out.2.2.2 y ys
      (out.1 ++ more.1, more.2)
    else out

/-! ### Fragmentation independence -/

/-- What the callers see of a run over the headers: the headers, the final code, and the
fields as the last call left them. -/
def observed (out : List HeaderRequest × ParseCode × HeaderRequest × Buf) :
    List HeaderRequest × ParseCode × HeaderFields :=
  (out.1, out.2.1, out.2.2.1.toHeaderFields)

/-- A call that does not ask for more does not look at what follows. -/
theorem parseHeaderLine_append {r : HeaderRequest}
    (h : (parseHeaderLine allowUnderscores r b).1 ≠ .again) (y : List UInt8) :
    parseHeaderLine allowUnderscores r (b.append y)
      = ((parseHeaderLine allowUnderscores r b).1, (parseHeaderLine allowUnderscores r b).2.1,
          (parseHeaderLine allowUnderscores r b).2.2.append y) := by
  have hcut : (b.append y).rest = b.rest ++ y := rfl
  have hbefore : (b.append y).before = b.before := rfl
  cases hcall : (headerScanner allowUnderscores).call r b.before b.rest with
  | again r' =>
    rw [parseHeaderLine, hcall] at h
    exact absurd rfl h
  | stopped e rest =>
    obtain ⟨hpos, hle⟩ := Resumable.call_stopped_length _ hcall
    have hn : (b.rest ++ y).length - (rest ++ y).length + 1
        = b.rest.length - rest.length + 1 := by
      rw [length_append, length_append, Nat.add_sub_add_right]
    have hadv := b.append_advance y (n := b.rest.length - rest.length + 1) (by omega)
    rw [parseHeaderLine, parseHeaderLine, hcut, hbefore, Resumable.call_append, hcall]
    simp only [Scanned.andThen]
    cases e with
    | invalid fields => rfl
    | done fields hash i => simp only [hn, hadv]
    | headerDone fields => simp only [hn, hadv]

/-- A call that ran out of bytes, made again with more of them. -/
theorem parseHeaderLine_resume
    (h : (headerScanner allowUnderscores).call r b.before b.rest = .again r') (y : List UInt8) :
    (parseHeaderLine allowUnderscores r (b.append y)).1
        = (parseHeaderLine allowUnderscores r' (b.drain.append y)).1 ∧
      (parseHeaderLine allowUnderscores r (b.append y)).2.1.toHeaderFields
        = (parseHeaderLine allowUnderscores r' (b.drain.append y)).2.1.toHeaderFields ∧
      ((parseHeaderLine allowUnderscores r (b.append y)).1 = .ok →
        parseHeaderLine allowUnderscores r (b.append y)
          = parseHeaderLine allowUnderscores r' (b.drain.append y)) := by
  have hone : (headerScanner allowUnderscores).call r (b.append y).before (b.append y).rest
      = (headerScanner allowUnderscores).call r' (b.drain.append y).before
          (b.drain.append y).rest := by
    have hcut : (b.append y).rest = b.rest ++ y := rfl
    have hbefore : (b.append y).before = b.before := rfl
    have hcut' : (b.drain.append y).rest = y := by simp [Buf.append, Buf.drain]
    have hbefore' : (b.drain.append y).before = b.before ++ b.rest := rfl
    rw [hcut, hbefore, hcut', hbefore', Resumable.call_append, h]
    rfl
  rw [parseHeaderLine, parseHeaderLine, hone]
  cases hcall : (headerScanner allowUnderscores).call r' (b.drain.append y).before
      (b.drain.append y).rest with
  | again r'' => simp
  | stopped e rest =>
    obtain ⟨hpos, hle⟩ := Resumable.call_stopped_length _ hcall
    cases e with
    | invalid fields => simp
    | headerDone fields => simp
    | done fields hash i =>
      refine ⟨rfl, rfl, ?_⟩
      intro _
      have hn : (b.append y).rest.length - rest.length + 1
          = b.rest.length + ((b.drain.append y).rest.length - rest.length + 1) := by
        simp only [Buf.append, Buf.drain, nil_append, length_append] at hle ⊢
        omega
      simp only [hn, b.drain_append_advance y]

/-- The lines behind a complete one follow it. -/
theorem headerLines_ok {b b' : Buf} (h : parseHeaderLine allowUnderscores r b = (.ok, r', b')) :
    headerLines allowUnderscores r b
      = (r' :: (headerLines allowUnderscores r' b').1, (headerLines allowUnderscores r' b').2) := by
  rw [headerLines]
  simp [h]

theorem headerLines_not_ok {r : HeaderRequest}
    (h : (parseHeaderLine allowUnderscores r b).1 ≠ .ok) :
    headerLines allowUnderscores r b = ([], parseHeaderLine allowUnderscores r b) := by
  rw [headerLines, dif_neg h]

/-- A call that ran out of bytes has saved all it knew: going on with more of them gives
what the run over all of them gives. -/
theorem observed_headerLines_resume
    (h : (headerScanner allowUnderscores).call r b.before b.rest = .again r') (y : List UInt8) :
    observed (headerLines allowUnderscores r (b.append y))
      = observed (headerLines allowUnderscores r' (b.drain.append y)) := by
  obtain ⟨hcode, hfields, heq⟩ := parseHeaderLine_resume h y
  by_cases hok : (parseHeaderLine allowUnderscores r (b.append y)).1 = .ok
  · obtain ⟨r₁, b₁, hone⟩ : ∃ r₁ b₁,
        parseHeaderLine allowUnderscores r (b.append y) = (.ok, r₁, b₁) :=
      ⟨_, _, Prod.ext hok rfl⟩
    have htwo : parseHeaderLine allowUnderscores r' (b.drain.append y) = (.ok, r₁, b₁) := by
      rw [← heq hok, hone]
    rw [headerLines_ok hone, headerLines_ok htwo]
  · have hok' : (parseHeaderLine allowUnderscores r' (b.drain.append y)).1 ≠ .ok := hcode ▸ hok
    rw [headerLines_not_ok hok, headerLines_not_ok hok']
    simp only [observed, hcode, hfields]

/-- The run over a longer buffer, from the run over a part of it. -/
theorem observed_headerLines_append (allowUnderscores : Bool) (y : List UInt8)
    (r : HeaderRequest) (b : Buf) :
    observed (headerLines allowUnderscores r (b.append y))
      = if (headerLines allowUnderscores r b).2.1 = .again then
          let more := observed (headerLines allowUnderscores
            (headerLines allowUnderscores r b).2.2.1
            ((headerLines allowUnderscores r b).2.2.2.append y))
          ((headerLines allowUnderscores r b).1 ++ more.1, more.2)
        else observed (headerLines allowUnderscores r b) := by
  induction r, b using headerLines.induct allowUnderscores with
  | case1 r b hok out ih =>
    have hpart : parseHeaderLine allowUnderscores r b = (.ok, out.2.1, out.2.2) :=
      Prod.ext hok rfl
    have hall : parseHeaderLine allowUnderscores r (b.append y)
        = (.ok, out.2.1, out.2.2.append y) := by
      rw [parseHeaderLine_append (by rw [hok]; simp) y, hok]
    rw [headerLines_ok hpart, headerLines_ok hall]
    simp only [observed] at ih ⊢
    split
    · rename_i hagain
      rw [if_pos hagain] at ih
      simp only [Prod.mk.injEq] at ih ⊢
      obtain ⟨hhs, hcode, hfields⟩ := ih
      exact ⟨by rw [hhs, cons_append], hcode, hfields⟩
    · rename_i hend
      rw [if_neg hend] at ih
      simp only [Prod.mk.injEq] at ih ⊢
      obtain ⟨hhs, hcode, hfields⟩ := ih
      exact ⟨by rw [hhs], hcode, hfields⟩
  | case2 r b hne =>
    rw [headerLines_not_ok hne]
    cases hcall : (headerScanner allowUnderscores).call r b.before b.rest with
    | again r' =>
      have hout : parseHeaderLine allowUnderscores r b = (.again, r', b.drain) := by
        rw [parseHeaderLine, hcall]
      rw [hout, observed_headerLines_resume hcall y]
      simp
    | stopped e rest =>
      have hend : (parseHeaderLine allowUnderscores r b).1 ≠ .again := by
        rw [parseHeaderLine, hcall]
        cases e <;> simp
      have hall := parseHeaderLine_append hend y
      have hne' : (parseHeaderLine allowUnderscores r (b.append y)).1 ≠ .ok := by
        rw [hall]
        exact hne
      rw [headerLines_not_ok hne', if_neg hend, hall]
      rfl

/-- Feeding the pieces one by one gives what one buffer with all of them gives. -/
theorem observed_headerPieces (allowUnderscores : Bool) (xs : List (List UInt8)) :
    ∀ (r : HeaderRequest) (b : Buf) (x : List UInt8),
      observed (headerPieces allowUnderscores r b x xs)
        = observed (headerLines allowUnderscores r (b.append (x ++ xs.flatten))) := by
  induction xs with
  | nil =>
    intro r b x
    simp [headerPieces]
  | cons y ys ih =>
    intro r b x
    rw [headerPieces, flatten_cons, ← Buf.append_append, observed_headerLines_append]
    simp only
    split
    · rename_i hagain
      have hmore := ih (headerLines allowUnderscores r (b.append x)).2.2.1
        (headerLines allowUnderscores r (b.append x)).2.2.2 y
      simp only [observed, Prod.mk.injEq] at hmore ⊢
      obtain ⟨hhs, hcode, hfields⟩ := hmore
      exact ⟨by rw [hhs], hcode, hfields⟩
    · rfl

end Hengine
