import Hengine.Lib.Scan
import Hengine.Http.Bytes

/-!
# The Request Line Parser

`ngx_http_parse_request_line` of `ngx_http_parse.c`. The loop keeps its `state` in a
local variable and everything else in the request; `c`, `ch` and `m` are assigned from
the current byte (or from `r->request_start`) before each use. When the buffer runs out
`b->pos` and `r->state` are written and the call returns `NGX_AGAIN`; on an error neither
is, and at the end of the line both are reset for the next parser.

Pointers are offsets into the header buffer, `none` for `NULL`. The `NGX_WIN32` branches
are left out; `NGX_HTTP_PROXY_CONNECT` is a switch of the build and a parameter here.
-/

namespace Hengine

open List

/-- The bits `NGX_HTTP_GET` … of `r->method`. -/
inductive HttpMethod
  | unknown | get | head | post | put | delete | mkcol | copy | move | options
  | propfind | proppatch | lock | unlock | patch | trace | connect
deriving Repr, DecidableEq

/-- The states of `ngx_http_parse_request_line`. -/
inductive RequestLineState
  | swStart | swMethod
  | swSpacesBeforeConnectHost | swConnectHostStart | swConnectHost | swConnectHostEnd
  | swConnectHostIpLiteral | swConnectPort
  | swSpacesBeforeUri | swSchema | swSchemaSlash | swSchemaSlashSlash
  | swHostStart | swHost | swHostEnd | swHostIpLiteral | swPort
  | swAfterSlashInUri | swCheckUri | swUri
  | swHttp09 | swHttpH | swHttpHT | swHttpHTT | swHttpHTTP
  | swFirstMajorDigit | swMajorDigit | swFirstMinorDigit | swMinorDigit
  | swSpacesAfterDigit | swAlmostDone
deriving Repr, DecidableEq

/-- What the request line parser records in the request. -/
structure RequestLine where
  method : HttpMethod := .unknown
  requestStart : Option ℕ := none
  requestEnd : Option ℕ := none
  methodEnd : Option ℕ := none
  schemaStart : Option ℕ := none
  schemaEnd : Option ℕ := none
  hostStart : Option ℕ := none
  hostEnd : Option ℕ := none
  portEnd : Option ℕ := none
  connectHostStart : Option ℕ := none
  connectHostEnd : Option ℕ := none
  connectPortEnd : Option ℕ := none
  uriStart : Option ℕ := none
  uriEnd : Option ℕ := none
  uriExt : Option ℕ := none
  argsStart : Option ℕ := none
  httpProtocol : Option ℕ := none
  httpMajor : ℕ := 0
  httpMinor : ℕ := 0
  httpVersion : ℕ := 1000
  complexUri : Bool := false
  quotedUri : Bool := false
  plusInUri : Bool := false
  emptyPathInUri : Bool := false
deriving Repr, DecidableEq

/-- The request as the parser finds it: the record, and the saved `r->state`. -/
structure LineRequest extends RequestLine where
  state : RequestLineState := .swStart
deriving Repr, DecidableEq

/-- The two variables the loop works on: the fields of `r`, and its local `state`. -/
structure LineLoop where
  line : RequestLine
  state : RequestLineState
deriving Repr, DecidableEq

/-- The errors returned from inside the loop. -/
inductive LineError
  | invalidMethod | invalidRequest | invalidVersion
deriving Repr, DecidableEq

/-- Their return codes. -/
def LineError.code : LineError → ParseCode
  | invalidMethod => .invalidMethod
  | invalidRequest => .invalidRequest
  | invalidVersion => .invalidVersion

/-- How the loop is left: `return` of an error, or `goto done`. -/
inductive LineExit
  | ret (err : LineError) (line : RequestLine)
  | done (line : RequestLine)
deriving Repr, DecidableEq

/-- The loop goes on in `state`. -/
abbrev goLine (line : RequestLine) (state : RequestLineState) : Verdict LineLoop LineExit :=
  .more ⟨line, state⟩

/-- `return NGX_HTTP_PARSE_INVALID_REQUEST`. -/
abbrev badRequest (line : RequestLine) : Verdict LineLoop LineExit :=
  .stop (.ret .invalidRequest line)

/-! ### The method -/

/-- A method name of the source, as bytes. -/
def methodBytes (s : String) : List UInt8 := s.toList.map byte

/-- `switch (p - m)`: the words compared for each length, and the method each sets. For
four letters the source tests `m[1] == 'O'` first; the words then compared have it. -/
def methodWords : ℕ → List (List UInt8 × HttpMethod)
  | 3 => [(methodBytes "GET", .get), (methodBytes "PUT", .put)]
  | 4 => [(methodBytes "POST", .post), (methodBytes "COPY", .copy), (methodBytes "MOVE", .move),
      (methodBytes "LOCK", .lock), (methodBytes "HEAD", .head)]
  | 5 => [(methodBytes "MKCOL", .mkcol), (methodBytes "PATCH", .patch),
      (methodBytes "TRACE", .trace)]
  | 6 => [(methodBytes "DELETE", .delete), (methodBytes "UNLOCK", .unlock)]
  | 7 => [(methodBytes "OPTIONS", .options), (methodBytes "CONNECT", .connect)]
  | 8 => [(methodBytes "PROPFIND", .propfind)]
  | 9 => [(methodBytes "PROPPATCH", .proppatch)]
  | _ => []

/-- The method the word `m .. p` names, or the one `r->method` has already. -/
def methodOf (word : List UInt8) (old : HttpMethod) : HttpMethod :=
  match (methodWords word.length).find? (fun w => w.1 == word) with
  | some w => w.2
  | none => old

/-- `(ch < 'A' || ch > 'Z') && ch != '_' && ch != '-'`. -/
def notMethodChar (ch : UInt8) : Bool :=
  (ch < byte 'A' || byte 'Z' < ch) && ch != byte '_' && ch != byte '-'

/-- `sw_start`. -/
def lineStart (p : ℕ) (r : RequestLine) (ch : UInt8) : Verdict LineLoop LineExit :=
  let r := { r with requestStart := some p }
  if ch = cr ∨ ch = lf then goLine r .swStart
  else if notMethodChar ch then .stop (.ret .invalidMethod r)
  else goLine r .swMethod

/-- `sw_method`; `seen` is the memory before `p`. -/
def lineMethod (proxyConnect : Bool) (seen : List UInt8) (r : RequestLine) (ch : UInt8) :
    Verdict LineLoop LineExit :=
  if ch = byte ' ' then
    let m := r.requestStart.getD 0
    let r := { r with methodEnd := some (seen.length - 1),
                      method := methodOf (seen.drop m) r.method }
    if proxyConnect ∧ r.method = .connect then goLine r .swSpacesBeforeConnectHost
    else goLine r .swSpacesBeforeUri
  else if notMethodChar ch then .stop (.ret .invalidMethod r)
  else goLine r .swMethod

/-! ### Hosts -/

/-- The characters of an IP literal between the brackets, other than letters, digits,
`:` and `]`. -/
def ipLiteralPunct : List UInt8 :=
  ['-', '.', '_', '~', '!', '$', '&', '\'', '(', ')', '*', '+', ',', ';', '='].map byte

/-- `sw_connect_host_end`. -/
def connectHostEnd (p : ℕ) (r : RequestLine) (ch : UInt8) : Verdict LineLoop LineExit :=
  let r := { r with connectHostEnd := some p }
  if ch = byte ':' then goLine r .swConnectPort else badRequest r

/-- `sw_connect_host`, falling through to `sw_connect_host_end`. -/
def connectHost (p : ℕ) (r : RequestLine) (ch : UInt8) : Verdict LineLoop LineExit :=
  if isAlpha ch then goLine r .swConnectHost
  else if isDigit ch ∨ ch = byte '.' ∨ ch = byte '-' then goLine r .swConnectHost
  else connectHostEnd p r ch

/-- `sw_connect_host_start`, falling through to `sw_connect_host`. -/
def connectHostStart (p : ℕ) (r : RequestLine) (ch : UInt8) : Verdict LineLoop LineExit :=
  let r := { r with connectHostStart := some p }
  if ch = byte '[' then goLine r .swConnectHostIpLiteral else connectHost p r ch

/-- `sw_connect_host_ip_literal` and `sw_host_ip_literal`: the state itself, and the one
after the closing bracket. -/
def ipLiteral (state after : RequestLineState) (r : RequestLine) (ch : UInt8) :
    Verdict LineLoop LineExit :=
  if isDigit ch then goLine r state
  else if isAlpha ch then goLine r state
  else if ch = byte ':' then goLine r state
  else if ch = byte ']' then goLine r after
  else if ch ∈ ipLiteralPunct then goLine r state
  else badRequest r

/-- `sw_connect_port`. -/
def connectPort (p : ℕ) (r : RequestLine) (ch : UInt8) : Verdict LineLoop LineExit :=
  if isDigit ch then goLine r .swConnectPort
  else if ch = byte ' ' then goLine { r with connectPortEnd := some p } .swHttp09
  else badRequest r

/-- "use single `/` from request line to preserve pointers". -/
def singleSlash (r : RequestLine) : RequestLine :=
  { r with uriStart := r.schemaEnd.map (· + 1), uriEnd := r.schemaEnd.map (· + 2) }

/-- `sw_host_end`. -/
def hostEnd (p : ℕ) (r : RequestLine) (ch : UInt8) : Verdict LineLoop LineExit :=
  let r := { r with hostEnd := some p }
  if ch = byte ':' then goLine r .swPort
  else if ch = byte '/' then goLine { r with uriStart := some p } .swAfterSlashInUri
  else if ch = byte '?' then
    goLine { r with uriStart := some p, argsStart := some (p + 1), emptyPathInUri := true } .swUri
  else if ch = byte ' ' then goLine (singleSlash r) .swHttp09
  else badRequest r

/-- `sw_host`, falling through to `sw_host_end`. -/
def host (p : ℕ) (r : RequestLine) (ch : UInt8) : Verdict LineLoop LineExit :=
  if isAlpha ch then goLine r .swHost
  else if isDigit ch ∨ ch = byte '.' ∨ ch = byte '-' then goLine r .swHost
  else hostEnd p r ch

/-- `sw_host_start`, falling through to `sw_host`. -/
def hostStart (p : ℕ) (r : RequestLine) (ch : UInt8) : Verdict LineLoop LineExit :=
  let r := { r with hostStart := some p }
  if ch = byte '[' then goLine r .swHostIpLiteral else host p r ch

/-- `sw_port`. -/
def port (p : ℕ) (r : RequestLine) (ch : UInt8) : Verdict LineLoop LineExit :=
  if isDigit ch then goLine r .swPort
  else if ch = byte '/' then
    goLine { r with portEnd := some p, uriStart := some p } .swAfterSlashInUri
  else if ch = byte '?' then
    goLine { r with portEnd := some p, uriStart := some p, argsStart := some (p + 1),
                    emptyPathInUri := true } .swUri
  else if ch = byte ' ' then goLine (singleSlash { r with portEnd := some p }) .swHttp09
  else badRequest r

/-! ### The URI -/

/-- `sw_spaces_before_uri`. -/
def spacesBeforeUri (p : ℕ) (r : RequestLine) (ch : UInt8) : Verdict LineLoop LineExit :=
  if ch = byte '/' then goLine { r with uriStart := some p } .swAfterSlashInUri
  else if isAlpha ch then goLine { r with schemaStart := some p } .swSchema
  else if ch = byte ' ' then goLine r .swSpacesBeforeUri
  else badRequest r

/-- `sw_schema`. -/
def schema (p : ℕ) (r : RequestLine) (ch : UInt8) : Verdict LineLoop LineExit :=
  if isAlpha ch then goLine r .swSchema
  else if isDigit ch ∨ ch = byte '+' ∨ ch = byte '-' ∨ ch = byte '.' then goLine r .swSchema
  else if ch = byte ':' then goLine { r with schemaEnd := some p } .swSchemaSlash
  else badRequest r

/-- The end of the URI at a space, `CR` or `LF`; any other byte goes to `other`. -/
def uriEndOr (p : ℕ) (r : RequestLine) (ch : UInt8) (other : Verdict LineLoop LineExit) :
    Verdict LineLoop LineExit :=
  if ch = byte ' ' then goLine { r with uriEnd := some p } .swHttp09
  else if ch = cr then goLine { r with uriEnd := some p, httpMinor := 9 } .swAlmostDone
  else if ch = lf then .stop (.done { r with uriEnd := some p, httpMinor := 9 })
  else other

/-- `default:` in the three URI states. -/
def uriDefault (state : RequestLineState) (r : RequestLine) (ch : UInt8) :
    Verdict LineLoop LineExit :=
  if ch < 0x20 ∨ ch = 0x7f then badRequest r else goLine r state

/-- `sw_after_slash_in_uri`. -/
def afterSlashInUri (p : ℕ) (r : RequestLine) (ch : UInt8) : Verdict LineLoop LineExit :=
  if usual ch then goLine r .swCheckUri
  else uriEndOr p r ch <|
    if ch = byte '.' then goLine { r with complexUri := true } .swUri
    else if ch = byte '%' then goLine { r with quotedUri := true } .swUri
    else if ch = byte '/' then goLine { r with complexUri := true } .swUri
    else if ch = byte '?' then goLine { r with argsStart := some (p + 1) } .swUri
    else if ch = byte '#' then goLine { r with complexUri := true } .swUri
    else if ch = byte '+' then goLine { r with plusInUri := true } .swAfterSlashInUri
    else uriDefault .swCheckUri r ch

/-- `sw_check_uri`. -/
def checkUri (p : ℕ) (r : RequestLine) (ch : UInt8) : Verdict LineLoop LineExit :=
  if usual ch then goLine r .swCheckUri
  else if ch = byte '/' then goLine { r with uriExt := none } .swAfterSlashInUri
  else if ch = byte '.' then goLine { r with uriExt := some (p + 1) } .swCheckUri
  else uriEndOr p r ch <|
    if ch = byte '%' then goLine { r with quotedUri := true } .swUri
    else if ch = byte '?' then goLine { r with argsStart := some (p + 1) } .swUri
    else if ch = byte '#' then goLine { r with complexUri := true } .swUri
    else if ch = byte '+' then goLine { r with plusInUri := true } .swCheckUri
    else uriDefault .swCheckUri r ch

/-- `sw_uri`. -/
def uriRest (p : ℕ) (r : RequestLine) (ch : UInt8) : Verdict LineLoop LineExit :=
  if usual ch then goLine r .swUri
  else uriEndOr p r ch <|
    if ch = byte '#' then goLine { r with complexUri := true } .swUri
    else uriDefault .swUri r ch

/-! ### The version -/

/-- `sw_http_09`. -/
def http09 (p : ℕ) (r : RequestLine) (ch : UInt8) : Verdict LineLoop LineExit :=
  if ch = byte ' ' then goLine r .swHttp09
  else if ch = cr then goLine { r with httpMinor := 9 } .swAlmostDone
  else if ch = lf then .stop (.done { r with httpMinor := 9 })
  else if ch = byte 'H' then goLine { r with httpProtocol := some p } .swHttpH
  else badRequest r

/-- The states that expect one character: `sw_schema_slash` … `sw_http_HTTP`. -/
def expect (want : Char) (next : RequestLineState) (r : RequestLine) (ch : UInt8) :
    Verdict LineLoop LineExit :=
  if ch = byte want then goLine r next else badRequest r

/-- `ch - '0'`. -/
def digitVal (ch : UInt8) : ℕ := (ch - byte '0').toNat

/-- `sw_first_major_digit`. -/
def firstMajorDigit (r : RequestLine) (ch : UInt8) : Verdict LineLoop LineExit :=
  if ch < byte '1' ∨ byte '9' < ch then badRequest r
  else
    let r := { r with httpMajor := digitVal ch }
    if r.httpMajor > 1 then .stop (.ret .invalidVersion r) else goLine r .swMajorDigit

/-- `sw_major_digit`. -/
def majorDigit (r : RequestLine) (ch : UInt8) : Verdict LineLoop LineExit :=
  if ch = byte '.' then goLine r .swFirstMinorDigit
  else if !isDigit ch then badRequest r
  else
    let r := { r with httpMajor := r.httpMajor * 10 + digitVal ch }
    if r.httpMajor > 1 then .stop (.ret .invalidVersion r) else goLine r .swMajorDigit

/-- `sw_first_minor_digit`. -/
def firstMinorDigit (r : RequestLine) (ch : UInt8) : Verdict LineLoop LineExit :=
  if !isDigit ch then badRequest r
  else goLine { r with httpMinor := digitVal ch } .swMinorDigit

/-- `sw_minor_digit`. -/
def minorDigit (r : RequestLine) (ch : UInt8) : Verdict LineLoop LineExit :=
  if ch = cr then goLine r .swAlmostDone
  else if ch = lf then .stop (.done r)
  else if ch = byte ' ' then goLine r .swSpacesAfterDigit
  else if !isDigit ch then badRequest r
  else if r.httpMinor > 99 then badRequest r
  else goLine { r with httpMinor := r.httpMinor * 10 + digitVal ch } .swMinorDigit

/-- `sw_spaces_after_digit`. -/
def spacesAfterDigit (r : RequestLine) (ch : UInt8) : Verdict LineLoop LineExit :=
  if ch = byte ' ' then goLine r .swSpacesAfterDigit
  else if ch = cr then goLine r .swAlmostDone
  else if ch = lf then .stop (.done r)
  else badRequest r

/-- `sw_almost_done`. -/
def almostDone (p : ℕ) (r : RequestLine) (ch : UInt8) : Verdict LineLoop LineExit :=
  let r := { r with requestEnd := some (p - 1) }
  if ch = lf then .stop (.done r) else badRequest r

/-! ### The loop -/

/-- `switch (state)`: what the byte `ch` at `p = seen.length` does. -/
def lineStep (proxyConnect : Bool) (seen : List UInt8) (s : LineLoop) (ch : UInt8) :
    Verdict LineLoop LineExit :=
  let p := seen.length
  let r := s.line
  match s.state with
  | .swStart => lineStart p r ch
  | .swMethod => lineMethod proxyConnect seen r ch
  | .swSpacesBeforeConnectHost =>
    if ch = byte ' ' then goLine r .swSpacesBeforeConnectHost else connectHostStart p r ch
  | .swConnectHostStart => connectHostStart p r ch
  | .swConnectHost => connectHost p r ch
  | .swConnectHostEnd => connectHostEnd p r ch
  | .swConnectHostIpLiteral => ipLiteral .swConnectHostIpLiteral .swConnectHostEnd r ch
  | .swConnectPort => connectPort p r ch
  | .swSpacesBeforeUri => spacesBeforeUri p r ch
  | .swSchema => schema p r ch
  | .swSchemaSlash => expect '/' .swSchemaSlashSlash r ch
  | .swSchemaSlashSlash => expect '/' .swHostStart r ch
  | .swHostStart => hostStart p r ch
  | .swHost => host p r ch
  | .swHostEnd => hostEnd p r ch
  | .swHostIpLiteral => ipLiteral .swHostIpLiteral .swHostEnd r ch
  | .swPort => port p r ch
  | .swAfterSlashInUri => afterSlashInUri p r ch
  | .swCheckUri => checkUri p r ch
  | .swUri => uriRest p r ch
  | .swHttp09 => http09 p r ch
  | .swHttpH => expect 'T' .swHttpHT r ch
  | .swHttpHT => expect 'T' .swHttpHTT r ch
  | .swHttpHTT => expect 'P' .swHttpHTTP r ch
  | .swHttpHTTP => expect '/' .swFirstMajorDigit r ch
  | .swFirstMajorDigit => firstMajorDigit r ch
  | .swMajorDigit => majorDigit r ch
  | .swFirstMinorDigit => firstMinorDigit r ch
  | .swMinorDigit => minorDigit r ch
  | .swSpacesAfterDigit => spacesAfterDigit r ch
  | .swAlmostDone => almostDone p r ch

/-- The request and the loop: `state = r->state` on entry, `r->state = state` at
`NGX_AGAIN`. -/
def lineSaved : LineRequest ≃ LineLoop where
  toFun r := ⟨r.toRequestLine, r.state⟩
  invFun s := { s.line with state := s.state }
  left_inv _ := rfl
  right_inv _ := rfl

/-- The parser as a resumable scanner. -/
def lineScanner (proxyConnect : Bool) : Resumable UInt8 LineRequest LineLoop LineExit where
  saved := lineSaved
  step := lineStep proxyConnect

/-- What `done:` records, with the line feed at `p`. -/
def lineEnd (p : ℕ) (r : RequestLine) : RequestLine :=
  { r with requestEnd := if r.requestEnd = none then some p else r.requestEnd,
           httpVersion := r.httpMajor * 1000 + r.httpMinor }

/-- `done:`. -/
def lineDone (p : ℕ) (r : RequestLine) : ParseCode × RequestLine :=
  let r := lineEnd p r
  if r.httpVersion = 9 ∧ r.method ≠ .get then (.invalid09Method, r) else (.ok, r)

/-- `ngx_http_parse_request_line`. -/
def parseRequestLine (proxyConnect : Bool) (r : LineRequest) (b : Buf) :
    ParseCode × LineRequest × Buf :=
  match (lineScanner proxyConnect).call r b.before b.rest with
  | .again r' => (.again, r', b.drain)
  | .stopped (.ret err line) _ => (err.code, { line with state := r.state }, b)
  | .stopped (.done line) rest =>
    let b' := b.advance (b.rest.length - rest.length + 1)
    let out := lineDone (b'.pos - 1) line
    (out.1, { out.2 with state := .swStart }, b')

/-- `ngx_http_process_request_line`: read, parse, and read again as long as the parser
asks for more: `x` is the first read, `xs` are the later ones. -/
@[grind =]
def parsePieces (proxyConnect : Bool) (r : LineRequest) (b : Buf) (x : List UInt8) :
    List (List UInt8) → ParseCode × LineRequest × Buf
  | [] => parseRequestLine proxyConnect r (b.append x)
  | y :: ys =>
    let out := parseRequestLine proxyConnect r (b.append x)
    if out.1 = .again then parsePieces proxyConnect out.2.1 out.2.2 y ys else out

/-! ### Fragmentation independence -/

/-- What a call leaves for the caller, from how its loop ended: the return code and the
recorded fields. `len` is the number of bytes in the memory. -/
def lineResult (len : ℕ) : Scanned UInt8 LineRequest LineExit → ParseCode × RequestLine
  | .again r => (.again, r.toRequestLine)
  | .stopped (.ret err line) _ => (err.code, line)
  | .stopped (.done line) rest => lineDone (len - rest.length) line

/-- The return code and the recorded fields of one call. -/
theorem parseRequestLine_result (proxyConnect : Bool) (r : LineRequest) (b : Buf) :
    ((parseRequestLine proxyConnect r b).1, (parseRequestLine proxyConnect r b).2.1.toRequestLine)
      = lineResult (b.before.length + b.rest.length)
          ((lineScanner proxyConnect).call r b.before b.rest) := by
  rw [parseRequestLine]
  cases hcall : (lineScanner proxyConnect).call r b.before b.rest with
  | again r' => rfl
  | stopped e rest =>
    obtain ⟨hpos, hle⟩ := Resumable.call_stopped_length _ hcall
    cases e with
    | ret err line => rfl
    | done line =>
      have hp : (b.advance (b.rest.length - rest.length + 1)).pos - 1
          = b.before.length + b.rest.length - rest.length := by
        simp only [Buf.advance, Buf.pos, length_append, length_take]
        omega
      simp only [lineResult, hp]

/-- What stands behind a line does not matter. -/
theorem lineResult_stopped (len : ℕ) (e : LineExit) (rest more : List UInt8) :
    lineResult (len + more.length) (.stopped e (rest ++ more))
      = lineResult len (.stopped e rest) := by
  cases e with
  | ret err line => rfl
  | done line =>
    simp only [lineResult, length_append]
    rw [Nat.add_sub_add_right]

/-- A parser that has stopped does not ask for more. -/
theorem parseRequestLine_again {proxyConnect : Bool} {r : LineRequest} {b : Buf}
    {e : LineExit} {rest : List UInt8}
    (h : (lineScanner proxyConnect).call r b.before b.rest = .stopped e rest) :
    (parseRequestLine proxyConnect r b).1 ≠ .again := by
  rw [parseRequestLine, h]
  cases e with
  | ret err line => cases err <;> simp [LineError.code]
  | done line =>
    simp only [lineDone]
    split <;> simp

/-- **Fragmentation independence of the request line.** However the bytes are cut into
reads appended to the same memory, the return code and all that the parser records in
the request are those of one call on all the bytes. -/
theorem requestLine_fragments (proxyConnect : Bool) (xs : List (List UInt8)) :
    ∀ (r : LineRequest) (b : Buf) (x : List UInt8),
      (parsePieces proxyConnect r b x xs).1
          = (parseRequestLine proxyConnect r (b.append (x ++ xs.flatten))).1 ∧
        (parsePieces proxyConnect r b x xs).2.1.toRequestLine
          = (parseRequestLine proxyConnect r (b.append (x ++ xs.flatten))).2.1.toRequestLine := by
  suffices h : ∀ (r : LineRequest) (b : Buf) (x : List UInt8),
      ((parsePieces proxyConnect r b x xs).1, (parsePieces proxyConnect r b x xs).2.1.toRequestLine)
        = ((parseRequestLine proxyConnect r (b.append (x ++ xs.flatten))).1,
          (parseRequestLine proxyConnect r (b.append (x ++ xs.flatten))).2.1.toRequestLine) by
    intro r b x
    exact Prod.mk.injEq _ _ _ _ ▸ h r b x
  induction xs with
  | nil =>
    intro r b x
    simp [parsePieces]
  | cons y ys ih =>
    intro r b x
    rw [parseRequestLine_result, parsePieces]
    have hcut : (b.append (x ++ (y :: ys).flatten)).rest
        = (b.append x).rest ++ (y ++ ys.flatten) := by
      simp [Buf.append]
    have hbefore : (b.append (x ++ (y :: ys).flatten)).before = (b.append x).before := rfl
    rw [hcut, hbefore, Resumable.call_append]
    cases hcall : (lineScanner proxyConnect).call r (b.append x).before (b.append x).rest with
    | again r' =>
      -- The first piece runs out: the rest is a call on the drained buffer.
      have hout : parseRequestLine proxyConnect r (b.append x)
          = (.again, r', (b.append x).drain) := by
        rw [parseRequestLine, hcall]
      rw [hout]
      simp only [if_true]
      rw [ih, parseRequestLine_result]
      simp [Buf.append, Buf.drain, Scanned.andThen, Nat.add_assoc]
    | stopped e rest =>
      have hne := parseRequestLine_again hcall
      simp only [hne, if_false]
      rw [parseRequestLine_result, hcall]
      have hlen : (b.append x).before.length
            + ((b.append x).rest ++ (y ++ ys.flatten)).length
          = (b.append x).before.length + (b.append x).rest.length
            + (y ++ ys.flatten).length := by
        rw [length_append, Nat.add_assoc]
      rw [hlen]
      exact (lineResult_stopped _ e rest _).symm

end Hengine
