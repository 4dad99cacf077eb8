import Mathlib.Data.Int.Order.Basic
import Hengine.Lib.Scan
import Hengine.Http.Bytes

/-!
# Normalising the URI

`ngx_http_parse_complex_uri` of `ngx_http_parse.c`, without the `NGX_WIN32` branches. The
raw URI is read once, from `r->uri_start` to `r->uri_end`, and the path is written to
`r->uri.data`; `u` is the write pointer. What is kept here of the memory behind `u` is
the bytes from `r->uri.data` to `u`: nothing above `u` is read before it is written
again. When `u` moves back over a segment it is a plain integer, as it may end up before
the start of the buffer.

The source reads one character ahead: a decoded character goes through the loop once
more, in the state that was left for the percent sign, before the next one is read. Here
that second turn is a part of the step for the last hexadecimal digit.

The second half is the reference the result is compared with: the path is
percent-decoded once, split into segments, and the dot segments are removed from left to
right with a stack.
-/

namespace Hengine

/-! ### The parser -/

/-- The states that percent signs lead back to. -/
inductive PlainState
  | swUsual | swSlash | swDot | swDotDot
deriving Repr, DecidableEq

/-- The states of `ngx_http_parse_complex_uri`, with `quoted_state` and `decoded` where
they are in use. -/
inductive UriState
  | plain (s : PlainState)
  | swQuoted (quotedState : PlainState)
  | swQuotedSecond (quotedState : PlainState) (decoded : UInt8)
deriving Repr, DecidableEq

/-- What the loop writes: the bytes from `r->uri.data` to `u`, `r->uri_ext` as an offset
from `r->uri.data`, and the flags. -/
structure UriFields where
  out : List UInt8
  uriExt : Option ℕ := none
  plusInUri : Bool := false
  quotedUri : Bool := false
deriving Repr, DecidableEq

/-- The loop. -/
structure UriLoop where
  fields : UriFields
  state : UriState
deriving Repr, DecidableEq

/-- How the loop is left: `return NGX_HTTP_PARSE_INVALID_REQUEST` with the write pointer
at `u` (as an offset from `r->uri.data`), `goto args`, or `goto done`. -/
inductive UriExit
  | invalid (u : ℤ)
  | args (fields : UriFields)
  | done (fields : UriFields)
deriving Repr, DecidableEq

/-- `*u++ = ch`. -/
def UriFields.push (f : UriFields) (ch : UInt8) : UriFields := { f with out := f.out ++ [ch] }

/-- The loop goes on in a plain state. -/
abbrev goUri (f : UriFields) (s : PlainState) : Verdict UriLoop UriExit := .more ⟨f, .plain s⟩

/-- `quoted_state = state; state = sw_quoted`. -/
abbrev goQuoted (f : UriFields) (s : PlainState) : Verdict UriLoop UriExit := .more ⟨f, .swQuoted s⟩

/-- `case '+': r->plus_in_uri = 1; /* fall through */ default: *u++ = ch`. -/
def pushOther (f : UriFields) (ch : UInt8) : UriFields :=
  (if ch = byte '+' then { f with plusInUri := true } else f).push ch

/-- `sw_usual`. -/
def uriUsual (f : UriFields) (ch : UInt8) : Verdict UriLoop UriExit :=
  if usual ch then goUri (f.push ch) .swUsual
  else if ch = byte '/' then goUri ({ f with uriExt := none }.push ch) .swSlash
  else if ch = byte '%' then goQuoted f .swUsual
  else if ch = byte '?' then .stop (.args f)
  else if ch = byte '#' then .stop (.done f)
  else if ch = byte '.' then
    goUri ({ f with uriExt := some (f.out.length + 1) }.push ch) .swUsual
  else goUri (pushOther f ch) .swUsual

/-- `sw_slash`. -/
def uriSlash (mergeSlashes : Bool) (f : UriFields) (ch : UInt8) : Verdict UriLoop UriExit :=
  if usual ch then goUri (f.push ch) .swUsual
  else if ch = byte '/' then goUri (if mergeSlashes then f else f.push ch) .swSlash
  else if ch = byte '.' then goUri (f.push ch) .swDot
  else if ch = byte '%' then goQuoted f .swSlash
  else if ch = byte '?' then .stop (.args f)
  else if ch = byte '#' then .stop (.done f)
  else goUri (pushOther f ch) .swUsual

/-- `u--`. -/
def UriFields.back (f : UriFields) : UriFields := { f with out := f.out.dropLast }

/-- `sw_dot`. -/
def uriDot (f : UriFields) (ch : UInt8) : Verdict UriLoop UriExit :=
  if usual ch then goUri (f.push ch) .swUsual
  else if ch = byte '/' then goUri f.back .swSlash
  else if ch = byte '.' then goUri (f.push ch) .swDotDot
  else if ch = byte '%' then goQuoted f .swDot
  else if ch = byte '?' then .stop (.args f.back)
  else if ch = byte '#' then .stop (.done f.back)
  else goUri (pushOther f ch) .swUsual

/-- The loop behind `u -= 4`, with `u` inside the buffer: back to a slash and one beyond
it, or to the byte before the buffer. -/
@[grind =]
def scanBack (out : List UInt8) : ℕ → ℤ
  | 0 => if out[0]? = some (byte '/') then 1 else -1
  | u + 1 => if out[u + 1]? = some (byte '/') then u + 2 else scanBack out u

/-- `u -= 4` and the loop behind it: where the write pointer ends up. -/
def climb (out : List UInt8) : ℤ :=
  if out.length < 4 then (out.length : ℤ) - 4 else scanBack out (out.length - 4)

/-- A `..` segment has ended: `u < r->uri.data` is an error, else the path ends at `u`. -/
def uriUp (f : UriFields) (next : UriFields → Verdict UriLoop UriExit) :
    Verdict UriLoop UriExit :=
  if climb f.out < 0 then .stop (.invalid (climb f.out))
  else next { f with out := f.out.take (climb f.out).toNat }

/-- `sw_dot_dot`. -/
def uriDotDot (f : UriFields) (ch : UInt8) : Verdict UriLoop UriExit :=
  if usual ch then goUri (f.push ch) .swUsual
  else if ch = byte '/' then uriUp f fun f => goUri f .swSlash
  else if ch = byte '?' then uriUp f fun f => .stop (.args f)
  else if ch = byte '#' then uriUp f fun f => .stop (.done f)
  else if ch = byte '%' then goQuoted f .swDotDot
  else goUri (pushOther f ch) .swUsual

/-- The plain states. -/
def plainStep (mergeSlashes : Bool) (s : PlainState) (f : UriFields) (ch : UInt8) :
    Verdict UriLoop UriExit :=
  match s with
  | .swUsual => uriUsual f ch
  | .swSlash => uriSlash mergeSlashes f ch
  | .swDot => uriDot f ch
  | .swDotDot => uriDotDot f ch

/-- `c >= 'a' && c <= 'f'` of the folded character. -/
def isHexAlpha (ch : UInt8) : Bool := byte 'a' ≤ fold20 ch && fold20 ch ≤ byte 'f'

/-- `return NGX_HTTP_PARSE_INVALID_REQUEST` where the write pointer is in its place. -/
def uriInvalid (f : UriFields) : Verdict UriLoop UriExit := .stop (.invalid f.out.length)

/-- `sw_quoted`. -/
def uriQuoted (s : PlainState) (f : UriFields) (ch : UInt8) : Verdict UriLoop UriExit :=
  let f := { f with quotedUri := true }
  if isDigit ch then .more ⟨f, .swQuotedSecond s (ch - byte '0')⟩
  else if isHexAlpha ch then .more ⟨f, .swQuotedSecond s (fold20 ch - byte 'a' + 10)⟩
  else uriInvalid f

/-- `sw_quoted_second`, and the turn of the loop for the decoded character. -/
def uriQuotedSecond (mergeSlashes : Bool) (s : PlainState) (decoded : UInt8) (f : UriFields)
    (ch : UInt8) : Verdict UriLoop UriExit :=
  if isDigit ch then
    let ch := decoded <<< 4 + (ch - byte '0')
    if ch = byte '%' ∨ ch = byte '#' then goUri (f.push ch) .swUsual
    else if ch = 0 then uriInvalid f
    else plainStep mergeSlashes s f ch
  else if isHexAlpha ch then
    let ch := decoded <<< 4 + (fold20 ch - byte 'a') + 10
    if ch = byte '?' then goUri (f.push ch) .swUsual
    else
      let f := if ch = byte '+' then { f with plusInUri := true } else f
      plainStep mergeSlashes s f ch
  else uriInvalid f

/-- `switch (state)`. -/
def uriStep (mergeSlashes : Bool) (l : UriLoop) (ch : UInt8) : Verdict UriLoop UriExit :=
  match l.state with
  | .plain s => plainStep mergeSlashes s l.fields ch
  | .swQuoted s => uriQuoted s l.fields ch
  | .swQuotedSecond s decoded => uriQuotedSecond mergeSlashes s decoded l.fields ch

/-- What the request has when the path has been written: `r->uri`, `r->exten`, the
arguments (`r->args_start`, or `r->args` as start and length when a fragment follows; both
as offsets from `r->uri_start`) and the flags. -/
structure ComplexUri where
  uri : List UInt8
  exten : Option (List UInt8)
  argsStart : Option ℕ
  args : Option (ℕ × ℕ)
  plusInUri : Bool
  quotedUri : Bool
deriving Repr, DecidableEq

/-- The return value. -/
inductive UriResult
  | invalidRequest (u : ℤ)
  | ok (res : ComplexUri)
deriving Repr, DecidableEq

/-- `done:`. -/
def uriDone (f : UriFields) : UriResult :=
  .ok { uri := f.out, exten := f.uriExt.map fun ext => f.out.drop ext, argsStart := none,
        args := none, plusInUri := f.plusInUri, quotedUri := f.quotedUri }

/-- `args:`, with the question mark at offset `p - 1` and `rest` behind it. -/
def uriArgs (p : ℕ) (rest : List UInt8) (f : UriFields) : UriResult :=
  let len := (rest.takeWhile (· != byte '#')).length
  let fragment := len < rest.length
  .ok { uri := f.out, exten := f.uriExt.map fun ext => f.out.drop ext,
        argsStart := if fragment then none else some p,
        args := if fragment then some (p, len) else none,
        plusInUri := f.plusInUri, quotedUri := f.quotedUri }

/-- Behind the loop. -/
def uriEnd (l : UriLoop) : UriResult :=
  match l.state with
  | .plain .swDot => uriDone l.fields.back
  | .plain .swDotDot =>
    if climb l.fields.out < 0 then .invalidRequest (climb l.fields.out)
    else uriDone { l.fields with out := l.fields.out.take (climb l.fields.out).toNat }
  | .plain _ => uriDone l.fields
  | _ => .invalidRequest l.fields.out.length

/-- `if (r->empty_path_in_uri) { *u++ = '/'; }`. -/
def uriStart (emptyPath plusInUri quotedUri : Bool) : UriLoop :=
  ⟨{ out := if emptyPath then [byte '/'] else [], plusInUri := plusInUri,
     quotedUri := quotedUri }, .plain .swUsual⟩

/-- `ngx_http_parse_complex_uri` on the bytes from `r->uri_start` to `r->uri_end`; the
flags are those the request line parser has left. -/
def parseComplexUri (mergeSlashes emptyPath plusInUri quotedUri : Bool) (raw : List UInt8) :
    UriResult :=
  match scanFrom (uriStep mergeSlashes) (uriStart emptyPath plusInUri quotedUri) raw with
  | .again l => uriEnd l
  | .stopped (.invalid u) _ => .invalidRequest u
  | .stopped (.done f) _ => uriDone f
  | .stopped (.args f) rest => uriArgs (raw.length - rest.length + 1) (rest.drop 1) f

/-! ### The reference -/

/-- The path of a raw URI: up to the first question mark or number sign. -/
def rawPath (raw : List UInt8) : List UInt8 :=
  raw.takeWhile fun c => c != byte '?' && c != byte '#'

/-- The value of two hexadecimal digits. -/
def hexPair (h l : UInt8) : Option UInt8 :=
  if (isDigit h || isHexAlpha h) && (isDigit l || isHexAlpha l) then
    let v (c : UInt8) := if isDigit c then c - byte '0' else fold20 c - byte 'a' + 10
    some (v h * 16 + v l)
  else none

/-- Percent-decode once; a percent sign that is not followed by two digits is an error,
and so is an encoded `NUL`. -/
@[grind =]
def percentDecode : List UInt8 → Option (List UInt8)
  | [] => some []
  | c :: cs =>
    if c = byte '%' then
      match cs with
      | h :: l :: rest =>
        match hexPair h l with
        | some v => if v = 0 then none else (percentDecode rest).map (v :: ·)
        | none => none
      | _ => none
    else (percentDecode cs).map (c :: ·)

/-- The segments between the slashes. -/
@[grind =]
def segments : List UInt8 → List (List UInt8)
  | [] => [[]]
  | c :: cs =>
    if c = byte '/' then [] :: segments cs
    else
      match segments cs with
      | s :: ss => (c :: s) :: ss
      | [] => [[c]]

/-- `.` -/
def dotSeg : List UInt8 := [byte '.']
/-- `..` -/
def dotDotSeg : List UInt8 := [byte '.', byte '.']

/-- Remove dot segments from left to right: `stack` is what is left of the segments so
far. The last segment keeps its place; as a dot segment it leaves a trailing slash. -/
@[grind =]
def removeDots (mergeSlashes : Bool) : List (List UInt8) → List (List UInt8) →
    Option (List (List UInt8))
  | stack, [] => some stack
  | stack, [s] =>
    if s = dotSeg then some (stack ++ [[]])
    else if s = dotDotSeg then if stack = [] then none else some (stack.dropLast ++ [[]])
    else some (stack ++ [s])
  | stack, s :: t :: rest =>
    if s = dotSeg then removeDots mergeSlashes stack (t :: rest)
    else if s = dotDotSeg then
      if stack = [] then none else removeDots mergeSlashes stack.dropLast (t :: rest)
    else if s = [] ∧ mergeSlashes then removeDots mergeSlashes stack (t :: rest)
    else removeDots mergeSlashes (stack ++ [s]) (t :: rest)

/-- The path of a list of segments. -/
def renderPath (segs : List (List UInt8)) : List UInt8 := segs.flatMap fun s => byte '/' :: s

/-- **The reference**: percent-decode the path once, then remove its dot segments. -/
def referencePath (mergeSlashes emptyPath : Bool) (raw : List UInt8) : Option (List UInt8) :=
  match percentDecode (rawPath raw) with
  | none => none
  | some d =>
    let path := if emptyPath then byte '/' :: d else d
    (removeDots mergeSlashes [] (segments (path.drop 1))).map renderPath

end Hengine
