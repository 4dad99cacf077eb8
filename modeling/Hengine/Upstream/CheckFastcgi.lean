import Hengine.Http.CookieLines
import Hengine.Http.HeaderLine
import Hengine.Upstream.CheckHttp

/-!
# The Verdict of a FastCGI Check

The model of `ngx_http_upstream_check_fastcgi_parse`, with the machine that reads the header of a record and
the one that reads the lines of its content.

When a read ends inside of the header of a record, `ctx->state` is kept but `pos` is not: the next call reads
the bytes again, in the state it has then. The content is looked at only in the call that reads the header,
and only if all of it is there, with a byte behind it. Nothing sets the state `padding`, so no second record
is ever looked at, and the branch of that state is left out.

A line is told by the state and `find`, by the bytes from `name_s` on, and by `status->code` and
`status->count`. The calls of `ngx_http_upstream_check_parse_fastcgi_status` follow one another: behind a call
that returns `NGX_OK` the next one starts afresh. A name that begins with a character which is not one of a
name leaves `name_s` as it was; where it is `NULL`, the comparison takes what it points to.

## Main definitions

* `recordStep`: a byte of the header of a record.
* `lineStep`, `readLines`: a byte of the content, and the calls that read it.
* `fastcgiParse`: what is done when something has come.
-/

namespace Hengine.CheckFastcgi

open CheckRecv
open CheckHttp (isDigit isAlive)

/-! ### The header of a record -/

/-- The states of `ngx_http_fastcgi_state_e`, up to `data`. -/
inductive RecordState
  | version | type | requestIdHi | requestIdLo
  | contentLengthHi | contentLengthLo | paddingLength | reserved | data
deriving DecidableEq, Repr

/-- `ctx->state`, the type in `status->code`, `ctx->length` and `ctx->padding`. -/
structure Header where
  state : RecordState := .version
  code : UInt8 := 0
  length : ℕ := 0
  padding : ℕ := 0
deriving DecidableEq, Repr

/-- How `ngx_http_upstream_check_fastcgi_process_record` is left. -/
inductive RecordExit
  | error
  | done (h : Header)
deriving DecidableEq, Repr

/-- `NGX_HTTP_FASTCGI_STDOUT`. -/
def stdout : UInt8 := 6
/-- `NGX_HTTP_FASTCGI_STDERR`. -/
def stderr : UInt8 := 7
/-- `NGX_HTTP_FASTCGI_END_REQUEST`. -/
def endRequest : UInt8 := 3

/-- A turn of `ngx_http_upstream_check_fastcgi_process_record`. -/
def recordStep (h : Header) (ch : UInt8) : Verdict Header RecordExit :=
  match h.state with
  | .version => if ch ≠ 1 then .stop .error else .more { h with state := .type }
  | .type =>
    if ch = stdout ∨ ch = stderr ∨ ch = endRequest then .more { h with state := .requestIdHi, code := ch }
    else .stop .error
  | .requestIdHi => if ch ≠ 0 then .stop .error else .more { h with state := .requestIdLo }
  | .requestIdLo => if ch ≠ 1 then .stop .error else .more { h with state := .contentLengthHi }
  | .contentLengthHi => .more { h with state := .contentLengthLo, length := ch.toNat <<< 8 }
  | .contentLengthLo => .more { h with state := .paddingLength, length := h.length ||| ch.toNat }
  | .paddingLength => .more { h with state := .reserved, padding := ch.toNat }
  | .reserved => .stop (.done { h with state := .data })
  | .data => .more h

/-! ### The lines of the content -/

/-- The states of `ngx_http_upstream_check_parse_fastcgi_status`. -/
inductive LineState
  | start | name | spaceBeforeValue | value | spaceAfterValue | ignoreLine | almostDone | headerAlmostDone
deriving DecidableEq, Repr

/-- The variables of `ngx_http_upstream_check_parse_fastcgi_status`, as a call begins; `name` is the bytes
from `name_s` up to `p`. -/
structure Line where
  state : LineState := .start
  find : Bool := false
  name : Option (List UInt8) := none
  code : ℕ := 0
  count : ℕ := 0
deriving DecidableEq, Repr

/-- How a call is left: `NGX_OK`, `NGX_DONE` with the code, `NGX_ERROR`, or where `name_s` is `NULL`. -/
inductive LineExit
  | ok
  | done (code : ℕ)
  | error
  | crash
deriving DecidableEq, Repr

/-- `"status"`. -/
def status : List UInt8 := [0x73, 0x74, 0x61, 0x74, 0x75, 0x73]

/-- `ngx_strncasecmp(name_s, "status", name_e - name_s) == 0`. -/
def isStatus (name : List UInt8) : Bool := CookieLines.strncasecmpEq name.length name (status ++ [0])

/-- The loop goes on in a state, and `p` is one further. -/
def Line.go (l : Line) (state : LineState) (ch : UInt8) : Verdict Line LineExit :=
  .more { l with state, name := l.name.map (· ++ [ch]) }

/-- A digit of the code. -/
def Line.digit (l : Line) (ch : UInt8) : Line :=
  { l with code := l.code * 10 + (ch - 0x30).toNat, count := l.count + 1 }

/-- A turn of `ngx_http_upstream_check_parse_fastcgi_status`. -/
def lineStep (l : Line) (ch : UInt8) : Verdict Line LineExit :=
  match l.state with
  | .start =>
    if ch = 0x0d then l.go .headerAlmostDone ch
    else if ch = 0x0a then .stop .ok
    else if lowcase ch ≠ 0 then .more { l with state := .name, name := some [ch] }
    else if ch = 0 then .stop .error
    else l.go .name ch
  | .name =>
    if lowcase ch ≠ 0 then l.go .name ch
    else if ch = 0x3a then
      match l.name with
      | none => .stop .crash
      | some name => { l with find := l.find || isStatus name }.go .spaceBeforeValue ch
    else if ch = 0x0d then l.go .almostDone ch
    else if ch = 0x0a then .stop .ok
    else if ch = 0 then .stop .error
    else l.go .name ch
  | .spaceBeforeValue =>
    if ch = 0x20 then l.go .spaceBeforeValue ch
    else if ch = 0x0d then l.go .almostDone ch
    else if ch = 0x0a then .stop .ok
    else if ch = 0 then .stop .error
    else if l.find then
      if ch < 0x31 ∨ 0x39 < ch then .stop .error
      else if l.count ≠ 0 then .stop .error
      else (l.digit ch).go .value ch
    else l.go .value ch
  | .value =>
    if l.find then
      if isDigit ch then
        if l.count + 1 = 3 then .stop (.done (l.digit ch).code) else (l.digit ch).go .value ch
      else .stop .error
    else if ch = 0x20 then l.go .spaceAfterValue ch
    else if ch = 0x0d then l.go .almostDone ch
    else if ch = 0x0a then .stop .ok
    else if ch = 0 then .stop .error
    else l.go .value ch
  | .spaceAfterValue =>
    if ch = 0x20 then l.go .spaceAfterValue ch
    else if ch = 0x0d then l.go .almostDone ch
    else if ch = 0x0a then l.go .start ch
    else if ch = 0 then .stop .error
    else l.go .value ch
  | .ignoreLine => if ch = 0x0a then l.go .start ch else l.go .ignoreLine ch
  | .almostDone =>
    if ch = 0x0a then .stop .ok
    else if ch = 0x0d then l.go .almostDone ch
    else .stop .error
  | .headerAlmostDone => if ch = 0x0a then .stop .ok else .stop .error

/-- The calls of `ngx_http_upstream_check_parse_fastcgi_status`: `ok` is that the content ends. -/
@[grind =]
def readLines : Line → List UInt8 → LineExit
  | _, [] => .ok
  | l, ch :: content =>
    match lineStep l ch with
    | .more l => readLines l content
    | .stop .ok => readLines {} content
    | .stop exit => exit

/-! ### A call -/

/-- What the lines lead to, with `status_alive`. -/
def LineExit.rc (alive : UInt64) : LineExit → Rc
  | .ok => .ok
  | .done code => if alive = 0 then .ok else if isAlive alive code then .ok else .error
  | .error => .error
  | .crash => .crash

/-- What follows the header of a record in `ngx_http_upstream_check_fastcgi_parse`; `data` is what stands in
the buffer behind it. -/
def judge (alive : UInt64) (h : Header) (data : List UInt8) : Rc :=
  if h.code ≠ stdout ∧ h.code ≠ stderr then .error
  else if h.code = stdout ∧ h.length = 0 then .error
  else if h.code = stderr then .error
  else if h.length < data.length then (readLines {} (data.take h.length)).rc alive
  else .error

/-- `ngx_http_upstream_check_fastcgi_parse`. What is kept behind the header of a record does not matter, for
the check is settled then. -/
def fastcgiParse (alive : UInt64) (ctx : Ctx Header) : Ctx Header × Rc :=
  if ctx.recv.pos < ctx.recv.data.length then
    match scanFrom recordStep ctx.kept (ctx.recv.data.drop ctx.recv.pos) with
    | .again h => ({ ctx with kept := h }, .again)
    | .stopped .error _ => (ctx, .error)
    | .stopped (.done h) rest =>
      (⟨{ ctx.recv with pos := ctx.recv.data.length - rest.length + 1 }, h⟩, judge alive h rest.tail)
  else (ctx, .again)

/-- The check that `ngx_http_upstream_check_http_init` begins. -/
def initCtx (size : ℕ) (room : 0 < size) : Ctx Header := ⟨.init size room, {}⟩

end Hengine.CheckFastcgi
