import Hengine.Lib.Frames
import Hengine.Lib.Memory
import Hengine.Dubbo.Hessian

/-!
# Dubbo Responses

The model of `ngx_dubbo_decode_response` and `ngx_dubbo_copy_chain` in `ngx_dubbo.c`, and of the loop of
`ngx_http_dubbo_module.c` that calls them.

A response is a header of 16 bytes, which tells the length of the payload, and the payload. The decoder
keeps the position in the one or the other, so that a response may come in several calls. Within one call
it copies from a chain of buffers; but the copy of a buffer goes where the copy of the one before it
went.

The memory that has been allocated for a payload holds anything; `fresh` says what. The machine is
little-endian.

## Main definitions

* `decodeResponse`: one call.
* `receive`: a connection on which one chain comes after the other.
-/

namespace Hengine.Dubbo

open Hessian

/-- The memory of a response: its header and its payload. -/
inductive Area
  | header
  | payload
  deriving DecidableEq

/-- `ngx_dubbo_parse_state_t`. -/
inductive ParseState
  | readHeader
  | readPayload
  deriving DecidableEq

/-- `ngx_dubbo_connection_t`; `payloadAlloc` is `none` if there is no memory for a payload yet. -/
structure Conn where
  parseState : ParseState
  remain : ℕ
  mem : Memory Area UInt8
  payloadAlloc : Option ℕ

/-- `ngx_dubbo_init_connection`. -/
def Conn.init : Conn := ⟨.readHeader, 0, fun _ _ => 0, none⟩

/-- A chain of buffers, each given by the bytes from `pos` to `last`. -/
abbrev Chain := List (List UInt8)

/-- `ngx_dubbo_copy_chain`; nothing looks at what it returns. -/
@[grind =]
def copyChain (mem : Memory Area UInt8) (a : Area) (dst : ℕ) : Chain → ℕ → Memory Area UInt8 × Chain
  | [], _ => (mem, [])
  | b :: cl, len =>
    if len ≤ b.length then (mem.write a dst (b.take len), b.drop len :: cl)
    else
      let r := copyChain (mem.write a dst b) a dst cl (len - b.length)
      (r.1, [] :: r.2)

/-- `header.payloadlen`. -/
def Conn.payloadlen (c : Conn) : ℕ := ofNumberBytes (c.mem.slice .header 12 16).reverse

/-- `header.reqid`. -/
def Conn.reqid (c : Conn) : ℕ := ofNumberBytes (c.mem.slice .header 4 12).reverse

/-- `htonl` of the length and `ngx_dubbo_hton64` of the id, in place. -/
def Conn.swap (c : Conn) : Conn :=
  { c with
    mem := (c.mem.write .header 12 (c.mem.slice .header 12 16).reverse).write .header 4
      (c.mem.slice .header 4 12).reverse }

/-- What a call returns. -/
inductive Ret
  | again
  | done
  deriving DecidableEq

/-- The payload gets new memory if that which is there is too small. -/
def Conn.reserve (fresh : ℕ → ℕ → UInt8) (c : Conn) : Conn :=
  let new : Conn :=
    { c with
      mem := fun a i => if a = .payload then fresh c.payloadlen i else c.mem a i
      payloadAlloc := some c.payloadlen }
  match c.payloadAlloc with
  | none => new
  | some n => if c.payloadlen > n then new else c

/-- The case `DUBBO_PARSE_READ_PAYLOAD`. -/
def decodePayload (fresh : ℕ → ℕ → UInt8) (c : Conn) (cl : Chain) (len : ℕ) : Ret × Conn × Chain :=
  let c := c.reserve fresh
  let dst := c.remain
  if len + c.remain ≥ c.payloadlen then
    let r := copyChain c.mem .payload dst cl (c.payloadlen - c.remain)
    (.done, { c with mem := r.1, remain := 0, parseState := .readHeader }, r.2)
  else if len ≠ 0 then
    let r := copyChain c.mem .payload dst cl len
    (.again, { c with mem := r.1, remain := c.remain + len }, r.2)
  else (.again, c, cl)

/-- `ngx_dubbo_decode_response`. -/
def decodeResponse (fresh : ℕ → ℕ → UInt8) (c : Conn) (cl : Chain) : Ret × Conn × Chain :=
  let len := cl.flatten.length
  if len = 0 then (.again, c, cl)
  else
    match c.parseState with
    | .readHeader =>
      let dst := c.remain
      if len + c.remain ≥ 16 then
        let r := copyChain c.mem .header dst cl (16 - c.remain)
        let c' := Conn.swap { c with mem := r.1, remain := 0 }
        decodePayload fresh { c' with parseState := .readPayload } r.2 (len - (16 - c.remain))
      else
        let r := copyChain c.mem .header dst cl len
        (.again, { c with mem := r.1, remain := c.remain + len }, r.2)
    | .readPayload => decodePayload fresh c cl len

/-- A response: the fields of its header, and its payload. -/
structure Response where
  type : UInt8
  status : UInt8
  id : ℕ
  length : ℕ
  payload : List UInt8

/-- The response that is there when a call is done. -/
def Conn.response (c : Conn) : Response :=
  ⟨c.mem .header 2, c.mem .header 3, c.reqid, c.payloadlen, c.mem.slice .payload 0 c.payloadlen⟩

/-- The loop around the calls: the responses of one chain. -/
@[grind =]
def responses (fresh : ℕ → ℕ → UInt8) : ℕ → Conn → Chain → List Response × Conn
  | 0, c, _ => ([], c)
  | turns + 1, c, cl =>
    match decodeResponse fresh c cl with
    | (.again, c, _) => ([], c)
    | (.done, c, cl) =>
      let r := responses fresh turns c cl
      (c.response :: r.1, r.2)

/-- One chain after the other; a response has more than one byte, so no chain needs more turns than it
has bytes. -/
@[grind =]
def receive (fresh : ℕ → ℕ → UInt8) : Conn → List Chain → List Response × Conn
  | c, [] => ([], c)
  | c, cl :: cls =>
    let r := responses fresh (cl.flatten.length + 1) c cl
    let q := receive fresh r.2 cls
    (r.1 ++ q.1, q.2)

end Hengine.Dubbo
