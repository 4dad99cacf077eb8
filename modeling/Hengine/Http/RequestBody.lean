import Mathlib.Data.Int.Order.Basic
import Hengine.Lib.Memory
import Hengine.Http.Chunked

/-!
# Reading the Request Body

`ngx_http_request_body.c` for HTTP/1.x with buffering: the two framing filters, the save
filter behind them, the loop that reads from the connection, and the discarding of a body
nobody wants.

The bytes stand in a memory of four areas: that of `r->header_in`, that of the client body
buffer, a large header buffer for what has been read too far, and the buffer on the stack
of the discarding loop. `rb->bufs` only points into it, and both reading and the
compaction of small chunks write to it.

The connection is the list of the bytes the client has sent and will send. What `recv`
returns is decided by a script, one entry a call; an entry asks for a number of bytes and
gets as many of them as fit and are there. A script that has run out leaves the request
waiting for its next event; the events between two calls of the read handler make no
difference but the `flush` flag and are not seen in the script.

Allocation failures, timeouts and `request_body_no_buffering` are left out.
-/

namespace Hengine

/-! ### Buffers -/

/-- The areas of the memory. -/
inductive Area
  | header | body | large | discard
deriving Repr, DecidableEq

/-- A memory of bytes. -/
abbrev ByteMemory := Memory Area UInt8

/-- `ngx_buf_t`, as the reader uses it; `stop` is `end`. -/
structure MemBuf where
  area : Area
  start : ℕ
  pos : ℕ
  last : ℕ
  stop : ℕ
deriving Repr, DecidableEq

/-- `ngx_buf_t`, as the filters pass it on. -/
structure BodyBuf where
  area : Area
  pos : ℕ
  last : ℕ
  lastBuf : Bool := false
deriving Repr, DecidableEq

/-- The buffer of which only `last_buf` is set. -/
def lastOnly : BodyBuf := ⟨.body, 0, 0, true⟩

/-- An entry of `rb->bufs`: memory, or the temporary file up to `file_last`. -/
inductive BodyPart
  | mem (b : BodyBuf)
  | file (fileLast : ℕ)
deriving Repr, DecidableEq

/-- The settings a body is read under: `client_body_buffer_size`,
`large_client_header_buffers`, the size of a free large buffer of the connection if it has
one, `client_max_body_size`, `request_body_in_single_buf`, `request_body_in_file_only`, and
the input body filter, which is shown all the buffers it has been passed so far and passes
or refuses the last: no filter of the repository answers `NGX_AGAIN`. The configuration is
refused when a large buffer is smaller than the connection pool. -/
structure BodyConf where
  clientBodyBufferSize : ℕ
  largeSize : ℕ
  largePos : 0 < largeSize
  freeLarge : Option ℕ := none
  clientMaxBodySize : ℕ := 0
  inSingleBuf : Bool := false
  inFileOnly : Bool := false
  inputFilter : List (List UInt8) → Bool := fun _ => true

/-- What a request has while its body is read. `passed` is what the input body filter has
been called with; `wire` is what has not been read from the connection. -/
structure BodyState where
  mem : ByteMemory
  headerIn : MemBuf
  chunked : Bool
  contentLengthN : ℤ
  wire : List UInt8
  buf : Option MemBuf := none
  rest : ℤ := -1
  ctx : ChunkedCtx := {}
  bufs : List BodyPart := []
  tempFile : Option (List UInt8) := none
  lastSaved : Bool := false
  passed : List (List UInt8) := []

/-- Where the source gives up. -/
inductive BodyError
  | duplicateLast | inputFilter | alreadyInFile | tooLarge | invalidChunked | negativeRest
  | busyBuffers | closed | pipelinedTooLarge
deriving Repr, DecidableEq

/-- The bytes of a buffer. -/
def BodyBuf.bytes (m : ByteMemory) (b : BodyBuf) : List UInt8 := m.slice b.area b.pos b.last

/-- The bytes of an entry. -/
@[grind =]
def BodyPart.bytes (m : ByteMemory) (tempFile : Option (List UInt8)) : BodyPart → List UInt8
  | mem b => b.bytes m
  | file n => (tempFile.getD []).take n

/-- The body that `rb->bufs` stands for. -/
def BodyState.content (st : BodyState) : List UInt8 :=
  st.bufs.flatMap (BodyPart.bytes st.mem st.tempFile)

/-! ### The save filter -/

/-- `ngx_http_write_request_body`: what `rb->bufs` holds goes to the end of the file. -/
def writeRequestBody (st : BodyState) : BodyState :=
  { st with tempFile := some (st.tempFile.getD [] ++ st.content), bufs := [] }

/-- The loop over `in` that calls the input body filter. -/
@[grind =]
def passInput (conf : BodyConf) (m : ByteMemory) (passed : List (List UInt8)) :
    List BodyBuf → Except BodyError (List (List UInt8))
  | [] => .ok passed
  | b :: bs =>
    let passed := passed ++ [b.bytes m]
    if conf.inputFilter passed then passInput conf m passed bs else .error .inputFilter

/-- The loop over `in` that links its buffers to `rb->bufs`; `whole` is all of `in`. -/
@[grind =]
def saveBufs (conf : BodyConf) (whole : List BodyBuf) (st : BodyState) :
    List BodyBuf → Except BodyError BodyState
  | [] => .ok st
  | b :: bs =>
    if b.lastBuf then
      if st.lastSaved then .error .duplicateLast
      else
        match passInput conf st.mem st.passed whole with
        | .error e => .error e
        | .ok passed =>
          saveBufs conf whole
            { st with lastSaved := true, passed := passed, bufs := st.bufs ++ [.mem b] } bs
    else saveBufs conf whole { st with bufs := st.bufs ++ [.mem b] } bs

/-- `rb->buf->last == rb->buf->end`. -/
def bufFull (st : BodyState) : Bool :=
  match st.buf with
  | some b => b.last = b.stop
  | none => false

/-- The end of the save filter, for a body that is complete. -/
def saveEnd (conf : BodyConf) (st : BodyState) : Except BodyError BodyState :=
  if st.tempFile.isSome || conf.inFileOnly then
    match st.bufs with
    | .file _ :: _ => .error .alreadyInFile
    | _ =>
      let st := writeRequestBody st
      let offset := (st.tempFile.getD []).length
      .ok (if offset ≠ 0 then { st with bufs := [.file offset] } else st)
  else .ok st

/-- `ngx_http_request_body_save_filter`. -/
def saveFilter (conf : BodyConf) (st : BodyState) (input : List BodyBuf) :
    Except BodyError BodyState :=
  match saveBufs conf input st input with
  | .error e => .error e
  | .ok st =>
    if 0 < st.rest then .ok (if st.bufs ≠ [] ∧ bufFull st then writeRequestBody st else st)
    else if !st.lastSaved then .ok st
    else saveEnd conf st

/-! ### The framing filters

The chain a filter is given is empty or has one buffer; with the new state the filter
returns what it has made of that buffer. -/

/-- The first call: `rb->rest` is set, and a body of length zero is complete. -/
def lengthStart (st : BodyState) : BodyState × List BodyBuf :=
  if st.rest = -1 then
    ({ st with rest := st.contentLengthN }, if st.contentLengthN = 0 then [lastOnly] else [])
  else (st, [])

/-- What the loop of the length filter makes of a buffer. -/
def lengthTake (rest : ℤ) (b : MemBuf) : ℤ × BodyBuf × MemBuf :=
  if ((b.last - b.pos : ℕ) : ℤ) < rest then
    (rest - (b.last - b.pos : ℕ), ⟨b.area, b.pos, b.last, false⟩, { b with pos := b.last })
  else
    (0, ⟨b.area, b.pos, b.pos + rest.toNat, true⟩, { b with pos := b.pos + rest.toNat })

/-- `ngx_http_request_body_length_filter`. -/
def lengthFilter (conf : BodyConf) (st : BodyState) (b : Option MemBuf) :
    Except BodyError (BodyState × Option MemBuf) :=
  let (st, out) := lengthStart st
  match b with
  | none => (saveFilter conf st out).map (·, none)
  | some b =>
    if st.rest = 0 then (saveFilter conf st out).map (·, some b)
    else
      let (rest, o, b) := lengthTake st.rest b
      (saveFilter conf { st with rest := rest } (out ++ [o])).map (·, some b)

/-- The variables of the chunked filter's loop over a buffer: `b` of the source is `cur`,
and `out` is what was linked before it. -/
structure ChunkedVars where
  ctx : ChunkedCtx
  contentLengthN : ℤ
  mem : ByteMemory
  pos : ℕ
  out : List BodyBuf := []
  cur : Option BodyBuf := none

/-- All the buffers the loop has linked. -/
def ChunkedVars.linked (v : ChunkedVars) : List BodyBuf := v.out ++ v.cur.toList

/-- A small chunk is moved behind the data of the buffer before it: `n` bytes from `p`. -/
def moveChunk (m : ByteMemory) (c : BodyBuf) (p n : ℕ) : ByteMemory :=
  if n < 8 then m.copyForward c.area c.last p n
  else m.write c.area c.last (m.slice c.area p (p + n))

/-- `NGX_OK` from the parser, with `b->pos` at `p`: the chunk is moved, or a new buffer is
linked for as much of it as is there. -/
def chunkFound (area : Area) (last p : ℕ) (ctx : ChunkedCtx) (v : ChunkedVars) : ChunkedVars :=
  let size := last - p
  let link : ChunkedVars :=
    let n := if size > ctx.size then ctx.size else size
    { v with ctx := { ctx with size := ctx.size - n }, contentLengthN := v.contentLengthN + n,
             pos := p + n, out := v.linked, cur := some ⟨area, p, p + n, false⟩ }
  match v.cur with
  | none => link
  | some c =>
    if ctx.size ≤ 128 ∧ size ≥ ctx.size then
      { v with ctx := { ctx with size := 0 }, contentLengthN := v.contentLengthN + ctx.size,
               mem := moveChunk v.mem c p ctx.size, pos := p + ctx.size,
               cur := some { c with last := c.last + ctx.size } }
    else link

/-- The parser goes over the data of a chunk that is there. -/
theorem chunkFound_pos (area : Area) (last p : ℕ) (ctx : ChunkedCtx) (v : ChunkedVars) :
    (chunkFound area last p ctx v).pos = p + min ctx.size (last - p) := by
  rw [chunkFound]
  split
  · simp only
    split <;> omega
  · split
    · simp only
      omega
    · simp only
      split <;> omega

/-- The chunked filter goes on with each chunk. -/
theorem chunkFound_lt {m : ByteMemory} {area : Area} {pos last : ℕ} {ctx ctx' : ChunkedCtx}
    {rest : List UInt8} (h : parseChunked ctx (m.slice area pos last) = (.ok, ctx', rest))
    (v : ChunkedVars) :
    last - (chunkFound area last (last - rest.length) ctx' v).pos < last - pos := by
  have hless := parseChunked_ok_length h
  rw [List.length_drop, ChunkedCtx.avail, Memory.slice_length] at hless
  rw [chunkFound_pos]
  omega

/-- The loop of the chunked filter over a buffer that ends at `last`: with its variables it
returns the new `rb->rest`. -/
@[grind =]
def chunkedLoop (conf : BodyConf) (area : Area) (last : ℕ) (v : ChunkedVars) :
    Except BodyError (ChunkedVars × ℤ) :=
  match _h : parseChunked v.ctx (v.mem.slice area v.pos last) with
  | (.ok, ctx, rest) =>
    if conf.clientMaxBodySize ≠ 0 ∧ conf.clientMaxBodySize - v.contentLengthN < (ctx.size : ℤ) then
      .error .tooLarge
    else chunkedLoop conf area last (chunkFound area last (last - rest.length) ctx v)
  | (.done, ctx, rest) =>
    .ok ({ v with ctx := ctx, pos := last - rest.length, out := v.linked, cur := some lastOnly }, 0)
  | (.again, ctx, rest) =>
    .ok ({ v with ctx := ctx, pos := last - rest.length }, max (ctx.length : ℤ) conf.largeSize)
  | _ => .error .invalidChunked
termination_by last - v.pos
decreasing_by exact chunkFound_lt _h v

/-- The first call. -/
def chunkedFirst (conf : BodyConf) (st : BodyState) : BodyState :=
  if st.rest = -1 then { st with ctx := {}, contentLengthN := 0, rest := conf.largeSize } else st

/-- `ngx_http_request_body_chunked_filter`. -/
def chunkedFilter (conf : BodyConf) (st : BodyState) (b : Option MemBuf) :
    Except BodyError (BodyState × Option MemBuf) :=
  let st := chunkedFirst conf st
  match b with
  | none => (saveFilter conf st []).map (·, none)
  | some b =>
    match chunkedLoop conf b.area b.last ⟨st.ctx, st.contentLengthN, st.mem, b.pos, [], none⟩ with
    | .error e => .error e
    | .ok (v, rest) =>
      (saveFilter conf { st with ctx := v.ctx, contentLengthN := v.contentLengthN, mem := v.mem,
                                 rest := rest } v.linked).map
        (·, some { b with pos := v.pos })

/-- `ngx_http_request_body_filter`. -/
def bodyFilter (conf : BodyConf) (st : BodyState) (b : Option MemBuf) :
    Except BodyError (BodyState × Option MemBuf) :=
  if st.chunked then chunkedFilter conf st b else lengthFilter conf st b

/-! ### Reading -/

/-- What a call of `recv` does: nothing is there, the client has closed the connection, or
up to `n` bytes arrive; `ready` is the event's flag afterwards. -/
inductive Recv
  | again
  | closed
  | data (n : ℕ) (ready : Bool)
deriving Repr, DecidableEq

/-- How reading ends: the body is handed to the post handler, the request waits for more,
or it fails. -/
inductive BodyOutcome
  | ok (st : BodyState)
  | waiting (st : BodyState)
  | error (e : BodyError)

/-- `rb->busy`: the buffers that were passed on and have not been written to the file.
They are those of `rb->bufs`, as one write empties them all. -/
def busy (st : BodyState) : Bool :=
  st.bufs.any fun
    | .mem b => b.pos ≠ b.last
    | .file _ => false

/-- `ngx_http_copy_pipelined_header`. -/
def copyPipelinedHeader (conf : BodyConf) (st : BodyState) (b : MemBuf) :
    Except BodyError BodyState :=
  let n := b.last - b.pos
  let bytes := st.mem.slice b.area b.pos b.last
  let copy (h : MemBuf) : BodyState :=
    { st with headerIn := { h with last := h.last + n }, mem := st.mem.write h.area h.last bytes }
  if n = 0 then .ok st
  else if n > st.headerIn.stop - st.headerIn.last then
    let h : MemBuf := ⟨.large, 0, 0, 0, conf.freeLarge.getD conf.largeSize⟩
    if n > h.stop - h.last then .error .pipelinedTooLarge else .ok (copy h)
  else .ok (copy st.headerIn)

/-- The buffer to read into: one that is full is used again from its start, when the
chains have been updated; the flag says that it was full. -/
def nextBuf (conf : BodyConf) (st : BodyState) (b : MemBuf) :
    Except BodyError (BodyState × MemBuf × Bool) :=
  if b.last = b.stop then
    match bodyFilter conf st none with
    | .error e => .error e
    | .ok (st, _) =>
      if busy st then .error .busyBuffers
      else
        let b := { b with pos := b.start, last := b.start }
        .ok ({ st with buf := some b }, b, true)
  else .ok (st, b, false)

/-- How many bytes `recv` is asked for. -/
def recvSize (st : BodyState) (b : MemBuf) : ℕ :=
  min (b.stop - b.last) (st.rest - (b.last - b.pos : ℕ)).toNat

/-- `k` bytes arrive in the buffer. -/
def arrive (st : BodyState) (b : MemBuf) (k : ℕ) : BodyState :=
  { st with mem := st.mem.write b.area b.last (st.wire.take k), wire := st.wire.drop k,
            buf := some { b with last := b.last + k } }

/-- They are passed to the filter. -/
def receive (conf : BodyConf) (st : BodyState) (b : MemBuf) (k : ℕ) :
    Except BodyError BodyState :=
  match bodyFilter conf (arrive st b k) (some { b with last := b.last + k }) with
  | .error e => .error e
  | .ok (st, b) => .ok { st with buf := b }

/-- `if (flush) { rc = ngx_http_request_body_filter(r, NULL); }`. -/
def flushFilter (conf : BodyConf) (flush : Bool) (st : BodyState) : Except BodyError BodyState :=
  if flush then (bodyFilter conf st none).map Prod.fst else .ok st

/-- Behind the reading loop, where there is nothing left to read. -/
def finishRead (conf : BodyConf) (flush : Bool) (st : BodyState) : BodyOutcome :=
  match flushFilter conf flush st with
  | .error e => .error e
  | .ok st =>
    if st.lastSaved then
      match st.buf with
      | none => .ok st
      | some b =>
        match copyPipelinedHeader conf st b with
        | .error e => .error e
        | .ok st => .ok st
    else .waiting st

/-- `ngx_http_do_read_client_request_body` with the buffer `b`, called again for every read
event; `flush` is set in a new call and cleared by what happens in it. -/
def doRead (conf : BodyConf) (script : List Recv) (flush : Bool) (st : BodyState) (b : MemBuf) :
    BodyOutcome :=
  if st.rest = 0 then finishRead conf flush st
  else
    match nextBuf conf st b with
    | .error e => .error e
    | .ok (st, b, reused) =>
      -- A buffer of size zero takes nothing: the source goes round in circles.
      if recvSize st b = 0 then .waiting st
      else
        match script with
        | [] => .waiting st
        | .closed :: _ => .error .closed
        | .again :: script =>
          match flushFilter conf (flush && !reused) st with
          | .error e => .error e
          | .ok st => doRead conf script true st b
        | .data n ready :: script =>
          let k := min n (min (recvSize st b) st.wire.length)
          if k = 0 then
            match flushFilter conf (flush && !reused) st with
            | .error e => .error e
            | .ok st => doRead conf script true st b
          else
            match receive conf st b k with
            | .error e => .error e
            | .ok st =>
              if st.rest = 0 then finishRead conf false st
              else
                let b := st.buf.getD b
                doRead conf script (b.last < b.stop && !ready) st b

/-- The size of the client body buffer. -/
def bodyBufSize (conf : BodyConf) (st : BodyState) (preread : ℕ) : ℕ :=
  let size := conf.clientBodyBufferSize + conf.clientBodyBufferSize / 4
  if !st.chunked ∧ st.rest < (size : ℤ) then
    let size := if conf.inSingleBuf then st.rest.toNat + preread else st.rest.toNat
    if size = 0 then 1 else size
  else conf.clientBodyBufferSize

/-- The second half of `ngx_http_read_client_request_body`, behind the pre-read part. -/
def readRest (conf : BodyConf) (script : List Recv) (st : BodyState) (preread : ℕ) :
    BodyOutcome :=
  if st.rest = 0 ∧ st.lastSaved then .ok st
  else if st.rest < 0 then .error .negativeRest
  else
    let b : MemBuf := ⟨.body, 0, 0, 0, bodyBufSize conf st preread⟩
    doRead conf script true { st with buf := some b } b

/-- `ngx_http_read_client_request_body`, for a request whose body nobody has touched. -/
def readClientRequestBody (conf : BodyConf) (script : List Recv) (st : BodyState) :
    BodyOutcome :=
  if st.contentLengthN < 0 ∧ !st.chunked then .ok st
  else
    let preread := st.headerIn.last - st.headerIn.pos
    if preread ≠ 0 then
      match bodyFilter conf st (some st.headerIn) with
      | .error e => .error e
      | .ok (st, h) =>
        let st := { st with headerIn := h.getD st.headerIn }
        let b : MemBuf := { st.headerIn with start := st.headerIn.pos }
        -- The whole body may be placed behind the header.
        if !st.chunked ∧ 0 < st.rest ∧
            st.rest ≤ ((st.headerIn.stop - st.headerIn.last : ℕ) : ℤ) then
          doRead conf script true { st with buf := some b } b
        else readRest conf script st preread
    else
      match bodyFilter conf st none with
      | .error e => .error e
      | .ok (st, _) => readRest conf script st preread

/-! ### Discarding -/

end Hengine
