import Hengine.Http.Bytes
import Mathlib.Algebra.Order.Ring.Int

/-!
# The Slice Filter

`ngx_http_slice_filter_module.c`, with the part of `ngx_http_range_filter_module.c` that
decides which range of the response is served. The filter asks the upstream for aligned
slices of the configured size, one after the other; the first is the one in which the range
of the client's `Range` header starts, and the header filter of the first answer finds out
where the served range ends.

An `off_t` is a 64-bit number in two's complement. A sum that does not fit is cut to it, as
the machine does; every sum the filter forms is recorded as it would be without the cut, so
that an overflow can be spoken of. A text is the bytes of a header value before its
terminating zero.
-/

namespace Hengine

/-! ### Numbers -/

/-- A sum in an `off_t`. -/
def offT (x : ℤ) : ℤ := (x + 2 ^ 63) % 2 ^ 64 - 2 ^ 63

/-- A sum that an `off_t` holds. -/
def FitsOffT (x : ℤ) : Prop := -2 ^ 63 ≤ x ∧ x < 2 ^ 63

/-- `while (*p == ' ') { p++; }`. -/
def skipSpaces (p : List UInt8) : List UInt8 := p.dropWhile fun c => c == byte ' '

/-- The loop over the digits of a number, with its test against `cutoff` and `cutlim`. -/
@[grind =]
def parseOff : ℕ → List UInt8 → Option (ℕ × List UInt8)
  | n, [] => some (n, [])
  | n, c :: cs =>
    if isDigit c then
      if n ≥ maxOffT / 10 ∧ (n > maxOffT / 10 ∨ (c - byte '0').toNat > maxOffT % 10) then none
      else parseOff (n * 10 + (c - byte '0').toNat) cs
    else some (n, c :: cs)

/-- `*p >= '0' && *p <= '9'`. -/
def startsDigit (p : List UInt8) : Bool := (p.head?.map isDigit).getD false

/-- `*p == ',' || *p == '\0'`. -/
def endsSpec (p : List UInt8) : Bool := p.head? == none || p.head? == some (byte ',')

/-- A number that must start with a digit. -/
def parseNumber (p : List UInt8) : Option (ℕ × List UInt8) :=
  if startsDigit p then parseOff 0 p else none

/-- One character that must stand there. -/
def expectByte (c : UInt8) (p : List UInt8) : Option (List UInt8) :=
  if p.head? = some c then some p.tail else none

/-! ### The client's range -/

/-- The headers of the client's request that are read: `Range`, and of `If-Range` whether it
stands for the response. -/
structure SliceRequest where
  range : Option (List UInt8)
  ifRange : Option Bool
deriving Repr, DecidableEq

/-- `"bytes="`. -/
def bytesEq : List UInt8 := "bytes=".toUTF8.toList

/-- The tests on the header value that both filters make: what stands behind `bytes=`. -/
def SliceRequest.spec (req : SliceRequest) : Option (List UInt8) :=
  req.range.bind fun v =>
    if v.length < 7 ∨ (v.take 6).map tolower ≠ bytesEq then none else some (v.drop 6)

/-- `ngx_http_slice_get_start`. -/
def sliceGetStart (req : SliceRequest) : ℕ :=
  if req.ifRange.isSome then 0
  else
    match req.spec with
    | none => 0
    | some p =>
      if p.contains (byte ',') then 0
      else if (skipSpaces p).head? = some (byte '-') then 0
      else ((parseOff 0 (skipSpaces p)).map Prod.fst).getD 0

/-- The end of one range of `ngx_http_range_parse`, from its second number. -/
def rangeEnd (len : ℤ) (start : ℤ) (suffix : Bool) (p : List UInt8) :
    Option (ℤ × ℤ × List UInt8) :=
  match parseNumber p with
  | none => none
  | some (n, p) =>
    let p := skipSpaces p
    if endsSpec p then
      let start := if suffix then (if (n : ℤ) < len then len - n else 0) else start
      let last : ℤ := if suffix then len - 1 else n
      some (start, if len ≤ last then len else last + 1, p)
    else none

/-- One range of `ngx_http_range_parse`: where it starts and ends, and what follows it. -/
def rangeSpec (len : ℤ) (p : List UInt8) : Option (ℤ × ℤ × List UInt8) :=
  let p := skipSpaces p
  if p.head? = some (byte '-') then rangeEnd len 0 true p.tail
  else
    match parseNumber p with
    | none => none
    | some (start, p) =>
      match expectByte (byte '-') (skipSpaces p) with
      | none => none
      | some p =>
        let p := skipSpaces p
        if endsSpec p then some (start, len, p) else rangeEnd len start false p

/-- What `ngx_http_range_parse` returns; with `r->single_range` there is one range at most. -/
inductive RangeRc
  | ok (ranges : List (ℤ × ℤ))
  | declined
  | notSatisfiable
deriving Repr, DecidableEq

/-- What one turn of the loop of `ngx_http_range_parse` leads to. -/
inductive RangeStep
  | stop (rc : RangeRc)
  | more (left : ℕ) (ranges : List (ℤ × ℤ)) (size : ℤ) (p : List UInt8)
deriving Repr, DecidableEq

/-- Behind a range: the next one, or the end of the loop. -/
def rangeAfter (len : ℤ) (left : ℕ) (ranges : List (ℤ × ℤ)) (size : ℤ) (p : List UInt8) :
    RangeStep :=
  if p.head? = some (byte ',') then .more left ranges size p.tail
  else if ranges = [] then .stop .notSatisfiable
  else if size > len then .stop .declined
  else .stop (.ok ranges)

/-- One turn of the loop. -/
def rangeStep (len : ℤ) (left : ℕ) (ranges : List (ℤ × ℤ)) (size : ℤ) (p : List UInt8) :
    RangeStep :=
  match rangeSpec len p with
  | none => .stop .notSatisfiable
  | some (start, stop, p) =>
    if start < stop then
      if size > maxOffT - (stop - start) then .stop .notSatisfiable
      else if left = 0 then .stop .declined
      else rangeAfter len (left - 1) (ranges ++ [(start, stop)]) (size + (stop - start)) p
    else if start = 0 then .stop .declined
    else rangeAfter len left ranges size p

/-- `ngx_http_range_parse` for a response of length `len`, with `left` ranges allowed. -/
@[grind =]
def rangeParse (len : ℤ) : ℕ → ℕ → List (ℤ × ℤ) → ℤ → List UInt8 → RangeRc
  | 0, _, _, _, _ => .notSatisfiable
  | fuel + 1, left, ranges, size, p =>
    match rangeStep len left ranges size p with
    | .stop rc => rc
    | .more left ranges size p => rangeParse len fuel left ranges size p

/-- What the range filter makes of the response: all of it is sent, or one range, or the
request ends with status 416. -/
inductive RangeOutcome
  | passed
  | part (start stop : ℤ)
  | notSatisfiable
deriving Repr, DecidableEq

/-- `ngx_http_range_header_filter` for a response of length `len` that allows one range. -/
def rangeHeaderFilter (maxRanges : ℕ) (req : SliceRequest) (len : ℤ) : RangeOutcome :=
  if maxRanges = 0 then .passed
  else
    match req.spec with
    | none => .passed
    | some p =>
      if req.ifRange = some false then .passed
      else
        match rangeParse len (p.length + 1) 1 [] 0 p with
        | .ok ((start, stop) :: _) => .part start stop
        | .ok [] => .passed
        | .notSatisfiable => .notSatisfiable
        | .declined => .passed

/-- The range that is served. -/
def RangeOutcome.served (len : ℤ) : RangeOutcome → ℤ × ℤ
  | .passed => (0, len)
  | .part start stop => (start, stop)
  | .notSatisfiable => (0, 0)

/-- `ngx_http_range_singlepart_body`: which bytes of `start .. last` are passed on. -/
def RangeOutcome.body (start last : ℤ) : RangeOutcome → List ℕ
  | .passed => List.range' start.toNat (last - start).toNat
  | .part lo hi =>
    if hi ≤ start ∨ last ≤ lo then []
    else List.range' (max start lo).toNat (min last hi - max start lo).toNat
  | .notSatisfiable => []

/-! ### The upstream's answers -/

/-- The headers of an answer that are read. -/
structure SliceResponse where
  status : ℕ
  etag : Option (List UInt8)
  contentRange : Option (List UInt8)
deriving Repr, DecidableEq

/-- `ngx_http_slice_content_range_t`; the complete length is missing for `*`. -/
structure ContentRange where
  start : ℤ
  stop : ℤ
  completeLength : Option ℤ
deriving Repr, DecidableEq

/-- `"bytes "`. -/
def bytesBlank : List UInt8 := "bytes ".toUTF8.toList

/-- The complete length of `ngx_http_slice_parse_content_range`, and what follows it. -/
def parseComplete (p : List UInt8) : Option (Option ℤ × List UInt8) :=
  if p.head? = some (byte '*') then some (none, p.tail)
  else (parseNumber p).map fun t => (some (t.1 : ℤ), t.2)

/-- `ngx_http_slice_parse_content_range`: the range, and the sum of its `end++`. -/
def sliceParseContentRange (v : List UInt8) : Option (ContentRange × ℤ) :=
  if v.length < 7 ∨ v.take 6 ≠ bytesBlank then none
  else do
    let (start, p) ← parseNumber (skipSpaces (v.drop 6))
    let p ← expectByte (byte '-') (skipSpaces p)
    let (last, p) ← parseNumber (skipSpaces p)
    let p ← expectByte (byte '/') (skipSpaces p)
    let (complete, p) ← parseComplete (skipSpaces p)
    if skipSpaces p = [] then some (⟨start, offT (last + 1), complete⟩, last + 1) else none

/-! ### The filter -/

/-- A location with `slice`, and its `max_ranges`. -/
structure SliceConf where
  size : ℕ
  maxRanges : ℕ
  size_pos : 0 < size
  size_le : size ≤ maxOffT

/-- `ngx_http_slice_ctx_t`: an empty `etag` is none, and `range` is what `$slice_range` says. -/
structure SliceCtx where
  start : ℤ
  stop : ℤ := 0
  range : ℤ × ℤ
  etag : List UInt8 := []
  active : Bool := false
deriving Repr, DecidableEq

/-- The error log messages of the filter. -/
inductive SliceError
  | status
  | etag
  | invalidRange
  | noCompleteLength
  | unexpectedRange
deriving Repr, DecidableEq

/-- `"bytes=%O-%O"` of a start, with the sums it takes. -/
def SliceConf.ask (conf : SliceConf) (start : ℤ) : (ℤ × ℤ) × List ℤ :=
  ((start, offT (offT (start + conf.size) - 1)), [start + conf.size, offT (start + conf.size) - 1])

/-- `ngx_http_slice_range_variable`: the context of the request. -/
def sliceRangeVariable (conf : SliceConf) (req : SliceRequest) : SliceCtx × List ℤ :=
  let start : ℤ := (conf.size * (sliceGetStart req / conf.size) : ℕ)
  let ask := conf.ask start
  ({ start := start, range := ask.1 }, ask.2)

/-- The tests of `ngx_http_slice_header_filter`: the range of the answer, its complete length,
and the sum it takes. -/
def sliceCheck (ctx : SliceCtx) (resp : SliceResponse) :
    Except SliceError (ContentRange × ℤ × ℤ) :=
  if ctx.etag ≠ [] ∧ resp.etag ≠ some ctx.etag then .error .etag
  else
    match resp.contentRange.bind sliceParseContentRange with
    | none => .error .invalidRange
    | some (cr, sum) =>
      match cr.completeLength with
      | none => .error .noCompleteLength
      | some len => .ok (cr, len, sum)

/-- `ngx_http_slice_header_filter` up to the next filter: what a `206` answer leads to, with
its range, the complete length and the sums it takes. -/
def sliceAccept (conf : SliceConf) (ctx : SliceCtx) (resp : SliceResponse) :
    Except SliceError (SliceCtx × ContentRange × ℤ × List ℤ) :=
  match sliceCheck ctx resp with
  | .error e => .error e
  | .ok (cr, len, sum) =>
    let stop := min (offT (cr.start + conf.size)) len
    if cr.start ≠ ctx.start ∨ cr.stop ≠ stop then .error .unexpectedRange
    else
      .ok ({ ctx with start := stop, active := true, etag := resp.etag.getD ctx.etag }, cr, len,
        [sum, cr.start + conf.size])

/-- The end of `ngx_http_slice_header_filter` for the main request: the range filter has
looked at the response. -/
def sliceServed (conf : SliceConf) (ctx : SliceCtx) (len : ℤ) : RangeOutcome → SliceCtx × List ℤ
  | .part lo hi =>
    let jump := offT (ctx.start + conf.size) ≤ lo
    ({ ctx with start := if jump then conf.size * (lo / conf.size) else ctx.start,
                stop := offT (lo + (hi - lo)) },
      [ctx.start + conf.size, lo + (hi - lo)])
  | _ => ({ ctx with stop := len }, [])

/-- How the request ends. -/
inductive SliceEnd
  | served
  | passedOn
  | notSatisfiable
  | failed (e : SliceError)
  | unfinished
deriving Repr, DecidableEq

/-- What the filter has done: the ranges it asked for, the bytes it passed on, the sums it
formed, and how it ended. -/
structure SliceRun where
  asked : List (ℤ × ℤ)
  delivered : List ℕ
  sums : List ℤ
  ending : SliceEnd
deriving Repr, DecidableEq

/-- One more slice before the rest of a run. -/
def SliceRun.cons (ask : ℤ × ℤ) (bytes : List ℕ) (sums : List ℤ) (r : SliceRun) : SliceRun :=
  { r with asked := ask :: r.asked, delivered := bytes ++ r.delivered, sums := sums ++ r.sums }

/-- The subrequests of `ngx_http_slice_body_filter`, each made when the one before is done.
`up` is the upstream. -/
@[grind =]
def sliceLoop (conf : SliceConf) (up : ℤ × ℤ → SliceResponse) (range : RangeOutcome) :
    ℕ → SliceCtx → SliceRun
  | 0, _ => ⟨[], [], [], .unfinished⟩
  | fuel + 1, ctx =>
    if ctx.stop ≤ ctx.start then ⟨[], [], [], .served⟩
    else
      let ask := conf.ask ctx.start
      let resp := up ask.1
      if resp.status ≠ 206 then ⟨[ask.1], [], ask.2, .failed .status⟩
      else
        match sliceAccept conf { ctx with range := ask.1, active := false } resp with
        | .error e => ⟨[ask.1], [], ask.2, .failed e⟩
        | .ok (ctx, cr, _, sums) =>
          (sliceLoop conf up range fuel ctx).cons ask.1 (range.body cr.start cr.stop)
            (ask.2 ++ sums)

/-- A request through the filter: the first slice, and the subrequests. -/
def sliceServe (conf : SliceConf) (req : SliceRequest) (up : ℤ × ℤ → SliceResponse)
    (fuel : ℕ) : SliceRun :=
  let first := sliceRangeVariable conf req
  let resp := up first.1.range
  if resp.status ≠ 206 then ⟨[first.1.range], [], first.2, .passedOn⟩
  else
    match sliceAccept conf first.1 resp with
    | .error e => ⟨[first.1.range], [], first.2, .failed e⟩
    | .ok (ctx, cr, len, sums) =>
      let range := rangeHeaderFilter conf.maxRanges req len
      if range = .notSatisfiable then
        ⟨[first.1.range], [], first.2 ++ sums, .notSatisfiable⟩
      else
        let t := sliceServed conf ctx len range
        (sliceLoop conf up range fuel t.1).cons first.1.range (range.body cr.start cr.stop)
          (first.2 ++ sums ++ t.2)

end Hengine
