import Hengine.Http.Bytes
import Mathlib.Algebra.Order.Ring.Int

/-!
# The Substitution Filter

`ngx_http_sub_filter_module.c`: the search tables, the search in one buffer, and the body
filter around it. A search string is found with a shift table over the byte at the place
`min_match_len - 1`; the strings are sorted by that byte, and `index` says where those with
a given byte start. What could still become a match is kept in `looked` when a buffer ends,
and positions are counted from `pos`, so that those in `looked` are negative.

A buffer is its bytes and the flags the filter reads. The chains `busy` and `free` and the
places a buffer has in a file are left out; what a `sub_filter` value evaluates to is part
of its entry.
-/

namespace Hengine

/-! ### Configuration -/

/-- `ngx_http_sub_match_t`, with what its value evaluates to. -/
structure SubMatch where
  pattern : List UInt8
  value : List UInt8
deriving Repr, DecidableEq

/-- `ngx_http_sub_tables_t`. -/
structure SubTables where
  minMatchLen : ℕ
  maxMatchLen : ℕ
  index : List ℕ
  shift : UInt8 → ℕ

/-- The inner loop of `ngx_sort`, on the sorted part read from its end. -/
@[grind =]
def ngxSortInsert {α : Type*} (greater : α → α → Bool) (x : α) : List α → List α
  | [] => [x]
  | y :: ys => if greater y x then y :: ngxSortInsert greater x ys else x :: y :: ys

/-- `ngx_sort`: the insertion sort of the core. -/
def ngxSort {α : Type*} (greater : α → α → Bool) (xs : List α) : List α :=
  (xs.foldl (fun sorted x => ngxSortInsert greater x sorted) []).reverse

/-- `match.data[ngx_http_sub_cmp_index]`. -/
def SubMatch.key (n : ℕ) (m : SubMatch) : UInt8 := m.pattern.getD n 0

/-- `tables->shift` when one more search string is taken in: the loop over `j`. -/
def shiftPattern (last : ℕ) (pattern : List UInt8) (shift : UInt8 → ℕ) (n : ℕ) : UInt8 → ℕ :=
  (List.range n).foldl
    (fun shift j =>
      let c := pattern.getD (last - j) 0
      Function.update shift c (min (shift c) j)) shift

/-- `tables->index`, filled from the front: `ch` is how much of it is filled. -/
@[grind =]
def fillIndex : List UInt8 → ℕ → List ℕ → List ℕ
  | [], i, index => index ++ List.replicate (257 - index.length) (i % 256)
  | c :: cs, i, index =>
    fillIndex cs (i + 1) (index ++ List.replicate (c.toNat + 1 - index.length) (i % 256))

/-- `ngx_http_sub_init_tables`: the tables, and the entries in their order. -/
def subInitTables (entries : List SubMatch) : SubTables × List SubMatch :=
  let lens := entries.map fun m => m.pattern.length
  let len := lens.head?.getD 0
  let minLen := lens.foldl min len
  let maxLen := lens.foldl max len
  let last := minLen - 1
  let sorted := ngxSort (fun a b => decide (b.key last < a.key last)) entries
  let n := min minLen 255
  (⟨minLen, maxLen, fillIndex (sorted.map (SubMatch.key last)) 0 [],
      sorted.foldl (fun shift m => shiftPattern last m.pattern shift n) fun _ => n⟩,
    sorted)

/-- A location with `sub_filter`: at most 255 pairs, as evaluated for the request. -/
structure SubConf where
  pairs : List SubMatch
  once : Bool
  pairs_le : pairs.length ≤ 255

/-- The entries of `ngx_http_sub_header_filter`: empty search strings are left out, and the
others are in lower case. -/
def SubConf.entries (conf : SubConf) : List SubMatch :=
  (conf.pairs.filter fun m => !m.pattern.isEmpty).map fun m =>
    { m with pattern := m.pattern.map tolower }

/-- `ctx->tables`. -/
def SubConf.tables (conf : SubConf) : SubTables := (subInitTables conf.entries).1

/-- `ctx->matches`. -/
def SubConf.table (conf : SubConf) : List SubMatch := (subInitTables conf.entries).2

/-! ### The search in a buffer -/

/-- `ngx_http_sub_ctx_t`: `sub` holds the entries whose value has been evaluated. -/
structure SubCtx where
  looked : List UInt8 := []
  once : Bool := false
  sub : List ℕ := []
  applied : ℕ := 0
  offset : ℤ
  index : ℕ := 0
deriving Repr, DecidableEq

/-- `NGX_OK`, `NGX_AGAIN` and `NGX_DECLINED` of `ngx_http_sub_match`. -/
inductive SubRc
  | ok
  | again
  | declined
deriving Repr, DecidableEq

/-- A comparison loop of `ngx_http_sub_match`: what is left of the search string when it or
the text has ended, or `none` where they differ. -/
@[grind =]
def compareRun : List UInt8 → List UInt8 → Option (List UInt8)
  | t :: ts, p :: ps => if tolower t ≠ p then none else compareRun ts ps
  | _, ps => some ps

/-- The result of `ngx_http_sub_match` for what is left of the search string. -/
def matchRc : Option (List UInt8) → SubRc
  | none => .declined
  | some [] => .ok
  | some (_ :: _) => .again

/-- `ngx_http_sub_match`: `looked`, and `data` from `ctx->pos` to the end of the buffer. -/
def subMatch (looked data : List UInt8) (start : ℤ) (pattern : List UInt8) : SubRc :=
  matchRc <|
    if 0 ≤ start then compareRun (data.drop start.toNat) pattern
    else (compareRun (looked.drop (looked.length + start).toNat) pattern).bind (compareRun data)

/-- The byte at an offset: `ctx->looked.data[ctx->looked.len + offset]` or
`ctx->pos[offset]`. -/
def subByte (looked data : List UInt8) (offset : ℤ) : UInt8 :=
  if offset < 0 then looked.getD (looked.length + offset).toNat 0 else data.getD offset.toNat 0

section Parse

variable (conf : SubConf) (ctx : SubCtx) (data : List UInt8)

/-- The loop over `i`: the first entry that is not declined, with `n` of them to go. -/
@[grind =]
def subCandidates (start : ℤ) : ℕ → ℕ → Option (ℕ × SubRc)
  | 0, _ => none
  | n + 1, i =>
    if conf.once && ctx.sub.contains i then subCandidates start n (i + 1)
    else
      match subMatch ctx.looked data start ((conf.table[i]?).map SubMatch.pattern |>.getD []) with
      | .declined => subCandidates start n (i + 1)
      | rc => some (i, rc)

/-- Where the search ends: with a match, with a partial one, or at the end of the buffer. -/
inductive SubStop
  | found (i : ℕ) (offset : ℤ)
  | part (i : ℕ) (offset : ℤ)
  | ended (offset : ℤ) (index : ℕ)
deriving Repr, DecidableEq

/-- `start` of an offset. -/
def SubConf.start (offset : ℤ) : ℤ := offset - conf.tables.minMatchLen + 1

/-- The loop over `offset`; `index` is `ctx->index`. -/
@[grind =]
def subScan : ℕ → ℤ → ℕ → SubStop
  | 0, offset, index => .ended offset index
  | fuel + 1, offset, index =>
    if offset < data.length then
      let c := tolower (subByte ctx.looked data offset)
      let shift := conf.tables.shift c
      if 0 < shift then subScan fuel (offset + shift) index
      else
        let i := max (conf.tables.index.getD c.toNat 0) index
        let j := conf.tables.index.getD (c.toNat + 1) 0
        match subCandidates conf ctx data (conf.start offset) (j - i) i with
        | some (i, .ok) => .found i offset
        | some (i, _) => .part i offset
        | none => subScan fuel (offset + 1) 0
    else .ended offset index

/-- The loop under `if (flush)`: on to the first place where an entry may still match. -/
@[grind =]
def subFlush : ℕ → ℤ → ℤ
  | 0, offset => offset
  | fuel + 1, offset =>
    if (data.length : ℤ) ≤ conf.start offset then offset
    else if conf.table.any fun m =>
        subMatch ctx.looked data (conf.start offset) m.pattern = .again then offset
    else subFlush fuel (offset + 1)

/-- What a call of `ngx_http_sub_parse` leaves: the entry found, `saved`, the bytes from
`copy_start` to `copy_end`, the context, and the bytes from the new `ctx->pos`. -/
structure SubParsed where
  found : Option ℕ
  saved : List UInt8
  copied : List UInt8
  ctx : SubCtx
  rest : List UInt8
deriving Repr, DecidableEq

/-- The end of `ngx_http_sub_parse`, from `done`. -/
def subDone (found : Option ℕ) (offset : ℤ) (index : ℕ) (start next : ℤ) (stop : ℕ) :
    SubParsed where
  found := found
  saved := ctx.looked.take (ctx.looked.length + min start 0).toNat
  copied := data.take (max start 0).toNat
  ctx := { ctx with
    looked := ctx.looked.drop (ctx.looked.length + min next 0).toNat ++
      (data.drop (max next 0).toNat).take (stop - (max next 0).toNat)
    offset := offset - stop
    index := index }
  rest := data.drop stop

/-- From `again`: nothing is found up to `offset`. -/
def subAgain (offset : ℤ) (index : ℕ) : SubParsed :=
  subDone ctx data none offset index (conf.start offset) (conf.start offset) data.length

/-- `ngx_http_sub_parse`. -/
def subParse (flush : Bool) : SubParsed :=
  if ctx.once then
    subAgain conf ctx data (data.length + conf.tables.minMatchLen - 1) ctx.index
  else
    match subScan conf ctx data (data.length - ctx.offset).toNat ctx.offset ctx.index with
    | .found i offset =>
      let len := ((conf.table[i]?).map SubMatch.pattern |>.getD []).length
      let next := conf.start offset + len
      subDone ctx data (some i) (offset + len) i (conf.start offset) next (max next 0).toNat
    | .part i offset => subAgain conf ctx data offset i
    | .ended offset index =>
      if flush then
        subAgain conf ctx data
          (subFlush conf ctx data (data.length - conf.start offset).toNat offset) index
      else subAgain conf ctx data offset index

end Parse

/-! ### The body filter -/

/-- The part of `ngx_buf_t` the filter reads: the bytes from `pos` to `last`, and the flags;
`memory` is `ngx_buf_in_memory`. -/
structure SubBuf where
  data : List UInt8 := []
  memory : Bool := false
  flush : Bool := false
  recycled : Bool := false
  sync : Bool := false
  lastBuf : Bool := false
  lastInChain : Bool := false
deriving Repr, DecidableEq

/-- The buffers for `saved` and for `copy_start .. copy_end`. -/
def subCopied (b : SubBuf) (p : SubParsed) : List SubBuf :=
  (if p.saved = [] then [] else [{ data := p.saved, memory := true }]) ++
    if p.copied = [] then []
    else [{ b with data := p.copied, lastBuf := false, lastInChain := false, recycled := false }]

/-- The context when an entry is applied. -/
def SubCtx.apply (conf : SubConf) (ctx : SubCtx) (i : ℕ) : SubCtx :=
  { ctx with
    sub := if ctx.sub.contains i then ctx.sub else i :: ctx.sub
    index := 0
    applied := if conf.once then ctx.applied + 1 else ctx.applied
    once := conf.once && decide (ctx.applied + 1 = conf.table.length) }

/-- The buffer of a replacement. -/
def subReplacement (conf : SubConf) (i : ℕ) : SubBuf :=
  let value := (conf.table[i]?).map SubMatch.value |>.getD []
  if value = [] then { sync := true } else { data := value, memory := true }

/-- The loop over one buffer. -/
@[grind =]
def subLoop (conf : SubConf) (b : SubBuf) (flush : Bool) :
    ℕ → SubCtx → List UInt8 → SubCtx × List SubBuf
  | 0, ctx, _ => (ctx, [])
  | fuel + 1, ctx, data =>
    if data = [] then (ctx, [])
    else
      let p := subParse conf ctx data flush
      match p.found with
      | none =>
        let r := subLoop conf b flush fuel p.ctx p.rest
        (r.1, subCopied b p ++ r.2)
      | some i =>
        let r := subLoop conf b flush fuel (p.ctx.apply conf i) p.rest
        (r.1, subCopied b p ++ subReplacement conf i :: r.2)

/-- The flags of the buffer on the last of those made of it. -/
def SubBuf.mark (b last : SubBuf) : SubBuf :=
  { last with lastBuf := b.lastBuf, lastInChain := b.lastInChain, flush := b.flush,
              recycled := b.recycled }

/-- The end of a buffer: its flags go to the last buffer made of it, or to a new one. -/
def subFinish (b : SubBuf) (out : List SubBuf) : List SubBuf :=
  if b.lastBuf || b.flush || b.sync || b.memory then
    match out.getLast? with
    | none => [b.mark { sync := true }]
    | some last => out.dropLast ++ [b.mark last]
  else out

/-- One buffer of the chain. -/
def subBuffer (conf : SubConf) (flush : Bool) (ctx : SubCtx) (b : SubBuf) :
    SubCtx × List SubBuf :=
  let r := subLoop conf b flush (ctx.looked.length + b.data.length + 1) ctx b.data
  if r.1.looked ≠ [] ∧ (b.lastBuf || b.lastInChain) then
    ({ r.1 with looked := [] }, subFinish b (r.2 ++ [{ data := r.1.looked, memory := true }]))
  else (r.1, subFinish b r.2)

/-- The loop over the chain: `last` is `flush` for the last buffer of the chain. -/
@[grind =]
def subBuffers (conf : SubConf) : Bool → SubCtx → List SubBuf → SubCtx × List SubBuf
  | _, ctx, [] => (ctx, [])
  | flush, ctx, b :: bs =>
    let flush := flush || b.flush || b.recycled
    let r := subBuffer conf (bs.isEmpty && flush) ctx b
    let t := subBuffers conf flush r.1 bs
    (t.1, r.2 ++ t.2)

/-- `ngx_http_sub_body_filter`: what is passed on of a chain. -/
def subBodyFilter (conf : SubConf) (ctx : SubCtx) (chain : List SubBuf) :
    SubCtx × List SubBuf :=
  if ctx.once then (ctx, chain) else subBuffers conf false ctx chain

/-- The context of `ngx_http_sub_header_filter`. -/
def SubConf.freshCtx (conf : SubConf) : SubCtx :=
  { offset := (conf.tables.minMatchLen : ℤ) - 1 }

/-- The calls of the body filter for a response. -/
@[grind =]
def subCalls (conf : SubConf) : SubCtx → List (List SubBuf) → List SubBuf
  | _, [] => []
  | ctx, chain :: chains =>
    let r := subBodyFilter conf ctx chain
    r.2 ++ subCalls conf r.1 chains

/-- The filter over a response: without entries there is no context, and it passes all on. -/
def subFilter (conf : SubConf) (chains : List (List SubBuf)) : List SubBuf :=
  if conf.entries = [] then chains.flatten else subCalls conf conf.freshCtx chains

/-- The bytes of a chain. -/
def subBytes (chain : List SubBuf) : List UInt8 := (chain.map SubBuf.data).flatten

end Hengine
