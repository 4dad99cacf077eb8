import Hengine.Lib.Bitmap

/-!
# The Slab Allocator

`ngx_slab.c` manages a shared memory zone as an array of pages, each with a descriptor
`ngx_slab_page_t`. The fields of a descriptor mean different things by what the page is:

* the head of a free run is linked into `pool->free`, with the length of the run in
  `slab`; the last descriptor of the run points back to the head;
* the first page of an allocation of whole pages has `NGX_SLAB_PAGE_START` and the length
  in `slab`, the others `NGX_SLAB_PAGE_BUSY`;
* a page cut into chunks of `1 << shift` bytes is linked into the list of its slot while
  it has a free chunk. Which chunks are busy is recorded in a bitmap, which is in the page
  itself for small chunks, in `slab` for chunks of the exact size, and in the upper half
  of `slab` for big ones.

The two low bits of `prev` hold the type of the page; the model keeps them apart from
the pointer. Dereferencing a null pointer is `none`, so that a result is also the
statement that the code did not. The zone is a run of 64-bit words, `mem i w` being word
`w` of page `i`.
-/

namespace Hengine

open Function

/-- `ngx_slab_page_type`. -/
inductive SlabType
  | page
  | big
  | exact
  | small
  deriving DecidableEq

/-- A pointer to a descriptor: `&pool->free`, `&slots[i]` or `&pool->pages[i]`. -/
inductive SlabPtr
  | free
  | slot (i : ℕ)
  | page (i : ℕ)
  deriving DecidableEq

/-- A `prev` field: a pointer, null or not, and the type in its low bits. -/
structure SlabPrev where
  ptr : Option SlabPtr
  type : SlabType
  deriving DecidableEq

/-- `ngx_slab_stat_t`. -/
structure SlabStat where
  total : Word := 0#64
  used : Word := 0#64
  reqs : Word := 0#64
  fails : Word := 0#64

/-- The messages of `ngx_slab_error`. -/
inductive SlabError
  | pageIsBusy
  | outsideOfPool
  | pageAlreadyFree
  | wrongPage
  | wrongChunk
  | chunkAlreadyFree
  | noMemory
  deriving DecidableEq

/-- The page size of the platform and the ends of a zone: `pool->min_shift`, the address
`ngx_slab_slots(pool)` behind the pool header, and `pool->end`. -/
structure SlabSizes where
  pagesizeShift : ℕ
  minShift : ℕ
  slots : ℕ
  stop : ℕ

/-- A zone as `ngx_init_zone_pool` hands it to `ngx_slab_init`: pages of 4 to 64 KiB, and
`pool->min_shift`, which it sets to `3`. The slot heads and their statistics fit, and addresses
are in the lower half of the address space. -/
structure SlabZone extends SlabSizes where
  pagesize_ge : 12 ≤ pagesizeShift
  pagesize_le : pagesizeShift ≤ 16
  min_ge : 3 ≤ minShift
  min_lt : minShift < pagesizeShift
  fits : slots + (pagesizeShift - minShift) * (24 + 32) ≤ stop
  stop_lt : stop < 2 ^ 63

instance : Coe SlabZone SlabSizes := ⟨SlabZone.toSlabSizes⟩

namespace SlabSizes

/-- `ngx_pagesize`. -/
def pagesize (z : SlabSizes) : ℕ := 2 ^ z.pagesizeShift

/-- `ngx_slab_max_size`. -/
def maxSize (z : SlabSizes) : ℕ := z.pagesize / 2

/-- `ngx_slab_exact_shift`. The loop `for (n = size; n >>= 1; shift++)` counts
`Nat.log2`. -/
def exactShift (z : SlabSizes) : ℕ := Nat.log2 (z.pagesize / (8 * 8))

/-- The chunk size of a request, as a shift. -/
def shift (z : SlabSizes) (size : ℕ) : ℕ :=
  if 1 <<< z.minShift < size then 1 + Nat.log2 (size - 1) else z.minShift

/-- The pages of a request above `ngx_slab_max_size`. -/
def pages (z : SlabSizes) (size : ℕ) : ℕ :=
  (size >>> z.pagesizeShift) + if size % z.pagesize ≠ 0 then 1 else 0

/-- The chunks of a page. -/
def chunks (z : SlabSizes) (shift : ℕ) : ℕ := z.pagesize >>> shift

/-- The words of the bitmap in a page of small chunks. -/
def mapWords (z : SlabSizes) (shift : ℕ) : ℕ := z.chunks shift / (8 * 8)

/-- The chunks the bitmap takes. -/
def mapChunks (z : SlabSizes) (shift : ℕ) : ℕ :=
  let n := z.chunks shift / ((1 <<< shift) * 8)
  if n = 0 then 1 else n

/-- The type of a page of chunks. -/
def typeOf (z : SlabSizes) (shift : ℕ) : SlabType :=
  if shift < z.exactShift then .small else if shift = z.exactShift then .exact else .big

end SlabSizes

/-- The pool: the fields of the descriptors, the statistics, `pool->last` as an index,
`pool->pfree`, `pool->start`, `pool->log_nomem`, the words of the pages, and the messages
logged so far. -/
structure SlabPool where
  slab : SlabPtr → Word
  next : SlabPtr → Option SlabPtr
  prev : SlabPtr → SlabPrev
  stats : ℕ → SlabStat
  last : ℕ
  pfree : ℕ
  start : ℕ
  logNomem : Bool
  mem : ℕ → ℕ → Word
  log : List SlabError

/-- `NGX_SLAB_PAGE_START`. -/
def slabPageStart : Word := 0x8000000000000000#64

/-- `NGX_SLAB_PAGE_BUSY` and `NGX_SLAB_BUSY`. -/
def slabBusy : Word := 0xffffffffffffffff#64

/-- `NGX_SLAB_SHIFT_MASK`. -/
def slabShiftMask : Word := 0xf#64

/-- `NGX_SLAB_MAP_MASK`. -/
def slabMapMask : Word := 0xffffffff00000000#64

/-- `NGX_SLAB_MAP_SHIFT`. -/
def slabMapShift : ℕ := 32

/-- `ngx_slab_init`. `m = pages - (pool->end - pool->start) / ngx_pagesize` is computed
unsigned and read as a signed number. -/
def slabInit (z : SlabSizes) (mem : ℕ → ℕ → Word) : SlabPool :=
  let n := z.pagesizeShift - z.minShift
  let p := z.slots + n * 24 + n * 32
  let size := (z.stop - z.slots) - n * (24 + 32)
  let pages := size / (z.pagesize + 24)
  let start := (p + pages * 24 + (z.pagesize - 1)) / z.pagesize * z.pagesize
  let room :=
    if start ≤ z.stop then (z.stop - start) / z.pagesize
    else (2 ^ 64 - (start - z.stop)) / z.pagesize
  let m : ℤ := pages - room
  let last := if 0 < m then pages - m.toNat else pages
  { slab := update (fun _ => 0#64) (.page 0) (BitVec.ofNat 64 last)
    next := fun
      | .free => some (.page 0)
      | .slot i => some (.slot i)
      | .page i => if i = 0 then some .free else none
    prev := update (fun _ => ⟨none, .page⟩) (.page 0) ⟨some .free, .page⟩
    stats := fun _ => {}
    last := last
    pfree := last
    start := start
    logNomem := true
    mem := mem
    log := [] }

namespace SlabPool

/-- `ngx_slab_error`. -/
def error (e : SlabError) (pool : SlabPool) : SlabPool :=
  { pool with log := e :: pool.log }

/-- `ngx_slab_page_addr`. -/
def pageAddr (z : SlabSizes) (pool : SlabPool) (i : ℕ) : ℕ :=
  (i <<< z.pagesizeShift) + pool.start

/-- All three fields of a descriptor. -/
def setPage (q : SlabPtr) (slab : Word) (next : Option SlabPtr) (prev : SlabPrev)
    (pool : SlabPool) : SlabPool :=
  { pool with
    slab := update pool.slab q slab
    next := update pool.next q next
    prev := update pool.prev q prev }

/-- A word of a page. -/
def setWord (i w : ℕ) (x : Word) (pool : SlabPool) : SlabPool :=
  { pool with mem := update pool.mem i (update (pool.mem i) w x) }

/-- A change of the statistics of a slot. -/
def setStat (slot : ℕ) (f : SlabStat → SlabStat) (pool : SlabPool) : SlabPool :=
  { pool with stats := update pool.stats slot (f (pool.stats slot)) }

/-- `prev = ngx_slab_page_prev(page); prev->next = page->next; page->next->prev =
page->prev`. -/
def unlink (q : SlabPtr) (pool : SlabPool) : Option SlabPool :=
  (pool.prev q).ptr.bind fun prev =>
    (pool.next q).bind fun next =>
      some { pool with
        next := update pool.next prev (some next)
        prev := update pool.prev next (pool.prev q) }

/-- A page without a free chunk leaves the list of its slot. -/
def detach (i : ℕ) (type : SlabType) (pool : SlabPool) : Option SlabPool :=
  (pool.unlink (.page i)).map fun pool =>
    pool.setPage (.page i) (pool.slab (.page i)) none ⟨none, type⟩

/-- A page with its first free chunk goes to the head of the list of its slot. -/
def attach (i slot : ℕ) (type : SlabType) (pool : SlabPool) : Option SlabPool :=
  (pool.next (.slot slot)).bind fun next =>
    let pool := { pool with
      next := update (update pool.next (.page i) (some next))
        (.slot slot) (some (.page i)) }
    let prev := update pool.prev (.page i) ⟨some (.slot slot), type⟩
    some { pool with prev := update prev next ⟨some (.page i), type⟩ }

end SlabPool

/-! ### Pages -/

/-- The loop of `ngx_slab_alloc_pages`: the first run of the list with enough pages. The
outer `none` is a wild pointer, or a list longer than the fuel. -/
@[grind =]
def slabFindRun (pool : SlabPool) (pages : ℕ) : ℕ → SlabPtr → Option (Option ℕ)
  | 0, _ => none
  | _ + 1, .free => some none
  | _ + 1, .slot _ => none
  | fuel + 1, .page i =>
    if pages ≤ (pool.slab (.page i)).toNat then some (some i)
    else (pool.next (.page i)).bind fun next => slabFindRun pool pages fuel next

/-- Take the first `pages` pages of the run of `len` pages at `i`: the rest of the run
takes its place in the list. -/
def slabTakeRun (i pages len : ℕ) (pool : SlabPool) : Option SlabPool :=
  if pages < len then
    let rest := SlabPtr.page (i + pages)
    let pool := { pool with
      prev := update pool.prev (.page (i + len - 1)) ⟨some rest, .page⟩ }
    let pool := pool.setPage rest (BitVec.ofNat 64 (len - pages)) (pool.next (.page i))
      (pool.prev (.page i))
    (pool.prev (.page i)).ptr.bind fun prev =>
      (pool.next (.page i)).bind fun next =>
        some { pool with
          next := update pool.next prev (some rest)
          prev := update pool.prev next ⟨some rest, .page⟩ }
  else pool.unlink (.page i)

/-- Mark the pages behind the first one of an allocation. -/
@[grind =]
def slabMarkBusy : ℕ → ℕ → SlabPool → SlabPool
  | _, 0, pool => pool
  | i, pages + 1, pool =>
    slabMarkBusy (i + 1) pages (pool.setPage (.page i) slabBusy none ⟨none, .page⟩)

/-- Make an allocation of the `pages` pages at `i`, which are off the list. -/
def slabGrant (i pages : ℕ) (pool : SlabPool) : SlabPool :=
  let pool := pool.setPage (.page i) (BitVec.ofNat 64 pages ||| slabPageStart) none
    ⟨none, .page⟩
  slabMarkBusy (i + 1) (pages - 1) { pool with pfree := pool.pfree - pages }

/-- `ngx_slab_alloc_pages`. -/
def slabAllocPages (pages : ℕ) (pool : SlabPool) : Option (Option ℕ × SlabPool) :=
  (pool.next .free).bind fun first =>
    (slabFindRun pool pages (pool.last + 2) first).bind fun found =>
      match found with
      | none => some (none, if pool.logNomem then pool.error .noMemory else pool)
      | some i =>
        (slabTakeRun i pages (pool.slab (.page i)).toNat pool).map fun pool =>
          (some i, slabGrant i pages pool)

/-- A descriptor of the pages from `a` to `b`. -/
def SlabPtr.Within (a b : ℕ) : SlabPtr → Prop
  | page i => a ≤ i ∧ i < b
  | _ => False

instance (a b : ℕ) : (q : SlabPtr) → Decidable (q.Within a b)
  | .page i => inferInstanceAs (Decidable (a ≤ i ∧ i < b))
  | .free => isFalse id
  | .slot _ => isFalse id

/-- `ngx_memzero` of the descriptors from `a` to `b`. -/
def slabZero (a b : ℕ) (pool : SlabPool) : SlabPool :=
  { pool with
    slab := fun q => if q.Within a b then 0#64 else pool.slab q
    next := fun q => if q.Within a b then none else pool.next q
    prev := fun q => if q.Within a b then ⟨none, .page⟩ else pool.prev q }

/-- The head of a run that a page ends, or the page itself. -/
def slabRunHead (i : ℕ) (pool : SlabPool) : Option ℕ :=
  if pool.slab (.page i) = 0#64 then
    match (pool.prev (.page i)).ptr with
    | some (.page j) => some j
    | _ => none
  else some i

/-- Join the run that starts behind the pages being freed. `pages` counts the pages behind
the first one. -/
def slabJoinNext (i pages : ℕ) (pool : SlabPool) : Option (ℕ × SlabPool) :=
  let join := i + (pool.slab (.page i)).toNat
  if join < pool.last ∧ (pool.prev (.page join)).type = .page ∧
      pool.next (.page join) ≠ none then
    let len := pool.slab (.page join)
    let pool := { pool with
      slab := update pool.slab (.page i) (pool.slab (.page i) + len) }
    (pool.unlink (.page join)).map fun pool =>
      (pages + len.toNat, pool.setPage (.page join) 0#64 none ⟨none, .page⟩)
  else some (pages, pool)

/-- Join the run that ends before them: its head becomes the head. -/
def slabJoinPrev (i pages : ℕ) (pool : SlabPool) : Option (ℕ × ℕ × SlabPool) :=
  if 0 < i ∧ (pool.prev (.page (i - 1))).type = .page then
    (slabRunHead (i - 1) pool).bind fun join =>
      if pool.next (.page join) ≠ none then
        let len := pool.slab (.page join)
        let pool := { pool with
          slab := update pool.slab (.page join) (len + pool.slab (.page i)) }
        (pool.unlink (.page join)).map fun pool =>
          (join, pages + len.toNat, pool.setPage (.page i) 0#64 none ⟨none, .page⟩)
      else some (i, pages, pool)
  else some (i, pages, pool)

/-- Put the run at the head of the free list. -/
def slabPushRun (i pages : ℕ) (pool : SlabPool) : Option SlabPool :=
  let prev :=
    if pages ≠ 0 then
      update pool.prev (.page (i + pages)) ⟨some (.page i), .page⟩
    else pool.prev
  (pool.next .free).bind fun next =>
    let prev := update prev (.page i) ⟨some .free, .page⟩
    some { pool with
      prev := update prev next ⟨some (.page i), .page⟩
      next := update (update pool.next (.page i) (some next))
        .free (some (.page i)) }

/-- Join the neighbours of the pages being freed, and put the whole into the list. -/
def slabCoalesce (i pages : ℕ) (pool : SlabPool) : Option SlabPool :=
  (slabJoinNext i pages pool).bind fun (pages, pool) =>
    (slabJoinPrev i pages pool).bind fun (i, pages, pool) => slabPushRun i pages pool

/-- `ngx_slab_free_pages`. -/
def slabFreePages (i pages : ℕ) (pool : SlabPool) : Option SlabPool :=
  let pool := { pool with
    pfree := pool.pfree + pages
    slab := update pool.slab (.page i) (BitVec.ofNat 64 pages) }
  let pool := slabZero (i + 1) (i + pages) pool
  (if pool.next (.page i) ≠ none then pool.unlink (.page i) else some pool).bind fun pool =>
    slabCoalesce i (pages - 1) pool

/-! ### Chunks -/

/-- `for (; m & mask; m <<= 1, i++) { if (word & m) continue; ... }`: the first clear bit
of a word, as its number and mask. -/
@[grind =]
def slabScan (word mask : Word) : ℕ → ℕ → Word → Option (ℕ × Word)
  | 0, _, _ => none
  | fuel + 1, i, m =>
    if m &&& mask = 0#64 then none
    else if word &&& m ≠ 0#64 then slabScan word mask fuel (i + 1) (m <<< 1)
    else some (i, m)

/-- The first clear bit of a bitmap, from word `n` on. -/
@[grind =]
def slabScanMap (words : ℕ → Word) : ℕ → ℕ → Option (ℕ × ℕ × Word)
  | 0, _ => none
  | count + 1, n =>
    if words n ≠ slabBusy then
      match slabScan (words n) slabBusy 65 0 1#64 with
      | some (i, m) => some (n, i, m)
      | none => slabScanMap words count (n + 1)
    else slabScanMap words count (n + 1)

/-- `for (; n < map; n++) if (bitmap[n] != x)`: some word differs from `x`. -/
@[grind =]
def slabAnyWord (words : ℕ → Word) (x : Word) : ℕ → ℕ → Bool
  | 0, _ => false
  | count + 1, n => words n != x || slabAnyWord words x count (n + 1)

/-- Take a chunk of a small page. The inner `none` is the fall through to "page is
busy". -/
def slabTakeSmall (z : SlabSizes) (shift i : ℕ) (pool : SlabPool) :
    Option (Option ℕ × SlabPool) :=
  let map := z.mapWords shift
  match slabScanMap (pool.mem i) map 0 with
  | none => some (none, pool)
  | some (n, b, m) =>
    let pool := pool.setWord i n (pool.mem i n ||| m)
    let c := n * 8 * 8 + b
    if pool.mem i n = slabBusy ∧ ¬ slabAnyWord (pool.mem i) slabBusy (map - (n + 1)) (n + 1)
    then (pool.detach i .small).map fun pool => (some c, pool)
    else some (some c, pool)

/-- Take a chunk of a page of the exact size. -/
def slabTakeExact (i : ℕ) (pool : SlabPool) : Option (Option ℕ × SlabPool) :=
  match slabScan (pool.slab (.page i)) slabBusy 65 0 1#64 with
  | none => some (none, pool)
  | some (c, m) =>
    let pool := { pool with
      slab := update pool.slab (.page i) (pool.slab (.page i) ||| m) }
    if pool.slab (.page i) = slabBusy then
      (pool.detach i .exact).map fun pool => (some c, pool)
    else some (some c, pool)

/-- The bits of the chunks of a big page. -/
def slabBigMask (z : SlabSizes) (shift : ℕ) : Word :=
  ((1#64 <<< z.chunks shift) - 1#64) <<< slabMapShift

/-- Take a chunk of a big page. -/
def slabTakeBig (z : SlabSizes) (shift i : ℕ) (pool : SlabPool) :
    Option (Option ℕ × SlabPool) :=
  let mask := slabBigMask z shift
  match slabScan (pool.slab (.page i)) mask 65 0 (1#64 <<< slabMapShift) with
  | none => some (none, pool)
  | some (c, m) =>
    let pool := { pool with
      slab := update pool.slab (.page i) (pool.slab (.page i) ||| m) }
    if pool.slab (.page i) &&& slabMapMask = mask then
      (pool.detach i .big).map fun pool => (some c, pool)
    else some (some c, pool)

/-- Take a chunk of a page that is on the list of its slot. -/
def slabTakeChunk (z : SlabSizes) (shift i : ℕ) (pool : SlabPool) :
    Option (Option ℕ × SlabPool) :=
  if shift < z.exactShift then slabTakeSmall z shift i pool
  else if shift = z.exactShift then slabTakeExact i pool
  else slabTakeBig z shift i pool

/-- `for (; i < count; i++) bitmap[i] = x`. -/
@[grind =]
def slabFill (i : ℕ) (x : Word) : ℕ → ℕ → SlabPool → SlabPool
  | 0, _, pool => pool
  | count + 1, w, pool => slabFill i x count (w + 1) (pool.setWord i w x)

/-- The bitmap of a new small page: its own chunks and the one requested. -/
def slabInitMap (z : SlabSizes) (shift i : ℕ) (pool : SlabPool) : SlabPool :=
  let n := z.mapChunks shift
  let k := (n + 1) / (8 * 8)
  let pool := slabFill i slabBusy k 0 pool
  let pool := pool.setWord i k ((1#64 <<< ((n + 1) % (8 * 8))) - 1#64)
  slabFill i 0#64 (z.mapWords shift - (k + 1)) (k + 1) pool

/-- A new page of the slot, with its first chunk taken. -/
def slabNewPage (z : SlabSizes) (shift i : ℕ) (pool : SlabPool) : ℕ × SlabPool :=
  let slot := shift - z.minShift
  let link (slab : Word) (type : SlabType) (pool : SlabPool) : SlabPool :=
    let pool := pool.setPage (.page i) slab (some (.slot slot)) ⟨some (.slot slot), type⟩
    { pool with next := update pool.next (.slot slot) (some (.page i)) }
  let total (n : ℕ) (s : SlabStat) : SlabStat := { s with total := s.total + BitVec.ofNat 64 n }
  if shift < z.exactShift then
    let n := z.mapChunks shift
    (n, (link (BitVec.ofNat 64 shift) .small (slabInitMap z shift i pool)).setStat slot
      (total (z.chunks shift - n)))
  else if shift = z.exactShift then
    (0, (link 1#64 .exact pool).setStat slot (total (8 * 8)))
  else
    (0, (link ((1#64 <<< slabMapShift) ||| BitVec.ofNat 64 shift) .big pool).setStat slot
      (total (z.chunks shift)))

/-- The tail of `ngx_slab_alloc_locked`: a page for the slot. -/
def slabAllocNew (z : SlabSizes) (shift : ℕ) (pool : SlabPool) : Option (Option ℕ × SlabPool) :=
  let slot := shift - z.minShift
  (slabAllocPages 1 pool).map fun
    | (none, pool) => (none, pool.setStat slot fun s => { s with fails := s.fails + 1#64 })
    | (some i, pool) =>
      let (c, pool) := slabNewPage z shift i pool
      (some (pool.pageAddr z i + (c <<< shift)),
        pool.setStat slot fun s => { s with used := s.used + 1#64 })

/-- `ngx_slab_alloc_locked`. -/
def slabAllocLocked (z : SlabSizes) (size : ℕ) (pool : SlabPool) :
    Option (Option ℕ × SlabPool) :=
  if z.maxSize < size then
    (slabAllocPages (z.pages size) pool).map fun (page, pool) =>
      (page.map (pool.pageAddr z), pool)
  else
    let shift := z.shift size
    let slot := shift - z.minShift
    let pool := pool.setStat slot fun s => { s with reqs := s.reqs + 1#64 }
    (pool.next (.slot slot)).bind fun page =>
      if pool.next page ≠ some page then
        match page with
        | .page i =>
          (slabTakeChunk z shift i pool).bind fun
            | (some c, pool) =>
              some (some (pool.pageAddr z i + (c <<< shift)),
                pool.setStat slot fun s => { s with used := s.used + 1#64 })
            | (none, pool) => slabAllocNew z shift (pool.error .pageIsBusy)
        | _ => none
      else slabAllocNew z shift pool

/-- The end of a free of a chunk of slot `slot`: if no chunk is left the page is freed and
`total` falls by `n`. -/
def slabDropChunk (i slot n : ℕ) (empty : Bool) (pool : SlabPool) : Option SlabPool :=
  (if empty then
    (slabFreePages i 1 pool).map fun pool =>
      pool.setStat slot fun s => { s with total := s.total - BitVec.ofNat 64 n }
  else some pool).map fun pool =>
    pool.setStat slot fun s => { s with used := s.used - 1#64 }

/-- `case NGX_SLAB_SMALL` of `ngx_slab_free_locked`. -/
def slabFreeSmall (z : SlabSizes) (p i : ℕ) (pool : SlabPool) : Option SlabPool :=
  let shift := (pool.slab (.page i) &&& slabShiftMask).toNat
  let size := 1 <<< shift
  if p &&& (size - 1) ≠ 0 then some (pool.error .wrongChunk)
  else
    let c := (p &&& (z.pagesize - 1)) >>> shift
    let m := bit (c % (8 * 8))
    let w := c / (8 * 8)
    if pool.mem i w &&& m ≠ 0#64 then
      let slot := shift - z.minShift
      (if pool.next (.page i) = none then pool.attach i slot .small else some pool).bind
        fun pool =>
          let pool := pool.setWord i w (pool.mem i w &&& ~~~m)
          let n := z.mapChunks shift
          let k := n / (8 * 8)
          let m := (1#64 <<< (n % (8 * 8))) - 1#64
          let empty := decide (pool.mem i k &&& ~~~m = 0#64) &&
            !slabAnyWord (pool.mem i) 0#64 (z.mapWords shift - (k + 1)) (k + 1)
          slabDropChunk i slot (z.chunks shift - n) empty pool
    else some (pool.error .chunkAlreadyFree)

/-- `case NGX_SLAB_EXACT` of `ngx_slab_free_locked`. -/
def slabFreeExact (z : SlabSizes) (p i : ℕ) (pool : SlabPool) : Option SlabPool :=
  let slab := pool.slab (.page i)
  let m := bit ((p &&& (z.pagesize - 1)) >>> z.exactShift)
  let size := z.pagesize / (8 * 8)
  if p &&& (size - 1) ≠ 0 then some (pool.error .wrongChunk)
  else if slab &&& m ≠ 0#64 then
    let slot := z.exactShift - z.minShift
    (if slab = slabBusy then pool.attach i slot .exact else some pool).bind fun pool =>
      let pool := { pool with
        slab := update pool.slab (.page i) (pool.slab (.page i) &&& ~~~m) }
      slabDropChunk i slot (8 * 8) (decide (pool.slab (.page i) = 0#64)) pool
  else some (pool.error .chunkAlreadyFree)

/-- `case NGX_SLAB_BIG` of `ngx_slab_free_locked`. -/
def slabFreeBig (z : SlabSizes) (p i : ℕ) (pool : SlabPool) : Option SlabPool :=
  let slab := pool.slab (.page i)
  let shift := (slab &&& slabShiftMask).toNat
  let size := 1 <<< shift
  if p &&& (size - 1) ≠ 0 then some (pool.error .wrongChunk)
  else
    let m := bit (((p &&& (z.pagesize - 1)) >>> shift) + slabMapShift)
    if slab &&& m ≠ 0#64 then
      let slot := shift - z.minShift
      (if pool.next (.page i) = none then pool.attach i slot .big else some pool).bind
        fun pool =>
          let pool := { pool with
            slab := update pool.slab (.page i) (pool.slab (.page i) &&& ~~~m) }
          slabDropChunk i slot (z.chunks shift)
            (decide (pool.slab (.page i) &&& slabMapMask = 0#64)) pool
    else some (pool.error .chunkAlreadyFree)

/-- `case NGX_SLAB_PAGE` of `ngx_slab_free_locked`. -/
def slabFreePage (z : SlabSizes) (p i : ℕ) (pool : SlabPool) : Option SlabPool :=
  let slab := pool.slab (.page i)
  if p &&& (z.pagesize - 1) ≠ 0 then some (pool.error .wrongChunk)
  else if slab &&& slabPageStart = 0#64 then some (pool.error .pageAlreadyFree)
  else if slab = slabBusy then some (pool.error .wrongPage)
  else slabFreePages i (slab &&& ~~~slabPageStart).toNat pool

/-- `ngx_slab_free_locked`. -/
def slabFreeLocked (z : SlabSizes) (p : ℕ) (pool : SlabPool) : Option SlabPool :=
  if p < pool.start ∨ z.stop < p then some (pool.error .outsideOfPool)
  else
    let i := (p - pool.start) >>> z.pagesizeShift
    match (pool.prev (.page i)).type with
    | .small => slabFreeSmall z p i pool
    | .exact => slabFreeExact z p i pool
    | .big => slabFreeBig z p i pool
    | .page => slabFreePage z p i pool

end Hengine
