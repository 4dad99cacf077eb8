import Hengine.Http.Bytes
import Hengine.Lib.Circular

/-!
# The HPACK Dynamic Table

The model of `ngx_http_v2_table.c`: the table of the headers a client has sent, which later
header blocks refer to by number. An entry is an `ngx_http_v2_header_t` that points into a
circular storage of 4096 bytes; the pointers to the entries stand in a ring that grows by
64. Three counters, which only grow, say which part of the ring is in use: `added`,
`deleted`, and `reused` for the entries whose memory may be taken again.

What the table is for is `Table`: a list of headers, newest first, and a limit on their
size. It is the table of RFC 7541.
-/

namespace Hengine

/-- `ngx_http_v2_header_t`, as its two strings. -/
structure Header where
  name : List UInt8
  value : List UInt8
deriving Repr, DecidableEq

/-- `NGX_HTTP_V2_TABLE_SIZE`. -/
def tableSize : ℕ := 4096

/-- `ngx_http_v2_static_table`. -/
def staticTable : List Header :=
  [(":authority", ""), (":method", "GET"), (":method", "POST"), (":path", "/"),
    (":path", "/index.html"), (":scheme", "http"), (":scheme", "https"), (":status", "200"),
    (":status", "204"), (":status", "206"), (":status", "304"), (":status", "400"),
    (":status", "404"), (":status", "500"), ("accept-charset", ""),
    ("accept-encoding", "gzip, deflate"), ("accept-language", ""), ("accept-ranges", ""),
    ("accept", ""), ("access-control-allow-origin", ""), ("age", ""), ("allow", ""),
    ("authorization", ""), ("cache-control", ""), ("content-disposition", ""),
    ("content-encoding", ""), ("content-language", ""), ("content-length", ""),
    ("content-location", ""), ("content-range", ""), ("content-type", ""), ("cookie", ""),
    ("date", ""), ("etag", ""), ("expect", ""), ("expires", ""), ("from", ""), ("host", ""),
    ("if-match", ""), ("if-modified-since", ""), ("if-none-match", ""), ("if-range", ""),
    ("if-unmodified-since", ""), ("last-modified", ""), ("link", ""), ("location", ""),
    ("max-forwards", ""), ("proxy-authenticate", ""), ("proxy-authorization", ""),
    ("range", ""), ("referer", ""), ("refresh", ""), ("retry-after", ""), ("server", ""),
    ("set-cookie", ""), ("strict-transport-security", ""), ("transfer-encoding", ""),
    ("user-agent", ""), ("vary", ""), ("via", ""), ("www-authenticate", "")].map fun t => ⟨str t.1, str t.2⟩

/-- An `ngx_http_v2_header_t` of the table: two lengths, and two addresses in the storage. -/
structure Entry where
  nameLen : ℕ
  nameData : ℕ
  valueLen : ℕ
  valueData : ℕ
deriving Repr, DecidableEq

/-- `ngx_http_v2_hpack_t`. `entries` is empty for `NULL`; a pointer in it is a place in
`headers`, which are the entries allocated so far. -/
structure Hpack where
  entries : List ℕ
  headers : List Entry
  added : UInt64
  deleted : UInt64
  reused : UInt64
  allocated : UInt64
  size : ℕ
  free : ℕ
  storage : List UInt8
  pos : ℕ
deriving Repr, DecidableEq

namespace Hpack

/-- The table of a new connection: `h2c` comes from `ngx_pcalloc`. -/
def fresh : Hpack :=
  { entries := [], headers := [], added := 0, deleted := 0, reused := 0, allocated := 0,
    size := 0, free := 0, storage := [], pos := 0 }

/-! ### `ngx_http_v2_get_indexed_header` -/

/-- `h2c->hpack.entries[k % h2c->hpack.allocated]`, a pointer. -/
def slot (h : Hpack) (k : UInt64) : ℕ := h.entries.getD (k % h.allocated).toNat 0

/-- The entry a pointer points to. -/
def entryAt (h : Hpack) (p : ℕ) : Entry := h.headers.getD p ⟨0, 0, 0, 0⟩

/-- `len` bytes of the storage from `data`, in two pieces when they pass its end. -/
def copyOut (h : Hpack) (data len : ℕ) : List UInt8 :=
  let rest := tableSize - data
  if len > rest then h.storage.drop data ++ h.storage.take (len - rest)
  else (h.storage.drop data).take len

/-- `ngx_http_v2_get_indexed_header`: `header` is `h2c->state.header`, which only gets a new
name when the name is all that is asked for; `none` for `NGX_ERROR`. -/
def getIndexedHeader (h : Hpack) (header : Header) (index : UInt64) (nameOnly : Bool) :
    Option Header :=
  if index = 0 then none
  else
    let index := index - 1
    if index < UInt64.ofNat staticTable.length then staticTable[index.toNat]?
    else
      let index := index - UInt64.ofNat staticTable.length
      if index < h.added - h.deleted then
        let entry := h.entryAt (h.slot (h.added - index - 1))
        let named := { header with name := h.copyOut entry.nameData entry.nameLen }
        if nameOnly then some named
        else some { named with value := h.copyOut entry.valueData entry.valueLen }
      else none

/-! ### `ngx_http_v2_table_account` and `ngx_http_v2_table_size` -/

/-- The oldest entry is given up: its pointer is passed, and its bytes are free. -/
def evictOne (h : Hpack) : Hpack :=
  let entry := h.entryAt (h.slot h.deleted)
  { h with
    deleted := h.deleted + 1
    free := h.free + (32 + entry.nameLen + entry.valueLen) }

/-- `while (needed > free)` an entry is given up. Each sets 32 bytes free and more, so
`needed` rounds are enough. -/
@[grind =]
def evictWhile (needed : ℤ) : ℕ → Hpack → Hpack
  | 0, h => h
  | n + 1, h => if needed > h.free then evictWhile needed n h.evictOne else h

/-- `ngx_http_v2_table_account`: room for a header of `size` bytes. -/
def tableAccount (h : Hpack) (size : ℕ) : Hpack × Bool :=
  let size := size + 32
  if size ≤ h.free then ({ h with free := h.free - size }, true)
  else if size > h.size then ({ h with deleted := h.added, free := h.size }, false)
  else
    let h := evictWhile size size h.evictOne
    ({ h with free := h.free - size }, true)

/-- `ngx_http_v2_table_size`, `none` for `NGX_ERROR`. `needed` is signed: it is negative when
the table grows. -/
def setTableSize (h : Hpack) (size : ℕ) : Option Hpack :=
  if size > tableSize then none
  else
    let needed : ℤ := h.size - size
    let h := evictWhile needed needed.toNat h
    some { h with size := size, free := (h.free - needed).toNat }

/-! ### `ngx_http_v2_add_header` -/

/-- The memory of the table, allocated by the first insertion. -/
def allocate (h : Hpack) : Hpack :=
  if h.entries = [] then
    { h with
      allocated := 64, size := tableSize, free := tableSize
      entries := List.replicate 64 0
      storage := List.replicate tableSize 0
      pos := 0 }
  else h

/-- The pointer of the entry to be filled, and the table with it: a new one, or the oldest
one given up that has not been taken again. -/
def takeEntry (h : Hpack) : ℕ × Hpack :=
  if h.reused = h.deleted then
    (h.headers.length, { h with headers := h.headers ++ [⟨0, 0, 0, 0⟩] })
  else (h.slot h.reused, { h with reused := h.reused + 1 })

/-- One string into the storage, where `avail` bytes are left up to its end: in one piece, or
in two. -/
def copyIn (h : Hpack) (avail : ℕ) (s : List UInt8) : Hpack :=
  if avail ≥ s.length then
    { h with storage := putAt h.storage h.pos s, pos := h.pos + s.length }
  else
    { h with
      storage := putAt (putAt h.storage h.pos (s.take avail)) 0 (s.drop avail)
      pos := s.length - avail }

/-- The strings of a header into the storage, and the entry that says where they are. When
the name passes the end of the storage, `avail` starts anew from all of it. -/
def storeHeader (h : Hpack) (header : Header) : Entry × Hpack :=
  let avail := tableSize - h.pos
  let h₁ := h.copyIn avail header.name
  let avail := (if avail ≥ header.name.length then avail else tableSize) - header.name.length
  let h₂ := h₁.copyIn avail header.value
  (⟨header.name.length, h.pos, header.value.length, h₁.pos⟩, h₂)

/-- A ring with 64 more places when all are in use, the oldest entry first. -/
def grow (h : Hpack) : Hpack :=
  if h.allocated = h.added - h.deleted then
    let index := (h.deleted % h.allocated).toNat
    { h with
      entries := h.entries.drop index ++ h.entries.take index ++ List.replicate 64 0
      added := h.allocated, deleted := 0, reused := 0
      allocated := h.allocated + 64 }
  else h

/-- The entry becomes the newest one. -/
def link (h : Hpack) (p : ℕ) : Hpack :=
  { h with
    entries := h.entries.set (h.added % h.allocated).toNat p
    added := h.added + 1 }

/-- The part of `ngx_http_v2_add_header` behind the account. -/
def enter (h : Hpack) (header : Header) : Hpack :=
  let (p, h) := h.takeEntry
  let (entry, h) := h.storeHeader header
  { h with headers := h.headers.set p entry }.grow.link p

/-- `ngx_http_v2_add_header`. -/
def addHeader (h : Hpack) (header : Header) : Hpack :=
  let (h, ok) := h.allocate.tableAccount (header.name.length + header.value.length)
  if ok then h.enter header else h

end Hpack

/-! ### Calls -/

/-- A call on the table of a connection. -/
inductive TableCall
  | add (header : Header)
  | size (n : ℕ)
  | get (index : UInt64) (nameOnly : Bool)
deriving Repr, DecidableEq

/-- What a call answers. -/
inductive TableReply
  | done
  | error
  | name (s : List UInt8)
  | header (h : Header)
deriving Repr, DecidableEq

/-- The answer to a lookup. -/
def TableReply.ofLookup (nameOnly : Bool) : Option Header → TableReply
  | none => .error
  | some h => if nameOnly then .name h.name else .header h

/-- One call: the table and `h2c->state.header` after it, and the answer. -/
def Hpack.call (s : Hpack × Header) : TableCall → (Hpack × Header) × TableReply
  | .add header => ((s.1.addHeader header, s.2), .done)
  | .size n =>
    match s.1.setTableSize n with
    | some h => ((h, s.2), .done)
    | none => (s, .error)
  | .get index nameOnly =>
    let found := s.1.getIndexedHeader s.2 index nameOnly
    ((s.1, found.getD s.2), .ofLookup nameOnly found)

/-- The answers to a sequence of calls. -/
@[grind =]
def Hpack.replies (s : Hpack × Header) : List TableCall → List TableReply
  | [] => []
  | c :: cs => (Hpack.call s c).2 :: Hpack.replies (Hpack.call s c).1 cs

/-- The table after a sequence of calls. -/
@[grind =]
def Hpack.after (s : Hpack × Header) : List TableCall → Hpack × Header
  | [] => s
  | c :: cs => Hpack.after (Hpack.call s c).1 cs

/-! ### The table of RFC 7541 -/

/-- The size of an entry, by which the limit is counted. -/
def Header.size (h : Header) : ℕ := h.name.length + h.value.length + 32

/-- The newest of the entries that fit. -/
@[grind =]
def keepNewest (limit : ℕ) : List Header → List Header
  | [] => []
  | h :: hs => if h.size ≤ limit then h :: keepNewest (limit - h.size) hs else []

/-- The dynamic table: entries, newest first, and the limit on their size. -/
structure Table where
  limit : ℕ
  entries : List Header
deriving Repr, DecidableEq

namespace Table

/-- The table of a new connection. -/
def fresh : Table := ⟨tableSize, []⟩

/-- An entry is added in front, after room has been made; one that can never fit empties the
table. -/
def add (t : Table) (h : Header) : Table :=
  { t with
    entries := if h.size ≤ t.limit then h :: keepNewest (t.limit - h.size) t.entries else [] }

/-- A size update, if it is allowed. -/
def resize (t : Table) (n : ℕ) : Option Table :=
  if n ≤ tableSize then some ⟨n, keepNewest n t.entries⟩ else none

/-- Index 1 is the first static entry; the dynamic ones follow the static ones. -/
def lookup (t : Table) (index : UInt64) : Option Header :=
  if index = 0 then none else (staticTable ++ t.entries)[index.toNat - 1]?

/-- One call. -/
def call (t : Table) : TableCall → Table × TableReply
  | .add header => (t.add header, .done)
  | .size n =>
    match t.resize n with
    | some t => (t, .done)
    | none => (t, .error)
  | .get index nameOnly => (t, .ofLookup nameOnly (t.lookup index))

/-- The answers to a sequence of calls. -/
def replies (t : Table) : List TableCall → List TableReply
  | [] => []
  | c :: cs => (t.call c).2 :: (t.call c).1.replies cs

end Table

end Hengine
