import Hengine.Http.Chunked
import Mathlib.Data.List.Nodup

/-!
# The Chunked Body Filter

`ngx_http_chunked_filter_module.c`: the output filter that puts the framing of the chunked
coding around the body of a response. Each call of the filter gets a chain of buffers and
hands the next filter a chain in which its own buffers stand around those it was given: a
size line in front, and behind them a `CRLF` or, when the last buffer was the last of the
response, the last chunk with the trailers.

The filter's own buffers are recycled. The next filter sends the bytes when the connection
takes them, which may be much later, and `ngx_chain_update_chains` takes back the buffers
that have been sent out. The model keeps the buffers in a store and lets the filters refer
to them, so that a buffer taken back too early would change what is still to be sent.
-/

namespace Hengine

open List Function

/-! ### Buffers -/

/-- `ngx_buf_t`, as the filter reads it: the bytes from `pos` to `last` when the buffer is in
memory, those from `file_pos` to `file_last` when it is in a file, and the flags. -/
structure OutBuf where
  mem : Option (List UInt8) := none
  file : Option (List UInt8) := none
  flush : Bool := false
  sync : Bool := false
  lastBuf : Bool := false
deriving Repr, DecidableEq

/-- What the buffer carries; a buffer in memory is sent from there. -/
def OutBuf.bytes (b : OutBuf) : List UInt8 :=
  match b.mem with
  | some m => m
  | none => b.file.getD []

/-- `ngx_buf_size`. -/
def OutBuf.size (b : OutBuf) : ℕ :=
  match b.mem with
  | some m => m.length
  | none => (b.file.getD []).length

/-- The test by which a buffer is handed on. -/
def OutBuf.passes (b : OutBuf) : Bool :=
  b.flush || b.sync || b.mem.isSome || b.file.isSome

theorem OutBuf.size_eq (b : OutBuf) : b.size = b.bytes.length := by
  rw [size, bytes]
  split <;> rfl

theorem OutBuf.bytes_of_not_passes {b : OutBuf} (h : b.passes = false) : b.bytes = [] := by
  simp only [passes, Bool.or_eq_false_iff, Option.isSome_eq_false_iff,
    Option.isNone_iff_eq_none] at h
  obtain ⟨⟨_, hmem⟩, hfile⟩ := h
  simp [bytes, hmem, hfile]

/-- What a chain carries. -/
def chainBytes (chain : List OutBuf) : List UInt8 := (chain.map OutBuf.bytes).flatten

/-- `size`: the sizes of the buffers of a chain. -/
def chainSize (chain : List OutBuf) : ℕ := (chain.map OutBuf.size).sum

theorem chainSize_eq (chain : List OutBuf) : chainSize chain = (chainBytes chain).length := by
  rw [chainSize, chainBytes, length_flatten, map_map]
  congr 2
  funext b
  exact b.size_eq

/-! ### Framing -/

/-- A digit of `hex[] = "0123456789abcdef"`. -/
def hexChar (d : ℕ) : UInt8 := ("0123456789abcdef".toList.map byte).getD d 0

/-- The loop of `ngx_sprintf_num` for hexadecimal numbers, which writes from the right. -/
def sprintfHex (n : ℕ) (acc : List UInt8) : List UInt8 :=
  if n / 16 = 0 then hexChar (n % 16) :: acc
  else sprintfHex (n / 16) (hexChar (n % 16) :: acc)
termination_by n

/-- `ngx_sprintf(chunk, "%xO" CRLF, size)`. -/
def sizeLine (size : ℕ) : List UInt8 := sprintfHex size [] ++ [cr, lf]

/-- An element of `headers_out.trailers`. -/
structure TrailerElt where
  hash : ℕ
  key : List UInt8
  value : List UInt8
deriving Repr, DecidableEq

/-- The trailers that are sent: those with `hash == 0` were removed. -/
def sentTrailers (trailers : List TrailerElt) : List TrailerElt :=
  trailers.filter fun t => t.hash != 0

/-- The first loop of `ngx_http_chunked_create_trailers`. -/
def trailersLen (trailers : List TrailerElt) : ℕ :=
  ((sentTrailers trailers).map fun t => t.key.length + 2 + t.value.length + 2).sum

/-- A line of the second loop, without its end. -/
def TrailerElt.line (t : TrailerElt) : List UInt8 := t.key ++ (byte ':' :: byte ' ' :: t.value)

/-- `ngx_http_chunked_create_trailers`: what its buffer holds. -/
def createTrailers (trailers : List TrailerElt) : List UInt8 :=
  if trailersLen trailers = 0 then [cr, lf, byte '0', cr, lf, cr, lf]
  else
    [cr, lf, byte '0', cr, lf]
      ++ (((sentTrailers trailers).map fun t => t.line ++ [cr, lf]).flatten ++ [cr, lf])

/-- With no trailer to send the two ways of writing agree. -/
theorem createTrailers_eq (trailers : List TrailerElt) :
    createTrailers trailers = [cr, lf, byte '0', cr, lf]
      ++ (((sentTrailers trailers).map fun t => t.line ++ [cr, lf]).flatten ++ [cr, lf]) := by
  rw [createTrailers]
  split
  · rename_i h0
    have hnone : sentTrailers trailers = [] := by
      cases hs : sentTrailers trailers with
      | nil => rfl
      | cons t ts =>
        rw [trailersLen, hs, map_cons, sum_cons] at h0
        omega
    rw [hnone]
    rfl
  · rfl

/-! ### The filter -/

/-- A buffer in a chain the filter puts together: one of its own, or one it was given. -/
inductive OutRef
  | own (i : ℕ)
  | data (bytes : List UInt8)
deriving Repr, DecidableEq

/-- The filter's own buffers in a chain. -/
def owns (chain : List OutRef) : List ℕ :=
  chain.filterMap fun
    | .own i => some i
    | .data _ => none

/-- The filter, and what the next filter holds of it: the filter's own buffers with what each
holds from `pos` to `last`, how many there are, the chains `ctx->free` and `ctx->busy`, the
chain the next filter has yet to send, and what it has sent. -/
structure FilterState where
  bufs : ℕ → List UInt8
  next : ℕ
  free : List ℕ
  busy : List OutRef
  queue : List OutRef
  sent : List UInt8

/-- The filter's context as `ngx_pcalloc` leaves it, before anything was sent. -/
def freshFilter : FilterState := ⟨fun _ => [], 0, [], [], [], []⟩

/-- What a buffer of a chain still holds. -/
def refBytes (bufs : ℕ → List UInt8) : OutRef → List UInt8
  | .own i => bufs i
  | .data bytes => bytes

/-- What a chain still holds. -/
def queueBytes (bufs : ℕ → List UInt8) (chain : List OutRef) : List UInt8 :=
  (chain.map (refBytes bufs)).flatten

/-- What has been sent and what will be sent. -/
def FilterState.output (s : FilterState) : List UInt8 := s.sent ++ queueBytes s.bufs s.queue

/-- `ngx_chain_get_free_buf`. -/
def getFreeBuf (s : FilterState) : ℕ × FilterState :=
  match s.free with
  | i :: free => (i, { s with free := free })
  | [] => (s.next, { s with next := s.next + 1 })

/-- A buffer from there, with its contents. -/
def ownBuf (bytes : List UInt8) (s : FilterState) : ℕ × FilterState :=
  let t := getFreeBuf s
  (t.1, { t.2 with bufs := update t.2.bufs t.1 bytes })

/-- What is left of a buffer of which `n` bytes were sent. -/
def advanceRef (bufs : ℕ → List UInt8) (n : ℕ) : OutRef → (ℕ → List UInt8) × OutRef
  | .own i => (update bufs i ((bufs i).drop n), .own i)
  | .data bytes => (bufs, .data (bytes.drop n))

/-- `ngx_chain_update_sent`, as the next filter calls it when `n` bytes were sent: the buffers,
the rest of the chain, and the bytes. Buffers without anything to send are passed over. -/
@[grind =]
def updateSent (bufs : ℕ → List UInt8) :
    List OutRef → ℕ → (ℕ → List UInt8) × List OutRef × List UInt8
  | [], _ => (bufs, [], [])
  | r :: chain, n =>
    let bytes := refBytes bufs r
    let t := advanceRef bufs n r
    if bytes.length ≤ n then
      let u := updateSent t.1 chain (n - bytes.length)
      (u.1, u.2.1, bytes ++ u.2.2)
    else (t.1, t.2 :: chain, bytes.take n)

/-- The next filter: it adds the chain to what it holds and sends `n` bytes of all that. -/
def nextBodyFilter (out : List OutRef) (n : ℕ) (s : FilterState) : FilterState :=
  let u := updateSent s.bufs (s.queue ++ out) n
  { s with bufs := u.1, queue := u.2.1, sent := s.sent ++ u.2.2 }

/-- The loop of `ngx_chain_update_chains` over `busy`: a buffer of another module is left
behind, one of ours that was sent out is taken back, and the first that was not ends it. -/
@[grind =]
def updateChains (bufs : ℕ → List UInt8) : List OutRef → List ℕ → List OutRef × List ℕ
  | [], free => ([], free)
  | .data _ :: busy, free => updateChains bufs busy free
  | .own i :: busy, free =>
    if bufs i ≠ [] then (.own i :: busy, free) else updateChains bufs busy (i :: free)

/-- The buffer in front of the chain. -/
def frontBuf (size : ℕ) (s : FilterState) : List OutRef × FilterState :=
  if size ≠ 0 then
    let t := ownBuf (sizeLine size) s
    ([.own t.1], t.2)
  else ([], s)

/-- The buffer behind the chain. Behind no data, the `CRLF` in front of the last chunk is left
out. -/
def backBuf (trailers : List TrailerElt) (last : Bool) (size : ℕ) (s : FilterState) :
    List OutRef × FilterState :=
  if last then
    let bytes := createTrailers trailers
    let t := ownBuf (if size = 0 then bytes.drop 2 else bytes) s
    ([.own t.1], t.2)
  else if size > 0 then
    let t := ownBuf [cr, lf] s
    ([.own t.1], t.2)
  else ([], s)

/-- `cl->buf->last_buf`, where `cl` is the last link of the chain. -/
def chainLast (chain : List OutBuf) : Bool := (chain.getLast?.map OutBuf.lastBuf).getD false

/-- The buffers of the chain that are handed on. -/
def handedOn (chain : List OutBuf) : List OutRef :=
  (chain.filter OutBuf.passes).map fun b => .data b.bytes

/-- The end of a call: the chain goes to the next filter and the buffers that were sent out
are taken back. -/
def handOver (out : List OutRef) (n : ℕ) (s : FilterState) : FilterState :=
  let s := nextBodyFilter out n s
  let u := updateChains s.bufs (s.busy ++ out) s.free
  { s with busy := u.1, free := u.2 }

/-- `ngx_http_chunked_body_filter`; `n` is how many bytes the connection takes during the
call. -/
def chunkedBodyFilter (trailers : List TrailerElt) (chain : List OutBuf) (n : ℕ)
    (s : FilterState) : FilterState :=
  if chain = [] then nextBodyFilter [] n s
  else
    let size := chainSize chain
    let front := frontBuf size s
    let back := backBuf trailers (chainLast chain) size front.2
    handOver (front.1 ++ (handedOn chain ++ back.1)) n back.2

/-- What happens to the filter: it is called with a chain, or the connection takes some bytes
between the calls. -/
inductive FilterEvent
  | call (chain : List OutBuf) (n : ℕ)
  | send (n : ℕ)
deriving Repr

/-- One event. -/
def filterStep (trailers : List TrailerElt) (s : FilterState) : FilterEvent → FilterState
  | .call chain n => chunkedBodyFilter trailers chain n s
  | .send n => nextBodyFilter [] n s

/-- A run of the filter. -/
def filterRun (trailers : List TrailerElt) (s : FilterState) (events : List FilterEvent) :
    FilterState :=
  events.foldl (filterStep trailers) s

/-- The chains the filter is called with. -/
def filterCalls (events : List FilterEvent) : List (List OutBuf) :=
  events.filterMap fun
    | .call chain _ => some chain
    | .send _ => none

/-! ### What is sent -/

section Sent

variable {bufs : ℕ → List UInt8}

@[simp]
theorem owns_nil : owns [] = [] := rfl

@[simp]
theorem owns_own (i : ℕ) (chain : List OutRef) : owns (.own i :: chain) = i :: owns chain := rfl

@[simp]
theorem owns_append (a b : List OutRef) : owns (a ++ b) = owns a ++ owns b :=
  filterMap_append

@[simp]
theorem owns_handedOn (chain : List OutBuf) : owns (handedOn chain) = [] := by
  rw [handedOn, owns, filterMap_map, filterMap_eq_nil_iff]
  intro b _
  rfl

@[simp]
theorem queueBytes_nil : queueBytes bufs [] = [] := rfl

@[simp]
theorem queueBytes_cons (r : OutRef) (chain : List OutRef) :
    queueBytes bufs (r :: chain) = refBytes bufs r ++ queueBytes bufs chain := rfl

@[simp]
theorem queueBytes_append (a b : List OutRef) :
    queueBytes bufs (a ++ b) = queueBytes bufs a ++ queueBytes bufs b := by
  simp [queueBytes]

variable {chain : List OutRef}

/-- What a chain holds depends on its own buffers only. -/
theorem queueBytes_congr {bufs' : ℕ → List UInt8} (h : ∀ i ∈ owns chain, bufs' i = bufs i) :
    queueBytes bufs' chain = queueBytes bufs chain := by
  induction chain with
  | nil => rfl
  | cons r chain ih =>
    cases r with
    | own i =>
      rw [owns_own] at h
      rw [queueBytes_cons, queueBytes_cons, ih fun j hj => h j (by simp [hj])]
      simp only [refBytes, h i (by simp)]
    | data bytes =>
      rw [queueBytes_cons, queueBytes_cons, ih h]
      rfl

theorem queueBytes_update {i : ℕ} (h : i ∉ owns chain) (bytes : List UInt8) :
    queueBytes (update bufs i bytes) chain = queueBytes bufs chain := by
  refine queueBytes_congr fun j hj => ?_
  rw [update_of_ne]
  rintro rfl
  exact h hj

/-- The buffers that are handed on carry what the chain carries. -/
theorem queueBytes_handedOn (chain : List OutBuf) :
    queueBytes bufs (handedOn chain) = chainBytes chain := by
  induction chain with
  | nil => rfl
  | cons b chain ih =>
    rw [handedOn] at ih ⊢
    rw [filter_cons]
    split
    · rw [map_cons, queueBytes_cons, ih]
      rfl
    · rename_i hpass
      rw [ih, chainBytes, chainBytes, map_cons, flatten_cons,
        OutBuf.bytes_of_not_passes (by simpa using hpass), nil_append]

/-- A buffer that has been sent leaves the chain. -/
theorem updateSent_all {r : OutRef} {n : ℕ} (h : (refBytes bufs r).length ≤ n) :
    updateSent bufs (r :: chain) n =
      ((updateSent (advanceRef bufs n r).1 chain (n - (refBytes bufs r).length)).1,
        (updateSent (advanceRef bufs n r).1 chain (n - (refBytes bufs r).length)).2.1,
        refBytes bufs r
          ++ (updateSent (advanceRef bufs n r).1 chain (n - (refBytes bufs r).length)).2.2) := by
  rw [updateSent]
  simp only [if_pos h]

/-- A buffer that is sent in part stays in the chain. -/
theorem updateSent_part {r : OutRef} {n : ℕ} (h : ¬ (refBytes bufs r).length ≤ n) :
    updateSent bufs (r :: chain) n =
      ((advanceRef bufs n r).1, (advanceRef bufs n r).2 :: chain, (refBytes bufs r).take n) := by
  rw [updateSent]
  simp only [if_neg h]

/-- Sending takes the bytes off the front of a chain, and the buffers that stay in it are not
empty. The induction needs that no buffer stands in the chain twice. -/
theorem updateSent_spec (chain : List OutRef) :
    ∀ (bufs : ℕ → List UInt8) (n : ℕ), (owns chain).Nodup →
      (updateSent bufs chain n).2.2
          ++ queueBytes (updateSent bufs chain n).1 (updateSent bufs chain n).2.1
        = queueBytes bufs chain ∧
      (owns (updateSent bufs chain n).2.1).Sublist (owns chain) ∧
      ((∀ i ∈ owns chain, bufs i ≠ []) →
        ∀ i ∈ owns (updateSent bufs chain n).2.1, (updateSent bufs chain n).1 i ≠ []) := by
  induction chain with
  | nil =>
    intro bufs n _
    exact ⟨rfl, List.Sublist.refl _, fun h => h⟩
  | cons r chain ih =>
    intro bufs n hnodup
    by_cases hlen : (refBytes bufs r).length ≤ n
    · rw [updateSent_all hlen]
      cases r with
      | data bytes =>
        obtain ⟨hbytes, hsub, hne⟩ := ih bufs (n - bytes.length) hnodup
        refine ⟨?_, hsub, hne⟩
        rw [queueBytes_cons, append_assoc]
        exact congrArg _ hbytes
      | own i =>
        rw [owns_own, nodup_cons] at hnodup
        obtain ⟨hi, hnodup⟩ := hnodup
        obtain ⟨hbytes, hsub, hne⟩ :=
          ih (update bufs i ((bufs i).drop n)) (n - (bufs i).length) hnodup
        refine ⟨?_, List.Sublist.cons i hsub, ?_⟩
        · rw [queueBytes_cons, append_assoc]
          exact congrArg _ (hbytes.trans (queueBytes_update hi _))
        · intro h
          refine hne fun j hj => ?_
          rw [update_of_ne (by rintro rfl; exact hi hj)]
          exact h j (by simp [hj])
    · rw [updateSent_part hlen]
      cases r with
      | data bytes =>
        refine ⟨?_, List.Sublist.refl _, fun h => h⟩
        simp only [advanceRef, queueBytes_cons, refBytes]
        rw [← append_assoc, take_append_drop]
      | own i =>
        rw [owns_own, nodup_cons] at hnodup
        refine ⟨?_, List.Sublist.refl _, ?_⟩
        · simp only [advanceRef, queueBytes_cons, refBytes, update_self]
          rw [queueBytes_update hnodup.1, ← append_assoc, take_append_drop]
        · intro h j hj
          simp only [advanceRef]
          by_cases hji : j = i
          · subst hji
            rw [update_self, Ne, drop_eq_nil_iff]
            exact hlen
          · rw [update_of_ne hji]
            exact h j hj

variable (bufs) in
/-- Taking back moves buffers from `busy` to `free`, and only such as were sent out. -/
theorem updateChains_spec (busy : List OutRef) :
    ∀ free : List ℕ,
      ((updateChains bufs busy free).2 ++ owns (updateChains bufs busy free).1).Perm
        (free ++ owns busy) ∧
      ∀ i ∈ (updateChains bufs busy free).2, i ∈ free ∨ bufs i = [] := by
  induction busy with
  | nil =>
    intro free
    exact ⟨List.Perm.refl _, fun i hi => Or.inl hi⟩
  | cons r busy ih =>
    intro free
    cases r with
    | data bytes => exact ih free
    | own j =>
      rw [updateChains]
      split
      · exact ⟨List.Perm.refl _, fun i hi => Or.inl hi⟩
      · rename_i hj
        obtain ⟨hperm, hfree⟩ := ih (j :: free)
        refine ⟨hperm.trans ?_, ?_⟩
        · rw [owns_own]
          exact perm_middle.symm
        · intro i hi
          rcases hfree i hi with h | h
          · rcases mem_cons.mp h with rfl | h
            · exact Or.inr (by simpa using hj)
            · exact Or.inl h
          · exact Or.inr h

end Sent

/-! ### Recycling -/

/-- The invariant of the filter while it has taken the buffers `held` and not yet handed them
on: no buffer stands in two places of which one may be reused, and what the next filter holds
has something to send. -/
structure FilterOk (held : List ℕ) (s : FilterState) : Prop where
  busyNodup : (s.free ++ (owns s.busy ++ held)).Nodup
  queueNodup : (s.free ++ (owns s.queue ++ held)).Nodup
  lt : ∀ i ∈ s.free ++ (owns s.busy ++ (owns s.queue ++ held)), i < s.next
  nonempty : ∀ i ∈ owns s.queue ++ held, s.bufs i ≠ []

theorem FilterOk.fresh : FilterOk [] freshFilter := by
  constructor <;> simp [freshFilter]

variable {s : FilterState} {held : List ℕ} {out : List OutRef}

/-- A buffer that `ngx_chain_get_free_buf` gives is nobody else's. -/
theorem getFreeBuf_spec (h : FilterOk held s) :
    FilterOk held (getFreeBuf s).2 ∧ (getFreeBuf s).1 < (getFreeBuf s).2.next ∧
      (getFreeBuf s).1 ∉ (getFreeBuf s).2.free ++ (owns s.busy ++ (owns s.queue ++ held)) ∧
      (getFreeBuf s).2 = { s with free := (getFreeBuf s).2.free, next := (getFreeBuf s).2.next } := by
  obtain ⟨hbusy, hqueue, hlt, hnonempty⟩ := h
  rw [getFreeBuf]
  cases hfree : s.free with
  | nil =>
    rw [hfree] at hbusy hqueue hlt
    refine ⟨⟨hbusy, hqueue, ?_, hnonempty⟩, Nat.lt_succ_self _, ?_, rfl⟩
    · intro i hi
      exact Nat.lt_succ_of_lt (hlt i hi)
    · intro hi
      exact Nat.lt_irrefl _ (hlt s.next hi)
  | cons i free =>
    rw [hfree] at hbusy hqueue hlt
    rw [cons_append, nodup_cons] at hbusy hqueue
    refine ⟨⟨hbusy.2, hqueue.2, ?_, hnonempty⟩, hlt i (by simp), ?_, rfl⟩
    · intro j hj
      exact hlt j (by rw [cons_append]; exact mem_cons_of_mem i hj)
    · intro hi
      simp only [mem_append] at hi hbusy hqueue
      tauto

/-- A fresh buffer is held twice by nobody. -/
theorem nodup_concat {free used held : List ℕ} {i : ℕ} (h : (free ++ (used ++ held)).Nodup)
    (hi : i ∉ free ++ (used ++ held)) : (free ++ (used ++ (held ++ [i]))).Nodup := by
  rw [← append_assoc used, ← append_assoc free]
  refine List.Nodup.append h (nodup_singleton i) ?_
  rw [disjoint_singleton]
  exact hi

/-- **A buffer is taken.** What it holds is not changed by it and changes nothing else. -/
theorem ownBuf_spec (h : FilterOk held s) (bytes : List UInt8) (hne : bytes ≠ []) :
    FilterOk (held ++ [(ownBuf bytes s).1]) (ownBuf bytes s).2 ∧
      (ownBuf bytes s).2.output = s.output ∧
      (ownBuf bytes s).2.bufs (ownBuf bytes s).1 = bytes ∧
      ∀ i ∈ held, (ownBuf bytes s).2.bufs i = s.bufs i := by
  obtain ⟨⟨hbusy, hqueue, hlt, hnonempty⟩, hnext, hi, hs⟩ := getFreeBuf_spec h
  rw [ownBuf]
  generalize (getFreeBuf s).1 = i at *
  generalize (getFreeBuf s).2.free = free at *
  generalize (getFreeBuf s).2.next = next at *
  rw [hs] at hbusy hqueue hlt hnonempty ⊢
  simp only [mem_append, not_or] at hi
  obtain ⟨hif, hib, hiq, hih⟩ := hi
  have hother : ∀ j, j ≠ i → update s.bufs i bytes j = s.bufs j := fun j hj =>
    update_of_ne hj bytes s.bufs
  refine ⟨⟨?_, ?_, ?_, ?_⟩, ?_, update_self i bytes s.bufs, ?_⟩
  · exact nodup_concat hbusy (by simp [hif, hib, hih])
  · exact nodup_concat hqueue (by simp [hif, hiq, hih])
  · intro j hj
    by_cases hji : j = i
    · rwa [hji]
    · refine hlt j ?_
      simp only [mem_append, mem_singleton, hji, or_false] at hj ⊢
      exact hj
  · intro j hj
    by_cases hji : j = i
    · simpa [hji] using hne
    · simp only [mem_append, mem_singleton, hji, or_false] at hj
      simpa [hother j hji] using hnonempty j (mem_append.mpr hj)
  · simp only [FilterState.output]
    rw [queueBytes_update hiq]
  · intro j hj
    exact hother j (by rintro rfl; exact hih hj)

/-- **Sending keeps the output.** What is added to the queue is added to the output. -/
theorem nextBodyFilter_output (h : FilterOk held s) (hout : owns out = held) (n : ℕ) :
    (nextBodyFilter out n s).output = s.output ++ queueBytes s.bufs out := by
  have hnodup : (owns (s.queue ++ out)).Nodup := by
    rw [owns_append, hout]
    exact h.queueNodup.of_append_right
  obtain ⟨hbytes, _⟩ := updateSent_spec (s.queue ++ out) s.bufs n hnodup
  simp only [nextBodyFilter, FilterState.output]
  rw [append_assoc, hbytes, queueBytes_append, append_assoc]

/-- The next filter keeps some of the buffers it is given, none of them empty. -/
theorem nextBodyFilter_queue (h : FilterOk held s) (hout : owns out = held) (n : ℕ) :
    (owns (nextBodyFilter out n s).queue).Sublist (owns s.queue ++ held) ∧
      ∀ i ∈ owns (nextBodyFilter out n s).queue, (nextBodyFilter out n s).bufs i ≠ [] := by
  have howns : owns (s.queue ++ out) = owns s.queue ++ held := by rw [owns_append, hout]
  obtain ⟨_, hsub, hne⟩ := updateSent_spec (s.queue ++ out) s.bufs n
    (howns ▸ h.queueNodup.of_append_right)
  rw [howns] at hsub hne
  exact ⟨hsub, hne h.nonempty⟩

/-- Sending without a new chain keeps the invariant. -/
theorem FilterOk.send (h : FilterOk [] s) (n : ℕ) : FilterOk [] (nextBodyFilter [] n s) := by
  obtain ⟨hsub, hne⟩ := nextBodyFilter_queue h owns_nil n
  have hqueue := h.queueNodup
  have hlt := h.lt
  rw [append_nil] at hsub hqueue hlt
  refine ⟨h.busyNodup, ?_, ?_, ?_⟩
  · rw [append_nil]
    exact hqueue.sublist (List.Sublist.append_left hsub _)
  · rw [append_nil]
    intro i hi
    refine hlt i (((List.Sublist.append_left hsub _).append_left _).subset hi)
  · rw [append_nil]
    exact hne

/-- **Handing over keeps the invariant.** A buffer that is taken back was sent out, so it is
not one the next filter holds. -/
theorem FilterOk.handOver (h : FilterOk held s) (hout : owns out = held) (n : ℕ) :
    FilterOk [] (handOver out n s) := by
  obtain ⟨hsub, hne⟩ := nextBodyFilter_queue h hout n
  obtain ⟨hperm, hfree⟩ := updateChains_spec (nextBodyFilter out n s).bufs
    (s.busy ++ out) s.free
  rw [owns_append, hout] at hperm
  have hnodup := hperm.nodup_iff.mpr h.busyNodup
  have hqueue := h.queueNodup
  have hmem : ∀ i, i ∈ owns (nextBodyFilter out n s).queue → i ∈ owns s.queue ++ held :=
    fun i hi => hsub.subset hi
  refine ⟨?_, ?_, ?_, ?_⟩
  · rw [append_nil]
    exact hnodup
  · rw [append_nil]
    refine List.Nodup.append hnodup.of_append_left (hqueue.of_append_right.sublist hsub) ?_
    intro i hi hq
    rcases hfree i hi with hi | hi
    · exact (disjoint_of_nodup_append hqueue) hi (hmem i hq)
    · exact hne i hq hi
  · intro i hi
    have hlt := h.lt i
    have hi' : i ∈ (updateChains (nextBodyFilter out n s).bufs (s.busy ++ out) s.free).2
        ++ owns (updateChains (nextBodyFilter out n s).bufs (s.busy ++ out) s.free).1 ∨
        i ∈ owns (nextBodyFilter out n s).queue := by
      simp only [append_nil, mem_append] at hi ⊢
      tauto
    rcases hi' with hi' | hi'
    · have := hperm.mem_iff.mp hi'
      refine hlt ?_
      grind
    · have := hmem i hi'
      refine hlt ?_
      grind
  · rw [append_nil]
    exact hne

/-! ### One call -/

/-- What a call of the filter writes for a chain that carries `data`. -/
def callBytes (trailers : List TrailerElt) (last : Bool) (data : List UInt8) : List UInt8 :=
  (if data = [] then [] else sizeLine data.length ++ data)
    ++ (if last then (if data = [] then (createTrailers trailers).drop 2 else createTrailers trailers)
        else if data = [] then [] else [cr, lf])

/-- What a call writes for its chain. -/
def encodeCall (trailers : List TrailerElt) (chain : List OutBuf) : List UInt8 :=
  callBytes trailers (chainLast chain) (chainBytes chain)

/-- The buffer in front. -/
theorem frontBuf_spec (h : FilterOk [] s) (size : ℕ) :
    FilterOk (owns (frontBuf size s).1) (frontBuf size s).2 ∧
      (frontBuf size s).2.output = s.output ∧
      queueBytes (frontBuf size s).2.bufs (frontBuf size s).1
        = if size = 0 then [] else sizeLine size := by
  rw [frontBuf]
  by_cases h0 : size = 0
  · rw [if_neg (by simpa using h0), if_pos h0]
    exact ⟨h, rfl, rfl⟩
  · rw [if_pos h0, if_neg h0]
    obtain ⟨hok, hout, hbytes, _⟩ := ownBuf_spec h (sizeLine size) (by simp [sizeLine])
    refine ⟨hok, hout, ?_⟩
    simpa [refBytes] using hbytes

/-- What the buffer behind the chain holds. -/
def backBytes (trailers : List TrailerElt) (last : Bool) (size : ℕ) : List UInt8 :=
  if last then (if size = 0 then (createTrailers trailers).drop 2 else createTrailers trailers)
  else if size = 0 then [] else [cr, lf]

/-- The buffer behind the chain, while the one in front is held. -/
theorem backBuf_spec {front : List OutRef} (h : FilterOk (owns front) s)
    (trailers : List TrailerElt) (last : Bool) (size : ℕ) :
    FilterOk (owns front ++ owns (backBuf trailers last size s).1)
        (backBuf trailers last size s).2 ∧
      (backBuf trailers last size s).2.output = s.output ∧
      queueBytes (backBuf trailers last size s).2.bufs (backBuf trailers last size s).1
        = backBytes trailers last size ∧
      queueBytes (backBuf trailers last size s).2.bufs front = queueBytes s.bufs front := by
  have hown : ∀ bytes, bytes ≠ [] →
      FilterOk (owns front ++ owns [.own (ownBuf bytes s).1]) (ownBuf bytes s).2 ∧
      (ownBuf bytes s).2.output = s.output ∧
      queueBytes (ownBuf bytes s).2.bufs [.own (ownBuf bytes s).1] = bytes ∧
      queueBytes (ownBuf bytes s).2.bufs front = queueBytes s.bufs front := by
    intro bytes hne
    obtain ⟨hok, hout, hbytes, hheld⟩ := ownBuf_spec h _ hne
    refine ⟨hok, hout, ?_, queueBytes_congr hheld⟩
    simpa [refBytes] using hbytes
  rw [backBuf, backBytes]
  cases last with
  | true =>
    refine hown _ ?_
    rw [createTrailers_eq]
    split <;> simp
  | false =>
    by_cases h0 : size = 0
    · subst h0
      refine ⟨?_, rfl, rfl, rfl⟩
      simpa using h
    · simp only [Bool.false_eq_true, if_false, if_neg h0, if_pos (Nat.pos_of_ne_zero h0)]
      exact hown _ (by simp)

/-- **One call.** The filter adds the encoding of its chain to the output. -/
theorem chunkedBodyFilter_spec (h : FilterOk [] s) (trailers : List TrailerElt)
    (chain : List OutBuf) (n : ℕ) :
    FilterOk [] (chunkedBodyFilter trailers chain n s) ∧
      (chunkedBodyFilter trailers chain n s).output = s.output ++ encodeCall trailers chain := by
  rw [chunkedBodyFilter]
  split
  · rename_i hnil
    subst hnil
    refine ⟨h.send n, ?_⟩
    rw [nextBodyFilter_output h owns_nil]
    rfl
  · obtain ⟨hok₁, hout₁, hfront₁⟩ := frontBuf_spec h (chainSize chain)
    obtain ⟨hok, hout₂, hback, hfront⟩ :=
      backBuf_spec hok₁ trailers (chainLast chain) (chainSize chain)
    have howns : ∀ front back : List OutRef,
        owns (front ++ (handedOn chain ++ back)) = owns front ++ owns back := by
      intro front back
      rw [owns_append, owns_append, owns_handedOn, nil_append]
    refine ⟨hok.handOver (howns _ _) n, ?_⟩
    refine (nextBodyFilter_output hok (howns _ _) n).trans ?_
    rw [hout₂, hout₁, queueBytes_append, queueBytes_append, hfront, hfront₁, hback,
      queueBytes_handedOn, encodeCall, callBytes, backBytes, chainSize_eq]
    simp only [length_eq_zero_iff]
    by_cases h0 : chainBytes chain = []
    · simp [h0]
    · simp [h0]

/-- **A run.** Whatever the connection takes and when, the output is the encodings of the calls,
one after the other. -/
theorem filterRun_spec (trailers : List TrailerElt) (events : List FilterEvent) :
    ∀ s : FilterState, FilterOk [] s →
      FilterOk [] (filterRun trailers s events) ∧
        (filterRun trailers s events).output
          = s.output ++ ((filterCalls events).map (encodeCall trailers)).flatten := by
  induction events with
  | nil =>
    intro s h
    exact ⟨h, by simp [filterRun, filterCalls]⟩
  | cons e events ih =>
    intro s h
    cases e with
    | call chain n =>
      obtain ⟨hok, hout⟩ := chunkedBodyFilter_spec h trailers chain n
      obtain ⟨hok', hrun⟩ := ih _ hok
      refine ⟨hok', ?_⟩
      rw [filterRun, foldl_cons]
      refine hrun.trans ?_
      rw [hout, append_assoc]
      rfl
    | send n =>
      obtain ⟨hok', hrun⟩ := ih _ (h.send n)
      refine ⟨hok', ?_⟩
      rw [filterRun, foldl_cons]
      refine hrun.trans ?_
      rw [nextBodyFilter_output h owns_nil, queueBytes_nil, append_nil]
      rfl

/-- **The output of a run** is that of its calls. -/
theorem filterRun_output (trailers : List TrailerElt) (events : List FilterEvent) :
    (filterRun trailers freshFilter events).output
      = ((filterCalls events).map (encodeCall trailers)).flatten :=
  (filterRun_spec trailers events freshFilter FilterOk.fresh).2

end Hengine
