import Hengine.Dubbo.Response

/-!
# Responses in Pieces

What the decoder holds between two calls is the response that has only begun (`Holds`), so that a call
goes on as if it had all come at once. It does so as long as every copy is made from one buffer. A copy
ends where a header or a payload ends, or the chain does; so the condition is that wherever one buffer
of a chain ends and the next begins, a header or a payload ends in the stream (`Edge`).
-/

namespace Hengine.Dubbo

open List

open Hessian

/-! ### Copies -/

/-- A buffer of the chain ends at a position, and another begins. -/
def CutAt (cl : Chain) (q : ℕ) : Prop :=
  0 < q ∧ q < cl.flatten.length ∧ ∃ k, (cl.take k).flatten.length = q

theorem write_nil (m : Memory Area UInt8) (a : Area) (p : ℕ) : m.write a p [] = m := by
  funext b i
  rw [Memory.write]
  split
  · rfl
  · rfl

section Copy

variable {a : Area} {dst : ℕ}

/-- **A copy from one buffer.** -/
theorem copyChain_mem : ∀ {cl : Chain} {mem : Memory Area UInt8} {n : ℕ}, n ≤ cl.flatten.length →
    (∀ q, CutAt cl q → n ≤ q) →
      (copyChain mem a dst cl n).1 = mem.write a dst (cl.flatten.take n)
  | [], mem, n, hn, _ => by
    rw [Nat.le_zero.1 hn]
    exact (write_nil mem a dst).symm
  | b :: cl, mem, n, hn, hcut => by
    rw [flatten_cons, length_append] at hn
    rw [copyChain, flatten_cons]
    by_cases hle : n ≤ b.length
    · rw [if_pos hle, take_append_of_le_length hle]
    · rw [if_neg hle]
      have hb : b = [] := by
        by_contra hne
        refine hle (hcut b.length ⟨length_pos_iff.2 hne, ?_, 1, ?_⟩)
        · rw [flatten_cons, length_append]
          omega
        · simp
      subst hb
      dsimp only
      rw [copyChain_mem (by simpa using hn), write_nil]
      · rfl
      · rintro q ⟨hpos, hlt, k, hk⟩
        exact hcut q ⟨hpos, hlt, k + 1, hk⟩

/-- Copying takes its bytes off the front of each part of the chain. -/
theorem copyChain_take : ∀ {cl : Chain} {mem : Memory Area UInt8} {n : ℕ} (k : ℕ),
    ((copyChain mem a dst cl n).2.take k).flatten = (cl.take k).flatten.drop n
  | [], _, n, k => by simp [copyChain]
  | b :: cl, mem, n, 0 => by simp
  | b :: cl, mem, n, k + 1 => by
    rw [copyChain, take_succ_cons, flatten_cons]
    by_cases hle : n ≤ b.length
    · rw [if_pos hle, drop_append_of_le_length hle]
      rfl
    · rw [if_neg hle, drop_append, drop_eq_nil_of_le (by omega)]
      exact copyChain_take k

/-- What remains of a chain after copying. -/
theorem copyChain_flatten (cl : Chain) (mem : Memory Area UInt8) (n : ℕ) :
    (copyChain mem a dst cl n).2.flatten = cl.flatten.drop n := by
  have htake : ((copyChain mem a dst cl n).2.take
      ((copyChain mem a dst cl n).2.length + cl.length)).flatten = _ := copyChain_take _
  rwa [take_of_length_le (Nat.le_add_right _ _), take_of_length_le (Nat.le_add_left _ _)]
    at htake

/-- A cut of what remains is a cut of the chain. -/
theorem CutAt.of_copyChain {cl : Chain} {mem : Memory Area UInt8} {n q : ℕ}
    (h : CutAt (copyChain mem a dst cl n).2 q) : CutAt cl (n + q) := by
  obtain ⟨hpos, hlt, k, hk⟩ := h
  rw [copyChain_flatten, length_drop] at hlt
  rw [copyChain_take, length_drop] at hk
  exact ⟨by omega, by omega, k, by omega⟩

end Copy

/-! ### The stream -/

/-- The frames of a stream of responses. -/
def dubboFormat : FrameFormat UInt8 := ⟨16, fun h => ofNumberBytes ((h.drop 12).take 4), by decide⟩

/-- The response that a frame is. -/
def responseOf (f : List UInt8) : Response :=
  ⟨f.getD 2 0, f.getD 3 0, ofNumberBytes ((f.drop 4).take 8), ofNumberBytes ((f.drop 12).take 4),
    f.drop 16⟩

/-- The length of a response stands in the last four bytes of its header. -/
theorem dubboFormat_total {h : List UInt8} (hlen : h.length = 16) (p : List UInt8) :
    dubboFormat.total (h ++ p) = 16 + ofNumberBytes ((h.drop 12).take 4) := by
  have htake : (h ++ p).take 16 = h := take_left' hlen
  show 16 + ofNumberBytes ((((h ++ p).take 16).drop 12).take 4) = _
  rw [htake]

/-- The fields of a header and the payload behind it. -/
theorem responseOf_append {h : List UInt8} (hlen : h.length = 16) (p : List UInt8) :
    responseOf (h ++ p) = ⟨h.getD 2 0, h.getD 3 0, ofNumberBytes ((h.drop 4).take 8),
      ofNumberBytes ((h.drop 12).take 4), p⟩ := by
  have hcell : ∀ i < 16, (h ++ p).getD i 0 = h.getD i 0 := fun i hi => by
    rw [getD_eq_getElem?_getD, getElem?_append_left (by omega), getD_eq_getElem?_getD]
  have hpart : ∀ i n, i + n ≤ 16 → ((h ++ p).drop i).take n = (h.drop i).take n := fun i n hn => by
    rw [drop_append_of_le_length (by omega),
      take_append_of_le_length (by rw [length_drop]; omega)]
  rw [responseOf, hcell 2 (by decide), hcell 3 (by decide), hpart 4 8 (by decide),
    hpart 12 4 (by decide), drop_left' hlen]

/-- A header or a payload ends here. -/
def Edge (s : List UInt8) : Prop :=
  dubboFormat.rest s = [] ∨ (dubboFormat.rest s).length = dubboFormat.size

/-- No edge of a response lies inside its header. -/
theorem not_edge_header {s : List UInt8} (hpos : 0 < s.length) (h : s.length < 16) : ¬ Edge s := by
  have hshort : ¬ dubboFormat.Whole s := fun hwhole => Nat.not_lt.2 hwhole.size_le h
  rw [Edge, FrameFormat.rest_short hshort]
  rintro (rfl | hlen)
  · exact Nat.lt_irrefl 0 hpos
  · exact Nat.ne_of_lt h hlen

/-- Nor in the middle of a payload. -/
theorem not_edge_payload {h p : List UInt8} (hlen : h.length = 16) (hpos : 0 < p.length)
    (hlt : p.length < ofNumberBytes ((h.drop 12).take 4)) : ¬ Edge (h ++ p) := by
  have hshort : ¬ dubboFormat.Whole (h ++ p) := by
    intro hwhole
    rw [FrameFormat.Whole, dubboFormat_total hlen, length_append] at hwhole
    omega
  rw [Edge, FrameFormat.rest_short hshort]
  rintro (hnil | hsize)
  · have hzero := congrArg List.length hnil
    rw [length_append, length_nil] at hzero
    omega
  · rw [length_append] at hsize
    have hsixteen : dubboFormat.size = 16 := rfl
    omega

/-- Where buffers end, behind `w`, a header or a payload ends. -/
def Edges (w : List UInt8) (cl : Chain) : Prop :=
  ∀ q, CutAt cl q → Edge (w ++ cl.flatten.take q)

/-- Copying keeps the edges of the chain. -/
theorem Edges.of_copyChain {a : Area} {dst n : ℕ} {w : List UInt8} {cl : Chain}
    {mem : Memory Area UInt8} (h : Edges w cl) :
    Edges (w ++ cl.flatten.take n) (copyChain mem a dst cl n).2 := by
  intro q hq
  have hedge := h (n + q) hq.of_copyChain
  rwa [copyChain_flatten, append_assoc, ← take_add]

/-! ### What the decoder holds -/

/-- The fields of a header are those of its bytes. -/
structure Conn.HasHeader (c : Conn) (h : List UInt8) : Prop where
  type : c.mem .header 2 = h.getD 2 0
  status : c.mem .header 3 = h.getD 3 0
  id : c.reqid = ofNumberBytes ((h.drop 4).take 8)
  length : c.payloadlen = ofNumberBytes ((h.drop 12).take 4)

/-- The bytes of a response that have come: some of the header, or all of it and some of the payload. -/
inductive Holds (c : Conn) : List UInt8 → Prop
  | header {w : List UInt8} : c.parseState = .readHeader → w.length < 16 → c.remain = w.length →
      c.mem.slice .header 0 w.length = w → Holds c w
  | payload {h p : List UInt8} {n : ℕ} : c.parseState = .readPayload → h.length = 16 → c.HasHeader h →
      c.remain = p.length → p.length < c.payloadlen → c.mem.slice .payload 0 p.length = p →
      c.payloadAlloc = some n → c.payloadlen ≤ n → Holds c (h ++ p)

theorem slice_of_header {m : Memory Area UInt8} {h : List UInt8} (hh : m.slice .header 0 16 = h)
    {p n : ℕ} (hle : p + n ≤ 16) : m.slice .header p (p + n) = (h.drop p).take n := by
  rw [← hh, Memory.slice_drop (by omega), Nat.zero_add, Memory.slice_take hle]

/-- A header that is whole is brought to the order of the machine. -/
theorem Conn.hasHeader_swap {c : Conn} {h : List UInt8} (hh : c.mem.slice .header 0 16 = h) :
    c.swap.HasHeader h := by
  have hlength : (c.mem.slice .header 12 16).reverse.length = 4 := by
    rw [length_reverse, Memory.slice_length]
  have hid : (c.mem.slice .header 4 12).reverse.length = 8 := by
    rw [length_reverse, Memory.slice_length]
  have hcell : ∀ i < 4, c.swap.mem .header i = h.getD i 0 := by
    intro i hi
    have hsame : c.swap.mem .header i = c.mem .header i := by
      show ((c.mem.write .header 12 _).write .header 4 _) .header i = _
      rw [Memory.write, if_neg (by omega), Memory.write, if_neg (by omega)]
    have hget := Memory.slice_getElem? (m := c.mem) (a := .header) (p := 0) (q := 16) i
    rw [if_pos (by omega), Nat.zero_add, hh] at hget
    rw [hsame, getD_eq_getElem?_getD, hget]
    rfl
  have hmem : c.swap.mem = (c.mem.write .header 12 (c.mem.slice .header 12 16).reverse).write .header 4
    (c.mem.slice .header 4 12).reverse := rfl
  refine ⟨hcell 2 (by decide), hcell 3 (by decide), ?_, ?_⟩
  · have hself := Memory.slice_write_self (m := c.mem.write .header 12 (c.mem.slice .header 12 16).reverse)
      (a := .header) (p := 4) (c.mem.slice .header 4 12).reverse
    rw [hid] at hself
    simp only [Nat.reduceAdd] at hself
    rw [Conn.reqid, hmem, hself, reverse_reverse]
    exact congrArg ofNumberBytes (slice_of_header (p := 4) (n := 8) hh (by decide))
  · have hself := Memory.slice_write_self (m := c.mem) (a := .header) (p := 12)
      (c.mem.slice .header 12 16).reverse
    rw [hlength] at hself
    simp only [Nat.reduceAdd] at hself
    rw [Conn.payloadlen, hmem, Memory.slice_write_above (by rw [hid]), hself, reverse_reverse]
    exact congrArg ofNumberBytes (slice_of_header (p := 12) (n := 4) hh (by decide))

/-! ### One call -/

section Call

variable {fresh : ℕ → ℕ → UInt8} {c : Conn} {h p : List UInt8}

/-- With new memory, too, the decoder has its header, and what has come of the payload. -/
theorem Conn.reserve_spec (fresh : ℕ → ℕ → UInt8) (hheader : c.HasHeader h)
    (hmem : c.mem.slice .payload 0 p.length = p)
    (halloc : p = [] ∨ ∃ n, c.payloadAlloc = some n ∧ c.payloadlen ≤ n) :
    (c.reserve fresh).HasHeader h ∧ (c.reserve fresh).mem.slice .payload 0 p.length = p ∧
      (∃ n, (c.reserve fresh).payloadAlloc = some n ∧ c.payloadlen ≤ n) ∧
      (c.reserve fresh).remain = c.remain ∧ (c.reserve fresh).parseState = c.parseState := by
  have hnew : p = [] → ∀ c' : Conn, c' = { c with
      mem := fun a i => if a = .payload then fresh c.payloadlen i else c.mem a i
      payloadAlloc := some c.payloadlen } →
      c'.HasHeader h ∧ c'.mem.slice .payload 0 p.length = p ∧
      (∃ n, c'.payloadAlloc = some n ∧ c.payloadlen ≤ n) ∧ c'.remain = c.remain ∧
        c'.parseState = c.parseState := by
    rintro rfl c' rfl
    exact ⟨⟨hheader.type, hheader.status, hheader.id, hheader.length⟩, rfl, ⟨_, rfl, Nat.le_refl _⟩,
      rfl, rfl⟩
  unfold Conn.reserve
  cases hcase : c.payloadAlloc with
  | none =>
    have hnil : p = [] := halloc.resolve_right fun ⟨n, hn, _⟩ => by
      rw [hcase] at hn
      cases hn
    exact hnew hnil _ rfl
  | some n =>
    dsimp only
    split_ifs with hgt
    · have hnil : p = [] := halloc.resolve_right fun ⟨n', hn, hle⟩ => by
        rw [hcase, Option.some.injEq] at hn
        omega
      exact hnew hnil _ rfl
    · exact ⟨hheader, hmem, ⟨n, hcase, Nat.not_lt.1 hgt⟩, rfl, rfl⟩

/-- Bytes written behind a prefix extend it. -/
theorem slice_write_next {m : Memory Area UInt8} {a : Area} (hmem : m.slice a 0 p.length = p)
    (t : List UInt8) : (m.write a p.length t).slice a 0 (p.length + t.length) = p ++ t := by
  rw [← Memory.slice_append (q := p.length) (Nat.zero_le _) (Nat.le_add_right _ _),
    Memory.slice_write_below (Nat.le_refl _), hmem, Memory.slice_write_self]

theorem holds_nil {c : Conn} (hstate : c.parseState = .readHeader) (hremain : c.remain = 0) :
    Holds c [] :=
  .header hstate (by decide) hremain rfl

/-- The header stands in the memory alone. -/
theorem Conn.HasHeader.of_mem {c' : Conn} (hheader : c.HasHeader h) (hmem : c'.mem = c.mem) :
    c'.HasHeader h := by
  refine ⟨?_, ?_, ?_, ?_⟩
  · rw [hmem, hheader.type]
  · rw [hmem, hheader.status]
  · rw [Conn.reqid, hmem]
    exact hheader.id
  · rw [Conn.payloadlen, hmem]
    exact hheader.length

/-- The header does not change when the payload is written. -/
theorem Conn.HasHeader.write {c' : Conn} {q : ℕ} {t : List UInt8} (hheader : c.HasHeader h)
    (hmem : c'.mem = c.mem.write .payload q t) : c'.HasHeader h := by
  have hslice : ∀ i j, c'.mem.slice .header i j = c.mem.slice .header i j := fun i j => by
    rw [hmem, Memory.slice_write_area (by decide)]
  have hcell : ∀ i, c'.mem .header i = c.mem .header i := fun i => by
    rw [hmem, Memory.write, if_neg fun hb => by cases hb.1]
  refine ⟨?_, ?_, ?_, ?_⟩
  · rw [hcell, hheader.type]
  · rw [hcell, hheader.status]
  · rw [Conn.reqid, hslice]
    exact hheader.id
  · rw [Conn.payloadlen, hslice]
    exact hheader.length

/-- What a connection holds is no whole response. -/
theorem Holds.not_whole {w : List UInt8} (hc : Holds c w) : ¬ dubboFormat.Whole w := by
  cases hc with
  | header _ hlt _ _ => exact fun hwhole => Nat.not_lt.2 hwhole.size_le hlt
  | payload _ hlen hheader _ hlt _ _ _ =>
    intro hwhole
    rw [hheader.length] at hlt
    rw [FrameFormat.Whole, dubboFormat_total hlen, length_append] at hwhole
    omega

/-- What it holds is shorter than the response will be. -/
theorem Holds.length_lt_total {w t : List UInt8} (hc : Holds c w) :
    w.length < dubboFormat.total (w ++ t) := by
  cases hc with
  | header _ hlt _ _ => exact Nat.lt_of_lt_of_le hlt (Nat.le_add_right _ _)
  | payload _ hlen hheader _ hlt _ _ _ =>
    rw [hheader.length] at hlt
    rw [append_assoc, dubboFormat_total hlen, length_append]
    omega

/-- How a call goes with `t` behind the `w` that is held: a response that is whole is given, and what
follows it goes on; or all is taken, and held. -/
def Goes (w t : List UInt8) (o : Ret × Conn × Chain) : Prop :=
  if dubboFormat.Whole (w ++ t) then
    o.1 = .done ∧ o.2.1.response = responseOf ((w ++ t).take (dubboFormat.total (w ++ t))) ∧
      Holds o.2.1 [] ∧ o.2.2.flatten = (w ++ t).drop (dubboFormat.total (w ++ t)) ∧ Edges [] o.2.2
  else o.1 = .again ∧ Holds o.2.1 (w ++ t) ∧ o.2.2.flatten = []

theorem goes_congr {w t w' t' : List UInt8} {o : Ret × Conn × Chain} (hsame : w ++ t = w' ++ t') :
    Goes w t o ↔ Goes w' t' o := by
  rw [Goes, Goes, hsame]

theorem edges_whole {f : List UInt8} (hf : f.length = dubboFormat.total f) {cl : Chain}
    (h : Edges f cl) : Edges [] cl := by
  intro q hq
  have hedge := h q hq
  rw [Edge, FrameFormat.rest_whole hf] at hedge
  exact hedge

variable (fresh) in
/-- **The payload.** -/
theorem decodePayload_spec {cl : Chain} (hstate : c.parseState = .readPayload) (hlen : h.length = 16)
    (hheader : c.HasHeader h) (hremain : c.remain = p.length) (hp : p.length ≤ c.payloadlen)
    (hmem : c.mem.slice .payload 0 p.length = p)
    (halloc : p = [] ∨ ∃ n, c.payloadAlloc = some n ∧ c.payloadlen ≤ n)
    (hedges : Edges (h ++ p) cl) :
    Goes (h ++ p) cl.flatten (decodePayload fresh c cl cl.flatten.length) := by
  obtain ⟨hheader', hmem', ⟨n, halloc', hle⟩, hremain', hstate'⟩ :=
    Conn.reserve_spec fresh hheader hmem halloc
  unfold decodePayload
  generalize c.reserve fresh = c' at hheader' hmem' halloc' hremain' hstate' ⊢
  have hsame : c'.payloadlen = c.payloadlen := hheader'.length.trans hheader.length.symm
  rw [← hsame] at hp hle
  rw [hremain] at hremain'
  have htotal : dubboFormat.total (h ++ p ++ cl.flatten) = 16 + c'.payloadlen := by
    rw [append_assoc, dubboFormat_total hlen, hheader'.length]
  have hwhole : dubboFormat.Whole (h ++ p ++ cl.flatten) ↔
      c'.payloadlen ≤ p.length + cl.flatten.length := by
    rw [FrameFormat.Whole, htotal, length_append, length_append, hlen]
    omega
  -- no buffer ends before the payload does
  have huncut : ∀ m ≤ c'.payloadlen - p.length, ∀ q, CutAt cl q → m ≤ q := by
    intro m hm q hq
    by_contra hlt
    have htake : (cl.flatten.take q).length = q := length_take_of_le hq.2.1.le
    refine not_edge_payload (p := p ++ cl.flatten.take q) hlen ?_ ?_ ?_
    · rw [length_append, htake]
      exact Nat.lt_of_lt_of_le hq.1 (Nat.le_add_left _ _)
    · rw [length_append, htake, ← hheader'.length]
      omega
    · rw [← append_assoc]
      exact hedges q hq
  unfold Goes
  dsimp only
  by_cases hdone : cl.flatten.length + c'.remain ≥ c'.payloadlen
  · rw [if_pos hdone, if_pos (hwhole.2 (by omega))]
    have hn : c'.payloadlen - p.length ≤ cl.flatten.length := by omega
    have htake : (cl.flatten.take (c'.payloadlen - p.length)).length = c'.payloadlen - p.length :=
      length_take_of_le hn
    have hcopy : (copyChain c'.mem .payload p.length cl (c'.payloadlen - p.length)).1 = _ :=
      copyChain_mem hn (huncut _ (Nat.le_refl _))
    have hframe : (h ++ p ++ cl.flatten).take (16 + c'.payloadlen) =
        h ++ (p ++ cl.flatten.take (c'.payloadlen - p.length)) := by
      rw [append_assoc, ← hlen, take_length_add_append, take_append,
        take_of_length_le hp]
    have hrest : (h ++ p ++ cl.flatten).drop (16 + c'.payloadlen) =
        cl.flatten.drop (c'.payloadlen - p.length) := by
      rw [append_assoc, ← hlen, drop_length_add_append, drop_append,
        drop_eq_nil_of_le hp, nil_append]
    have hwrite := slice_write_next hmem' (cl.flatten.take (c'.payloadlen - p.length))
    rw [htake, Nat.add_sub_cancel' hp] at hwrite
    rw [htotal, hframe, hrest, hremain']
    refine ⟨rfl, ?_, holds_nil rfl rfl, copyChain_flatten _ _ _, ?_⟩
    · have hlast : Conn.HasHeader { c' with
        mem := (copyChain c'.mem .payload p.length cl (c'.payloadlen - p.length)).1
        remain := 0
        parseState := .readHeader } h := hheader'.write hcopy
      rw [responseOf_append hlen, Conn.response, hlast.type, hlast.status, hlast.id, hlast.length]
      rw [← hheader'.length, hcopy, hwrite]
    · refine edges_whole (f := h ++ (p ++ cl.flatten.take (c'.payloadlen - p.length))) ?_ ?_
      · rw [dubboFormat_total hlen, length_append, length_append, htake, hlen,
          ← hheader'.length]
        omega
      · rw [← append_assoc]
        exact hedges.of_copyChain
  · rw [if_neg hdone, if_neg (mt hwhole.1 (by omega))]
    have hlt : p.length + cl.flatten.length < c'.payloadlen := by omega
    by_cases hzero : cl.flatten.length ≠ 0
    · rw [if_pos hzero]
      have hcopy : (copyChain c'.mem .payload p.length cl cl.flatten.length).1 = _ :=
        copyChain_mem (Nat.le_refl _) (huncut _ (by omega))
      have hwrite := slice_write_next hmem' cl.flatten
      rw [take_length] at hcopy
      rw [hremain']
      refine ⟨rfl, ?_, by rw [copyChain_flatten, drop_length]⟩
      have hlast : Conn.HasHeader { c' with
        mem := (copyChain c'.mem .payload p.length cl cl.flatten.length).1
        remain := p.length + cl.flatten.length } h := hheader'.write hcopy
      have hsize := hlast.length.trans hheader'.length.symm
      rw [append_assoc]
      refine .payload (hstate'.trans hstate) hlen hlast length_append.symm ?_ ?_ halloc' ?_
      · rw [hsize, length_append]
        exact hlt
      · rw [length_append, hcopy]
        exact hwrite
      · rw [hsize]
        exact hle
    · have hnil : cl.flatten = [] := length_eq_zero_iff.1 (not_not.1 hzero)
      rw [if_neg hzero, hnil, append_nil]
      rw [hnil, length_nil, Nat.add_zero] at hlt
      exact ⟨rfl, .payload (hstate'.trans hstate) hlen hheader' hremain' hlt hmem' halloc' hle, rfl⟩

variable (fresh) in
/-- **One call.** -/
theorem decodeResponse_spec {w : List UInt8} {cl : Chain} (hc : Holds c w) (hedges : Edges w cl) :
    Goes w cl.flatten (decodeResponse fresh c cl) := by
  unfold decodeResponse
  dsimp only
  by_cases hzero : cl.flatten.length = 0
  · -- nothing has come
    have hnil : cl.flatten = [] := length_eq_zero_iff.1 hzero
    rw [if_pos hzero, hnil, Goes, append_nil, if_neg hc.not_whole]
    exact ⟨rfl, hc, hnil⟩
  · rw [if_neg hzero]
    cases hc with
    | payload hstate hlen hheader hremain hlt hmem halloc hle =>
      rw [hstate]
      exact decodePayload_spec fresh hstate hlen hheader hremain hlt.le hmem (.inr ⟨_, halloc, hle⟩) hedges
    | header hstate hlt hremain hmem =>
      rw [hstate, hremain]
      dsimp only
      -- no buffer ends before the header does
      have huncut : ∀ m ≤ 16 - w.length, ∀ q, CutAt cl q → m ≤ q := by
        intro m hm q hq
        by_contra hcut
        have htake : (cl.flatten.take q).length = q := length_take_of_le hq.2.1.le
        refine not_edge_header ?_ ?_ (hedges q hq)
        · rw [length_append, htake]
          exact Nat.lt_of_lt_of_le hq.1 (Nat.le_add_left _ _)
        · rw [length_append, htake]
          omega
      by_cases hfull : cl.flatten.length + w.length ≥ 16
      · rw [if_pos hfull]
        have hn : 16 - w.length ≤ cl.flatten.length := by omega
        have hcopy : (copyChain c.mem .header w.length cl (16 - w.length)).1 = _ :=
          copyChain_mem hn (huncut _ (Nat.le_refl _))
        have hwrite := slice_write_next hmem (cl.flatten.take (16 - w.length))
        have hlen : (w ++ cl.flatten.take (16 - w.length)).length = 16 := by
          rw [length_append, length_take_of_le hn]
          omega
        rw [← length_append, hlen, ← hcopy] at hwrite
        have hswap : Conn.HasHeader (Conn.swap { c with
          mem := (copyChain c.mem .header w.length cl (16 - w.length)).1
          remain := 0 }) _ := Conn.hasHeader_swap hwrite
        have hheader : Conn.HasHeader { Conn.swap { c with
          mem := (copyChain c.mem .header w.length cl (16 - w.length)).1
          remain := 0 } with parseState := .readPayload } _ := hswap.of_mem rfl
        have hflatten : (copyChain c.mem .header w.length cl (16 - w.length)).2.flatten = _ :=
          copyChain_flatten _ _ _
        have hedges' : Edges (w ++ cl.flatten.take (16 - w.length) ++ [])
            (copyChain c.mem .header w.length cl (16 - w.length)).2 := by
          rw [append_nil]
          exact hedges.of_copyChain
        have hgoes := decodePayload_spec fresh rfl hlen hheader rfl (Nat.zero_le _) rfl
          (.inl rfl) hedges'
        rw [hflatten, length_drop] at hgoes
        refine (goes_congr ?_).1 hgoes
        rw [append_nil, append_assoc, take_append_drop]
      · rw [if_neg hfull]
        have hcopy : (copyChain c.mem .header w.length cl cl.flatten.length).1 = _ :=
          copyChain_mem (Nat.le_refl _) (huncut _ (by omega))
        rw [take_length] at hcopy
        have hall : (w ++ cl.flatten).length < 16 := by
          rw [length_append]
          omega
        have hshort : ¬ dubboFormat.Whole (w ++ cl.flatten) :=
          fun hwhole => Nat.not_lt.2 hwhole.size_le hall
        rw [Goes, if_neg hshort]
        refine ⟨rfl, .header rfl hall length_append.symm ?_, ?_⟩
        · rw [length_append]
          dsimp only
          rw [hcopy]
          exact slice_write_next hmem _
        · rw [copyChain_flatten, drop_length]

end Call

/-! ### Any chains -/

section Receive

variable {fresh : ℕ → ℕ → UInt8}

variable (fresh) in
/-- **One chain**, with as many turns as it needs. -/
theorem responses_spec : ∀ {turns : ℕ} {c : Conn} {w : List UInt8} {cl : Chain}, Holds c w →
    Edges w cl → cl.flatten.length < turns →
      (responses fresh turns c cl).1 = (dubboFormat.frames (w ++ cl.flatten)).map responseOf ∧
        Holds (responses fresh turns c cl).2 (dubboFormat.rest (w ++ cl.flatten))
  | 0, _, _, _, _, _, hturns => absurd hturns (Nat.not_lt_zero _)
  | turns + 1, c, w, cl, hc, hedges, hturns => by
    have hgoes := decodeResponse_spec fresh hc hedges
    rw [responses]
    generalize decodeResponse fresh c cl = o at hgoes ⊢
    obtain ⟨ret, c', cl'⟩ := o
    unfold Goes at hgoes
    split_ifs at hgoes with hwhole
    · obtain ⟨hret, hresponse, hholds, hflatten, hedges'⟩ := hgoes
      dsimp only at hret hresponse hholds hflatten hedges'
      rw [hret]
      dsimp only
      have hshort : cl'.flatten.length < turns := by
        rw [hflatten, length_drop, length_append]
        have hmore : w.length < dubboFormat.total (w ++ cl.flatten) := hc.length_lt_total
        rw [FrameFormat.Whole, length_append] at hwhole
        omega
      obtain ⟨hframes, hrest⟩ := responses_spec hholds hedges' hshort
      rw [hframes, FrameFormat.frames_step hwhole, FrameFormat.rest_step hwhole, map_cons,
        hresponse, ← hflatten]
      exact ⟨rfl, hrest⟩
    · obtain ⟨hret, hholds, -⟩ := hgoes
      dsimp only at hret hholds
      rw [hret, FrameFormat.frames_short hwhole, FrameFormat.rest_short hwhole]
      exact ⟨rfl, hholds⟩

/-- The condition on the chains: where one buffer of a chain ends and the next begins, a header or a
payload ends in the stream. -/
def AtEdges (cls : List Chain) : Prop :=
  ∀ before cl after, cls = before ++ cl :: after → Edges before.flatten.flatten cl

theorem edges_rest {s : List UInt8} {cl : Chain} (h : Edges s cl) : Edges (dubboFormat.rest s) cl := by
  intro q hq
  have hedge := h q hq
  rwa [Edge, (FrameFormat.cut_append s _).2] at hedge

/-- **Any chains**, behind a stream `s`. -/
theorem receive_spec : ∀ {cls : List Chain} {c : Conn} {s : List UInt8},
    Holds c (dubboFormat.rest s) →
      (∀ before cl after, cls = before ++ cl :: after → Edges (s ++ before.flatten.flatten) cl) →
        (receive fresh c cls).1 =
          (dubboFormat.frames (dubboFormat.rest s ++ cls.flatten.flatten)).map responseOf
  | [], c, s, hc, _ => by
    rw [flatten_nil, flatten_nil, append_nil,
      FrameFormat.frames_short (FrameFormat.not_whole_rest s)]
    rfl
  | cl :: cls, c, s, hc, hedges => by
    have hfirst := hedges [] cl cls rfl
    rw [flatten_nil, flatten_nil, append_nil] at hfirst
    obtain ⟨hframes, hholds⟩ := responses_spec fresh hc (edges_rest hfirst)
      (Nat.lt_succ_self _)
    rw [← (FrameFormat.cut_append s _).2] at hholds
    have hothers : ∀ before cl' after, cls = before ++ cl' :: after →
        Edges (s ++ cl.flatten ++ before.flatten.flatten) cl' := by
      intro before cl' after hcls
      have hedge := hedges (cl :: before) cl' after (by rw [hcls]; rfl)
      rwa [flatten_cons, flatten_append, ← append_assoc] at hedge
    have hlater := receive_spec hholds hothers
    rw [receive]
    dsimp only
    rw [hframes, hlater, ← map_append, flatten_cons, flatten_append,
      ← append_assoc, (FrameFormat.cut_append (dubboFormat.rest s ++ cl.flatten) _).1,
      (FrameFormat.cut_append s cl.flatten).2]

/-- **Responses in pieces.** If headers and payloads are not spread over the buffers of a chain, the
responses are those of the whole stream in one buffer. -/
theorem receive_once {cls : List Chain} (h : AtEdges cls) :
    (receive fresh .init cls).1 = (receive fresh .init [[cls.flatten.flatten]]).1 := by
  have hinit : Holds .init (dubboFormat.rest []) := by
    rw [FrameFormat.rest_short (by decide)]
    exact holds_nil rfl rfl
  have hone : ∀ before cl after, [[cls.flatten.flatten]] = before ++ cl :: after →
      Edges ([] ++ before.flatten.flatten) cl := by
    rintro before cl after hcls q ⟨hpos, hlt, k, hk⟩
    have hcl : cl ∈ [[cls.flatten.flatten]] := hcls ▸ mem_append_right _ mem_cons_self
    rw [mem_singleton.1 hcl] at hlt hk
    -- a single buffer has no cut
    cases k with
    | zero =>
      rw [take_zero, flatten_nil, length_nil] at hk
      omega
    | succ k =>
      rw [take_succ_cons, take_nil] at hk
      omega
  rw [receive_spec hinit fun before cl after hcls => h before cl after hcls,
    receive_spec hinit hone]
  simp

end Receive

/-- A header with a payload of one byte. -/
def someHeader : List UInt8 := [0xda, 0xbb, 0x02, 20, 0, 0, 0, 0, 0, 0, 0, 1, 0, 0, 0, 1]

/-- A header in one buffer and its payload in the next. -/
theorem receive_once_edge :
    (receive (fun _ _ => 0) .init [[someHeader, [7]]]).1 =
      (receive (fun _ _ => 0) .init [[someHeader ++ [7]]]).1 := by
  refine receive_once fun before cl after hcls q hq => ?_
  obtain ⟨rfl, hrest⟩ : before = [] ∧ [cl] = [[someHeader, [7]]] := by
    cases before with
    | nil => exact ⟨rfl, by rw [(List.cons.inj hcls).1]⟩
    | cons b before => exact absurd (List.cons.inj hcls).2 (by simp)
  rw [singleton_inj.1 hrest] at hq ⊢
  obtain ⟨hpos, hlt, k, hk⟩ := hq
  have hq16 : q = 16 := by
    rcases k with _ | _ | k
    · exact absurd hpos (by rw [← hk]; decide)
    · exact hk.symm
    · rw [take_of_length_le (Nat.le_add_left 2 k)] at hk
      exact absurd hlt (by rw [hk]; exact Nat.lt_irrefl q)
  subst hq16
  refine .inr ?_
  rw [FrameFormat.rest_short (by decide)]
  rfl

/-- **A header that is spread over two buffers**: its second part is put over the first. -/
theorem spread_header_lost : ¬ ∀ (fresh : ℕ → ℕ → UInt8) (cls : List Chain),
    (receive fresh .init cls).1 = (receive fresh .init [[cls.flatten.flatten]]).1 := by
  intro h
  have htypes := congrArg (List.map Response.type)
    (h (fun _ _ => 0) [[someHeader.take 8, someHeader.drop 8 ++ [7]]])
  revert htypes
  decide

end Hengine.Dubbo
