import Hengine.Core.Atoi

/-!
# Slices of a File

The model of `ngx_http_slice_handler` in `ngx_http_slice_module.c`: the bytes of a file from one
argument to another, between two configured texts. `arg` is what `ngx_http_arg` finds. The header
text is sent unless it is denied for the first slice, and the footer unless it is denied for the
last one; but the length counts the header **only** for the first slice, and the footer only for
the last one. It is added up in a `size_t` and put into an `off_t`.
-/

namespace Hengine.SliceHandler

open List

open Conv (atoof decDigit int64 maxOffTValue)

/-- `ngx_http_slice_loc_conf_t`. -/
structure Conf where
  argBegin : List UInt8
  argEnd : List UInt8
  header : List UInt8
  headerFirst : Bool
  footer : List UInt8
  footerLast : Bool
deriving Repr, DecidableEq

/-- An open file; its size is an `off_t`. -/
structure File where
  content : List UInt8
  size_le : content.length ≤ maxOffTValue

/-- `of.size`. -/
def File.size (f : File) : ℕ := f.content.length

/-- `of.err`, as far as the handler tells its values apart. -/
inductive OpenErr
  | none
  | notFound
  | access
  | other
deriving Repr, DecidableEq

/-- What `ngx_open_cached_file` gives. -/
inductive Opened
  | failed (err : OpenErr)
  | notFile
  | file (f : File)

inductive Method
  | get
  | head
  | other
deriving Repr, DecidableEq

structure Request where
  method : Method
  uri : List UInt8
  opened : Opened
  arg : List UInt8 → Option (List UInt8)

/-- A buffer of the chain: bytes in memory, or the bytes of the file between two positions. -/
inductive Part
  | memory (text : List UInt8)
  | inFile (pos last : ℤ)
deriving Repr, DecidableEq

/-- What the handler does: it returns a code, sends the header alone, or the header and a chain. -/
inductive Reply
  | code (status : ℤ)
  | header (contentLength : ℤ)
  | chain (contentLength : ℤ) (out : List Part)
deriving Repr, DecidableEq

/-- The length that is declared, and the buffers that are sent. -/
def Reply.sent : Reply → Option (ℤ × List Part)
  | .code _ => none
  | .header contentLength => some (contentLength, [])
  | .chain contentLength out => some (contentLength, out)

/-! ### The code -/

/-- The code for a file that cannot be opened. -/
def OpenErr.status : OpenErr → ℤ
  | .none => 500
  | .notFound => 404
  | .access => 403
  | .other => 500

/-- `begin`. -/
def beginOf (conf : Conf) (r : Request) (size : ℤ) : ℤ :=
  match r.arg conf.argBegin with
  | none => 0
  | some value =>
    match atoof value with
    | none => 0
    | some begin => if size ≤ begin then 0 else begin

/-- `end`, before it is compared with `begin`. -/
def argEnd (conf : Conf) (r : Request) (size : ℤ) : ℤ :=
  match r.arg conf.argEnd with
  | none => size
  | some value =>
    match atoof value with
    | none => size
    | some last => if size ≤ last then size else last

/-- `end`. -/
def endOf (conf : Conf) (r : Request) (size begin : ℤ) : ℤ :=
  if argEnd conf r size < begin then size else argEnd conf r size

/-- `len`. -/
def lenOf (conf : Conf) (size begin last : ℤ) : ℤ :=
  if last = begin then 0
  else int64 <|
    (last - begin) + (if begin = 0 ∧ conf.headerFirst then (conf.header.length : ℤ) else 0)
      + (if last = size ∧ conf.footerLast then (conf.footer.length : ℤ) else 0)

/-- The chain, from `out[i]` on. -/
def chainOf (conf : Conf) (size begin last : ℤ) : List Part :=
  (if conf.header ≠ [] ∧ ¬ (begin = 0 ∧ !conf.headerFirst) then [.memory conf.header] else [])
    ++ [.inFile begin last]
    ++ (if conf.footer ≠ [] ∧ ¬ (last = size ∧ !conf.footerLast) then [.memory conf.footer] else [])

/-- `ngx_http_slice_handler`; `405` is `NGX_HTTP_NOT_ALLOWED`, `-5` is `NGX_DECLINED`. -/
def handler (conf : Conf) (r : Request) : Reply :=
  if r.method = .other then .code 405
  else if r.uri.getLast? = some 47 then .code (-5)
  else
    match r.opened with
    | .failed err => .code err.status
    | .notFile => .code (-5)
    | .file f =>
      let begin := beginOf conf r f.size
      let last := endOf conf r f.size begin
      let len := lenOf conf f.size begin last
      if len = 0 then .header len
      else if r.method = .head then .header len
      else .chain len (chainOf conf f.size begin last)

/-! ### What is asked for -/

/-- The first byte that is asked for: where the argument says none of the file, its first. -/
def Request.first (r : Request) (conf : Conf) (f : File) : ℕ :=
  match (r.arg conf.argBegin).bind (denote decDigit 10) with
  | none => 0
  | some n => if n < f.size then n else 0

/-- The end that the argument says: where it says none of the file, the end of the file. -/
def Request.lastArg (r : Request) (conf : Conf) (f : File) : ℕ :=
  match (r.arg conf.argEnd).bind (denote decDigit 10) with
  | none => f.size
  | some n => min n f.size

/-- The byte behind the last one that is asked for: where the two are reversed, the end of the
file. -/
def Request.last (r : Request) (conf : Conf) (f : File) : ℕ :=
  if r.lastArg conf f < r.first conf f then f.size else r.lastArg conf f

/-- The bytes of a part. -/
def Part.bytes (f : File) : Part → List UInt8
  | .memory text => text
  | .inFile pos last => (f.content.drop pos.toNat).take (last - pos).toNat

/-- Whether a part is of the file. -/
def Part.isFile : Part → Bool
  | .memory _ => false
  | .inFile _ _ => true

/-- The request is answered with a slice of the file. -/
structure Request.Slices (r : Request) (f : File) : Prop where
  method : r.method = .get
  uri : r.uri.getLast? ≠ some 47
  opened : r.opened = .file f

/-- What is sent for a slice is as long as is declared, and its file part is what is asked for. -/
def Exact (conf : Conf) (r : Request) : Prop :=
  ∀ f, r.Slices f → ∃ len out, (handler conf r).sent = some (len, out) ∧
    len = (out.flatMap (Part.bytes f)).length ∧
      (out.filter Part.isFile).flatMap (Part.bytes f) =
        (f.content.drop (r.first conf f)).take (r.last conf f - r.first conf f)

/-- The bytes from `begin` to `last` with the texts that go with them. -/
def Conf.total (conf : Conf) (f : File) (begin last : ℕ) : ℕ :=
  last - begin + (if begin = 0 ∧ conf.headerFirst then conf.header.length else 0)
    + (if last = f.size ∧ conf.footerLast then conf.footer.length else 0)

/-! ### The positions -/

theorem atoof_eq (value : List UInt8) :
    atoof value = ((denote decDigit 10 value).filter (· ≤ maxOffTValue)).map Nat.cast :=
  Conv.ato_exact (Nat.le_refl _) value

/-- A denoted number is read if it is an `off_t`. -/
theorem atoof_some {value : List UInt8} {n : ℕ} (h : denote decDigit 10 value = some n) :
    atoof value = if n ≤ maxOffTValue then some (n : ℤ) else none := by
  rw [atoof_eq, h]
  by_cases hmax : n ≤ maxOffTValue
  · simp [hmax]
  · simp [hmax, Nat.lt_of_not_le hmax]

theorem atoof_none {value : List UInt8} (h : denote decDigit 10 value = none) :
    atoof value = none := by
  rw [atoof_eq, h]
  rfl

/-- **The first position** is the one that is asked for. -/
theorem begin_eq (conf : Conf) (r : Request) (f : File) :
    beginOf conf r f.size = r.first conf f := by
  have hsize : f.size ≤ maxOffTValue := f.size_le
  rw [beginOf, Request.first]
  cases r.arg conf.argBegin with
  | none => rfl
  | some value =>
    rw [Option.bind_some]
    cases hn : denote decDigit 10 value with
    | none => simp [atoof_none hn]
    | some n =>
      simp only [atoof_some hn]
      split_ifs <;> simp <;> omega

/-- The last position, before the two are compared. -/
theorem argEnd_eq (conf : Conf) (r : Request) (f : File) :
    argEnd conf r f.size = r.lastArg conf f := by
  have hsize : f.size ≤ maxOffTValue := f.size_le
  rw [argEnd, Request.lastArg]
  cases r.arg conf.argEnd with
  | none => rfl
  | some value =>
    rw [Option.bind_some]
    cases hn : denote decDigit 10 value with
    | none => simp only [atoof_none hn]
    | some n =>
      simp only [atoof_some hn]
      split_ifs <;> simp <;> omega

/-- **The last position** is the one that is asked for. -/
theorem end_eq (conf : Conf) (r : Request) (f : File) :
    endOf conf r f.size (r.first conf f) = r.last conf f := by
  rw [endOf, Request.last, argEnd_eq]
  split_ifs <;> first | rfl | omega

/-- The bytes that are asked for lie inside the file. -/
theorem first_le (conf : Conf) (r : Request) (f : File) :
    r.first conf f ≤ r.last conf f ∧ r.last conf f ≤ f.size := by
  have hfirst : r.first conf f ≤ f.size := by
    rw [Request.first]
    split <;> [exact Nat.zero_le _; split_ifs <;> omega]
  have hlast : r.lastArg conf f ≤ f.size := by
    rw [Request.lastArg]
    split <;> omega
  rw [Request.last]
  split_ifs <;> omega

/-! ### The length -/

/-- The bytes of a chain, by the parts that it has. -/
theorem length_chain (conf : Conf) (f : File) {begin last : ℕ} (h : begin ≤ last)
    (hlast : last ≤ f.size) :
    (((chainOf conf f.size begin last).flatMap (Part.bytes f)).length : ℤ) =
      (last - begin) + (if begin = 0 ∧ conf.headerFirst = false then 0 else conf.header.length)
        + (if last = f.size ∧ conf.footerLast = false then 0 else conf.footer.length) := by
  have hfile : (Part.bytes f (.inFile begin last)).length = last - begin := by
    rw [Part.bytes, length_take, length_drop]
    have : f.size = f.content.length := rfl
    omega
  have hheader : ((if conf.header ≠ [] ∧ ¬ ((begin : ℤ) = 0 ∧ !conf.headerFirst) then
      [Part.memory conf.header] else []).flatMap (Part.bytes f)).length =
        if begin = 0 ∧ conf.headerFirst = false then 0 else conf.header.length := by
    by_cases hnil : conf.header = [] <;> by_cases hdenied : begin = 0 ∧ conf.headerFirst = false <;>
      simp [hnil, hdenied, Part.bytes]
  have hfooter : ((if conf.footer ≠ [] ∧ ¬ ((last : ℤ) = f.size ∧ !conf.footerLast) then
      [Part.memory conf.footer] else []).flatMap (Part.bytes f)).length =
        if last = f.size ∧ conf.footerLast = false then 0 else conf.footer.length := by
    by_cases hnil : conf.footer = [] <;>
      by_cases hdenied : last = f.size ∧ conf.footerLast = false <;>
        simp [hnil, hdenied, Part.bytes]
  rw [chainOf, flatMap_append, flatMap_append, length_append, length_append,
    hheader, hfooter, flatMap_singleton, hfile]
  push_cast
  omega

/-- The parts of the file in a chain are its bytes that are asked for. -/
theorem file_chain (conf : Conf) (f : File) (begin last : ℕ) :
    ((chainOf conf f.size begin last).filter Part.isFile).flatMap (Part.bytes f) =
      (f.content.drop begin).take (last - begin) := by
  rw [chainOf]
  split_ifs <;> simp [filter_cons, Part.isFile, Part.bytes]

/-- **The length, exactly.** The declared length is that of the chain if nothing is asked for, or if a
configured header goes with the first slice only and a configured footer with the last, and all of it
fits an `off_t`. -/
theorem length_iff (conf : Conf) (r : Request) :
    Exact conf r ↔ ∀ f, r.Slices f → r.first conf f = r.last conf f ∨
      (r.first conf f = 0 ∨ conf.header = []) ∧ (r.last conf f = f.size ∨ conf.footer = []) ∧
        conf.total f (r.first conf f) (r.last conf f) < 2 ^ 63 := by
  refine forall_congr' fun f => forall_congr' fun hr => ?_
  obtain ⟨hle, hend⟩ := first_le conf r f
  have hlength := length_chain conf f hle hend
  have hpos : ∀ l : List UInt8, l.length = 0 ↔ l = [] := by simp
  have hhandler : (handler conf r).sent =
      if lenOf conf f.size (r.first conf f) (r.last conf f) = 0 then some (0, [])
      else some (lenOf conf f.size (r.first conf f) (r.last conf f),
        chainOf conf f.size (r.first conf f) (r.last conf f)) := by
    rw [handler, if_neg (by simp [hr.method]), if_neg hr.uri, hr.opened]
    simp only [begin_eq, end_eq, hr.method, reduceCtorEq, if_false]
    split_ifs with hzero
    · rw [hzero]
      rfl
    · rfl
  rw [hhandler]
  generalize r.first conf f = first, r.last conf f = last at *
  by_cases hsame : first = last
  · have hzero : lenOf conf f.size first last = 0 := by simp [lenOf, hsame]
    rw [if_pos hzero]
    exact iff_of_true ⟨0, [], rfl, by simp, by simp [hsame]⟩ (.inl hsame)
  have htotal : lenOf conf f.size first last = int64 (conf.total f first last) := by
    rw [lenOf, if_neg (by omega), Conf.total]
    push_cast [hle]
    simp
  have hasked : (f.content.drop first).take (last - first) ≠ [] := by
    intro hnil
    have hlen := congrArg List.length hnil
    rw [length_take, length_drop, length_nil] at hlen
    have hsize : f.size = f.content.length := rfl
    omega
  -- the chain is longer than is declared by the texts that are not counted
  have hchain : (((chainOf conf f.size first last).flatMap (Part.bytes f)).length : ℤ) =
      conf.total f first last + (if first = 0 then 0 else conf.header.length : ℕ) +
        (if last = f.size then 0 else conf.footer.length : ℕ) := by
    rw [hlength, Conf.total]
    cases conf.headerFirst <;> cases conf.footerLast <;>
      simp only [and_true, and_false, Bool.false_eq_true, if_false, reduceCtorEq] <;>
      split_ifs <;> push_cast [hle] <;> omega
  have hpos' : 0 < conf.total f first last := by
    rw [Conf.total]
    omega
  rw [htotal]
  generalize conf.total f first last = total at *
  constructor
  · rintro ⟨len, out, hsent, hlen, hfile⟩
    refine .inr ?_
    split_ifs at hsent with hzero
    · cases hsent
      exact absurd hfile.symm hasked
    · obtain ⟨rfl, rfl⟩ := Prod.mk.inj (Option.some.inj hsent)
      rw [hchain, int64] at hlen
      rw [← hpos conf.header, ← hpos conf.footer]
      split_ifs at hlen <;> omega
  · rintro (heq | ⟨hheader, hfooter, hfits⟩)
    · exact absurd heq hsame
    · rw [← hpos conf.header] at hheader
      rw [← hpos conf.footer] at hfooter
      have hint : int64 (total : ℤ) = total := by
        rw [int64]
        omega
      rw [hint, if_neg (by omega)]
      refine ⟨_, _, rfl, ?_, file_chain conf f _ _⟩
      rw [hchain]
      split_ifs <;> omega

/-- `slice_header h`, with the names of the arguments that are the defaults. -/
def headerConf : Conf := ⟨[98], [101], [104], true, [], true⟩

/-- A file of two bytes. -/
def twoBytes : File := ⟨[1, 2], by simp [maxOffTValue]⟩

/-- Its slice from the second byte on. -/
def second : Request :=
  ⟨.get, [47, 97], .file twoBytes, fun name => if name = [98] then some [49] else none⟩

/-- Two bytes are sent, and one is declared. -/
theorem second_short : ¬ Exact headerConf second := by
  intro h
  have hbegin : beginOf headerConf second 2 = 1 := by
    rw [beginOf, show second.arg headerConf.argBegin = some [49] from rfl]
    simp [atoof_some (show denote decDigit 10 [49] = some 1 from rfl), maxOffTValue]
  have hreply : (handler headerConf second).sent = some (1, [.memory [104], .inFile 1 2]) := by
    simp [handler, second, twoBytes, File.size] at hbegin ⊢
    simp [hbegin]
    decide
  obtain ⟨len, out, hsent, hlen, -⟩ := h twoBytes ⟨rfl, by decide, rfl⟩
  obtain ⟨rfl, rfl⟩ := Prod.mk.inj (Option.some.inj (hreply.symm.trans hsent))
  exact absurd hlen (by decide)

end Hengine.SliceHandler
