import Hengine.Lib.Scan
import Hengine.Upstream.CheckRecv

/-!
# The Verdict of an HTTP Check

The model of `ngx_http_upstream_check_http_parse` and `ngx_http_upstream_check_parse_status_line`. The parser
keeps its state and the code between the calls, and goes on at `pos`. When the buffer is enlarged, `pos` is
its start again, and the parser reads the beginning of the status line a second time, in the state it has
then. Only the text behind the code takes this without harm.

The positions `status->start` and `status->end` are left out; nothing reads them.
-/

namespace Hengine.CheckHttp

open List

open CheckRecv

/-- The states of `ngx_http_upstream_check_parse_status_line`. -/
inductive State
  | start | h | ht | htt | http
  | firstMajorDigit | majorDigit | firstMinorDigit | minorDigit
  | status | spaceAfterStatus | statusText | almostDone
deriving DecidableEq, Repr

/-- What the parser keeps: `ctx->state`, `status->code` and `status->count`. -/
structure Line where
  state : State := .start
  code : ℕ := 0
  count : ℕ := 0
deriving DecidableEq, Repr

/-- How the loop is left: `NGX_ERROR`, or `goto done`. -/
inductive Exit
  | error
  | done (l : Line)
deriving DecidableEq, Repr

/-- A decimal digit. -/
def isDigit (ch : UInt8) : Bool := 0x30 ≤ ch && ch ≤ 0x39

/-- A state that waits for one character. -/
def expect (l : Line) (next : State) (b ch : UInt8) : Verdict Line Exit :=
  if ch ≠ b then .stop .error else .more { l with state := next }

/-- A turn of the loop. -/
def step (l : Line) (ch : UInt8) : Verdict Line Exit :=
  match l.state with
  | .start => expect l .h 0x48 ch
  | .h => expect l .ht 0x54 ch
  | .ht => expect l .htt 0x54 ch
  | .htt => expect l .http 0x50 ch
  | .http => expect l .firstMajorDigit 0x2f ch
  | .firstMajorDigit =>
    if ch < 0x31 ∨ 0x39 < ch then .stop .error else .more { l with state := .majorDigit }
  | .majorDigit =>
    if ch = 0x2e then .more { l with state := .firstMinorDigit }
    else if isDigit ch then .more l
    else .stop .error
  | .firstMinorDigit => if isDigit ch then .more { l with state := .minorDigit } else .stop .error
  | .minorDigit =>
    if ch = 0x20 then .more { l with state := .status }
    else if isDigit ch then .more l
    else .stop .error
  | .status =>
    if ch = 0x20 then .more l
    else if isDigit ch then
      let code := l.code * 10 + (ch - 0x30).toNat
      let count := l.count + 1
      .more { state := if count = 3 then .spaceAfterStatus else .status, code, count }
    else .stop .error
  | .spaceAfterStatus =>
    if ch = 0x20 ∨ ch = 0x2e then .more { l with state := .statusText }
    else if ch = 0x0d then .more { l with state := .almostDone }
    else if ch = 0x0a then .stop (.done { l with state := .start })
    else .stop .error
  | .statusText =>
    if ch = 0x0d then .more { l with state := .almostDone }
    else if ch = 0x0a then .stop (.done { l with state := .start })
    else .more l
  | .almostDone => if ch = 0x0a then .stop (.done { l with state := .start }) else .stop .error

/-- The bit of a code: `NGX_CHECK_HTTP_1XX` and so on, and `NGX_CHECK_HTTP_ERR`. -/
def codeBit (code : ℕ) : UInt64 :=
  if 0 < code ∧ code < 200 then 0x0002
  else if 200 ≤ code ∧ code < 300 then 0x0004
  else if 300 ≤ code ∧ code < 400 then 0x0008
  else if 400 ≤ code ∧ code < 500 then 0x0010
  else if 500 ≤ code ∧ code < 600 then 0x0020
  else 0x8000

/-- Whether a code is one of those of `status_alive`. -/
def isAlive (alive : UInt64) (code : ℕ) : Bool := codeBit code &&& alive ≠ 0

/-- `ngx_http_upstream_check_http_parse`, with `status_alive`. -/
def httpParse (alive : UInt64) (ctx : Ctx Line) : Ctx Line × Rc :=
  if ctx.recv.pos < ctx.recv.data.length then
    match scanFrom step ctx.kept (ctx.recv.data.drop ctx.recv.pos) with
    | .again l => (⟨{ ctx.recv with pos := ctx.recv.data.length }, l⟩, .again)
    | .stopped .error _ => (ctx, .error)
    | .stopped (.done l) rest =>
      (⟨{ ctx.recv with pos := ctx.recv.data.length - rest.length + 1 }, l⟩,
        if isAlive alive l.code then .ok else .error)
  else (ctx, .again)

/-- The check that `ngx_http_upstream_check_http_init` begins. -/
def initCtx (size : ℕ) (room : 0 < size) : Ctx Line := ⟨.init size room, {}⟩

/-! ### The verdict on a response -/

/-- The verdict on the bytes of a response. -/
def verdict (alive : UInt64) (response : List UInt8) : Rc :=
  match scanFrom step {} response with
  | .again _ => .again
  | .stopped .error _ => .error
  | .stopped (.done l) _ => if isAlive alive l.code then .ok else .error

/-- The parser is inside of the status line, and not in the text behind the code. -/
def Line.Inside (l : Line) : Prop := l.state ≠ .start ∧ l.state ≠ .statusText

instance (l : Line) : Decidable l.Inside := inferInstanceAs (Decidable (_ ∧ _))

/-- **The buffer is enlarged inside of the status line**: `seen` is what came before. -/
def GrowsInside (size : ℕ) : List UInt8 → List Event → Prop
  | _, [] => False
  | seen, e :: es =>
    (∃ l : Line, scanFrom step {} seen = .again l ∧ l.Inside ∧
      capacity size seen.length ≤ (seen ++ e.bytes).length) ∨
    GrowsInside size (seen ++ e.bytes) es

/-! ### The first byte, and the text -/

theorem step_ne_start {l l' : Line} {ch : UInt8} (h : step l ch = .more l') : l'.state ≠ .start := by
  obtain ⟨state, code, count⟩ := l
  cases state <;> simp only [step, expect] at h <;> split at h <;> grind

/-- What the parser has read in a state: nothing at first; then an `H` begins it, and before the end of the
line no end of a line is in it. -/
def Read (seen : List UInt8) (l : Line) : Prop :=
  (l.state = .start → seen = [] ∧ l = {}) ∧ (l.state ≠ .start → seen.head? = some 0x48) ∧
    (l.state ≠ .almostDone → ∀ b ∈ seen, b ≠ 0x0d ∧ b ≠ 0x0a)

/-- A byte that does not end the scan is read too. -/
theorem Read.step {seen : List UInt8} {l l' : Line} {ch : UInt8} (h : Read seen l)
    (hstep : CheckHttp.step l ch = .more l') : Read (seen ++ [ch]) l' := by
  have hne := step_ne_start hstep
  refine ⟨fun heq => absurd heq hne, fun _ => ?_, fun hend b hb => ?_⟩
  · by_cases hstart : l.state = .start
    · obtain ⟨rfl, rfl⟩ := h.1 hstart
      simp only [CheckHttp.step, expect] at hstep
      split at hstep
      · cases hstep
      · rename_i heq
        rw [not_not] at heq
        rw [heq]
        rfl
    · rw [head?_append, h.2.1 hstart]
      rfl
  · have hstate : l.state ≠ .almostDone := by
      intro heq
      simp only [CheckHttp.step, heq] at hstep
      split at hstep <;> cases hstep
    rcases mem_append.mp hb with hb | hb
    · exact h.2.2 hstate b hb
    · rw [mem_singleton.mp hb]
      obtain ⟨state, code, count⟩ := l
      cases state <;> simp only [CheckHttp.step, expect, isDigit] at hstep <;> grind

/-- A scan that asks for more has read a part of a line. -/
theorem read_again {seen : List UInt8} {l : Line} (h : scanFrom step {} seen = .again l) : Read seen l := by
  have hinit : Read [] {} := ⟨fun _ => ⟨rfl, rfl⟩, fun hne => absurd rfl hne, fun _ b hb => nomatch hb⟩
  have hinv := scan_invariant (f := fun _ => step) (P := Read)
    (fun _ _ _ _ hread hstep => hread.step hstep) seen [] {} hinit
  exact hinv.1 l h

/-- Text behind the code is passed over up to the end of the line. -/
theorem scanFrom_text {l : Line} (hl : l.state = .statusText) :
    ∀ {seen : List UInt8}, (∀ b ∈ seen, b ≠ 0x0d ∧ b ≠ 0x0a) → scanFrom step l seen = .again l
  | [], _ => rfl
  | b :: seen, h => by
    have hb := h b mem_cons_self
    have hstep : step l b = .more l := by
      rw [step, hl]
      simp only
      rw [if_neg hb.1, if_neg hb.2]
    rw [scanFrom_more hstep]
    exact scanFrom_text hl fun x hx => h x (mem_cons_of_mem _ hx)

/-- An `H` inside of the status line, as the first byte read again is, turns the peer down. -/
theorem step_inside {l : Line} (h : l.Inside) : step l 0x48 = .stop .error := by
  obtain ⟨state, code, count⟩ := l
  cases state with
  | start => exact absurd rfl h.1
  | statusText => exact absurd rfl h.2
  | _ => rfl

/-! ### A call of the handler -/

variable {size : ℕ} {seen : List UInt8} {ctx : Ctx Line} {alive : UInt64}

/-- The check while there is no verdict: all that came is in the buffer, and has been read. -/
structure Waits (size : ℕ) (seen : List UInt8) (ctx : Ctx Line) : Prop where
  data : ctx.recv.data = seen
  size : ctx.recv.size = capacity size seen.length
  pos : ctx.recv.pos = seen.length
  kept : scanFrom step {} seen = .again ctx.kept

theorem waits_init (room : 0 < size) : Waits size [] (initCtx size room) :=
  ⟨rfl, (capacity_of_lt room).symm, rfl, rfl⟩

/-- What a call of the handler leads to, with these bytes in all. -/
def Handled (alive : UInt64) (size : ℕ) (bytes : List UInt8) (result : Ctx Line × Rc) : Prop :=
  match scanFrom step {} bytes with
  | .again _ => result.2 = .again ∧ Waits size bytes result.1
  | .stopped .error _ => result.2 = .error
  | .stopped (.done l) _ => result.2 = if isAlive alive l.code then .ok else .error

/-- A call of the parser that sees what the whole scan sees is as if the bytes had come together. -/
theorem handled_parse {b : RecvBuf} {l : Line} {bytes : List UInt8} (hdata : b.data = bytes)
    (hsize : b.size = capacity size bytes.length) (hpos : b.pos < b.data.length)
    (hscan : scanFrom step l (b.data.drop b.pos) = scanFrom step {} bytes) :
    Handled alive size bytes (httpParse alive ⟨b, l⟩) := by
  rw [Handled, httpParse, if_pos hpos]
  show match scanFrom step {} bytes with | _ => _
  rw [hscan]
  cases hends : scanFrom step {} bytes with
  | again l' => exact ⟨rfl, hdata, hsize, congrArg List.length hdata, hends⟩
  | stopped exit rest =>
    cases exit with
    | error => rfl
    | done l' => rfl

/-- **A call that does no harm** goes on as if the bytes had come together. -/
theorem handler_plain (h : Waits size seen ctx) (e : Event)
    (hplain : ¬ (ctx.kept.Inside ∧ capacity size seen.length ≤ (seen ++ e.bytes).length)) :
    Handled alive size (seen ++ e.bytes) (recvHandler (httpParse alive) ctx e) := by
  have hdata : (recvLoop ctx.recv e).data = seen ++ e.bytes := by rw [recvLoop_data, h.data]
  have hsize : (recvLoop ctx.recv e).size = capacity size (seen ++ e.bytes).length := by
    rw [recvLoop_size, h.size, h.data, capacity_capacity]
    rw [length_append]
    exact Nat.le_add_right _ _
  have hpos := recvLoop_pos ctx.recv e
  rw [h.size, h.data, h.pos] at hpos
  have hread := read_again h.kept
  by_cases hfull : capacity size seen.length ≤ (seen ++ e.bytes).length
  · -- the position is lost, but the parser is at the start, or in the text
    rw [if_pos hfull] at hpos
    have hroom := (recvLoop ctx.recv e).room
    have hcap : 0 < capacity size seen.length := h.size ▸ ctx.recv.room
    refine handled_parse hdata hsize (by rw [hpos, hdata]; omega) ?_
    rw [hpos, drop_zero, hdata]
    by_cases hstart : ctx.kept.state = .start
    · rw [(hread.1 hstart).2]
    · have htext : ctx.kept.state = .statusText := by
        by_contra hne
        exact hplain ⟨⟨hstart, hne⟩, hfull⟩
      have hagain := scanFrom_text htext (hread.2.2 (by rw [htext]; exact nofun))
      rw [scanFrom_append_again hagain, scanFrom_append_again h.kept]
  · rw [if_neg hfull] at hpos
    by_cases hmore : e.bytes = []
    · have hnone : ¬ (recvLoop ctx.recv e).pos < (recvLoop ctx.recv e).data.length := by
        rw [hpos, hdata, hmore, append_nil]
        exact Nat.lt_irrefl _
      rw [hmore, append_nil] at hdata hsize ⊢
      rw [recvHandler, httpParse, if_neg hnone, Handled, h.kept]
      exact ⟨rfl, hdata, hsize, hpos, h.kept⟩
    · have hlen := length_pos_iff.mpr hmore
      refine handled_parse hdata hsize (by rw [hpos, hdata, length_append]; omega) ?_
      rw [hpos, hdata, drop_left, scanFrom_append_again h.kept]

/-- **A call that enlarges the buffer inside of the status line** turns the peer down. -/
theorem handler_grown (h : Waits size seen ctx) (e : Event) (hinside : ctx.kept.Inside)
    (hfull : capacity size seen.length ≤ (seen ++ e.bytes).length) :
    (recvHandler (httpParse alive) ctx e).2 = .error := by
  have hdata : (recvLoop ctx.recv e).data = seen ++ e.bytes := by rw [recvLoop_data, h.data]
  have hpos := recvLoop_pos ctx.recv e
  rw [h.size, h.data, if_pos hfull] at hpos
  have hcap : 0 < capacity size seen.length := h.size ▸ ctx.recv.room
  obtain ⟨tail, hhead⟩ := head?_eq_some_iff.mp ((read_again h.kept).2.1 hinside.1)
  have hscan : scanFrom step ctx.kept ((recvLoop ctx.recv e).data.drop (recvLoop ctx.recv e).pos) =
      .stopped .error (0x48 :: (tail ++ e.bytes)) := by
    rw [hpos, drop_zero, hdata, hhead, cons_append]
    exact scanFrom_stop (step_inside hinside) _
  rw [recvHandler, httpParse, if_pos (by rw [hpos, hdata]; omega)]
  dsimp only
  rw [hscan]

/-! ### A run -/

/-- The bytes of some calls. -/
def eventsBytes (es : List Event) : List UInt8 := es.flatMap Event.bytes

theorem eventsBytes_cons (e : Event) (es : List Event) : eventsBytes (e :: es) = e.bytes ++ eventsBytes es :=
  flatMap_cons

/-- What came before the buffer grows is a part of a line. -/
theorem GrowsInside.again : ∀ {es : List Event} {seen : List UInt8}, GrowsInside size seen es →
    ∃ l, scanFrom step {} seen = .again l
  | e :: es, seen, .inl ⟨l, hl, _⟩ => ⟨l, hl⟩
  | e :: es, seen, .inr h => by
    obtain ⟨l, hl⟩ := h.again
    rw [scanFrom_append] at hl
    cases hseen : scanFrom step {} seen with
    | again l' => exact ⟨l', rfl⟩
    | stopped exit rest =>
      rw [hseen] at hl
      cases hl

/-- Where the scan has stopped, more bytes do not matter. -/
theorem verdict_stopped {more : List UInt8} {exit : Exit} {rest : List UInt8}
    (h : scanFrom step {} seen = .stopped exit rest) : verdict alive (seen ++ more) =
      verdict alive seen := by
  rw [verdict, verdict, scanFrom_append, h]
  cases exit <;> rfl

/-- **The verdict of a run** in which the buffer is not enlarged inside of the status line is that on all the
bytes. -/
theorem run_plain : ∀ (es : List Event) {seen : List UInt8} {ctx : Ctx Line}, Waits size seen ctx →
    ¬ GrowsInside size seen es → run (httpParse alive) ctx es = verdict alive (seen ++ eventsBytes es)
  | [], seen, ctx, h, _ => by
    rw [run, verdict, eventsBytes, flatMap_nil, append_nil, h.kept]
  | e :: es, seen, ctx, h, hgrows => by
    have hplain : ¬ (ctx.kept.Inside ∧ capacity size seen.length ≤ (seen ++ e.bytes).length) :=
      fun hbad => hgrows (.inl ⟨_, h.kept, hbad⟩)
    have hhandled : Handled alive size _ _ := handler_plain h e hplain
    rw [run, eventsBytes_cons, ← append_assoc]
    generalize recvHandler (httpParse alive) ctx e = result at hhandled
    obtain ⟨ctx', rc⟩ := result
    rw [Handled] at hhandled
    cases hscan : scanFrom step {} (seen ++ e.bytes) with
    | again l =>
      rw [hscan] at hhandled
      obtain ⟨rfl, hwaits⟩ := hhandled
      exact run_plain es hwaits fun hlater => hgrows (.inr hlater)
    | stopped exit rest =>
      rw [verdict_stopped hscan, verdict, hscan]
      rw [hscan] at hhandled
      cases exit with
      | error =>
        obtain rfl : rc = .error := hhandled
        rfl
      | done l =>
        obtain rfl : rc = if isAlive alive l.code then .ok else .error := hhandled
        show _ = if isAlive alive l.code then Rc.ok else .error
        cases isAlive alive l.code <;> rfl

/-- **A run in which it is** turns the peer down. -/
theorem run_grown : ∀ (es : List Event) {seen : List UInt8} {ctx : Ctx Line}, Waits size seen ctx →
    GrowsInside size seen es → run (httpParse alive) ctx es = .error
  | e :: es, seen, ctx, h, hgrows => by
    rw [run]
    by_cases hbad : ctx.kept.Inside ∧ capacity size seen.length ≤ (seen ++ e.bytes).length
    · have herror : (recvHandler (httpParse alive) ctx e).2 = .error := handler_grown h e hbad.1 hbad.2
      generalize recvHandler (httpParse alive) ctx e = result at herror
      obtain ⟨ctx', rc⟩ := result
      obtain rfl : rc = .error := herror
      rfl
    · have hlater : GrowsInside size (seen ++ e.bytes) es := by
        rcases hgrows with ⟨l, hl, hhere⟩ | hlater
        · rw [h.kept] at hl
          cases hl
          exact absurd hhere hbad
        · exact hlater
      have hhandled : Handled alive size _ _ := handler_plain h e hbad
      generalize recvHandler (httpParse alive) ctx e = result at hhandled
      obtain ⟨ctx', rc⟩ := result
      obtain ⟨l, hl⟩ := hlater.again
      rw [Handled, hl] at hhandled
      obtain ⟨rfl, hwaits⟩ := hhandled
      exact run_grown es hwaits hlater

/-- The whole response in one read. -/
def whole (response : List UInt8) : Event :=
  if h : response = [] then [] else [⟨response, h⟩]

theorem bytes_whole (response : List UInt8) : (whole response).bytes = response := by
  rw [whole]
  split
  next h => exact h.symm
  next h => rw [bytes_cons]; exact append_nil _

/-- One read of a whole response gives its verdict. -/
theorem run_whole (room : 0 < size) (response : List UInt8) :
    run (httpParse alive) (initCtx size room) [whole response] = verdict alive response := by
  rw [run_plain _ (waits_init room), nil_append, eventsBytes_cons, bytes_whole, eventsBytes,
    flatMap_nil, append_nil]
  rintro (⟨l, hl, hinside, -⟩ | hnone)
  · cases hl
    exact hinside.1 rfl
  · exact hnone

/-- **The verdict does not depend on the segments** of the response, for every size of the buffer, unless the
buffer is enlarged inside of the status line and the response is not one that turns the peer down anyway. -/
theorem run_eq_iff (alive : UInt64) (room : 0 < size) (es : List Event) :
    run (httpParse alive) (initCtx size room) es =
        run (httpParse alive) (initCtx size room) [whole (eventsBytes es)] ↔
      ¬ GrowsInside size [] es ∨ verdict alive (eventsBytes es) = .error := by
  rw [run_whole]
  by_cases hgrows : GrowsInside size [] es
  · rw [run_grown es (waits_init room) hgrows]
    refine ⟨fun heq => .inr heq.symm, ?_⟩
    rintro (hnot | heq)
    · exact absurd hgrows hnot
    · exact heq.symm
  · exact iff_of_true (run_plain es (waits_init room) hgrows) (.inl hgrows)

/-- A good response in two reads, of which the first does not fit into four bytes. -/
def grownReads : List Event :=
  [whole [0x48, 0x54, 0x54, 0x50, 0x2f, 0x31, 0x2e, 0x31, 0x20, 0x32], whole [0x30, 0x30, 0x20, 0x0d, 0x0a]]

/-- The buffer is enlarged before the status line is read, so the good response passes; one that is no HTTP
is refused in two reads as in one. -/
theorem run_eq_iff_split : run (httpParse 4) (initCtx 4 (by decide)) grownReads = .ok ∧
    run (httpParse 4) (initCtx 2048 (by decide)) [whole [0x48], whole [0x58]] =
      run (httpParse 4) (initCtx 2048 (by decide)) [whole [0x48, 0x58]] := by
  constructor
  · have hgrows : ¬ GrowsInside 4 [] grownReads := by
      rintro (⟨l, hl, hinside, -⟩ | ⟨l, -, -, hfull⟩ | hnone)
      · cases hl
        exact hinside.1 rfl
      · have hsize : capacity 4 10 = 16 := by
          rw [capacity, if_pos (by decide), capacity, if_pos (by decide), capacity, if_neg (by decide)]
        exact absurd (hsize ▸ hfull : 16 ≤ 15) (by decide)
      · exact hnone
    rw [(run_eq_iff 4 (by decide) grownReads).mpr (.inl hgrows), run_whole]
    decide
  · exact (run_eq_iff 4 (by decide) [whole [0x48], whole [0x58]]).mpr (.inr rfl)

/-- A response of HTTP in three reads. -/
def threeReads : List Event :=
  [whole [0x48, 0x54], whole [0x54, 0x50], whole [0x2f, 0x31, 0x2e, 0x31, 0x20, 0x32, 0x30, 0x30, 0x0d, 0x0a]]

/-- **A buffer that is full after `HTTP`**: the parser reads the `H` again where it waits for the third
letter, and a peer that is up goes down. -/
theorem grown_buffer_refuses : ¬ ∀ (alive : UInt64) (size : ℕ) (room : 0 < size) (es : List Event),
    run (httpParse alive) (initCtx size room) es =
      run (httpParse alive) (initCtx size room) [whole (eventsBytes es)] := by
  intro hall
  have hcap : capacity 4 2 ≤ 4 := (capacity_of_lt (by decide)).le
  have hgrows : GrowsInside 4 [] threeReads :=
    Or.inr (Or.inl ⟨⟨.ht, 0, 0⟩, rfl, by decide, hcap⟩)
  have heq := hall 4 4 (by decide) threeReads
  rw [run_whole, run_grown _ (waits_init _) hgrows] at heq
  exact absurd heq (by decide)

end Hengine.CheckHttp
