import Hengine.Http.BodyFilters

/-!
# What the Input Body Filters See

With input body filters a module may look at a request body before its handler does. The
save filter passes them the chain of one call, the one that carries the last buffer: what
came with earlier calls is not shown to them.
-/

namespace Hengine

open List

/-- A call of the save filter: its chain, and what its callers have changed since the call
before, the memory, `rb->rest` and `rb->buf`. -/
structure SaveCall where
  mem : ByteMemory
  rest : ℤ
  buf : Option MemBuf
  input : List BodyBuf

/-- The bytes a call carries. -/
def SaveCall.bytes (c : SaveCall) : List UInt8 := bytesOf c.mem c.input

/-- One call after the other; the body is handed to the post handler when all succeed. -/
@[grind =]
def saveRun (conf : BodyConf) (st : BodyState) : List SaveCall → Except BodyError BodyState
  | [] => .ok st
  | c :: cs =>
    match saveFilter conf { st with mem := c.mem, rest := c.rest, buf := c.buf } c.input with
    | .error e => .error e
    | .ok st => saveRun conf st cs

/-- A body as the framing filters deliver it: only the last buffer of the last call has
`last_buf` set. -/
structure BodyCalls where
  early : List SaveCall
  final : SaveCall
  init : List BodyBuf
  last : BodyBuf
  final_input : final.input = init ++ [last]
  early_open : ∀ c ∈ early, ∀ b ∈ c.input, b.lastBuf = false
  init_open : ∀ b ∈ init, b.lastBuf = false
  last_buf : last.lastBuf = true

/-- All the calls. -/
def BodyCalls.calls (d : BodyCalls) : List SaveCall := d.early ++ [d.final]

/-- The body they carry. -/
def BodyCalls.body (d : BodyCalls) : List UInt8 := d.calls.flatMap SaveCall.bytes

section Seen

variable {conf : BodyConf} {st st' : BodyState}

/-- An input filter that lets everything pass has seen everything. -/
theorem passInput_ok {m : ByteMemory} {bs : List BodyBuf} :
    ∀ {passed passed' : List (List UInt8)}, passInput conf m passed bs = .ok passed' →
      passed' = passed ++ bs.map (BodyBuf.bytes m) := by
  induction bs with
  | nil =>
    intro passed passed' h
    cases h
    simp
  | cons b bs ih =>
    intro passed passed' h
    rw [passInput] at h
    split at h
    · rw [ih h]
      simp
    · cases h

/-- Saving the end passes nothing on. -/
theorem saveEnd_passed (h : saveEnd conf st = .ok st') :
    st'.passed = st.passed ∧ st'.lastSaved = st.lastSaved := by
  rw [saveEnd] at h
  split at h
  · split at h
    · cases h
    · cases h
      split
      · exact ⟨rfl, rfl⟩
      · exact ⟨rfl, rfl⟩
  · cases h
    exact ⟨rfl, rfl⟩

/-- **A call without the last buffer** shows them nothing. -/
theorem saveFilter_early {input : List BodyBuf} (hopen : ∀ b ∈ input, b.lastBuf = false)
    (hsaved : st.lastSaved = false) (h : saveFilter conf st input = .ok st') :
    st'.passed = st.passed ∧ st'.lastSaved = false := by
  rw [saveFilter, saveBufs_more input hopen] at h
  simp only [hsaved, Bool.not_false, if_true] at h
  split at h
  · cases h
    split
    · exact ⟨rfl, rfl⟩
    · exact ⟨rfl, rfl⟩
  · cases h
    exact ⟨rfl, rfl⟩

/-- **The call with the last buffer** shows them its chain. -/
theorem saveFilter_final {init : List BodyBuf} {b : BodyBuf} (hopen : ∀ c ∈ init, c.lastBuf = false)
    (hb : b.lastBuf = true) (hsaved : st.lastSaved = false)
    (h : saveFilter conf st (init ++ [b]) = .ok st') :
    st'.passed = st.passed ++ (init ++ [b]).map (BodyBuf.bytes st.mem) := by
  rw [saveFilter, saveBufs_last _ hopen hb hsaved] at h
  cases hpass : passInput conf st.mem st.passed (init ++ [b]) with
  | error e =>
    rw [hpass] at h
    cases h
  | ok passed =>
    rw [hpass] at h
    simp only [Bool.not_true, Bool.false_eq_true, if_false] at h
    rw [← passInput_ok hpass]
    split at h
    · cases h
      split
      · rfl
      · rfl
    · exact (saveEnd_passed h).1

/-- The calls before the last one show them nothing. -/
theorem saveRun_early (calls more : List SaveCall) :
    ∀ st : BodyState, (∀ c ∈ calls, ∀ b ∈ c.input, b.lastBuf = false) → st.lastSaved = false →
      saveRun conf st (calls ++ more) = .ok st' →
      ∃ st₁, st₁.passed = st.passed ∧ st₁.lastSaved = false ∧ saveRun conf st₁ more = .ok st' := by
  induction calls with
  | nil =>
    intro st _ hsaved h
    exact ⟨st, rfl, hsaved, h⟩
  | cons c calls ih =>
    intro st hopen hsaved h
    rw [cons_append, saveRun] at h
    split at h
    · cases h
    · rename_i st₂ hc
      obtain ⟨hpassed, hsaved₂⟩ := saveFilter_early (hopen c (by simp)) (by exact hsaved) hc
      obtain ⟨st₁, h1, h2, h3⟩ := ih st₂ (fun d hd => hopen d (by simp [hd])) hsaved₂ h
      exact ⟨st₁, h1.trans hpassed, h2, h3⟩

/-- **What the input filters have seen** when a body is handed over: the last call. -/
theorem saveRun_passed (d : BodyCalls) (hpassed : st.passed = []) (hsaved : st.lastSaved = false)
    (h : saveRun conf st d.calls = .ok st') : st'.passed.flatten = d.final.bytes := by
  obtain ⟨st₁, h1, h2, h3⟩ := saveRun_early d.early [d.final] st d.early_open hsaved h
  simp only [saveRun] at h3
  split at h3
  · cases h3
  · rename_i st₂ hc
    cases h3
    rw [d.final_input] at hc
    rw [saveFilter_final d.init_open d.last_buf (by exact h2) hc, h1, hpassed, SaveCall.bytes,
      d.final_input]
    rfl

end Seen

/-- **When the input filters see the whole body**: for every body, every sequence of calls
that delivers it and every configuration in which they let it pass, they have been shown
all its bytes, once and in order, exactly when no call but the last carries any. -/
theorem inputFilter_sees (conf : BodyConf) (d : BodyCalls) (st st' : BodyState)
    (hpassed : st.passed = []) (hsaved : st.lastSaved = false)
    (h : saveRun conf st d.calls = .ok st') :
    st'.passed.flatten = d.body ↔ ∀ c ∈ d.early, c.bytes = [] := by
  have hbody : d.body = d.early.flatMap SaveCall.bytes ++ d.final.bytes := by
    simp [BodyCalls.body, BodyCalls.calls]
  rw [saveRun_passed d hpassed hsaved h, hbody]
  constructor
  · intro heq c hc
    have hlen := congrArg List.length heq
    rw [length_append] at hlen
    have hnil : d.early.flatMap SaveCall.bytes = [] := eq_nil_of_length_eq_zero (by omega)
    exact flatMap_eq_nil_iff.mp hnil c hc
  · intro hnil
    rw [flatMap_eq_nil_iff.mpr hnil, nil_append]

/-! ### Two runs -/

/-- A memory with the bytes 1 to 9 in the header area. -/
def countingMemory : ByteMemory := fun a i => if a = .header then (i + 1).toUInt8 else 0

/-- A request with a body of four bytes, of which the first two came with the header, and
there is no room behind them. -/
def halfRead : BodyState where
  mem := countingMemory
  headerIn := ⟨.header, 0, 0, 2, 2⟩
  chunked := false
  contentLengthN := 4
  wire := [3, 4]

/-- Large enough buffers. -/
def plainConf : BodyConf where
  clientBodyBufferSize := 16
  largeSize := 1024
  largePos := by decide

/-- A body that is delivered in one call. -/
def oneCall : BodyCalls where
  early := []
  final := ⟨countingMemory, 0, none, [⟨.header, 0, 4, true⟩]⟩
  init := []
  last := ⟨.header, 0, 4, true⟩
  final_input := rfl
  early_open := by simp
  init_open := by simp
  last_buf := rfl

/-- In one call the input filters see all four bytes. -/
theorem inputFilter_sees_oneCall :
    ∃ st', saveRun plainConf halfRead oneCall.calls = .ok st' ∧ st'.passed.flatten = [1, 2, 3, 4] ∧
      oneCall.body = [1, 2, 3, 4] := by
  refine ⟨_, rfl, ?_, by decide⟩
  exact ((inputFilter_sees plainConf oneCall halfRead _ rfl rfl rfl).mpr (by simp [oneCall])).trans
    (by decide)

/-- Two bytes that came with the header are passed on. -/
theorem halfRead_preread :
    bodyFilter plainConf halfRead (some halfRead.headerIn)
      = .ok ({ halfRead with rest := 2, bufs := [.mem ⟨.header, 0, 2, false⟩] },
          some ⟨.header, 0, 2, 2, 2⟩) := by
  simp [bodyFilter, halfRead, lengthFilter, lengthStart, lengthTake, saveFilter, saveBufs, bufFull,
    Except.map]

/-- **The input filters miss half of a body** that arrives in two reads. -/
theorem inputFilter_misses :
    ∃ st', readClientRequestBody plainConf [.data 2 true] halfRead = .ok st' ∧
      st'.content = [1, 2, 3, 4] ∧ st'.passed.flatten = [3, 4] := by
  rw [readClientRequestBody, halfRead_preread]
  simp [halfRead, plainConf, readRest, bodyBufSize, doRead, nextBuf, recvSize, receive, arrive,
    bodyFilter, lengthFilter, lengthStart, lengthTake, saveFilter, saveBufs, passInput, saveEnd,
    Except.map, finishRead, flushFilter, copyPipelinedHeader]
  decide

end Hengine
