import Mathlib.Data.List.Basic

/-!
# The Body of an Update

The model of `ngx_http_dyups_read_body` and `ngx_http_dyups_read_body_from_file` in
`ngx_http_dyups_module.c`. The server hands the body of a request over as a chain of buffers: all in memory,
or some of them ranges of a temporary file. `Luck` is what a call depends on besides: the memory of the copy,
and whether a read of the file fails. A result is `none` for the null pointer, which is answered with
"out of memory".

The chain in memory may have any number of links, for each large chunk of a chunked body is a link of its
own. The text is read from the first two.
-/

namespace Hengine.DyupsBody

open List Option

/-- `ngx_buf_t`: the bytes between `pos` and `last`, and the range of the file. -/
structure Buf where
  inFile : Bool
  memory : List UInt8
  filePos : ℕ
  fileLast : ℕ
deriving DecidableEq, Repr

/-- A range of the temporary file is in it, and without a temporary file there is none. -/
def Buf.Valid (tempFile : Option (List UInt8)) (b : Buf) : Prop :=
  b.inFile = true → ∃ content, tempFile = some content ∧ b.filePos ≤ b.fileLast ∧
    b.fileLast ≤ content.length

/-- `ngx_http_request_body_t` as it is handed over: the content of the temporary file, and the chain. -/
structure RequestBody where
  tempFile : Option (List UInt8)
  bufs : List Buf
  valid : ∀ b ∈ bufs, b.Valid tempFile

/-- What a call depends on: the memory, and which reads fail. -/
structure Luck where
  memory : Bool
  read : ℕ → Bool

variable {luck : Luck} {body : RequestBody} {content : List UInt8} {bufs : List Buf}

/-- `ngx_http_dyups_read_body`. -/
def readBody (luck : Luck) : List Buf → Option (List UInt8)
  | [] => none
  | [buf] => some buf.memory
  | buf :: next :: _ => if luck.memory then some (buf.memory ++ next.memory) else none

/-- The length of the copy in `ngx_http_dyups_read_body_from_file`. -/
@[grind =]
def fileLength : List Buf → ℕ → ℕ
  | [], len => len
  | buf :: bufs, len =>
    fileLength bufs (if buf.inFile then len + (buf.fileLast - buf.filePos) else len + buf.memory.length)

/-- `ngx_read_file` of a regular file, at `offset`. -/
def readFile (content : List UInt8) (size offset : ℕ) : List UInt8 := (content.drop offset).take size

/-- The second loop of `ngx_http_dyups_read_body_from_file`, with the copy so far; `k` counts the links. -/
@[grind =]
def copyLoop (luck : Luck) (content : List UInt8) : List Buf → ℕ → List UInt8 → Option (List UInt8)
  | [], _, copy => some copy
  | buf :: bufs, k, copy =>
    if buf.inFile then
      if luck.read k then
        copyLoop luck content bufs (k + 1)
          (copy ++ readFile content (buf.fileLast - buf.filePos) buf.filePos)
      else none
    else copyLoop luck content bufs (k + 1) (copy ++ buf.memory)

/-- `ngx_http_dyups_read_body_from_file`: the copy and the bytes that were asked for. -/
def readBodyFromFile (luck : Luck) (content : List UInt8) (bufs : List Buf) :
    Option (List UInt8 × ℕ) :=
  let len := fileLength bufs 0
  if luck.memory then (copyLoop luck content bufs 0 []).map fun copy => (copy, len) else none

/-- The part of `ngx_http_dyups_body_handler` that gets the text of the update; the outer `none` is the
answer "no content". -/
def bodyText (luck : Luck) (body : RequestBody) : Option (Option (List UInt8)) :=
  if body.bufs = [] then none
  else
    match body.tempFile with
    | some content => some ((readBodyFromFile luck content body.bufs).map Prod.fst)
    | none => some (readBody luck body.bufs)

/-! ### What the body is -/

/-- The bytes of a buffer. -/
def Buf.bytes (content : List UInt8) (b : Buf) : List UInt8 :=
  if b.inFile then (content.take b.fileLast).drop b.filePos else b.memory

/-- The bytes of the body. -/
def RequestBody.bytes (body : RequestBody) : List UInt8 :=
  body.bufs.flatMap (Buf.bytes (body.tempFile.getD []))

/-- Nothing fails. -/
def Luck.Good (luck : Luck) : Prop := luck.memory = true ∧ ∀ k, luck.read k = true

/-- **The text of the update is the body**: whenever there is a text, and there is one unless something fails
or the body has no buffer; and the other function reads the same from a chain in memory. -/
structure RequestBody.Exact (body : RequestBody) : Prop where
  text : ∀ luck text, bodyText luck body = some (some text) → text = body.bytes
  some : ∀ luck : Luck, luck.Good → body.bufs ≠ [] → ∃ text, bodyText luck body = some (some text)
  agree : ∀ luck : Luck, luck.Good → body.tempFile = none → body.bufs ≠ [] →
    readBody luck body.bufs = (readBodyFromFile luck [] body.bufs).map Prod.fst

/-- The links behind the second one, if they are in memory, are empty. -/
def RequestBody.Short (body : RequestBody) : Prop :=
  body.tempFile = none → ∀ b ∈ body.bufs.drop 2, b.memory = []

/-! ### A temporary file -/

theorem readFile_eq {b : Buf} (h : b.inFile = true) :
    readFile content (b.fileLast - b.filePos) b.filePos = b.bytes content := by
  rw [readFile, Buf.bytes, if_pos h, drop_take]

/-- **The loop** copies the bytes of every link. -/
theorem copyLoop_eq (luck : Luck) (content : List UInt8) : ∀ (bufs : List Buf) (k : ℕ) (copy : List UInt8),
    (∀ text, copyLoop luck content bufs k copy = some text →
      text = copy ++ bufs.flatMap (Buf.bytes content)) ∧
    (luck.Good → ∃ text, copyLoop luck content bufs k copy = some text)
  | [], k, copy => ⟨fun text h => by rw [← Option.some.inj h]; simp, fun _ => ⟨copy, rfl⟩⟩
  | buf :: bufs, k, copy => by
    rw [copyLoop, flatMap_cons, ← append_assoc]
    by_cases hfile : buf.inFile = true
    · rw [if_pos hfile, readFile_eq hfile]
      obtain ⟨htext, hsome⟩ := copyLoop_eq luck content bufs (k + 1) (copy ++ buf.bytes content)
      refine ⟨fun text h => ?_, fun hgood => ?_⟩
      · split_ifs at h
        exact htext text h
      · rw [if_pos (hgood.2 k)]
        exact hsome hgood
    · have hbytes : buf.bytes content = buf.memory := if_neg hfile
      rw [if_neg hfile, hbytes]
      exact copyLoop_eq luck content bufs (k + 1) (copy ++ buf.memory)

/-- **A chain is read completely** by `ngx_http_dyups_read_body_from_file`. -/
theorem readBodyFromFile_eq (luck : Luck) (content : List UInt8) (bufs : List Buf) :
    (∀ text len, readBodyFromFile luck content bufs = some (text, len) →
      text = bufs.flatMap (Buf.bytes content)) ∧
    (luck.Good → (readBodyFromFile luck content bufs).map Prod.fst =
      some (bufs.flatMap (Buf.bytes content))) := by
  obtain ⟨htext, hsome⟩ := copyLoop_eq luck content bufs 0 []
  rw [nil_append] at htext
  rw [readBodyFromFile]
  refine ⟨fun text len h => ?_, fun hgood => ?_⟩
  · split_ifs at h
    obtain ⟨copy, hcopy, heq⟩ := map_eq_some_iff.mp h
    cases heq
    exact htext text hcopy
  · obtain ⟨text, hcopy⟩ := hsome hgood
    rw [if_pos hgood.1, hcopy, ← htext text hcopy]
    rfl

/-! ### A chain in memory -/

theorem flatMap_bytes (h : ∀ b ∈ bufs, b.inFile = false) :
    bufs.flatMap (Buf.bytes content) = bufs.flatMap Buf.memory := by
  rw [flatMap_def, flatMap_def]
  refine congrArg List.flatten (map_congr_left fun b hb => ?_)
  rw [Buf.bytes, if_neg (by rw [h b hb]; exact Bool.false_ne_true)]

/-- **What is read from a chain in memory**: the first two links. -/
theorem readBody_eq {text : List UInt8} (h : readBody luck bufs = some text) :
    text = (bufs.take 2).flatMap Buf.memory := by
  match bufs, h with
  | [buf], h =>
    cases h
    simp
  | buf :: next :: bufs, h =>
    rw [readBody] at h
    split_ifs at h
    cases h
    simp

/-- Two buffers are the whole body when the others are empty. -/
theorem take_eq_iff (bufs : List Buf) :
    (bufs.take 2).flatMap Buf.memory = bufs.flatMap Buf.memory ↔
      ∀ b ∈ bufs.drop 2, b.memory = [] := by
  have hsplit : bufs.flatMap Buf.memory =
      (bufs.take 2).flatMap Buf.memory ++ (bufs.drop 2).flatMap Buf.memory := by
    rw [← flatMap_append, take_append_drop]
  rw [hsplit, self_eq_append_right, flatMap_eq_nil_iff]

/-- With luck, the body of two buffers is read. -/
theorem readBody_isSome (hgood : luck.Good) (h : bufs ≠ []) :
    readBody luck bufs = some ((bufs.take 2).flatMap Buf.memory) := by
  have hsome : ∃ text, readBody luck bufs = some text := by
    match bufs, h with
    | [buf], _ => exact ⟨_, rfl⟩
    | buf :: next :: bufs, _ => exact ⟨_, if_pos hgood.1⟩
  obtain ⟨text, htext⟩ := hsome
  rw [htext, readBody_eq htext]

theorem inFile_eq_false (h : body.tempFile = none) : ∀ b ∈ body.bufs, b.inFile = false := by
  intro b hb
  cases hin : b.inFile with
  | false => rfl
  | true =>
    obtain ⟨content, hcontent, -⟩ := body.valid b hb hin
    exact nomatch h.symm.trans hcontent

/-- **When the text of the update is the body**: when there is a temporary file, or nothing in the chain
behind the second link. Then the two functions agree. -/
theorem bodyText_iff (body : RequestBody) : body.Exact ↔ body.Short := by
  have hgood : Luck.Good ⟨true, fun _ => true⟩ := ⟨rfl, fun _ => rfl⟩
  cases hfile : body.tempFile with
  | some content =>
    have hshort : body.Short := fun hnone => nomatch hfile.symm.trans hnone
    refine iff_of_true ⟨fun luck text h => ?_, fun luck hgood hne => ?_, fun luck _ hnone => ?_⟩ hshort
    · rw [bodyText, hfile] at h
      split_ifs at h
      obtain ⟨⟨text', len⟩, hread, rfl⟩ := map_eq_some_iff.mp (Option.some.inj h)
      rw [RequestBody.bytes, hfile]
      exact (readBodyFromFile_eq luck content body.bufs).1 text' len hread
    · rw [bodyText, hfile, if_neg hne]
      dsimp only
      rw [(readBodyFromFile_eq luck content body.bufs).2 hgood]
      exact ⟨_, rfl⟩
    · exact nomatch hfile.symm.trans hnone
  | none =>
    have hmem := inFile_eq_false hfile
    have hbytes : body.bytes = body.bufs.flatMap Buf.memory := flatMap_bytes hmem
    have hiff := take_eq_iff body.bufs
    by_cases hne : body.bufs = []
    · refine iff_of_true ⟨fun luck text h => ?_, fun _ _ h => absurd hne h, fun _ _ _ h => absurd hne h⟩
        fun _ b hb => ?_
      · rw [bodyText, if_pos hne] at h
        cases h
      · rw [hne] at hb
        exact nomatch hb
    constructor
    · intro h _
      refine hiff.mp ?_
      rw [← hbytes]
      refine h.text ⟨true, fun _ => true⟩ _ ?_
      rw [bodyText, if_neg hne, hfile]
      dsimp only
      rw [readBody_isSome hgood hne]
    · intro h
      have htake := hiff.mpr (h hfile)
      refine ⟨fun luck text htext => ?_, fun luck hgood _ => ?_, fun luck hgood _ _ => ?_⟩
      · rw [bodyText, if_neg hne, hfile] at htext
        rw [readBody_eq (Option.some.inj htext), hbytes, htake]
      · rw [bodyText, if_neg hne, hfile]
        dsimp only
        rw [readBody_isSome hgood hne]
        exact ⟨_, rfl⟩
      · rw [readBody_isSome hgood hne, (readBodyFromFile_eq luck [] body.bufs).2 hgood,
          flatMap_bytes hmem, htake]

/-- A chain of three links in memory. -/
def threeLinks : RequestBody :=
  ⟨none, [⟨false, [115], 0, 0⟩, ⟨false, [101], 0, 0⟩, ⟨false, [59], 0, 0⟩], by
    simp [Buf.Valid]⟩

/-- **The third link is lost.** -/
theorem third_link_lost : ¬ ∀ (body : RequestBody) (luck : Luck) (text : List UInt8),
    bodyText luck body = some (some text) → text = body.bytes := by
  intro hall
  have htext := hall threeLinks ⟨true, fun _ => true⟩ [115, 101] rfl
  exact absurd htext (by decide)

end Hengine.DyupsBody
