import Hengine.Core.Atoi
import Hengine.Http.UnsafeUri

/-!
# Concatenated Files

The model of `ngx_http_concat_handler` in `ngx_http_concat_module.c`, with `ngx_http_set_content_type`
and `ngx_http_test_content_type`. One loop over the arguments collects the file names; one loop over
the names tests their types and opens them. Memory is always given.

The second loop keeps the extension in the request: a name without one is tested with the extension
of the last name that had one. It puts the delimiter behind a file unless that is the **last name**,
also where nothing comes after it because the names that follow are empty or missing files.
-/

namespace Hengine.Concat

open List

open Conv (int64)

/-- What `ngx_open_cached_file` finds, with the classes of `of.err` that are told apart. -/
inductive Opened
  | failed (status : ℤ)
  | notFile
  | file (content : List UInt8)
deriving Repr, DecidableEq

/-- The configuration: `types` is empty for `concat_types *`; `typesHash` are the types of the
extensions, and `defaultType` is that of the others. -/
structure Conf where
  types : Option (List (List UInt8))
  unique : Bool
  maxFiles : ℕ
  delimiter : List UInt8
  ignoreFileError : Bool
  typesHash : List UInt8 → Option (List UInt8)
  defaultType : List UInt8

/-- A request; `path` is what its URI is mapped to. -/
structure Request where
  head : Bool
  path : List UInt8
  args : List UInt8
  opened : List UInt8 → Opened

/-- A buffer of the chain. -/
inductive Part
  | file (name content : List UInt8)
  | memory (text : List UInt8)
deriving Repr, DecidableEq

def Part.bytes : Part → List UInt8
  | .file _ content => content
  | .memory text => text

/-- What the handler does: a code, the header alone, or the header and a chain, whose buffers are
marked with `last_buf`. -/
inductive Reply
  | code (status : ℤ)
  | header (contentLength : ℤ)
  | sent (contentLength : ℤ) (chain : List (Part × Bool))

/-! ### The arguments -/

/-- `ngx_http_concat_add_path`. A name that has been unescaped is not ended by a zero byte in the source,
which opens files by such a name; here the names given to `opened` are those of the array. -/
def addPath (conf : Conf) (path name : List UInt8) (uris : List (List UInt8)) :
    Option (List (List UInt8)) :=
  if name = [] ∨ conf.maxFiles ≤ uris.length then none
  else (UnsafeUri.parseUnsafeUri true (path ++ name) []).map fun uri => uris ++ [uri.1]

/-- The loop over the arguments, with the bytes from `v` to `p`: `none` is a bad request. -/
def argLoop (conf : Conf) (path : List UInt8) :
    List UInt8 → List UInt8 → Bool → List (List UInt8) → Option (List (List UInt8))
  | [], name, timestamp, uris =>
    if name ≠ [] ∧ !timestamp then addPath conf path name uris else some uris
  | c :: p, name, timestamp, uris =>
    if c = byte ',' then
      if name = [] ∨ timestamp then argLoop conf path p [] false uris
      else (addPath conf path name uris).bind fun uris => argLoop conf path p [] timestamp uris
    else if c = byte '?' then
      if timestamp then argLoop conf path p [c] true uris
      else (addPath conf path name uris).bind fun uris => argLoop conf path p [c] true uris
    else argLoop conf path p (name ++ [c]) timestamp uris

/-- The names of the files, from the byte behind the first `?` on. -/
def names (conf : Conf) (r : Request) : Option (List (List UInt8)) :=
  argLoop conf r.path r.args.tail [] false []

/-! ### The types -/

/-- The scan for the extension of a name, from index `j` down to 2. -/
def extenLoop (name : List UInt8) : ℕ → Option (List UInt8)
  | 0 => none
  | j + 1 =>
    if j = 0 then none
    else if name[j + 1]? = some (byte '.') ∧ name[j]? ≠ some (byte '/') then
      some (name.drop (j + 2))
    else if name[j + 1]? = some (byte '/') then none
    else extenLoop name j

/-- The extension of a name. -/
def extenOf (name : List UInt8) : Option (List UInt8) := extenLoop name (name.length - 1)

/-- `ngx_http_set_content_type`. -/
def contentType (conf : Conf) (exten : List UInt8) : List UInt8 :=
  if exten = [] then conf.defaultType
  else (conf.typesHash (exten.map tolower)).getD conf.defaultType

/-- `ngx_http_test_content_type`. -/
def testContentType (conf : Conf) (type : List UInt8) : Bool :=
  match conf.types with
  | none => true
  | some types => type ≠ [] ∧ types.contains (type.map tolower)

/-! ### The files -/

/-- What one turn leaves to the next. -/
structure Turn where
  exten : List UInt8
  lastLen : ℕ
  lastType : Option (List UInt8)
  length : ℤ
  out : List Part

/-- `content_type_lowcase` behind the test: `concat_types *` leaves it `NULL`. -/
def lowcase (conf : Conf) (type : List UInt8) : Option (List UInt8) :=
  if conf.types = none then none else some (type.map tolower)

/-- A turn from `ngx_open_cached_file` on; `rest` are the names that are left. -/
def openFile (conf : Conf) (opened : List UInt8 → Opened) (name : List UInt8)
    (rest : List (List UInt8)) (t : Turn) : Except ℤ Turn :=
  match opened name with
  | .failed status =>
    if conf.ignoreFileError ∧ (status = 404 ∨ status = 403) then .ok t else .error status
  | .notFile => if conf.ignoreFileError then .ok t else .error 404
  | .file content =>
    if content = [] then .ok t
    else
      let t := { t with
        length := int64 (t.length + content.length), out := t.out ++ [.file name content] }
      if rest = [] ∨ conf.delimiter = [] then .ok t
      else
        .ok { t with
          length := int64 (t.length + conf.delimiter.length)
          out := t.out ++ [.memory conf.delimiter] }

/-- The loop over the names, at index `i`. -/
def fileLoop (conf : Conf) (opened : List UInt8 → Opened) : ℕ → List (List UInt8) → Turn →
    Except ℤ Turn
  | _, [], t => .ok t
  | i, name :: rest, t =>
    let exten := (extenOf name).getD t.exten
    let type := contentType conf exten
    if !testContentType conf type then .error 400
    else if conf.unique ∧ 0 < i ∧ (t.lastLen ≠ type.length ∨
        t.lastType ≠ none ∧ lowcase conf type ≠ none ∧ t.lastType ≠ lowcase conf type) then
      .error 400
    else
      match openFile conf opened name rest
        { t with exten, lastLen := type.length, lastType := lowcase conf type } with
      | .error status => .error status
      | .ok t => fileLoop conf opened (i + 1) rest t

/-- `last_buf`, set on the last buffer. -/
def markLast (out : List Part) : List (Part × Bool) :=
  out.dropLast.map (·, false) ++ (out.getLast?.map (·, true)).toList

/-- `ngx_http_concat_handler`, for a request that it does not decline. Without a buffer the header
goes out alone, as it does for `HEAD`. -/
def handler (conf : Conf) (r : Request) : Reply :=
  match names conf r with
  | none => .code 400
  | some uris =>
    match fileLoop conf r.opened 0 uris ⟨[], 0, none, 0, []⟩ with
    | .error status => .code status
    | .ok t => if r.head then .header t.length else .sent t.length (markLast t.out)

/-! ### What is asked for -/

/-- The content of a file that is not empty. -/
def content (opened : List UInt8 → Opened) (name : List UInt8) : Option (List UInt8) :=
  match opened name with
  | .file [] => none
  | .file content => some content
  | _ => none

/-- The body: the files that are not empty, with the delimiter between them. -/
def body (conf : Conf) (r : Request) (uris : List (List UInt8)) : List UInt8 :=
  conf.delimiter.intercalate (uris.filterMap (content r.opened))

/-- The names, each with the extension that is in the request when its turn comes. -/
def carried : List UInt8 → List (List UInt8) → List (List UInt8 × List UInt8)
  | _, [] => []
  | exten, name :: rest => (name, exten) :: carried ((extenOf name).getD exten) rest

/-- The type of a name by its own extension. -/
def ownType (conf : Conf) (name : List UInt8) : List UInt8 :=
  contentType conf ((extenOf name).getD [])

/-- A reply with a chain is sent for these names. -/
def Sends (conf : Conf) (r : Request) (uris : List (List UInt8)) (n : ℤ)
    (chain : List (Part × Bool)) : Prop :=
  names conf r = some uris ∧ handler conf r = .sent n chain

/-- **The body and its length.** What is sent is the body, its length is what is declared, and the
last buffer, and no other, is marked. -/
def BodyExact (conf : Conf) (r : Request) : Prop :=
  ∀ uris n chain, Sends conf r uris n chain →
    chain.flatMap (·.1.bytes) = body conf r uris ∧ n = (body conf r uris).length ∧
      (∀ b ∈ chain.dropLast, b.2 = false) ∧ ∀ b, chain.getLast? = some b → b.2 = true

/-- A file is sent. -/
def Emitted (chain : List (Part × Bool)) (name : List UInt8) : Prop :=
  ∃ content, .file name content ∈ chain.map Prod.fst

/-- **The types.** Every file that is sent is of an allowed type by its own extension, and with
`concat_unique` all of them are of one. -/
def TypesExact (conf : Conf) (r : Request) : Prop :=
  ∀ uris n chain, Sends conf r uris n chain →
    (∀ name, Emitted chain name → testContentType conf (ownType conf name) = true) ∧
      (conf.unique = true → ∀ name name', Emitted chain name → Emitted chain name' →
        (ownType conf name).map tolower = (ownType conf name').map tolower)

/-- An extension is **passed on**: the name has none, and the request still has one. -/
def PassedOn (x : List UInt8 × List UInt8) : Prop := extenOf x.1 = none ∧ x.2 ≠ []

/-! ### The loop over the names -/

variable {conf : Conf} {opened : List UInt8 → Opened}

/-- What a turn appends to the chain. -/
def turnParts (conf : Conf) (opened : List UInt8 → Opened) (name : List UInt8)
    (rest : List (List UInt8)) : List Part :=
  match content opened name with
  | none => []
  | some c => .file name c ::
      if rest = [] ∨ conf.delimiter = [] then [] else [.memory conf.delimiter]

/-- What the loop appends to the chain. -/
def parts (conf : Conf) (opened : List UInt8 → Opened) : List (List UInt8) → List Part
  | [] => []
  | name :: rest => turnParts conf opened name rest ++ parts conf opened rest

/-- The bytes of some buffers. -/
def bytesOf (out : List Part) : List UInt8 := out.flatMap Part.bytes

/-- The type that a name is tested with. -/
def testedType (conf : Conf) (x : List UInt8 × List UInt8) : List UInt8 :=
  contentType conf ((extenOf x.1).getD x.2)

/-- The test of the type of a name against that of the name before it. -/
def SameType (conf : Conf) (t : Turn) (type : List UInt8) : Prop :=
  t.lastLen = type.length ∧ (conf.types ≠ none → ∀ last, t.lastType = some last →
    last = type.map tolower)

theorem int64_add (x y : ℤ) : int64 (int64 x + y) = int64 (x + y) := by
  rw [int64, int64, int64]
  omega

/-- What a turn does with its file. -/
theorem openFile_spec {name : List UInt8} {rest : List (List UInt8)} {t t' : Turn}
    (h : openFile conf opened name rest t = .ok t') :
    t'.exten = t.exten ∧ t'.lastType = t.lastType ∧
      t'.out = t.out ++ turnParts conf opened name rest ∧
      ∀ k, t.length = int64 k →
        t'.length = int64 (k + (bytesOf (turnParts conf opened name rest)).length) := by
  rw [openFile] at h
  rw [turnParts, content]
  cases hopened : opened name with
  | failed status =>
    simp only [hopened] at h
    split_ifs at h
    cases h
    simp [bytesOf]
  | notFile =>
    simp only [hopened] at h
    split_ifs at h
    cases h
    simp [bytesOf]
  | file c =>
    simp only [hopened] at h
    cases c with
    | nil =>
      cases h
      simp [bytesOf]
    | cons x c =>
      rw [if_neg (cons_ne_nil x c)] at h
      dsimp only at h ⊢
      split_ifs at h ⊢ with hlast
      · cases h
        refine ⟨rfl, rfl, rfl, fun k hk => ?_⟩
        simp [bytesOf, Part.bytes, hk, int64_add]
      · cases h
        refine ⟨rfl, rfl, by simp, fun k hk => ?_⟩
        simp [bytesOf, Part.bytes, hk, int64_add, add_assoc, add_comm (1 : ℤ)]

/-- **One turn**: what it tests, and what it leaves to the next. -/
theorem fileLoop_cons {i : ℕ} {name : List UInt8} {rest : List (List UInt8)} {t t' : Turn}
    (h : fileLoop conf opened i (name :: rest) t = .ok t') :
    testContentType conf (testedType conf (name, t.exten)) = true ∧
      (conf.unique = true → 0 < i → SameType conf t (testedType conf (name, t.exten))) ∧
      ∃ t₁, fileLoop conf opened (i + 1) rest t₁ = .ok t' ∧
        t₁.exten = (extenOf name).getD t.exten ∧
        t₁.lastType = lowcase conf (testedType conf (name, t.exten)) ∧
        t₁.out = t.out ++ turnParts conf opened name rest ∧
        ∀ k, t.length = int64 k →
          t₁.length = int64 (k + (bytesOf (turnParts conf opened name rest)).length) := by
  rw [fileLoop] at h
  split_ifs at h with htest hsame
  refine ⟨by simpa [testedType] using htest, fun hunique hi => ?_, ?_⟩
  · have hno : ¬ (t.lastLen ≠ (testedType conf (name, t.exten)).length ∨ t.lastType ≠ none ∧
        lowcase conf (testedType conf (name, t.exten)) ≠ none ∧
          t.lastType ≠ lowcase conf (testedType conf (name, t.exten))) :=
      fun h' => hsame ⟨hunique, hi, h'⟩
    rw [not_or, Decidable.not_not] at hno
    refine ⟨hno.1, fun hty last hlast => ?_⟩
    simpa [lowcase, hty, hlast] using hno.2
  · cases hopen : openFile conf opened name rest { t with
        exten := (extenOf name).getD t.exten
        lastLen := (contentType conf ((extenOf name).getD t.exten)).length
        lastType := lowcase conf (contentType conf ((extenOf name).getD t.exten)) } with
    | error status =>
      rw [hopen] at h
      cases h
    | ok t₁ =>
      rw [hopen] at h
      obtain ⟨hexten, htype, hout, hlength⟩ := openFile_spec hopen
      exact ⟨t₁, h, hexten, htype, hout, hlength⟩

/-- **The loop**: what it emits, and what its tests of the names say. -/
theorem fileLoop_spec : ∀ {uris : List (List UInt8)} {i : ℕ} {t t' : Turn},
    fileLoop conf opened i uris t = .ok t' →
      t'.out = t.out ++ parts conf opened uris ∧
      (∀ k, t.length = int64 k →
        t'.length = int64 (k + (bytesOf (parts conf opened uris)).length)) ∧
      (∀ x ∈ carried t.exten uris, testContentType conf (testedType conf x) = true) ∧
      (conf.unique = true → conf.types ≠ none → ∃ type,
        (∀ x ∈ carried t.exten uris, (testedType conf x).map tolower = type) ∧
          (0 < i → ∀ last, t.lastType = some last → uris ≠ [] → last = type))
  | [], i, t, t', h => by
    cases h
    refine ⟨by simp [parts], fun k hk => by simp [parts, bytesOf, hk], by simp [carried],
      fun _ _ => ⟨[], by simp [carried], by simp⟩⟩
  | name :: rest, i, t, t', h => by
    obtain ⟨htest, hsame, t₁, hrest, hexten, htype, hout, hlength⟩ := fileLoop_cons h
    obtain ⟨hout', hlength', htests, hunique⟩ := fileLoop_spec hrest
    rw [hexten] at htests hunique
    refine ⟨by rw [hout', hout, parts, append_assoc], fun k hk => ?_,
      forall_mem_cons.mpr ⟨htest, htests⟩, fun hu hty => ?_⟩
    · rw [hlength' _ (hlength k hk), parts]
      simp [bytesOf, add_assoc]
    · obtain ⟨type, hall, hfirst⟩ := hunique hu hty
      rw [lowcase, if_neg hty] at htype
      refine ⟨(testedType conf (name, t.exten)).map tolower,
        forall_mem_cons.mpr ⟨rfl, fun x hx => ?_⟩, fun hi last hlast _ => ?_⟩
      · have hne : rest ≠ [] := by
          rintro rfl
          cases hx
        rw [hall x hx, hfirst (Nat.succ_pos i) _ htype hne]
      · exact (hsame hu hi).2 hty last hlast

/-! ### The body -/

/-- The names end in some that give no file. -/
def Trails (opened : List UInt8 → Opened) (uris : List (List UInt8)) : Prop :=
  uris.filterMap (content opened) ≠ [] ∧ uris.getLast?.bind (content opened) = none

instance (uris : List (List UInt8)) : Decidable (Trails opened uris) :=
  inferInstanceAs (Decidable (_ ∧ _))

/-- **What the loop emits** are the joined files, and one more delimiter where the names trail. -/
theorem bytes_parts : ∀ uris : List (List UInt8), bytesOf (parts conf opened uris) =
    conf.delimiter.intercalate (uris.filterMap (content opened)) ++
      if Trails opened uris then conf.delimiter else []
  | [] => by simp [parts, bytesOf, Trails]
  | name :: rest => by
    have hturn : bytesOf (parts conf opened (name :: rest)) =
        bytesOf (turnParts conf opened name rest) ++ bytesOf (parts conf opened rest) :=
      flatMap_append
    rw [hturn, bytes_parts rest]
    cases hc : content opened name with
    | none =>
      have hempty : bytesOf (turnParts conf opened name rest) = [] := by
        simp [turnParts, hc, bytesOf]
      have htrails : Trails opened (name :: rest) ↔ Trails opened rest := by
        cases rest <;> simp [Trails, hc, getLast?_cons]
      simp [hempty, htrails, hc]
    | some c =>
      have hbytes : bytesOf (turnParts conf opened name rest) =
          c ++ if rest = [] then [] else conf.delimiter := by
        by_cases hrest : rest = [] <;> by_cases hdelim : conf.delimiter = [] <;>
          simp [turnParts, hc, bytesOf, Part.bytes, hrest, hdelim]
      rw [hbytes]
      cases rest with
      | nil => simp [Trails, hc]
      | cons next rest =>
        have hlast : (name :: next :: rest).getLast? = (next :: rest).getLast? := by
          simp [getLast?_cons]
        cases hfiles : (next :: rest).filterMap (content opened) with
        | nil =>
          have hnone : (next :: rest).getLast?.bind (content opened) = none := by
            rw [filterMap_eq_nil_iff] at hfiles
            cases hl : (next :: rest).getLast? with
            | none => rfl
            | some l => exact hfiles l (mem_of_getLast? hl)
          rw [filterMap_cons_some hc, hfiles]
          simp [Trails, hfiles, hlast, hnone, filterMap_cons_some hc]
        | cons d ds =>
          rw [filterMap_cons_some hc, hfiles]
          simp [Trails, hfiles, hlast, filterMap_cons_some hc, List.intercalate]

/-- What is sent, by the names. -/
theorem sends_iff {r : Request} {uris : List (List UInt8)} {n : ℤ} {chain : List (Part × Bool)}
    (h : Sends conf r uris n chain) :
    chain = markLast (parts conf r.opened uris) ∧
      n = int64 (bytesOf (parts conf r.opened uris)).length ∧
      ∃ t', fileLoop conf r.opened 0 uris ⟨[], 0, none, 0, []⟩ = .ok t' := by
  obtain ⟨hnames, hsent⟩ := h
  rw [handler, hnames] at hsent
  dsimp only at hsent
  cases hloop : fileLoop conf r.opened 0 uris ⟨[], 0, none, 0, []⟩ with
  | error status =>
    rw [hloop] at hsent
    cases hsent
  | ok t =>
    rw [hloop] at hsent
    dsimp only at hsent
    split_ifs at hsent
    cases hsent
    obtain ⟨hout, hlength, -⟩ := fileLoop_spec hloop
    refine ⟨by rw [hout]; rfl, ?_, t, rfl⟩
    rw [hlength 0 rfl, zero_add]

/-- The last buffer, and no other, is marked as the last one. -/
theorem markLast_spec (out : List Part) :
    (markLast out).map Prod.fst = out ∧ (∀ b ∈ (markLast out).dropLast, b.2 = false) ∧
      ∀ b, (markLast out).getLast? = some b → b.2 = true := by
  obtain rfl | ⟨init, l, rfl⟩ := eq_nil_or_concat out <;> simp [markLast, Function.comp_def]

/-- Every name is opened with some extension. -/
theorem mem_carried {name : List UInt8} : ∀ (exten : List UInt8) {uris : List (List UInt8)},
    name ∈ uris ↔ ∃ e, (name, e) ∈ carried exten uris
  | exten, [] => by simp [carried]
  | exten, next :: rest => by
    rw [mem_cons, mem_carried ((extenOf next).getD exten)]
    simp [carried, exists_or]

/-- The files of the chain. -/
theorem mem_parts {name c : List UInt8} : ∀ {uris : List (List UInt8)},
    .file name c ∈ parts conf opened uris ↔ name ∈ uris ∧ content opened name = some c
  | [] => by simp [parts]
  | next :: rest => by
    have hturn : .file name c ∈ turnParts conf opened next rest ↔
        name = next ∧ content opened next = some c := by
      rw [turnParts]
      cases content opened next with
      | none => simp
      | some d =>
        dsimp only
        split_ifs <;> simp [eq_comm]
    rw [parts, mem_append, hturn, mem_parts, mem_cons, or_and_right]
    refine or_congr (and_congr_right fun hname => ?_) Iff.rfl
    rw [hname]

/-- The type that is tested is the own one, if no extension is carried. -/
theorem testedType_own {x : List UInt8 × List UInt8} :
    (¬ PassedOn x → testedType conf x = ownType conf x.1) ∧
      (PassedOn x → ownType conf x.1 = conf.defaultType) := by
  rw [PassedOn, testedType, ownType]
  cases hexten : extenOf x.1 <;> simp +contextual [contentType]

/-- **The types, exactly.** They are right unless an extension is passed on to a file that is sent
whose own type, the default one, is not allowed; and with `concat_unique`, unless two files of
different types are sent, to one of which an extension is passed on, or with `concat_types *`. -/
theorem types_iff (conf : Conf) (r : Request) :
    TypesExact conf r ↔ ∀ uris n chain, Sends conf r uris n chain →
      (∀ x ∈ carried [] uris, content r.opened x.1 ≠ none → PassedOn x →
          testContentType conf conf.defaultType = true) ∧
        (conf.unique = true → ∀ x ∈ carried [] uris, ∀ y ∈ carried [] uris,
          content r.opened x.1 ≠ none → content r.opened y.1 ≠ none →
            PassedOn x ∨ PassedOn y ∨ conf.types = none →
              (ownType conf x.1).map tolower = (ownType conf y.1).map tolower) := by
  refine forall_congr' fun uris => forall_congr' fun n => forall_congr' fun chain =>
    forall_congr' fun h => ?_
  obtain ⟨hchain, -, t', hloop⟩ := sends_iff h
  obtain ⟨-, -, htests, hunique⟩ := fileLoop_spec hloop
  have hemitted (name : List UInt8) : Emitted chain name ↔
      ∃ e, (name, e) ∈ carried [] uris ∧ content r.opened name ≠ none := by
    rw [Emitted, hchain, (markLast_spec _).1]
    constructor
    · rintro ⟨c, hc⟩
      obtain ⟨hname, hcontent⟩ := mem_parts.mp hc
      obtain ⟨e, he⟩ := (mem_carried []).mp hname
      exact ⟨e, he, by simp [hcontent]⟩
    · rintro ⟨e, he, hc⟩
      obtain ⟨c, hcontent⟩ := Option.ne_none_iff_exists'.mp hc
      exact ⟨c, mem_parts.mpr ⟨(mem_carried []).mpr ⟨e, he⟩, hcontent⟩⟩
  constructor
  · rintro ⟨hallowed, hone⟩
    refine ⟨fun x hx hc hpassed => ?_, fun hu x hx y hy hcx hcy _ => ?_⟩
    · have hown : ownType conf x.1 = conf.defaultType := testedType_own.2 hpassed
      rw [← hown]
      exact hallowed x.1 ((hemitted _).mpr ⟨x.2, hx, hc⟩)
    · exact hone hu x.1 y.1 ((hemitted _).mpr ⟨x.2, hx, hcx⟩) ((hemitted _).mpr ⟨y.2, hy, hcy⟩)
  · rintro ⟨hallowed, hone⟩
    refine ⟨fun name hname => ?_, fun hu name name' hname hname' => ?_⟩
    · obtain ⟨e, hx, hc⟩ := (hemitted name).mp hname
      by_cases hpassed : PassedOn (name, e)
      · exact testedType_own.2 hpassed ▸ hallowed _ hx hc hpassed
      · exact testedType_own.1 hpassed ▸ htests _ hx
    · obtain ⟨e, hx, hc⟩ := (hemitted name).mp hname
      obtain ⟨e', hy, hc'⟩ := (hemitted name').mp hname'
      by_cases hpassed : PassedOn (name, e) ∨ PassedOn (name', e') ∨ conf.types = none
      · exact hone hu _ hx _ hy hc hc' hpassed
      · rw [not_or, not_or] at hpassed
        obtain ⟨type, hall, -⟩ := hunique hu hpassed.2.2
        rw [← testedType_own.1 hpassed.1, ← testedType_own.1 hpassed.2.1, hall _ hx, hall _ hy]

/-! ### Where it goes wrong -/

/-- `concat_types text/css` with `concat_delimiter`, where `.c` is `c` and all else is `d`. -/
def cssConf : Conf :=
  ⟨some [[99]], false, 10, [10], true, fun e => if e = [99] then some [99] else none, [100]⟩

/-- The request `??a.c,b`: the first file is there, the second as `second` says. -/
def twoNames (second : Opened) : Request :=
  ⟨false, [47, 47], [63, 97, 46, 99, 44, 98], fun name =>
    if name = [47, 47, 97, 46, 99] then .file [1] else second⟩

/-- A file without an extension is sent as if it had that of the file before it. -/
theorem passed_extension : ¬ TypesExact cssConf (twoNames (.file [2])) := by
  intro h
  have hnames : names cssConf (twoNames (.file [2])) =
      some [[47, 47, 97, 46, 99], [47, 47, 98]] := by decide
  have hsent : handler cssConf (twoNames (.file [2])) = .sent 3
      [(.file [47, 47, 97, 46, 99] [1], false), (.memory [10], false),
        (.file [47, 47, 98] [2], true)] := by
    rw [handler, hnames]
    simp [fileLoop, openFile, twoNames, cssConf, extenOf, extenLoop, contentType, testContentType,
      lowcase, markLast, int64, byte, tolower]
  exact absurd ((h _ _ _ ⟨hnames, hsent⟩).1 [47, 47, 98] ⟨[2], by simp⟩) (by decide)

end Hengine.Concat
