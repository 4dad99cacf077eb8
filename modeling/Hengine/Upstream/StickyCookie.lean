import Hengine.Http.Bytes
import Mathlib.Data.Nat.Digits.Defs

/-!
# The Cookie of the Session-Sticky Balancer

`ngx_http_session_sticky_get_cookie` searches the `Cookie` headers of a request for the configured
name and takes from the text after it the session id and, in insert mode, the times the session was
last and first seen. `ngx_http_session_sticky_insert` and `ngx_http_session_sticky_prefix` write the
cookie into a response.

A header line is a list of bytes without the zero byte that ends it in memory; positions are counted
from the start of a line. Times are seconds since 1970 and not negative. `maxidle` and `maxlife` are
set together: the directive gives the other one its largest value when it sets one. Allocation does
not fail.
-/

namespace Hengine.StickyCookie

open List

/-- `is_space`. -/
def isSpace (c : UInt8) : Bool :=
  c == byte ' ' || c == 0x09 || c == lf

/-- A name a cookie can have: not empty, without blanks, `=`, `;` and zero bytes. -/
structure CookieName where
  bytes : List UInt8
  ne : bytes ≠ []
  token : ∀ c ∈ bytes, isSpace c = false ∧ c ≠ byte '=' ∧ c ≠ byte ';' ∧ c ≠ 0

/-- What the balancer reads of `ngx_http_upstream_ss_srv_conf_t`. -/
structure Conf where
  /-- `NGX_HTTP_SESSION_STICKY_PREFIX`. -/
  prefixMode : Bool
  /-- `NGX_HTTP_SESSION_STICKY_INSERT`. -/
  insertMode : Bool
  /-- `NGX_HTTP_SESSION_STICKY_INDIRECT`. -/
  indirect : Bool
  cookie : CookieName
  /-- `maxidle` and `maxlife`. -/
  limits : Option (ℕ × ℕ)
  domain : List UInt8
  path : List UInt8
  maxage : List UInt8

/-- `ngx_http_ss_ctx_t`. -/
structure Ctx where
  frist : Bool
  sid : List UInt8
  lastseen : ℤ
  firstseen : ℤ
  sLastseen : List UInt8
  sFirstseen : List UInt8
  deriving DecidableEq

/-- `ngx_strnstr`: the position of the first occurrence of `pat` before a zero byte. -/
@[grind =]
def strnstr (pat : List UInt8) : List UInt8 → Option ℕ
  | [] => none
  | c :: s =>
    if c = 0 then none
    else if pat.head? = some c then
      if s.length < pat.length - 1 then none
      else if s.take (pat.length - 1) = pat.tail then some 0
      else (strnstr pat s).map (· + 1)
    else (strnstr pat s).map (· + 1)

/-- `ngx_atotm`; `none` for `NGX_ERROR`. -/
def atotm (line : List UInt8) : Option ℕ :=
  if line = [] then none
  else line.foldlM (fun value c =>
    if !isDigit c then none
    else if value * 10 + (c - byte '0').toNat > 2 ^ 63 - 1 then none
    else some (value * 10 + (c - byte '0').toNat)) 0

/-- `ngx_http_session_sticky_tmtoa`: the digits of a time, none for zero. -/
def tmtoa (t : ℕ) : List UInt8 :=
  (Nat.digits 10 t).reverse.map fun d => d.toUInt8 + byte '0'

/-! ### Finding the cookie -/

/-- A line the loop over the headers stops at: the first occurrence of the name is followed by a
space or an equals sign. -/
def hitAt (name : List UInt8) (line : List UInt8) : Option ℕ :=
  (strnstr name line).filter fun p =>
    line.getD (p + name.length) 0 == byte ' ' || line.getD (p + name.length) 0 == byte '='

/-- The states of the scanner. -/
inductive Scan
  | preKey
  | key
  | preEqual
  | preValue
  deriving DecidableEq

/-- The state `value` of the scanner: where the value ends and where the next cookie starts. -/
@[grind =]
def scanValue : ℕ → List UInt8 → Option (ℕ × ℕ)
  | _, [] => none
  | p, c :: cs =>
    if c = byte ';' then some (p, p + 1)
    else if cs = [] then some (p + 1, p + 1)
    else scanValue (p + 1) cs

/-- The scanner from the position `p` on: where the value starts and ends, and where the next cookie
starts; `none` where it goes to `not_found`. -/
@[grind =]
def scan : Scan → ℕ → List UInt8 → Option (ℕ × ℕ × ℕ)
  | _, _, [] => none
  | .preKey, p, c :: cs =>
    if c = byte ';' then none
    else if isSpace c then scan .preKey (p + 1) cs
    else scan .key (p + 1) cs
  | .key, p, c :: cs =>
    if isSpace c then scan .preEqual (p + 1) cs
    else if c = byte '=' then scan .preValue (p + 1) cs
    else scan .key (p + 1) cs
  | .preEqual, p, c :: cs =>
    if c = byte '=' then scan .preValue (p + 1) cs
    else if isSpace c then scan .preEqual (p + 1) cs
    else none
  | .preValue, p, c :: cs =>
    if isSpace c then scan .preValue (p + 1) cs
    else (scanValue p (c :: cs)).map fun r => (p, r)

/-- A cookie of a line as the scanner sees it: the name starts at `st`, the value at `v`, it ends at
`p`, and the next cookie starts at `stop`. -/
structure Located where
  st : ℕ
  v : ℕ
  p : ℕ
  stop : ℕ
  deriving DecidableEq

/-- The scanner started at an occurrence of the name. -/
def scanAt (line : List UInt8) (st : ℕ) : Option Located :=
  (scan .preKey st (line.drop st)).map fun r => ⟨st, r.1, r.2.1, r.2.2⟩

/-- **Where the code finds the cookie**: the number of the line it stops at, and the cookie there if
the scanner succeeds. -/
def locate (name : List UInt8) (lines : List (List UInt8)) : Option (ℕ × Located) :=
  (lines.findIdx? fun line => (hitAt name line).isSome).bind fun i =>
    (hitAt name (lines.getD i [])).bind fun st =>
      (scanAt (lines.getD i []) st).map fun r => (i, r)

/-! ### Reading the cookie -/

/-- The bytes of a line between two positions. -/
def sliceOf (line : List UInt8) (start stop : ℕ) : List UInt8 :=
  (line.take stop).drop start

/-- The context of a first visit. -/
def notFound (now : ℕ) : Ctx where
  frist := true
  sid := []
  lastseen := now
  firstseen := now
  sLastseen := tmtoa now
  sFirstseen := tmtoa now

/-- The context before the cookie is read. -/
def emptyCtx : Ctx :=
  ⟨false, [], 0, 0, [], []⟩

/-- `diff > max || diff < -86400` is false. -/
def inTime (now t max : ℕ) : Bool :=
  now ≤ t + max && t ≤ now + 86400

/-- The session id and the times of a value: whether they are legal, and what the context holds in
either case. -/
def readTimes (maxidle maxlife now : ℕ) (value : List UInt8) : Bool × Ctx :=
  match value.span (· ≠ byte '|') with
  | (_, []) => (false, emptyCtx)
  | (sid, _ :: rest) =>
    match rest.span (· ≠ byte '|') with
    | (_, []) => (false, { emptyCtx with sid := sid })
    | (last, _ :: first) =>
      let ctx := { emptyCtx with sid := sid, sLastseen := last }
      if first = [] then (false, ctx)
      else
        match atotm last, atotm first with
        | some lastseen, some firstseen =>
          let ctx := { ctx with
            sFirstseen := first, lastseen := lastseen, firstseen := firstseen }
          if sid ≠ [] ∧ ¬ (inTime now lastseen maxidle ∧ inTime now firstseen maxlife) then
            (false, ctx)
          else (true, { ctx with sLastseen := tmtoa now })
        | lastseen, firstseen =>
          (false, { ctx with
            sFirstseen := first
            lastseen := lastseen.elim (-1) Nat.cast
            firstseen := firstseen.elim (-1) Nat.cast })

/-- The session id and, in insert mode with limits, the times of a value. -/
def readValue (conf : Conf) (now : ℕ) (value : List UInt8) : Bool × Ctx :=
  match conf.insertMode, conf.limits with
  | true, some (maxidle, maxlife) => readTimes maxidle maxlife now value
  | _, _ => (true, { emptyCtx with sid := value })

/-- Where the part of the cookie starts and ends that holds the session id, and what is taken out of
the line: in prefix mode what stands before `~`, with it. -/
def sessionPart (conf : Conf) (line : List UInt8) (r : Located) : Option Located :=
  if conf.prefixMode then
    let value := sliceOf line r.v r.p
    if byte '~' ∈ value then
      let vv := r.v + (value.takeWhile (· ≠ byte '~')).length
      some ⟨r.v, r.v, vv, vv + 1⟩
    else none
  else some r

/-- `ngx_http_session_sticky_get_cookie`: the context of the request and its lines afterwards. A
line that has become empty stands for a header with `hash` zero. -/
def getCookie (conf : Conf) (now : ℕ) (lines : List (List UInt8)) : Ctx × List (List UInt8) :=
  match locate conf.cookie.bytes lines with
  | none => (notFound now, lines)
  | some (i, r) =>
    let line := lines.getD i []
    match sessionPart conf line r with
    | none => (notFound now, lines)
    | some r =>
      let (legal, ctx) := readValue conf now (sliceOf line r.v r.p)
      if conf.prefixMode || conf.indirect then
        let rest := line.take r.st ++ line.drop r.stop
        if rest = [] then (ctx, lines.set i rest)
        else (if legal then ctx else notFound now, lines.set i rest)
      else (if legal then ctx else notFound now, lines)

/-! ### Writing the cookie -/

/-- `ngx_http_session_sticky_insert`: the text of the `Set-Cookie` header; `expires` is what
`ngx_http_cookie_time` prints. -/
def insertCookie (conf : Conf) (ctx : Ctx) (expires : List UInt8) : List UInt8 :=
  conf.cookie.bytes ++ byte '=' :: ctx.sid ++
    (if conf.limits.isSome then byte '|' :: ctx.sLastseen ++ byte '|' :: ctx.sFirstseen else []) ++
    (if conf.domain ≠ [] then str "; Domain=" ++ conf.domain else []) ++
    (if conf.path ≠ [] then str "; Path=" ++ conf.path else []) ++
    if conf.limits.isNone ∧ conf.maxage ≠ [] then
      str "; Max-Age=" ++ conf.maxage ++ str "; Expires=" ++ expires else []

/-- `ngx_strlcasestrn` for the name of the cookie, which has the length `n + 1`. -/
@[grind =]
def strlcasestr (pat : List UInt8) : List UInt8 → Option ℕ
  | [] => none
  | c :: s =>
    if s.length + 1 < pat.length then none
    else if ((c :: s).take pat.length).map tolower = pat.map tolower then some 0
    else (strlcasestr pat s).map (· + 1)

/-- The scanner of `ngx_http_session_sticky_prefix` after the name: how many bytes stand before the
value; `none` for `NGX_AGAIN`. -/
@[grind =]
def valueOffset : Bool → List UInt8 → Option ℕ
  | _, [] => none
  | false, c :: cs => (valueOffset (c == byte '=') cs).map (· + 1)
  | true, c :: cs =>
    if c = byte ';' then some 0
    else if isSpace c then (valueOffset true cs).map (· + 1)
    else some 0

/-- `ngx_http_session_sticky_prefix`: the text of a `Set-Cookie` header with the session id before
the value; `none` for `NGX_AGAIN`. -/
def prefixCookie (name sid : List UInt8) (text : List UInt8) : Option (List UInt8) :=
  (strlcasestr name text).bind fun st =>
    (valueOffset false (text.drop (st + name.length))).map fun n =>
      let p := st + name.length + n
      text.take p ++ sid ++ byte '~' :: text.drop p

/-! ### The substring search -/

variable {pat s : List UInt8} {text : List UInt8}

/-- A pattern begins here: its first byte, and the others behind. -/
theorem prefix_cons_iff {c : UInt8} (hne : pat ≠ []) :
    pat <+: c :: s ↔ pat.head? = some c ∧ s.take (pat.length - 1) = pat.tail := by
  cases pat with
  | nil => exact absurd rfl hne
  | cons d pat =>
    rw [cons_prefix_cons, prefix_iff_eq_take]
    simp [eq_comm]

/-- What the search finds is the first occurrence, and no zero byte stands before it. -/
theorem strnstr_spec {p : ℕ} (hne : pat ≠ []) (h : strnstr pat s = some p) :
    pat <+: s.drop p ∧ (∀ q < p, ¬ pat <+: s.drop q) ∧ ∀ c ∈ s.take p, c ≠ 0 := by
  induction s generalizing p with
  | nil => cases h
  | cons c s ih =>
    have hnext : c ≠ 0 → ¬ pat <+: c :: s → (strnstr pat s).map (· + 1) = some p →
        pat <+: (c :: s).drop p ∧ (∀ q < p, ¬ pat <+: (c :: s).drop q) ∧
          ∀ d ∈ (c :: s).take p, d ≠ 0 := by
      intro hc hnot h
      obtain ⟨q, hq, rfl⟩ := Option.map_eq_some_iff.mp h
      obtain ⟨hocc, hfirst, hzero⟩ := ih hq
      refine ⟨hocc, fun j hj => ?_, fun d hd => ?_⟩
      · cases j with
        | zero => exact hnot
        | succ j => exact hfirst j (by omega)
      · rw [take_succ_cons] at hd
        rcases mem_cons.mp hd with rfl | hd
        · exact hc
        · exact hzero d hd
    rw [strnstr] at h
    split_ifs at h with hzero hhead hshort hmatch
    · obtain rfl : 0 = p := Option.some.inj h
      exact ⟨(prefix_cons_iff hne).mpr ⟨hhead, hmatch⟩, fun q hq => absurd hq (Nat.not_lt_zero q),
        fun d hd => by cases hd⟩
    · exact hnext hzero (fun hocc => hmatch ((prefix_cons_iff hne).mp hocc).2) h
    · exact hnext hzero (fun hocc => hhead ((prefix_cons_iff hne).mp hocc).1) h

/-- **The first occurrence is found**, when no zero byte stands before it. -/
theorem strnstr_eq_some {p : ℕ} (hne : pat ≠ []) (hzero : ∀ c ∈ s.take (p + 1), c ≠ 0)
    (hocc : pat <+: s.drop p) (hfirst : ∀ q < p, ¬ pat <+: s.drop q) : strnstr pat s = some p := by
  induction s generalizing p with
  | nil =>
    rw [drop_nil] at hocc
    exact absurd (prefix_nil.mp hocc) hne
  | cons c s ih =>
    have hc : c ≠ 0 := hzero c (by simp)
    cases p with
    | zero =>
      obtain ⟨hhead, hmatch⟩ := (prefix_cons_iff hne).mp hocc
      have hlen := hocc.length_le
      simp only [drop_zero, length_cons] at hlen
      rw [strnstr, if_neg hc, if_pos hhead, if_neg (by omega), if_pos hmatch]
    | succ p =>
      have hrest : strnstr pat s = some p := by
        refine ih (fun d hd => hzero d ?_) hocc fun q hq => hfirst (q + 1) (by omega)
        rw [take_succ_cons]
        exact mem_cons_of_mem _ hd
      have hzeroth : ¬ pat <+: c :: s := hfirst 0 (by omega)
      rw [prefix_cons_iff hne] at hzeroth
      have hlen := hocc.length_le
      simp only [drop_succ_cons, length_drop] at hlen
      have hpos := length_pos_of_ne_nil hne
      rw [strnstr, if_neg hc, hrest]
      split_ifs with hhead hshort hmatch
      · omega
      · exact absurd ⟨hhead, hmatch⟩ hzeroth
      · rfl
      · rfl

/-! ### The scanner -/

/-- Blanks only. -/
def Blank (b : List UInt8) : Prop :=
  ∀ c ∈ b, isSpace c = true

/-- The text after a name assigns a value: an equals sign with blanks around it, and then the value,
that does not start with a blank. -/
def Assigns (text value : List UInt8) : Prop :=
  ∃ b₁ b₂, Blank b₁ ∧ Blank b₂ ∧ text = b₁ ++ byte '=' :: (b₂ ++ value) ∧
    ∀ c ∈ value.head?, isSpace c = false

theorem isSpace_equal : isSpace (byte '=') = false := by decide

theorem blank_nil : Blank [] := by
  intro c hc
  cases hc

theorem Blank.cons {c : UInt8} {b : List UInt8} (hc : isSpace c = true) (hb : Blank b) :
    Blank (c :: b) := by
  intro d hd
  rcases mem_cons.mp hd with rfl | hd
  · exact hc
  · exact hb d hd

/-- The scan of a value ends. -/
theorem scanValue_isSome (p : ℕ) {value : List UInt8} (h : value ≠ []) :
    ∃ r, scanValue p value = some r := by
  induction value generalizing p with
  | nil => exact absurd rfl h
  | cons c cs ih =>
    rw [scanValue]
    split_ifs with hsemi hlast
    · exact ⟨_, rfl⟩
    · exact ⟨_, rfl⟩
    · exact ih (p + 1) hlast

/-- The value ends before the next `;` or at the end of the line. -/
theorem scanValue_eq (p : ℕ) {value post : List UInt8} (hvalue : ∀ c ∈ value, c ≠ byte ';')
    (hne : value ++ post ≠ []) (hpost : post = [] ∨ post.head? = some (byte ';')) :
    scanValue p (value ++ post) =
      some (p + value.length, p + value.length + (if post = [] then 0 else 1)) := by
  induction value generalizing p with
  | nil =>
    cases post with
    | nil => exact absurd rfl hne
    | cons c post =>
      have hc : c = byte ';' := by simpa using hpost
      rw [nil_append, scanValue, if_pos hc]
      rfl
  | cons c value ih =>
    have hc : c ≠ byte ';' := hvalue c mem_cons_self
    rw [cons_append, scanValue, if_neg hc]
    by_cases hend : value ++ post = []
    · obtain ⟨rfl, rfl⟩ := append_eq_nil_iff.mp hend
      simp
    · rw [if_neg hend, ih (p + 1) (fun d hd => hvalue d (mem_cons_of_mem _ hd)) hend,
        length_cons]
      congr 2
      · omega
      · omega

/-- Before the value. -/
theorem scan_preValue (p : ℕ) {b value : List UInt8} (hb : Blank b) (hne : value ≠ [])
    (hvalue : ∀ c ∈ value.head?, isSpace c = false) :
    scan .preValue p (b ++ value) =
      (scanValue (p + b.length) value).map fun r => (p + b.length, r) := by
  induction b generalizing p with
  | nil =>
    cases value with
    | nil => exact absurd rfl hne
    | cons c cs =>
      have hc : isSpace c = false := hvalue c rfl
      rw [nil_append, scan, hc]
      rfl
  | cons c b ih =>
    have hc : isSpace c = true := hb c mem_cons_self
    rw [cons_append, scan, if_pos hc, ih (p + 1) fun d hd => hb d (mem_cons_of_mem _ hd),
      length_cons, Nat.add_assoc, Nat.add_comm 1]

/-- Before the equals sign. -/
theorem scan_preEqual (p : ℕ) {b text : List UInt8} (hb : Blank b) :
    scan .preEqual p (b ++ byte '=' :: text) = scan .preValue (p + b.length + 1) text := by
  induction b generalizing p with
  | nil => rw [nil_append, scan, if_pos rfl]; rfl
  | cons c b ih =>
    have hc : isSpace c = true := hb c mem_cons_self
    have hne : c ≠ byte '=' := by
      rintro rfl
      rw [isSpace_equal] at hc
      cases hc
    rw [cons_append, scan, if_neg hne, if_pos hc,
      ih (p + 1) fun d hd => hb d (mem_cons_of_mem _ hd), length_cons]
    congr 1
    omega

/-- Blanks and the equals sign behind a key. -/
theorem scan_key (p : ℕ) {b text : List UInt8} (hb : Blank b) :
    scan .key p (b ++ byte '=' :: text) = scan .preValue (p + b.length + 1) text := by
  cases b with
  | nil =>
    rw [nil_append, scan, isSpace_equal, if_neg (by decide), if_pos rfl]
    rfl
  | cons c b =>
    have hc : isSpace c = true := hb c mem_cons_self
    rw [cons_append, scan, if_pos hc,
      scan_preEqual (p + 1) fun d hd => hb d (mem_cons_of_mem _ hd), length_cons]
    congr 1
    omega

/-- The letters of a key. -/
theorem scan_key_token (p : ℕ) {w : List UInt8} (hw : ∀ c ∈ w, isSpace c = false ∧ c ≠ byte '=')
    (text : List UInt8) : scan .key p (w ++ text) = scan .key (p + w.length) text := by
  induction w generalizing p with
  | nil => rfl
  | cons c w ih =>
    obtain ⟨hspace, hequal⟩ := hw c mem_cons_self
    rw [cons_append, scan, hspace, if_neg (by decide), if_neg hequal,
      ih (p + 1) fun d hd => hw d (mem_cons_of_mem _ hd), length_cons, Nat.add_assoc,
      Nat.add_comm 1]

/-- The name is passed as a key. -/
theorem scan_name (p : ℕ) (name : CookieName) (text : List UInt8) :
    scan .preKey p (name.bytes ++ text) = scan .key (p + name.bytes.length) text := by
  obtain ⟨bytes, hne, htoken⟩ := name
  cases bytes with
  | nil => exact absurd rfl hne
  | cons c w =>
    obtain ⟨hspace, -, hsemi, -⟩ := htoken c mem_cons_self
    rw [cons_append, scan, if_neg hsemi, hspace, if_neg (by decide),
      scan_key_token (p + 1) fun d hd => ⟨(htoken d (mem_cons_of_mem _ hd)).1,
        (htoken d (mem_cons_of_mem _ hd)).2.1⟩, length_cons, Nat.add_assoc,
      Nat.add_comm 1]

/-- What comes before a value that is found. -/
theorem preValue_of_scan {p : ℕ} {r : ℕ × ℕ × ℕ} (h : scan .preValue p text = some r) :
    ∃ b value, Blank b ∧ text = b ++ value ∧ value ≠ [] ∧ ∀ c ∈ value.head?, isSpace c = false := by
  induction text generalizing p with
  | nil => cases h
  | cons c text ih =>
    rw [scan] at h
    by_cases hc : isSpace c = true
    · rw [if_pos hc] at h
      obtain ⟨b, value, hb, rfl, hne, hvalue⟩ := ih h
      exact ⟨c :: b, value, hb.cons hc, rfl, hne, hvalue⟩
    · refine ⟨[], c :: text, blank_nil, rfl, cons_ne_nil _ _, ?_⟩
      rintro d hd
      cases hd
      exact Bool.not_eq_true _ ▸ hc

/-- Where the scan succeeds, a value is assigned. -/
theorem preEqual_of_scan {p : ℕ} {r : ℕ × ℕ × ℕ} (h : scan .preEqual p text = some r) :
    ∃ value, value ≠ [] ∧ Assigns text value := by
  induction text generalizing p with
  | nil => cases h
  | cons c text ih =>
    rw [scan] at h
    split_ifs at h with hequal hc
    · obtain ⟨b, value, hb, rfl, hne, hvalue⟩ := preValue_of_scan h
      exact ⟨value, hne, [], b, blank_nil, hb, by rw [hequal]; rfl, hvalue⟩
    · obtain ⟨value, hne, b₁, b₂, h₁, h₂, rfl, hvalue⟩ := ih h
      exact ⟨value, hne, c :: b₁, b₂, h₁.cons hc, h₂, rfl, hvalue⟩

/-- **The scanner after a name that is followed by a space or an equals sign** succeeds exactly on an
assignment with a value. -/
theorem scan_key_isSome (p : ℕ)
    (hhead : text.head? = some (byte ' ') ∨ text.head? = some (byte '=')) :
    (∃ r, scan .key p text = some r) ↔ ∃ value, value ≠ [] ∧ Assigns text value := by
  constructor
  · rintro ⟨r, h⟩
    cases text with
    | nil => cases h
    | cons c text =>
      rw [scan] at h
      rcases hhead with hc | hc
      · obtain rfl : c = byte ' ' := Option.some.inj hc
        rw [if_pos (by decide)] at h
        obtain ⟨value, hne, b₁, b₂, h₁, h₂, rfl, hvalue⟩ := preEqual_of_scan h
        exact ⟨value, hne, byte ' ' :: b₁, b₂, h₁.cons (by decide), h₂, rfl, hvalue⟩
      · obtain rfl : c = byte '=' := Option.some.inj hc
        rw [if_neg (by decide), if_pos rfl] at h
        obtain ⟨b, value, hb, rfl, hne, hvalue⟩ := preValue_of_scan h
        exact ⟨value, hne, [], b, blank_nil, hb, rfl, hvalue⟩
  · rintro ⟨value, hne, b₁, b₂, h₁, h₂, rfl, hvalue⟩
    obtain ⟨r, hr⟩ := scanValue_isSome (p + b₁.length + 1 + b₂.length) hne
    rw [scan_key p h₁, scan_preValue _ h₂ hne hvalue, hr]
    exact ⟨_, rfl⟩

end Hengine.StickyCookie
