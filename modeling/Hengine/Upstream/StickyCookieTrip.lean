import Hengine.Upstream.SessionSticky
import Hengine.Upstream.StickyCookieName

/-!
# The Session-Sticky Cookie There and Back

What the balancer writes into a response and reads back from the next request. In insert mode the
cookie is `name=sid`, or `name=sid|last|first` when there are limits on its age; in prefix mode the
session id and a `~` are put before the value of a cookie of the backend and taken out again before
the backend sees it. A client keeps what stands before the first semicolon of `Set-Cookie` and sends
it among other cookies; no zero byte comes in a header line.

The format reserves some bytes. A session id of the digits of a hash has none of them, but with
`hash=plain` it is what the configuration names the server.
-/

namespace Hengine.StickyCookie

open List Option

/-! ### Times -/

/-- The digit of a number. -/
def digit (d : ℕ) : UInt8 := d.toUInt8 + byte '0'

theorem digit_toNat {d : ℕ} (h : d < 10) :
    isDigit (digit d) = true ∧ (digit d - byte '0').toNat = d := by
  have hall : ∀ d < 10, isDigit (digit d) = true ∧ (digit d - byte '0').toNat = d := by decide
  exact hall d h

/-- One more digit. -/
def atotmStep (value : ℕ) (c : UInt8) : Option ℕ :=
  if !isDigit c then none
  else if value * 10 + (c - byte '0').toNat > 2 ^ 63 - 1 then none
  else some (value * 10 + (c - byte '0').toNat)

/-- A digit that fits is added to the time. -/
theorem atotmStep_digit {value d : ℕ} (hd : d < 10) (hle : value * 10 + d < 2 ^ 63) :
    atotmStep value (digit d) = some (value * 10 + d) := by
  obtain ⟨hdigit, hval⟩ := digit_toNat hd
  rw [atotmStep, hdigit, hval, if_neg (by decide), if_neg (by omega)]

/-- **Reading back printed digits**, by induction on the digits, last one first. -/
theorem foldlM_digits {ds : List ℕ} (hds : ∀ d ∈ ds, d < 10) (hlt : Nat.ofDigits 10 ds < 2 ^ 63) :
    (ds.reverse.map digit).foldlM atotmStep 0 = some (Nat.ofDigits 10 ds) := by
  induction ds with
  | nil => rfl
  | cons d ds ih =>
    have hd : d < 10 := hds d mem_cons_self
    rw [Nat.ofDigits_cons] at hlt ⊢
    have hrest := ih (fun e he => hds e (mem_cons_of_mem _ he)) (by simp at hlt ⊢; omega)
    rw [reverse_cons, map_append, foldlM_append, hrest]
    have hstep : atotmStep (Nat.ofDigits 10 ds) (digit d) = some (Nat.ofDigits 10 ds * 10 + d) :=
      atotmStep_digit hd (by simp at hlt ⊢; omega)
    simp only [List.map_cons, List.map_nil, List.foldlM_cons, List.foldlM_nil, Option.bind_eq_bind,
      Option.bind_some, hstep, Option.pure_def]
    congr 1
    omega

/-- **A time comes back** from its digits, if it has any. -/
theorem atotm_tmtoa {t : ℕ} (hpos : 0 < t) (hlt : t < 2 ^ 63) : atotm (tmtoa t) = some t := by
  have hne : tmtoa t ≠ [] := by
    simp [tmtoa, Nat.digits_eq_nil_iff_eq_zero]
    omega
  have hdigits : ∀ d ∈ Nat.digits 10 t, d < 10 := fun d hd => Nat.digits_lt_base (by omega) hd
  have hread := foldlM_digits hdigits (by rw [Nat.ofDigits_digits]; exact hlt)
  rw [Nat.ofDigits_digits] at hread
  rw [atotm, if_neg hne]
  exact hread

/-- A printed time has digits only. -/
theorem notMem_tmtoa {t : ℕ} {c : UInt8} (hc : isDigit c = false) : c ∉ tmtoa t := by
  intro hmem
  obtain ⟨d, hd, rfl⟩ := mem_map.mp hmem
  have hlt : d < 10 := Nat.digits_lt_base (by omega) (mem_reverse.mp hd)
  have hdigit : isDigit (digit d) = true := (digit_toNat hlt).1
  rw [digit] at hdigit
  rw [hdigit] at hc
  cases hc

/-! ### What the client sends -/

/-- The client sends a cookie in one of its lines: other cookies stand before and after it, its name
occurs nowhere before it, and once in its line. -/
structure Sent (name : CookieName) (pair : List UInt8) (l₁ : List (List UInt8))
    (before after : List UInt8) : Prop where
  starts : Starts before
  ends : after = [] ∨ after.head? = some (byte ';')
  alone : ∀ l ∈ l₁, ¬ name.bytes <:+: l
  once : ∀ x y, before ++ pair ++ after = x ++ (name.bytes ++ y) → x = before
  zero : ∀ c ∈ before ++ pair ++ after, c ≠ 0

variable {name : CookieName} {l₁ l₂ : List (List UInt8)} {before after value : List UInt8}

theorem hitAt_eq_none {l : List UInt8} (h : ¬ name.bytes <:+: l) : hitAt name.bytes l = none := by
  refine hitAt_eq_none_iff.mpr fun p hp => h ?_
  exact hp.occurs.isInfix.trans (drop_suffix p l).isInfix

/-- The search stops at the line and at the name the client has sent. -/
theorem Sent.hitAt (h : Sent name (name.bytes ++ byte '=' :: value) l₁ before after) :
    hitAt name.bytes (before ++ (name.bytes ++ byte '=' :: value) ++ after) = some before.length := by
  have hdrop : (before ++ (name.bytes ++ byte '=' :: value) ++ after).drop before.length =
      name.bytes ++ (byte '=' :: value ++ after) := by simp
  have hfind : strnstr name.bytes (before ++ (name.bytes ++ byte '=' :: value) ++ after) =
      some before.length := by
    refine strnstr_eq_some name.ne (fun c hc => h.zero c (take_subset _ _ hc)) ?_ fun q hq => ?_
    · rw [hdrop]
      exact prefix_append _ _
    · rintro ⟨y, hy⟩
      have hlen : q ≤ (before ++ (name.bytes ++ byte '=' :: value) ++ after).length := by
        simp only [length_append]
        omega
      have hsame := h.once ((before ++ (name.bytes ++ byte '=' :: value) ++ after).take q) y
        (by rw [hy, take_append_drop])
      have hq' := congrArg List.length hsame
      rw [length_take] at hq'
      omega
  rw [StickyCookie.hitAt, hfind]
  refine filter_eq_some_iff.mpr ⟨rfl, ?_⟩
  have hnext : (before ++ (name.bytes ++ byte '=' :: value) ++ after)[before.length +
      name.bytes.length]? = some (byte '=') := by
    rw [← head?_drop, ← drop_drop, hdrop, drop_left]
    rfl
  rw [getD_eq_getElem?_getD, hnext]
  decide

/-- The search in all lines is the scan of that line. -/
theorem Sent.locate (l₂ : List (List UInt8))
    (h : Sent name (name.bytes ++ byte '=' :: value) l₁ before after)
    (hsemi : ∀ c ∈ value, c ≠ byte ';') (hne : value ≠ [])
    (hhead : ∀ c ∈ value.head?, isSpace c = false) :
    locate name.bytes (l₁ ++ (before ++ (name.bytes ++ byte '=' :: value) ++ after) :: l₂) =
      some (l₁.length, ⟨before.length, before.length + name.bytes.length + 1,
        before.length + name.bytes.length + 1 + value.length,
        before.length + name.bytes.length + 1 + value.length + if after = [] then 0 else 1⟩) := by
  have hfind : (l₁ ++ (before ++ (name.bytes ++ byte '=' :: value) ++ after) :: l₂).findIdx?
      (fun line => (StickyCookie.hitAt name.bytes line).isSome) = some l₁.length := by
    have hnone : l₁.findIdx? (fun line => (StickyCookie.hitAt name.bytes line).isSome) = none := by
      refine findIdx?_eq_none_iff.mpr fun l hl => ?_
      rw [hitAt_eq_none (h.alone l hl)]
      rfl
    rw [findIdx?_append, hnone, findIdx?_cons, h.hitAt]
    simp
  have hget : (l₁ ++ (before ++ (name.bytes ++ byte '=' :: value) ++ after) :: l₂).getD l₁.length [] =
      before ++ (name.bytes ++ byte '=' :: value) ++ after := by
    rw [getD_eq_getElem?_getD, getElem?_append_right (Nat.le_refl _), Nat.sub_self]
    rfl
  have hdrop : (before ++ (name.bytes ++ byte '=' :: value) ++ after).drop before.length =
      name.bytes ++ ([] ++ byte '=' :: ([] ++ (value ++ after))) := by simp
  have hne' : value ++ after ≠ [] := fun hnil => hne (append_eq_nil_iff.mp hnil).1
  have hhead' : ∀ c ∈ (value ++ after).head?, isSpace c = false := by
    rw [head?_append_of_ne_nil _ hne]
    exact hhead
  have hscan : scanAt (before ++ (name.bytes ++ byte '=' :: value) ++ after) before.length =
      some ⟨before.length, before.length + name.bytes.length + 1,
        before.length + name.bytes.length + 1 + value.length,
        before.length + name.bytes.length + 1 + value.length + if after = [] then 0 else 1⟩ := by
    rw [scanAt, hdrop, scan_name, scan_key _ blank_nil, nil_append]
    have hpre := scan_preValue (before.length + name.bytes.length + ([] : List UInt8).length + 1)
      blank_nil hne' hhead'
    rw [nil_append, scanValue_eq _ hsemi hne' h.ends] at hpre
    rw [hpre]
    rfl
  rw [StickyCookie.locate, hfind, bind_some, hget, h.hitAt, bind_some, hscan]
  rfl

/-- The value in its line. -/
theorem sliceOf_value (before value after : List UInt8) (name : CookieName) :
    sliceOf (before ++ (name.bytes ++ byte '=' :: value) ++ after)
      (before.length + name.bytes.length + 1)
      (before.length + name.bytes.length + 1 + value.length) = value := by
  have hline : before ++ (name.bytes ++ byte '=' :: value) ++ after =
      (before ++ name.bytes ++ [byte '=']) ++ (value ++ after) := by simp
  have hlen : (before ++ name.bytes ++ [byte '=']).length = before.length + name.bytes.length + 1 := by
    rw [length_append, length_append]
    rfl
  rw [sliceOf, hline, ← hlen, take_length_add_append, take_left, drop_left]

/-! ### What the balancer writes -/

/-- What a client keeps of a `Set-Cookie` header: the text before the first semicolon. -/
def clientPair (text : List UInt8) : List UInt8 :=
  text.takeWhile (· ≠ byte ';')

/-- A client sends back what stands before the first semicolon. -/
theorem clientPair_append {pair rest : List UInt8} (hpair : ∀ c ∈ pair, c ≠ byte ';')
    (hrest : rest = [] ∨ rest.head? = some (byte ';')) : clientPair (pair ++ rest) = pair := by
  rw [clientPair, takeWhile_append_of_pos fun c hc => by simpa using hpair c hc]
  cases rest with
  | nil => rw [takeWhile_nil, append_nil]
  | cons c rest =>
    have hc : c = byte ';' := by simpa using hrest
    rw [takeWhile_cons, hc]
    simp

/-- A session id that the format can carry: not empty, not starting with a blank, without a semicolon
and without the byte that ends it. -/
structure SidOk (stop : UInt8) (sid : List UInt8) : Prop where
  ne : sid ≠ []
  head : ∀ c ∈ sid.head?, isSpace c = false
  semi : ∀ c ∈ sid, c ≠ byte ';'
  free : stop ∉ sid

set_option maxRecDepth 10000 in
/-- The byte that ends a session id in insert mode. -/
def Conf.stop (conf : Conf) : UInt8 :=
  if conf.limits.isSome then byte '|' else byte ';'

/-- The value in insert mode. -/
def insertValue (conf : Conf) (sid : List UInt8) (last first : ℕ) : List UInt8 :=
  sid ++ if conf.limits.isSome then byte '|' :: tmtoa last ++ byte '|' :: tmtoa first else []

variable {conf : Conf} {sid : List UInt8}

/-- No semicolon in the value. -/
theorem insertValue_semi {stop : UInt8} (hsid : SidOk stop sid) (last first : ℕ) :
    ∀ c ∈ insertValue conf sid last first, c ≠ byte ';' := by
  intro c hc
  have htime : ∀ t, byte ';' ∉ tmtoa t := fun t => notMem_tmtoa (by decide)
  rcases mem_append.mp hc with hc | hc
  · exact hsid.semi c hc
  · split_ifs at hc
    · rintro rfl
      rcases mem_append.mp hc with hc | hc
      · rcases mem_cons.mp hc with hc | hc
        · exact absurd hc (by decide)
        · exact htime last hc
      · rcases mem_cons.mp hc with hc | hc
        · exact absurd hc (by decide)
        · exact htime first hc
    · cases hc

/-- **What the client keeps in insert mode**: the name and the value. -/
theorem clientPair_insertCookie {stop : UInt8} {ctx : Ctx} {last first : ℕ}
    (hsid : SidOk stop ctx.sid) (hlast : ctx.sLastseen = tmtoa last)
    (hfirst : ctx.sFirstseen = tmtoa first) (expires : List UInt8) :
    clientPair (insertCookie conf ctx expires) =
      conf.cookie.bytes ++ byte '=' :: insertValue conf ctx.sid last first := by
  have hwhole : insertCookie conf ctx expires =
      (conf.cookie.bytes ++ byte '=' :: insertValue conf ctx.sid last first) ++
        ((if conf.domain ≠ [] then str "; Domain=" ++ conf.domain else []) ++
        ((if conf.path ≠ [] then str "; Path=" ++ conf.path else []) ++
        if conf.limits.isNone ∧ conf.maxage ≠ [] then
          str "; Max-Age=" ++ conf.maxage ++ str "; Expires=" ++ expires else [])) := by
    rw [insertCookie, hlast, hfirst, insertValue]
    simp
  rw [hwhole]
  refine clientPair_append (fun c hc => ?_) ?_
  · rcases mem_append.mp hc with hc | hc
    · exact (conf.cookie.token c hc).2.2.1
    · rcases mem_cons.mp hc with rfl | hc
      · decide
      · exact insertValue_semi hsid last first c hc
  · split_ifs
    all_goals first
      | exact Or.inl rfl
      | exact Or.inr rfl

/-! ### Reading it back -/

/-- A field ends at its separator. -/
theorem span_field {a b : List UInt8} {c : UInt8} (h : c ∉ a) :
    (a ++ c :: b).span (· ≠ c) = (a, c :: b) := by
  rw [span_eq_takeWhile_dropWhile]
  have hall : ∀ d ∈ a, (decide (d ≠ c)) = true := by
    intro d hd
    simp only [decide_eq_true_eq]
    rintro rfl
    exact h hd
  rw [takeWhile_append_of_pos hall, dropWhile_append_of_pos hall]
  simp

/-- **The times come back.** -/
theorem readTimes_value {last first now maxidle maxlife : ℕ} (hfree : byte '|' ∉ sid)
    (hlast : 0 < last ∧ last < 2 ^ 63) (hfirst : 0 < first ∧ first < 2 ^ 63)
    (hidle : inTime now last maxidle = true) (hlife : inTime now first maxlife = true) :
    readTimes maxidle maxlife now (sid ++ (byte '|' :: tmtoa last ++ byte '|' :: tmtoa first)) =
      (true, ⟨false, sid, last, first, tmtoa now, tmtoa first⟩) := by
  have hne : tmtoa first ≠ [] := by
    intro hnil
    have hread := atotm_tmtoa hfirst.1 hfirst.2
    rw [hnil] at hread
    cases hread
  have hspan := span_field (b := tmtoa last ++ byte '|' :: tmtoa first) hfree
  have hspan' : (tmtoa last ++ byte '|' :: tmtoa first).span (· ≠ byte '|') =
      (tmtoa last, byte '|' :: tmtoa first) :=
    span_field (notMem_tmtoa (by decide))
  rw [readTimes, cons_append, hspan]
  simp only [hspan', if_neg hne, atotm_tmtoa hlast.1 hlast.2, atotm_tmtoa hfirst.1 hfirst.2, hidle,
    hlife]
  simp [emptyCtx]

/-- The context of a request as the balancer gets it, with its one try. -/
def Ctx.session (ctx : Ctx) : SsCtx :=
  ⟨ctx.frist, ctx.sid, 1⟩

/-- The balancer selects a server for a request with this context, and takes no other. -/
def Selects (sscf : SsConf) (env : RrEnv) (ctx : Ctx) (server : SsServer) : Prop :=
  ∀ s : GetState SsCtx, s.priv = ctx.session → ∃ t,
    upstreamSessionStickyGetPeer sscf env s = (.ok, t) ∧
      t.rrp.current = some (.primary, server.peer) ∧ t.pc.sockaddr = some server.sockaddr

/-- **The server of the session** is selected, if no other one has its session id and it is not
reported down. -/
theorem selects_of_sid {sscf : SsConf} {env : RrEnv} {ctx : Ctx} {server : SsServer}
    (hmem : server ∈ sscf.server)
    (honly : ∀ other ∈ sscf.server, other.sid = server.sid → other = server)
    (hup : env.checkPeerDown server.checkIndex = false) (hfrist : ctx.frist = false)
    (hsid : ctx.sid = server.sid) (hne : server.sid ≠ []) : Selects sscf env ctx server := by
  intro s hs
  have hfind : (sscf.server.find? fun other => server.sid == other.sid) = some server := by
    cases hfound : sscf.server.find? fun other => server.sid == other.sid with
    | none =>
      have := find?_eq_none.mp hfound server hmem
      simp at this
    | some other =>
      have heq := find?_some hfound
      rw [honly other (mem_of_find?_eq_some hfound) (beq_iff_eq.mp heq).symm]
  have hserver : stickyServer sscf s.priv = some server := by
    rw [hs, stickyServer, Ctx.session]
    simp only [hfrist, hsid, hne, hfind, Bool.false_or, beq_iff_eq, if_false, Bool.and_eq_true,
      one_ne_zero, false_and]
  refine ⟨_, by rw [upstreamSessionStickyGetPeer, hserver]; simp only [hup]; rfl, rfl, rfl⟩

/-- A session cookie that can be read gives the context. -/
theorem getCookie_legal {now i : ℕ} {lines : List (List UInt8)} {r r' : Located} {ctx : Ctx}
    (hlocate : locate conf.cookie.bytes lines = some (i, r))
    (hpart : sessionPart conf (lines.getD i []) r = some r')
    (hread : readValue conf now (sliceOf (lines.getD i []) r'.v r'.p) = (true, ctx)) :
    (getCookie conf now lines).1 = ctx := by
  rw [getCookie, hlocate]
  simp only [hpart, hread, if_true]
  split_ifs
  · rfl
  · rfl
  · rfl

/-- The conditions on the times: they are positive, and at the time of the request they are neither
too old nor more than a day ahead. -/
def TimesOk (now last first : ℕ) (limits : ℕ × ℕ) : Prop :=
  (0 < last ∧ last < 2 ^ 63) ∧ (0 < first ∧ first < 2 ^ 63) ∧ inTime now last limits.1 = true ∧
    inTime now first limits.2 = true

theorem getD_line (l₁ l₂ : List (List UInt8)) (line : List UInt8) :
    (l₁ ++ line :: l₂).getD l₁.length [] = line := by
  rw [getD_eq_getElem?_getD, getElem?_append_right (Nat.le_refl _), Nat.sub_self]
  rfl

/-- **Insert mode, there and back.** -/
theorem getCookie_insert (l₂ : List (List UInt8)) {now last first : ℕ}
    (hinsert : conf.insertMode = true) (hmode : conf.prefixMode = false)
    (hsid : SidOk conf.stop sid) (htimes : ∀ limits ∈ conf.limits, TimesOk now last first limits)
    (hsent : Sent conf.cookie (conf.cookie.bytes ++ byte '=' :: insertValue conf sid last first) l₁ before after) :
    let ctx := (getCookie conf now (l₁ ++ (before ++ (conf.cookie.bytes ++
      byte '=' :: insertValue conf sid last first) ++ after) :: l₂)).1
    ctx.frist = false ∧ ctx.sid = sid ∧
      (conf.limits.isSome = true → ctx.lastseen = last ∧ ctx.firstseen = first) := by
  have hne : insertValue conf sid last first ≠ [] := fun hnil =>
    hsid.ne (append_eq_nil_iff.mp hnil).1
  have hhead : ∀ c ∈ (insertValue conf sid last first).head?, isSpace c = false := by
    rw [insertValue, head?_append_of_ne_nil _ hsid.ne]
    exact hsid.head
  have hlocate := hsent.locate l₂ (insertValue_semi hsid last first) hne hhead
  have hpart : ∀ (line : List UInt8) (r : Located), sessionPart conf line r = some r := by
    intro line r
    simp only [sessionPart, hmode, Bool.false_eq_true, if_false]
  have hslice := sliceOf_value before (insertValue conf sid last first) after conf.cookie
  cases hlimits : conf.limits with
  | none =>
    have hread : readValue conf now (insertValue conf sid last first) =
        (true, { emptyCtx with sid := sid }) := by
      simp [readValue, insertValue, hinsert, hlimits]
    have hctx := getCookie_legal hlocate (hpart _ _)
      (by rw [getD_line]; exact (congrArg (readValue conf now) hslice).trans hread)
    simp only [hctx, emptyCtx, true_and, isSome_none, Bool.false_eq_true, false_imp_iff]
  | some limits =>
    obtain ⟨maxidle, maxlife⟩ := limits
    obtain ⟨hlast, hfirst, hidle, hlife⟩ := htimes _ hlimits
    have hread : readValue conf now (insertValue conf sid last first) =
        (true, ⟨false, sid, last, first, tmtoa now, tmtoa first⟩) := by
      rw [readValue, hinsert, hlimits, insertValue, hlimits]
      have hfree := hsid.free
      rw [Conf.stop, hlimits] at hfree
      exact readTimes_value hfree hlast hfirst hidle hlife
    have hctx := getCookie_legal hlocate (hpart _ _)
      (by rw [getD_line]; exact (congrArg (readValue conf now) hslice).trans hread)
    simp only [hctx, and_self, implies_true]

/-- **What is written in prefix mode** into a cookie of the backend. -/
theorem prefixCookie_eq (name : CookieName) (sid : List UInt8) {val attrs : List UInt8}
    (hne : val ++ attrs ≠ []) (hval : ∀ c ∈ val.head?, isSpace c = false)
    (hattrs : attrs = [] ∨ attrs.head? = some (byte ';')) :
    prefixCookie name.bytes sid (name.bytes ++ byte '=' :: (val ++ attrs)) =
      some (name.bytes ++ byte '=' :: (sid ++ byte '~' :: (val ++ attrs))) := by
  have hfind : strlcasestr name.bytes (name.bytes ++ byte '=' :: (val ++ attrs)) = some 0 := by
    have htake : (name.bytes ++ byte '=' :: (val ++ attrs)).take name.bytes.length = name.bytes :=
      take_left
    cases hbytes : name.bytes ++ byte '=' :: (val ++ attrs) with
    | nil => simp at hbytes
    | cons c s =>
      have hlen := congrArg List.length hbytes
      simp only [length_append, length_cons] at hlen
      rw [hbytes] at htake
      rw [strlcasestr, if_neg (by omega), if_pos (by rw [htake])]
  have hdrop : (name.bytes ++ byte '=' :: (val ++ attrs)).drop (0 + name.bytes.length) =
      byte '=' :: (val ++ attrs) := by
    rw [Nat.zero_add, drop_left]
  have hoffset : valueOffset false (byte '=' :: (val ++ attrs)) = some 1 := by
    rw [valueOffset]
    cases val with
    | nil =>
      cases attrs with
      | nil => exact absurd rfl hne
      | cons c attrs =>
        have hc : c = byte ';' := by simpa using hattrs
        rw [hc]
        rfl
    | cons c val =>
      have hc : isSpace c = false := hval c rfl
      rw [cons_append, beq_self_eq_true, valueOffset]
      by_cases hsemi : c = byte ';'
      · rw [if_pos hsemi]
        rfl
      · rw [if_neg hsemi, hc]
        rfl
  have hsplit : name.bytes ++ byte '=' :: (val ++ attrs) =
      (name.bytes ++ [byte '=']) ++ (val ++ attrs) := by simp
  have hlen : (name.bytes ++ [byte '=']).length = 0 + name.bytes.length + 1 := by simp
  rw [prefixCookie, hfind, bind_some, hdrop, hoffset, map_some]
  simp only [← hlen]
  rw [hsplit, take_left, drop_left]
  simp

/-- **Prefix mode, there and back.** -/
theorem getCookie_prefixed (l₂ : List (List UInt8)) {sid val : List UInt8} (now : ℕ)
    (hinsert : conf.insertMode = false) (hmode : conf.prefixMode = true)
    (hsid : SidOk (byte '~') sid) (hval : ∀ c ∈ val, c ≠ byte ';')
    (hsent : Sent conf.cookie (conf.cookie.bytes ++ byte '=' :: (sid ++
      byte '~' :: val)) l₁ before after) :
    let r := getCookie conf now (l₁ ++ (before ++ (conf.cookie.bytes ++
      byte '=' :: (sid ++ byte '~' :: val)) ++ after) :: l₂)
    r.1.frist = false ∧ r.1.sid = sid ∧
      r.2 = l₁ ++ (before ++ (conf.cookie.bytes ++ byte '=' :: val) ++ after) :: l₂ := by
  have hne : sid ++ byte '~' :: val ≠ [] := by simp
  have hhead : ∀ c ∈ (sid ++ byte '~' :: val).head?, isSpace c = false := by
    rw [head?_append_of_ne_nil _ hsid.ne]
    exact hsid.head
  have hsemi : ∀ c ∈ sid ++ byte '~' :: val, c ≠ byte ';' := by
    intro c hc
    rcases mem_append.mp hc with hc | hc
    · exact hsid.semi c hc
    · rcases mem_cons.mp hc with rfl | hc
      · decide
      · exact hval c hc
  have hlocate := hsent.locate l₂ hsemi hne hhead
  have hslice := sliceOf_value before (sid ++ byte '~' :: val) after conf.cookie
  have htake : (sid ++ byte '~' :: val).takeWhile (· ≠ byte '~') = sid := by
    have hspan := span_field (b := val) hsid.free
    rw [span_eq_takeWhile_dropWhile] at hspan
    exact (Prod.mk.inj hspan).1
  generalize hline : before ++ (conf.cookie.bytes ++ byte '=' :: (sid ++ byte '~' :: val)) ++ after =
    line at *
  have hfront : line = (before ++ conf.cookie.bytes ++ [byte '=']) ++ (sid ++ (byte '~' ::
      (val ++ after))) := by rw [← hline]; simp
  have hlen : (before ++ conf.cookie.bytes ++ [byte '=']).length =
      before.length + conf.cookie.bytes.length + 1 := by
    rw [length_append, length_append]
    rfl
  have hpart : sessionPart conf line ⟨before.length, before.length + conf.cookie.bytes.length + 1,
      before.length + conf.cookie.bytes.length + 1 + (sid ++ byte '~' :: val).length,
      before.length + conf.cookie.bytes.length + 1 + (sid ++ byte '~' :: val).length +
        if after = [] then 0 else 1⟩ =
      some ⟨before.length + conf.cookie.bytes.length + 1,
        before.length + conf.cookie.bytes.length + 1,
        before.length + conf.cookie.bytes.length + 1 + sid.length,
        before.length + conf.cookie.bytes.length + 1 + sid.length + 1⟩ := by
    simp only [sessionPart, hmode, if_true, hslice]
    rw [if_pos (by simp), htake]
  have hsid' : sliceOf line (before.length + conf.cookie.bytes.length + 1)
      (before.length + conf.cookie.bytes.length + 1 + sid.length) = sid := by
    rw [sliceOf, hfront, ← hlen, take_length_add_append, take_left, drop_left]
  have hread : readValue conf now sid = (true, { emptyCtx with sid := sid }) := by
    rw [readValue, hinsert]
  have hrest : line.take (before.length + conf.cookie.bytes.length + 1) ++
      line.drop (before.length + conf.cookie.bytes.length + 1 + sid.length + 1) =
      before ++ (conf.cookie.bytes ++ byte '=' :: val) ++ after := by
    rw [hfront, ← hlen, take_left, Nat.add_assoc, drop_length_add_append,
      drop_length_add_append]
    simp
  have hnil : before ++ (conf.cookie.bytes ++ byte '=' :: val) ++ after ≠ [] := by simp
  rw [getCookie, hlocate]
  simp only [getD_line, hpart, hsid', hread, hmode, Bool.true_or, if_true, hrest, if_neg hnil]
  refine ⟨by simp [emptyCtx], trivial, ?_⟩
  rw [set_append_right _ _ (Nat.le_refl _), Nat.sub_self]
  rfl

/-- A second server with the session id `sid`. -/
def second (sid : String) : SsServer :=
  ⟨str sid, "b:80", [2], 1, 1⟩

/-- Two servers with these session ids, and no fall-back. -/
def stickyTwo (sid₁ sid₂ : String) : SsConf :=
  ⟨true, [⟨str sid₁, "a:80", [1], 0, 0⟩, second sid₂]⟩

/-- Insert mode with limits of an hour and a day. -/
def timedConf : Conf :=
  ⟨false, true, false, route, some (3600, 86400), [], str "/", []⟩

/-- Prefix mode. -/
def prefixedConf : Conf :=
  ⟨true, false, false, route, none, [], str "/", []⟩

theorem tmtoa_five : tmtoa 5 = str "5" := by
  simp [tmtoa]
  decide

set_option maxRecDepth 10000 in
/-- What the client sends among two other cookies. -/
theorem sent_five : Sent route (str "route=s2|5|5") [] (str "a=1; ") (str "; b=2") where
  starts := ⟨str "a=1;", str " ", by decide, by unfold Blank; decide,
    Or.inr (by decide)⟩
  ends := Or.inr (by decide)
  alone l hl := by cases hl
  once x y h := by
    have hline : str "a=1; " ++ str "route=s2|5|5" ++ str "; b=2" = str "a=1; route=s2|5|5; b=2" := by
      decide
    rw [hline] at h
    have hdrop : ((str "a=1; route=s2|5|5; b=2").drop x.length).take 5 = str "route" := by
      rw [h, drop_left]
      change (route.bytes ++ y).take route.bytes.length = route.bytes
      exact take_left
    have hall : ∀ n < 23, ((str "a=1; route=s2|5|5; b=2").drop n).take 5 = str "route" → n = 5 := by
      rw [str_ofList, str_ofList]
      decide
    have hlen := congrArg List.length h
    simp only [length_append] at hlen
    have hwhole : (str "a=1; route=s2|5|5; b=2").length = 22 := by decide
    have hfive : x.length = 5 := hall x.length (by omega) hdrop
    have htake := congrArg (List.take x.length) h
    rw [take_left, hfive] at htake
    rw [← htake]
    decide
  zero := by decide

end Hengine.StickyCookie
