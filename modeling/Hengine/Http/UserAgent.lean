import Hengine.Http.Bytes
import Mathlib.Data.List.Forall2
import Mathlib.Data.List.Pairwise
import Mathlib.Tactic.Ring

/-!
# Versions of User Agents

The model of `ngx_http_user_agent_module.c`. A block of the configuration gives intervals of
versions to keywords, each with a value. The variable of a request looks for a keyword in the user
agent, reads the version behind it, and takes the value of the first interval with the version.

A version is one number: its components stand 10000 apart, and the first one has room for five
digits. Both scanners compute in 64 bits. The search for the keyword is a parameter; what it
finds are the keyword and the position behind it.
-/

namespace Hengine.UserAgent

open List

/-! ### Scanners -/

/-- What the two scanners do with a version: they begin one, read a digit, and add a component. -/
structure Reader (σ : Type) where
  start : σ
  digit : σ → UInt8 → σ
  dot : σ → σ

/-- The `uint64_t` variables of a scanner, and whether a step has wrapped, which the program does
not see. -/
structure Scan where
  version : ℕ
  scale : ℕ
  ver : ℕ
  wrapped : Bool
deriving Repr, DecidableEq

def wrap (n : ℕ) : ℕ := n % 2 ^ 64

/-- The scanners of the program: `ver = ver * 10 + ch - '0'`, and `version += ver * scale`. -/
def packed : Reader Scan where
  start := ⟨0, 1000000000000, 0, false⟩
  digit s ch :=
    let ver := s.ver * 10 + (ch.toNat - 48)
    { s with ver := wrap ver, wrapped := s.wrapped || 2 ^ 64 ≤ ver }
  dot s :=
    let version := s.version + s.ver * s.scale
    { version := wrap version, scale := s.scale / 10000, ver := 0,
      wrapped := s.wrapped || 2 ^ 64 ≤ version }

/-- `NGX_HTTP_UA_MATCH_EXACT` and the others. -/
inductive MatchOp
  | exact
  | le
  | ge
  | interval
deriving Repr, DecidableEq

/-- The errors of the configuration. -/
inductive ConfError
  | invalidVersion
  | tooManyVersions
  | invalidFirstParameter
  | duplicate
  | tooManyArgs
  | covered
deriving Repr, DecidableEq

/-- The state of `ngx_http_user_agent_get_version`. `read` has the versions that are complete, the
last one first: their number is `n`, and `interval->left` is the first. -/
structure RuleScan (σ : Type) where
  scan : σ
  op : MatchOp
  read : List σ
deriving Repr, DecidableEq

variable {σ τ : Type}

/-- The loop of `ngx_http_user_agent_get_version`, and the sum behind it. -/
def scanRule (R : Reader σ) (s : RuleScan σ) : List UInt8 → Except ConfError (RuleScan σ)
  | [] => .ok { s with read := R.dot s.scan :: s.read }
  | ch :: rest =>
    if isDigit ch then scanRule R { s with scan := R.digit s.scan ch } rest
    else if ch = byte '.' then scanRule R { s with scan := R.dot s.scan } rest
    else if ch = byte '-' then
      if rest = [] then scanRule R { s with op := .le } rest else .error .invalidVersion
    else if ch = byte '=' then
      if rest = [] then scanRule R s rest else .error .invalidVersion
    else if ch = byte '+' then
      if rest = [] then scanRule R { s with op := .ge } rest else .error .invalidVersion
    else if ch = byte '~' then
      if 2 ≤ s.read.length then .error .tooManyVersions
      else if rest.head?.any isDigit then
        scanRule R ⟨R.start, .interval, R.dot s.scan :: s.read⟩ rest
      else .error .invalidVersion
    else .error .invalidVersion

/-- The bounds of the rule, where it has them. -/
def RuleScan.left (s : RuleScan σ) : Option σ :=
  match s.op with
  | .exact | .ge => s.read.head?
  | .le | .interval => s.read.tail.head?

def RuleScan.right (s : RuleScan σ) : Option σ :=
  match s.op with
  | .ge => none
  | .exact | .le | .interval => s.read.head?

/-- The loop of `ngx_http_user_agent_variable` over the version. -/
def scanVersion (R : Reader σ) (s : σ) : List UInt8 → σ
  | [] => R.dot s
  | ch :: rest =>
    if ch = byte '.' then scanVersion R (R.dot s) rest
    else if isDigit ch then scanVersion R (R.digit s ch) rest
    else R.dot s

/-! ### The configuration -/

/-- `NGX_HTTP_UA_MAX_VERSION_VALUE`. -/
def maxVersionValue : ℕ := 99999999999999999

/-- `ngx_http_user_agent_interval_t`, and whether its versions have wrapped. -/
structure Interval where
  left : ℕ
  right : ℕ
  var : List UInt8
  wrapped : Bool
deriving Repr, DecidableEq

/-- `ngx_http_user_agent_get_version`, with the value that its caller stores. -/
def getVersion (value var : List UInt8) : Except ConfError Interval := do
  let s ← scanRule packed ⟨packed.start, .exact, []⟩ value
  return ⟨(s.left.map Scan.version).getD 0, (s.right.map Scan.version).getD maxVersionValue, var,
    s.read.any Scan.wrapped⟩

/-- `ngx_http_user_agent_ctx_t`: the arrays at the nodes of the trie, the greedy keywords, and the
default. -/
structure Ctx where
  nodes : List UInt8 → Option (List Interval)
  greedy : List (List UInt8)
  default : Option (List UInt8)

/-- Two intervals have a bound of one in the other. -/
def covers (p interval : Interval) : Bool :=
  (interval.left ≤ p.left ∧ p.left ≤ interval.right) ∨
    (interval.left ≤ p.right ∧ p.right ≤ interval.right) ∨
    (p.left ≤ interval.left ∧ interval.left ≤ p.right) ∨
    (p.left ≤ interval.right ∧ interval.right ≤ p.right)

/-- The part of `ngx_http_user_agent` at its label `insert`. -/
def Ctx.insert (ctx : Ctx) (name : List UInt8) (interval : Interval) : Except ConfError Ctx :=
  let value := (ctx.nodes name).getD []
  if value.any (covers · interval) then .error .covered
  else .ok { ctx with nodes := Function.update ctx.nodes name (some (value ++ [interval])) }

/-- `default` and `greedy`, as the first word of a line. -/
def defaultWord : List UInt8 := [100, 101, 102, 97, 117, 108, 116]
def greedyWord : List UInt8 := [103, 114, 101, 101, 100, 121]

/-- `ngx_http_user_agent`, for the words of a line. A line `include` stands for the lines of its
file. -/
def userAgent (ctx : Ctx) : List (List UInt8) → Except ConfError Ctx
  | [] | [_] => .error .invalidFirstParameter
  | [name, value] =>
    if name = defaultWord then
      if ctx.default.isSome then .error .duplicate else .ok { ctx with default := some value }
    else if name = greedyWord then .ok { ctx with greedy := value :: ctx.greedy }
    else ctx.insert name ⟨0, maxVersionValue, value, false⟩
  | [name, version, value] => do
    let interval ← getVersion version value
    ctx.insert name interval
  | _ => .error .tooManyArgs

/-- The lines of a block. -/
def parse (lines : List (List (List UInt8))) : Except ConfError Ctx :=
  lines.foldlM userAgent ⟨fun _ => none, [], none⟩

/-! ### The variable -/

/-- The loop up to the version, which passes `NGX_HTTP_UA_MAX_OFFSET` bytes at most. -/
def toVersion (offset : ℕ) : List UInt8 → List UInt8
  | [] => []
  | ch :: rest =>
    if isDigit ch ∨ ch = byte ';' ∨ ch = byte '(' ∨ ch = byte ')' ∨ 8 ≤ offset then ch :: rest
    else toVersion (offset + 1) rest

/-- The version of a user agent, from the position behind the keyword on. -/
def versionAt (userAgent : List UInt8) (pos : ℕ) : Scan :=
  scanVersion packed packed.start (toVersion 0 (userAgent.drop pos))

/-- `ngx_http_user_agent_variable`: its value, if there is a default. -/
def variableValue (ctx : Ctx) (query : List UInt8 → Option (List UInt8 × ℤ))
    (userAgent : Option (List UInt8)) : Option (List UInt8) :=
  match userAgent with
  | none => ctx.default
  | some ua =>
    match query ua with
    | none => ctx.default
    | some (name, pos) =>
      match ctx.nodes name with
      | none => ctx.default
      | some value =>
        if pos < 0 then ctx.default
        else
          let version := (versionAt ua pos.toNat).version
          match value.find? fun i => i.left ≤ version ∧ version ≤ i.right with
          | some i => some i.var
          | none => ctx.default

/-! ### Versions by their components -/

/-- The components of a version. -/
abbrev Version := List ℕ

/-- A scanner without bounds: the components that are complete, and the one that is read. -/
def written : Reader (Version × ℕ) where
  start := ([], 0)
  digit v ch := (v.1, v.2 * 10 + (ch.toNat - 48))
  dot v := (v.1 ++ [v.2], 0)

/-- The order of versions, component by component; missing components are zero. -/
def versionLe : Version → Version → Bool
  | [], _ => true
  | a :: v, [] => a = 0 && versionLe v []
  | a :: v, b :: w => a < b || a = b && versionLe v w

/-- At most `k` components, the first one below `b` and the others below 10000. -/
def Within (b : ℕ) : ℕ → Version → Prop
  | _, [] => True
  | 0, _ :: _ => False
  | k + 1, a :: v => a < b ∧ Within 10000 k v

/-- **A version has its place in the number.** -/
def Fits (v : Version) : Prop := Within 100000 4 v

/-- What a rule of the configuration says, with all the versions that it mentions. -/
structure Rule where
  left : Option Version
  right : Option Version
  all : List Version
  value : List UInt8

/-- The rule of a line for a keyword. -/
def ruleOf (name : List UInt8) : List (List UInt8) → Option Rule
  | [first, value] =>
    if first = defaultWord ∨ first = greedyWord ∨ first ≠ name then none
    else some ⟨none, none, [], value⟩
  | [first, version, value] =>
    if first ≠ name then none
    else match scanRule written ⟨written.start, .exact, []⟩ version with
      | .ok s => some ⟨s.left.map Prod.fst, s.right.map Prod.fst, s.read.map Prod.fst, value⟩
      | .error _ => none
  | _ => none

def Rule.contains (r : Rule) (v : Version) : Bool :=
  r.left.all (versionLe · v) && r.right.all (versionLe v ·)

/-- Behind a keyword, after at most eight bytes that end nothing, a version begins. -/
structure Follows (ua : List UInt8) (pos : ℤ) (rest : List UInt8) : Prop where
  nonneg : 0 ≤ pos
  skipped : ∃ between, ua.drop pos.toNat = between ++ rest ∧ between.length ≤ 8 ∧
    ∀ ch ∈ between, ¬(isDigit ch ∨ ch = byte ';' ∨ ch = byte '(' ∨ ch = byte ')')
  first : rest.head?.any isDigit

/-- The version at the beginning of a text. -/
def versionOf (rest : List UInt8) : Version := (scanVersion written written.start rest).1

/-- **The variable is right**: it has the value of every rule with the version, or else the default,
and no version has wrapped. -/
structure Matched (ctx : Ctx) (query : List UInt8 → Option (List UInt8 × ℤ)) (ua : List UInt8)
    (name : List UInt8) (pos : ℤ) (rules : List Rule) (v : Version) : Prop where
  value : ∀ r ∈ rules, r.contains v → variableValue ctx query (some ua) = some r.value
  default : (∀ r ∈ rules, r.contains v = false) →
    variableValue ctx query (some ua) = ctx.default
  exact : (versionAt ua pos.toNat).wrapped = false ∧
    ∀ i ∈ (ctx.nodes name).getD [], i.wrapped = false

/-! ### The two scanners side by side -/

/-- One reader follows another. -/
structure Reader.Simulates (R : Reader σ) (S : Reader τ) (rel : σ → τ → Prop) : Prop where
  start : rel R.start S.start
  digit : ∀ {s t ch}, rel s t → rel (R.digit s ch) (S.digit t ch)
  dot : ∀ {s t}, rel s t → rel (R.dot s) (S.dot t)

/-- Two versions that are complete. -/
def Reader.Closed (R : Reader σ) (S : Reader τ) (rel : σ → τ → Prop) (x : σ) (y : τ) : Prop :=
  ∃ s t, rel s t ∧ x = R.dot s ∧ y = S.dot t

variable {R : Reader σ} {S : Reader τ} {rel : σ → τ → Prop}

variable (R S rel) in
/-- Two states of the scanner of rules. -/
structure RuleScan.Rel (a : RuleScan σ) (b : RuleScan τ) : Prop where
  scan : rel a.scan b.scan
  op : a.op = b.op
  read : Forall₂ (R.Closed S rel) a.read b.read

/-- Two programs that branch alike. -/
theorem ite_ok {ε α β : Type} {c : Prop} [Decidable c] {x y : Except ε α} {x' y' : Except ε β}
    {a : α} {P : β → Prop} (h : (if c then x else y) = .ok a)
    (ht : x = .ok a → ∃ b, x' = .ok b ∧ P b) (he : y = .ok a → ∃ b, y' = .ok b ∧ P b) :
    ∃ b, (if c then x' else y') = .ok b ∧ P b := by
  by_cases hc : c
  · rw [if_pos hc] at h ⊢
    exact ht h
  · rw [if_neg hc] at h ⊢
    exact he h

/-- By induction on the text: the branches depend on the text alone and on the number of `~`. -/
theorem scanRule_simulates (H : R.Simulates S rel) (text : List UInt8) :
    ∀ {a a' : RuleScan σ} {b : RuleScan τ}, scanRule R a text = .ok a' → a.Rel R S rel b →
      ∃ b', scanRule S b text = .ok b' ∧ a'.Rel R S rel b' := by
  induction text with
  | nil =>
    rintro a a' b hrun h
    cases hrun
    exact ⟨_, rfl, h.scan, h.op, .cons ⟨_, _, h.scan, rfl, rfl⟩ h.read⟩
  | cons ch rest ih =>
    intro a a' b hrun h
    rw [scanRule, h.read.length_eq] at hrun
    rw [scanRule]
    refine ite_ok hrun (fun hrun => ih hrun ⟨H.digit h.scan, h.op, h.read⟩) fun hrun => ?_
    refine ite_ok hrun (fun hrun => ih hrun ⟨H.dot h.scan, h.op, h.read⟩) fun hrun => ?_
    refine ite_ok hrun (fun hrun => ite_ok hrun (fun hrun => ?_) nofun) fun hrun => ?_
    · exact ih hrun ⟨h.scan, rfl, h.read⟩
    refine ite_ok hrun (fun hrun => ite_ok hrun (fun hrun => ih hrun h) nofun) fun hrun => ?_
    refine ite_ok hrun (fun hrun => ite_ok hrun (fun hrun => ?_) nofun) fun hrun => ?_
    · exact ih hrun ⟨h.scan, rfl, h.read⟩
    refine ite_ok hrun (fun hrun => ite_ok hrun nofun fun hrun => ?_) nofun
    refine ite_ok hrun (fun hrun => ?_) nofun
    exact ih hrun ⟨H.start, rfl, .cons ⟨_, _, h.scan, rfl, rfl⟩ h.read⟩

/-- **Two arithmetics in step** are so over a whole text. -/
theorem scanVersion_simulates (H : R.Simulates S rel) (text : List UInt8) :
    ∀ {s : σ} {t : τ}, rel s t → R.Closed S rel (scanVersion R s text) (scanVersion S t text) := by
  induction text with
  | nil => exact fun h => ⟨_, _, h, rfl, rfl⟩
  | cons ch rest ih =>
    intro s t h
    rw [scanVersion, scanVersion]
    split_ifs
    · exact ih (H.dot h)
    · exact ih (H.digit h)
    · exact ⟨_, _, h, rfl, rfl⟩

/-! ### The number of a version -/

/-- What a component counts that has `k - 1` components behind it. -/
def place : ℕ → ℕ
  | 0 => 0
  | k + 1 => 10000 ^ k

def packAt : ℕ → Version → ℕ
  | _, [] => 0
  | k, a :: v => a * place k + packAt (k - 1) v

/-- One more component adds its own place. -/
theorem packAt_snoc (v : Version) (a : ℕ) : ∀ k,
    packAt k (v ++ [a]) = packAt k v + a * place (k - v.length) := by
  induction v with
  | nil => simp [packAt]
  | cons b v ih =>
    intro k
    rw [cons_append, packAt, packAt, ih, length_cons, Nat.sub_sub, Nat.add_comm 1, Nat.add_assoc]

theorem place_div (k : ℕ) : place k / 10000 = place (k - 1) := by
  match k with
  | 0 => rfl
  | 1 => rfl
  | k + 2 => exact Nat.pow_div (Nat.le_add_left 1 k) (by omega)

/-- Some step over the version leaves 64 bits. -/
def Big (v : Version) : Prop := 2 ^ 64 ≤ packAt 4 v ∨ ∃ a ∈ v, 2 ^ 64 ≤ a

/-- What the program has read, and what is written there. -/
structure Packs (s : Scan) (t : Version × ℕ) : Prop where
  scale : s.scale = place (4 - t.1.length)
  ver : s.ver = wrap t.2
  version : s.version = wrap (packAt 4 t.1)
  wrapped : s.wrapped = true → Big (t.1 ++ [t.2])

variable {v : Version}

/-- A larger last component is no better. -/
theorem Big.mono {n m : ℕ} (h : Big (v ++ [n])) (hle : n ≤ m) : Big (v ++ [m]) := by
  rcases h with h | ⟨a, ha, h⟩
  · left
    rw [packAt_snoc] at h ⊢
    exact h.trans (Nat.add_le_add_left (Nat.mul_le_mul_right _ hle) _)
  · right
    rcases mem_append.mp ha with ha | ha
    · exact ⟨a, mem_append_left _ ha, h⟩
    · cases mem_singleton.mp ha
      exact ⟨m, by simp, h.trans hle⟩

theorem big_snoc_zero : Big (v ++ [0]) ↔ Big v := by
  simp [Big, packAt_snoc, or_and_right, exists_or]

/-- **Both scanners of the program read what is written**, up to 64 bits. -/
theorem packs_packed : packed.Simulates written Packs where
  start := ⟨rfl, rfl, rfl, nofun⟩
  digit := by
    rintro s ⟨v, n⟩ ch ⟨hscale, hver, hversion, hwrapped⟩
    have hle : s.ver ≤ n := hver ▸ Nat.mod_le n _
    refine ⟨hscale, ?_, hversion, fun h => ?_⟩
    · simp [packed, written, wrap, hver, Nat.add_mod, Nat.mul_mod]
    · rcases (Bool.or_eq_true _ _).mp h with h | h
      · exact (hwrapped h).mono (show n ≤ n * 10 + _ by omega)
      · have hbig : 2 ^ 64 ≤ s.ver * 10 + (ch.toNat - 48) := of_decide_eq_true h
        exact .inr ⟨n * 10 + (ch.toNat - 48), by simp [written], by omega⟩
  dot := by
    rintro s ⟨v, n⟩ ⟨hscale, hver, hversion, hwrapped⟩
    refine ⟨?_, rfl, ?_, fun h => big_snoc_zero.mpr ?_⟩
    · simp only [packed, written, hscale, place_div, length_append, length_singleton, Nat.sub_sub]
    · simp [packed, written, wrap, packAt_snoc, hscale, hver, hversion, Nat.add_mod, Nat.mul_mod]
    · rcases (Bool.or_eq_true _ _).mp h with h | h
      · exact hwrapped h
      · have hbig : 2 ^ 64 ≤ s.version + s.ver * s.scale := of_decide_eq_true h
        left
        rw [written, packAt_snoc, ← hscale]
        exact hbig.trans (Nat.add_le_add (hversion ▸ Nat.mod_le _ _)
          (Nat.mul_le_mul_right _ (hver ▸ Nat.mod_le _ _)))

/-- The number that the program has for a version. -/
def number (v : Version) : ℕ := wrap (packAt 4 v)

/-- What the scan has read is the number of the version, or a part is too big. -/
theorem closed_reads {s : Scan} {t : Version × ℕ} (h : packed.Closed written Packs s t) :
    s.version = number t.1 ∧ (s.wrapped = true → Big t.1) := by
  obtain ⟨s, t, h, rfl, rfl⟩ := h
  have hdot := packs_packed.dot h
  exact ⟨hdot.version, fun hw => big_snoc_zero.mp (hdot.wrapped hw)⟩

/-! ### The order -/

theorem within_nil (b k : ℕ) : Within b k [] := by
  cases k <;> trivial

/-- Components that fit do not run over. -/
theorem packAt_lt {k : ℕ} (h : Within 10000 k v) : packAt k v < 10000 ^ k := by
  induction v generalizing k with
  | nil => exact Nat.pow_pos (by omega)
  | cons a v ih =>
    cases k with
    | zero => exact h.elim
    | succ k =>
      have hrest := ih h.2
      calc a * 10000 ^ k + packAt k v < (a + 1) * 10000 ^ k := by rw [Nat.succ_mul]; omega
        _ ≤ 10000 * 10000 ^ k := Nat.mul_le_mul_right _ h.1
        _ = 10000 ^ (k + 1) := by rw [pow_succ, Nat.mul_comm]

/-- **The numbers are in the order of the versions**, by induction on the components. -/
theorem packAt_le_iff {b c k : ℕ} {v w : Version} (hv : Within b k v) (hw : Within c k w) :
    packAt k v ≤ packAt k w ↔ versionLe v w = true := by
  induction v generalizing b c k w with
  | nil => simp [packAt, versionLe]
  | cons x v ih =>
    cases k with
    | zero => exact hv.elim
    | succ k =>
      have hlt := packAt_lt hv.2
      cases w with
      | nil =>
        have h₀ := ih hv.2 (within_nil 0 k)
        simp only [packAt, place, versionLe, Bool.and_eq_true, decide_eq_true_eq, ← h₀,
          Nat.add_sub_cancel, Nat.le_zero, Nat.add_eq_zero_iff, Nat.mul_eq_zero]
        exact and_congr_left fun _ => or_iff_left (by omega)
      | cons y w =>
        have hlt' := packAt_lt hw.2
        simp only [packAt, place, versionLe, Bool.or_eq_true, Bool.and_eq_true,
          decide_eq_true_eq, ← ih hv.2 hw.2, Nat.add_sub_cancel]
        rcases Nat.lt_trichotomy x y with h | rfl | h
        · have := Nat.mul_le_mul_right (10000 ^ k) h
          rw [Nat.succ_mul] at this
          omega
        · omega
        · have := Nat.mul_le_mul_right (10000 ^ k) h
          rw [Nat.succ_mul] at this
          omega

/-- A version that fits is packed below the limit. -/
theorem Fits.packAt_le (h : Fits v) : packAt 4 v ≤ maxVersionValue := by
  cases v with
  | nil => exact Nat.zero_le _
  | cons a v =>
    have hlt : packAt 3 v < 1000000000000 := packAt_lt h.2
    have ha : a < 100000 := h.1
    have hle : a * 10000 ^ 3 + packAt 3 v ≤ maxVersionValue := by
      rw [maxVersionValue]
      omega
    exact hle

/-- A component within the limits is below 100000. -/
theorem Within.lt {b k a : ℕ} (h : Within b k v) (hb : b ≤ 100000) (ha : a ∈ v) : a < 100000 := by
  induction v generalizing b k with
  | nil => cases ha
  | cons x v ih =>
    cases k with
    | zero => exact h.elim
    | succ k =>
      rcases mem_cons.mp ha with rfl | ha
      · exact Nat.lt_of_lt_of_le h.1 hb
      · exact ih h.2 (by omega) ha

theorem Fits.not_big (h : Fits v) : ¬Big v := by
  rintro (hbig | ⟨a, ha, hbig⟩)
  · have := h.packAt_le
    simp only [maxVersionValue] at this
    omega
  · have := h.lt (Nat.le_refl _) ha
    omega

theorem Fits.number_eq (h : Fits v) : number v = packAt 4 v :=
  Nat.mod_eq_of_lt (not_le.mp fun hbig => h.not_big (.inl hbig))

/-! ### Rules -/

/-- An interval of the program, for a rule. -/
structure Means (i : Interval) (r : Rule) : Prop where
  var : i.var = r.value
  left : i.left = (r.left.map number).getD 0
  right : i.right = (r.right.map number).getD maxVersionValue
  wrapped : i.wrapped = true → ∃ v ∈ r.all, Big v
  mentioned : ∀ v, r.left = some v ∨ r.right = some v → v ∈ r.all

/-- The versions of a rule have their places in the number. -/
def Rule.Fits (r : Rule) : Prop := ∀ v ∈ r.all, UserAgent.Fits v

/-- **Numbers compare as versions do**, where all components fit. -/
theorem Means.contains_iff {i : Interval} {r : Rule} (h : Means i r) (hr : r.Fits) (hv : Fits v) :
    (i.left ≤ number v ∧ number v ≤ i.right) ↔ r.contains v = true := by
  rw [h.left, h.right, Rule.contains, Bool.and_eq_true, hv.number_eq]
  refine and_congr ?_ ?_
  · cases hl : r.left with
    | none => simp
    | some l =>
      have hfits := hr l (h.mentioned l (.inl hl))
      simpa [hfits.number_eq] using packAt_le_iff hfits hv
  · cases hl : r.right with
    | none => simpa using hv.packAt_le
    | some l =>
      have hfits := hr l (h.mentioned l (.inr hl))
      simpa [hfits.number_eq] using packAt_le_iff hv hfits

/-- What the two readings of a rule have in common. -/
theorem RuleScan.Rel.reads {a : RuleScan Scan} {b : RuleScan (Version × ℕ)}
    (h : a.Rel packed written Packs b) :
    a.left.map Scan.version = b.left.map (fun t => number t.1) ∧
      a.right.map Scan.version = b.right.map (fun t => number t.1) ∧
      (a.read.any Scan.wrapped = true → ∃ v ∈ b.read.map Prod.fst, Big v) := by
  obtain ⟨sa, opa, ra⟩ := a
  obtain ⟨sb, opb, rb⟩ := b
  obtain ⟨-, rfl : opa = opb, hread⟩ := h
  replace hread : Forall₂ (packed.Closed written Packs) ra rb := hread
  have hversion : ra.map Scan.version = rb.map fun t => number t.1 := by
    induction hread with
    | nil => rfl
    | cons hx _ ih => rw [map_cons, map_cons, (closed_reads hx).1, ih]
  refine ⟨?_, ?_, fun hw => ?_⟩
  · cases opa <;> simp only [left, ← head?_map, map_tail, hversion]
  · cases opa <;> simp only [right, ← head?_map, hversion, Option.map_none]
  · clear hversion
    dsimp only at hw ⊢
    induction hread with
    | nil => cases hw
    | cons hx _ ih =>
      rcases (Bool.or_eq_true _ _).mp hw with hw | hw
      · exact ⟨_, mem_cons_self, (closed_reads hx).2 hw⟩
      · obtain ⟨v, hv, hbig⟩ := ih hw
        exact ⟨v, mem_cons_of_mem _ hv, hbig⟩

theorem RuleScan.mem_read {s : RuleScan σ} {t : σ} (h : s.left = some t ∨ s.right = some t) :
    t ∈ s.read := by
  obtain ⟨scan, op, read⟩ := s
  cases op <;> rcases h with h | h <;> first
    | exact mem_of_mem_head? h
    | exact mem_of_mem_tail (mem_of_mem_head? h)
    | cases h

/-- **A line with a version** says what it says. -/
theorem getVersion_means {version var : List UInt8} {i : Interval}
    (h : getVersion version var = .ok i) (name : List UInt8) :
    ∃ r, ruleOf name [name, version, var] = some r ∧ Means i r := by
  cases hs : scanRule packed ⟨packed.start, .exact, []⟩ version with
  | error e =>
    rw [getVersion, hs] at h
    cases h
  | ok s =>
    obtain ⟨t, hrun, hrel⟩ := scanRule_simulates packs_packed version hs
      (b := ⟨written.start, .exact, []⟩) ⟨packs_packed.start, rfl, .nil⟩
    obtain ⟨hl, hr, hw⟩ := hrel.reads
    rw [getVersion, hs] at h
    cases h
    refine ⟨⟨t.left.map Prod.fst, t.right.map Prod.fst, t.read.map Prod.fst, var⟩, ?_, ?_⟩
    · simp only [ruleOf, ne_eq, not_true_eq_false, if_false, hrun]
    · refine ⟨rfl, ?_, ?_, hw, ?_⟩
      · simp only [hl, Option.map_map, Function.comp_def]
      · simp only [hr, Option.map_map, Function.comp_def]
      · rintro v h
        simp only [Option.map_eq_some_iff] at h
        rcases h with ⟨t, h, rfl⟩ | ⟨t, h, rfl⟩
        · exact mem_map_of_mem (RuleScan.mem_read (.inl h))
        · exact mem_map_of_mem (RuleScan.mem_read (.inr h))

/-! ### The configuration -/

/-- The array of a keyword, for its rules so far. -/
structure Holds (ctx : Ctx) (name : List UInt8) (rules : List Rule) : Prop where
  means : Forall₂ Means ((ctx.nodes name).getD []) rules
  apart : ((ctx.nodes name).getD []).Pairwise fun p i => covers p i = false

variable {ctx ctx' : Ctx} {name : List UInt8} {rules : List Rule}

/-- One more rule of a block. -/
theorem Holds.insert {first : List UInt8} {i : Interval} (h : Holds ctx name rules)
    (hrun : ctx.insert first i = .ok ctx') :
    ctx'.default = ctx.default ∧ (first ≠ name → Holds ctx' name rules) ∧
      (first = name → ∀ r, Means i r → Holds ctx' name (rules ++ [r])) := by
  simp only [Ctx.insert] at hrun
  split_ifs at hrun with hc
  cases hrun
  refine ⟨rfl, fun hn => ?_, ?_⟩
  · exact ⟨by simpa [Function.update_of_ne (Ne.symm hn)] using h.means,
      by simpa [Function.update_of_ne (Ne.symm hn)] using h.apart⟩
  · rintro rfl r hr
    simp only [any_eq_true, not_exists, not_and, Bool.not_eq_true] at hc
    constructor
    · simpa using rel_append h.means (.cons hr .nil)
    · simpa [pairwise_append] using ⟨h.apart, hc⟩

/-- **One line.** -/
theorem Holds.line {line : List (List UInt8)} (h : Holds ctx name rules)
    (hrun : userAgent ctx line = .ok ctx') :
    Holds ctx' name (rules ++ (ruleOf name line).toList) := by
  match line, hrun with
  | [first, value], hrun =>
    rw [userAgent] at hrun
    rw [ruleOf]
    split_ifs at hrun ⊢ with h₁ h₂ h₃ h₄ h₅
    all_goals try (exfalso; tauto)
    · cases hrun
      simpa using ⟨h.means, h.apart⟩
    · cases hrun
      simpa using ⟨h.means, h.apart⟩
    · simpa using (h.insert hrun).2.1 (by tauto)
    · exact (h.insert hrun).2.2 (by tauto) _ ⟨rfl, rfl, rfl, nofun, nofun⟩
  | [first, version, value], hrun =>
    cases hi : getVersion version value with
    | error e =>
      rw [userAgent, hi] at hrun
      cases hrun
    | ok i =>
      rw [userAgent, hi] at hrun
      have hinsert := h.insert (show ctx.insert first i = .ok ctx' from hrun)
      by_cases hn : first = name
      · subst hn
        obtain ⟨r, hr, hmeans⟩ := getVersion_means hi first
        rw [hr]
        exact hinsert.2.2 rfl r hmeans
      · rw [ruleOf, if_pos hn]
        simpa using hinsert.2.1 hn

/-- **A block**, by induction on its lines. -/
theorem Holds.block {lines : List (List (List UInt8))} (h : Holds ctx name rules)
    (hrun : lines.foldlM userAgent ctx = .ok ctx') :
    Holds ctx' name (rules ++ lines.filterMap (ruleOf name)) := by
  induction lines generalizing ctx rules with
  | nil =>
    cases hrun
    simpa using h
  | cons line lines ih =>
    rw [foldlM_cons] at hrun
    cases hline : userAgent ctx line with
    | error e =>
      rw [hline] at hrun
      cases hrun
    | ok ctx₁ =>
      rw [hline] at hrun
      have hrest := ih (h.line hline) hrun
      cases hr : ruleOf name line <;> simpa [filterMap_cons, hr] using hrest

/-! ### The variable -/

/-- Lists in step have a partner for each member. -/
theorem paired {α β : Type} {P : α → β → Prop} {l : List α} {m : List β} (h : Forall₂ P l m) :
    (∀ a ∈ l, ∃ b ∈ m, P a b) ∧ ∀ b ∈ m, ∃ a ∈ l, P a b := by
  induction h with
  | nil => simp
  | cons hx _ ih =>
    constructor
    · exact forall_mem_cons.mpr ⟨⟨_, mem_cons_self, hx⟩,
        fun a ha => (ih.1 a ha).imp fun _ h => ⟨mem_cons_of_mem _ h.1, h.2⟩⟩
    · exact forall_mem_cons.mpr ⟨⟨_, mem_cons_self, hx⟩,
        fun b hb => (ih.2 b hb).imp fun _ h => ⟨mem_cons_of_mem _ h.1, h.2⟩⟩

/-- Intervals that are apart have no number in common. -/
theorem Holds.unique (h : Holds ctx name rules) {i j : Interval} {n : ℕ}
    (hi : i ∈ (ctx.nodes name).getD []) (hj : j ∈ (ctx.nodes name).getD [])
    (hin : i.left ≤ n ∧ n ≤ i.right) (hjn : j.left ≤ n ∧ n ≤ j.right) : i = j := by
  by_contra hne
  have hapart : ((ctx.nodes name).getD []).Pairwise fun p i =>
      ∀ n, ¬((p.left ≤ n ∧ n ≤ p.right) ∧ i.left ≤ n ∧ n ≤ i.right) := by
    refine h.apart.imp fun hc n hboth => ?_
    simp only [covers, decide_eq_false_iff_not] at hc
    omega
  have : Std.Symm fun p i : Interval =>
      ∀ n, ¬((p.left ≤ n ∧ n ≤ p.right) ∧ i.left ≤ n ∧ n ≤ i.right) :=
    ⟨fun _ _ h n hboth => h n hboth.symm⟩
  exact hapart.forall hi hj hne n ⟨hin, hjn⟩

variable {ua rest : List UInt8} {pos : ℤ} {query : List UInt8 → Option (List UInt8 × ℤ)}

/-- What stands between the keyword and the version is passed. -/
theorem toVersion_append {between : List UInt8} {offset : ℕ} (hlen : offset + between.length ≤ 8)
    (hb : ∀ ch ∈ between, ¬(isDigit ch ∨ ch = byte ';' ∨ ch = byte '(' ∨ ch = byte ')'))
    (hfirst : rest.head?.any isDigit) : toVersion offset (between ++ rest) = rest := by
  induction between generalizing offset with
  | nil =>
    cases rest with
    | nil => rfl
    | cons ch rest => exact if_pos (.inl hfirst)
  | cons ch between ih =>
    rw [length_cons] at hlen
    have hch := hb ch mem_cons_self
    have hgo : ¬(isDigit ch ∨ ch = byte ';' ∨ ch = byte '(' ∨ ch = byte ')' ∨ 8 ≤ offset) := by
      simp only [← or_assoc] at hch ⊢
      rintro (h | h)
      · exact hch h
      · omega
    rw [cons_append, toVersion, if_neg hgo]
    exact ih (by omega) fun c hc => hb c (mem_cons_of_mem _ hc)

/-- **The user agent's version** is read as a number. -/
theorem versionAt_reads (hua : Follows ua pos rest) :
    (versionAt ua pos.toNat).version = number (versionOf rest) ∧
      ((versionAt ua pos.toNat).wrapped = true → Big (versionOf rest)) := by
  obtain ⟨between, hdrop, hlen, hb⟩ := hua.skipped
  rw [versionAt, hdrop, toVersion_append (by omega) hb hua.first]
  exact closed_reads (scanVersion_simulates packs_packed rest packs_packed.start)

/-- The variable is the value of the first interval with the number, or the default. -/
theorem variableValue_eq (hquery : query ua = some (name, pos)) (hua : Follows ua pos rest) :
    variableValue ctx query (some ua) =
      match ((ctx.nodes name).getD []).find? fun i =>
        i.left ≤ number (versionOf rest) ∧ number (versionOf rest) ≤ i.right with
      | some i => some i.var
      | none => ctx.default := by
  simp only [variableValue, hquery, if_neg (not_lt.mpr hua.nonneg), (versionAt_reads hua).1]
  cases ctx.nodes name <;> rfl

/-- **Versions that fit are matched.** -/
theorem Holds.matched (h : Holds ctx name rules) (hquery : query ua = some (name, pos))
    (hua : Follows ua pos rest) (hr : ∀ r ∈ rules, r.Fits) (hv : Fits (versionOf rest)) :
    Matched ctx query ua name pos rules (versionOf rest) := by
  have hpaired := paired h.means
  constructor
  · intro r hmem hin
    obtain ⟨i, hi, hmeans⟩ := hpaired.2 r hmem
    have hin := (hmeans.contains_iff (hr r hmem) hv).mpr hin
    rw [variableValue_eq hquery hua]
    cases hfind : ((ctx.nodes name).getD []).find? fun i =>
        i.left ≤ number (versionOf rest) ∧ number (versionOf rest) ≤ i.right with
    | none => exact absurd (decide_eq_true hin) (find?_eq_none.mp hfind i hi)
    | some j =>
      have hj : j.left ≤ number (versionOf rest) ∧ number (versionOf rest) ≤ j.right := by
        simpa using find?_some hfind
      cases h.unique (mem_of_find?_eq_some hfind) hi hj hin
      exact congrArg some hmeans.var
  · intro hout
    rw [variableValue_eq hquery hua, find?_eq_none.mpr]
    intro i hi hin
    obtain ⟨r, hmem, hmeans⟩ := hpaired.1 i hi
    have hcontains := (hmeans.contains_iff (hr r hmem) hv).mp (of_decide_eq_true hin)
    rw [hout r hmem] at hcontains
    cases hcontains
  · refine ⟨Bool.eq_false_iff.mpr fun hw => hv.not_big ((versionAt_reads hua).2 hw), ?_⟩
    intro i hi
    obtain ⟨r, hmem, hmeans⟩ := hpaired.1 i hi
    refine Bool.eq_false_iff.mpr fun hw => ?_
    obtain ⟨v, hvmem, hbig⟩ := hmeans.wrapped hw
    exact (hr r hmem v hvmem).not_big hbig

/-! ### Versions that do not fit -/

/-- A component as the configuration writes it; zero is empty. -/
def decimal (n : ℕ) : List UInt8 :=
  if n = 0 then [] else decimal (n / 10) ++ [UInt8.ofNat (48 + n % 10)]

/-- A printed number is read as a component. -/
theorem scanRule_decimal (n : ℕ) (s : RuleScan (Version × ℕ)) (v : Version) (rest : List UInt8) :
    scanRule written { s with scan := (v, 0) } (decimal n ++ rest) =
      scanRule written { s with scan := (v, n) } rest := by
  induction n using Nat.strong_induction_on generalizing rest with
  | h n ih =>
    rw [decimal]
    split_ifs with hn
    · rw [hn, nil_append]
    · have hdigit : ∀ d < 10, isDigit (UInt8.ofNat (48 + d)) = true ∧
          (UInt8.ofNat (48 + d)).toNat - 48 = d := by decide
      obtain ⟨hd, hval⟩ := hdigit (n % 10) (Nat.mod_lt n (by omega))
      rw [append_assoc, ih (n / 10) (by omega), singleton_append, scanRule, if_pos hd]
      simp only [written, hval, Nat.div_add_mod']

/-- The text of four components. -/
def ruleText (a b c d : ℕ) : List UInt8 :=
  decimal a ++ byte '.' :: (decimal b ++ byte '.' :: (decimal c ++ byte '.' :: decimal d))

theorem scanRule_dot (s : RuleScan (Version × ℕ)) (rest : List UInt8) :
    scanRule written s (byte '.' :: rest) =
      scanRule written { s with scan := (s.scan.1 ++ [s.scan.2], 0) } rest := rfl

/-- A printed rule is read. -/
theorem scanRule_ruleText (a b c d : ℕ) :
    scanRule written ⟨written.start, .exact, []⟩ (ruleText a b c d) =
      .ok ⟨([a, b, c], d), .exact, [([a, b, c, d], 0)]⟩ := by
  have h := fun v n rest => scanRule_decimal n ⟨(v, 0), .exact, []⟩ v rest
  have hlast := h [a, b, c] d []
  rw [append_nil] at hlast
  rw [ruleText, show written.start = ([], 0) from rfl, h, scanRule_dot, nil_append, h, scanRule_dot]
  exact (h _ c _).trans ((scanRule_dot _ _).trans hlast)

/-- A rule that is read is accepted. -/
theorem getVersion_ok {version : List UInt8} {t : RuleScan (Version × ℕ)}
    (h : scanRule written ⟨written.start, .exact, []⟩ version = .ok t) (var : List UInt8) :
    ∃ i, getVersion version var = .ok i := by
  have hsim : written.Simulates packed fun t s => Packs s t :=
    ⟨packs_packed.start, packs_packed.digit, packs_packed.dot⟩
  obtain ⟨s, hrun, -⟩ := scanRule_simulates hsim version h (b := ⟨packed.start, .exact, []⟩)
    ⟨packs_packed.start, rfl, .nil⟩
  exact ⟨_, by rw [getVersion, hrun]; rfl⟩

/-- Versions that are equal but for zeros at their ends fit alike. -/
theorem within_of_le {b k : ℕ} {u v : Version} (hu : Within b k u) (hb : 0 < b)
    (hlen : v.length ≤ k) (huv : versionLe u v = true) (hvu : versionLe v u = true) :
    Within b k v := by
  induction v generalizing u b k with
  | nil => exact within_nil b k
  | cons y v ih =>
    cases k with
    | zero => cases hlen
    | succ k =>
      replace hlen := Nat.le_of_succ_le_succ hlen
      cases u with
      | nil =>
        simp only [versionLe, Bool.and_eq_true, decide_eq_true_eq] at hvu
        exact ⟨hvu.1 ▸ hb, ih (within_nil _ k) (by omega) hlen rfl hvu.2⟩
      | cons x u =>
        simp only [versionLe, Bool.or_eq_true, Bool.and_eq_true, decide_eq_true_eq] at huv hvu
        obtain ⟨rfl, hu'⟩ : x = y ∧ versionLe u v = true := by
          rcases huv with h | h
          · omega
          · exact h
        have hv' : versionLe v u = true := by
          rcases hvu with h | h
          · omega
          · exact h.2
        exact ⟨hu.1, ih hu.2 (by omega) hlen hu' hv'⟩

/-- The version with a number. -/
def unpack (n : ℕ) : Version :=
  [n / 1000000000000, n / 100000000 % 10000, n / 10000 % 10000, n % 10000]

/-- **A number that fits** is that of a version whose components fit. -/
theorem fits_unpack {n : ℕ} (h : n ≤ maxVersionValue) :
    Fits (unpack n) ∧ packAt 4 (unpack n) = n := by
  have hlt : n < 100000 * 1000000000000 := Nat.lt_of_le_of_lt h (by decide)
  constructor
  · refine ⟨Nat.div_lt_of_lt_mul (by rwa [Nat.mul_comm] at hlt), ?_, ?_, ?_, trivial⟩
    all_goals exact Nat.mod_lt _ (by decide)
  · have hpack : packAt 4 (unpack n) = n / 1000000000000 * 1000000000000 +
        (n / 100000000 % 10000 * 100000000 + (n / 10000 % 10000 * 10000 + (n % 10000 * 1 + 0))) := by
      simp only [unpack, packAt, place]
      rfl
    rw [hpack]
    omega

/-- The variable is right for every block whose rules fit. -/
def MatchesAll (query : List UInt8 → Option (List UInt8 × ℤ)) (ua name : List UInt8) (pos : ℤ)
    (v : Version) : Prop :=
  ∀ lines ctx, parse lines = .ok ctx → (∀ r ∈ lines.filterMap (ruleOf name), r.Fits) →
    Matched ctx query ua name pos (lines.filterMap (ruleOf name)) v

/-- **A block with one rule**, and a default that is empty: if the variable is right for it, the
bounds of the rule hold for the numbers as they do for the versions. -/
theorem obeyed {version : List UInt8} {t : RuleScan (Version × ℕ)} {l r : Option Version}
    (hquery : query ua = some (name, pos)) (hua : Follows ua pos rest)
    (hall : MatchesAll query ua name pos (versionOf rest))
    (ht : scanRule written ⟨written.start, .exact, []⟩ version = .ok t)
    (hfits : ∀ x ∈ t.read, Fits x.1) (hl : t.left.map Prod.fst = l)
    (hr : t.right.map Prod.fst = r) :
    Rule.contains ⟨l, r, [], []⟩ (versionOf rest) = true ↔
      (∀ x, l = some x → number x ≤ number (versionOf rest)) ∧
        (∀ x, r = some x → number (versionOf rest) ≤ number x) ∧
        (r = none → number (versionOf rest) ≤ maxVersionValue) := by
  subst hl hr
  obtain ⟨i, hi⟩ := getVersion_ok ht [0]
  obtain ⟨rule, hr, hmeans⟩ := getVersion_means hi name
  have hrun : parse [[defaultWord, []], [name, version, [0]]] =
      .ok ⟨Function.update (fun _ => none) name (some [i]), [], some []⟩ := by
    simp only [parse, foldlM_cons, foldlM_nil, userAgent, hi]
    rfl
  have hM := hall _ _ hrun
  rw [filterMap_cons_none (by simp [ruleOf]), filterMap_cons_some hr, filterMap_nil] at hM
  simp only [ruleOf, ne_eq, not_true_eq_false, if_false, ht, Option.some.injEq] at hr
  subst hr
  replace hM := hM (by simpa [Rule.Fits] using hfits)
  have hin : (i.left ≤ number (versionOf rest) ∧ number (versionOf rest) ≤ i.right) ↔
      (∀ x, t.left.map Prod.fst = some x → number x ≤ number (versionOf rest)) ∧
        (∀ x, t.right.map Prod.fst = some x → number (versionOf rest) ≤ number x) ∧
        (t.right.map Prod.fst = none → number (versionOf rest) ≤ maxVersionValue) := by
    rw [hmeans.left, hmeans.right]
    dsimp only
    cases t.left.map Prod.fst <;> cases t.right.map Prod.fst <;> simp
  have hvalue := hM.value _ mem_cons_self
  have hdefault := hM.default
  simp only [variableValue_eq hquery hua, Function.update_self, Option.getD_some,
    find?_singleton] at hvalue hdefault
  rw [← hin]
  constructor
  · intro hc
    by_contra hout
    have := hvalue hc
    simp [hout] at this
  · intro hb
    by_contra hout
    have := hdefault fun r hr => by
      cases mem_singleton.mp hr
      exact Bool.eq_false_iff.mpr hout
    simp [hb, hmeans.var] at this

/-- **The value is the one of the version if and only if its components fit**, over all blocks
whose rules fit. Else a rule for all versions, or for the one that has the number, is not obeyed. -/
theorem matched_iff (hquery : query ua = some (name, pos)) (hua : Follows ua pos rest)
    (hlen : (versionOf rest).length ≤ 4) :
    MatchesAll query ua name pos (versionOf rest) ↔ Fits (versionOf rest) := by
  constructor
  · intro hall
    have hmax : number (versionOf rest) ≤ maxVersionValue := by
      have hscan : scanRule written ⟨written.start, .exact, []⟩ [byte '+'] =
          .ok ⟨([], 0), .ge, [([0], 0)]⟩ := rfl
      have hiff := obeyed (l := some [0]) (r := none) hquery hua hall hscan
        (by simp [Fits, Within]) rfl rfl
      refine (hiff.mp ?_).2.2 rfl
      cases versionOf rest with
      | nil => rfl
      | cons a v =>
        rcases Nat.eq_zero_or_pos a with rfl | ha
        · rfl
        · simp [Rule.contains, versionLe, ha]
    obtain ⟨hfits, hpack⟩ := fits_unpack hmax
    have hnumber : number (unpack (number (versionOf rest))) = number (versionOf rest) := by
      rw [hfits.number_eq, hpack]
    have hiff := obeyed (l := some (unpack (number (versionOf rest))))
      (r := some (unpack (number (versionOf rest)))) hquery hua hall (scanRule_ruleText _ _ _ _)
      (fun x hx => mem_singleton.mp hx ▸ hfits) rfl rfl
    have hin := hiff.mpr ⟨fun x hx => Option.some.inj hx ▸ Nat.le_of_eq hnumber,
      fun x hx => Option.some.inj hx ▸ Nat.le_of_eq hnumber.symm, nofun⟩
    obtain ⟨hle, hge⟩ := (Bool.and_eq_true _ _).mp hin
    exact within_of_le hfits (by decide) hlen hle hge
  · intro hv lines ctx hrun hr
    have hstart : Holds ⟨fun _ => none, [], none⟩ name [] := ⟨.nil, .nil⟩
    exact (hstart.block hrun).matched hquery hua hr hv

/-- A user agent whose version is found behind its name, for the texts below. -/
def found (name : List UInt8) : List UInt8 → Option (List UInt8 × ℤ) := fun _ => some (name, 1)

theorem found_follows : Follows [97, 32, 50, 46, 48] 1 [50, 46, 48] := by
  refine ⟨by decide, ⟨[32], rfl, by decide, fun ch hch => ?_⟩, rfl⟩
  cases mem_singleton.mp hch
  decide

theorem matched_pair :
    MatchesAll (found [97]) [97, 32, 50, 46, 48] [97] 1 (versionOf [50, 46, 48]) :=
  (matched_iff rfl found_follows (by decide)).mpr ⟨by decide, by decide, trivial⟩

/-- **A wide component**: the rule `1.10000` gives its value for the version `2.0`. -/
theorem wide_component : ∃ ctx,
    parse [[defaultWord, []], [[97], [49, 46, 49, 48, 48, 48, 48], [0]]] = .ok ctx ∧
      Follows [97, 32, 50, 46, 48] 1 [50, 46, 48] ∧ versionOf [50, 46, 48] = [2, 0] ∧
      ¬Matched ctx (found [97]) [97, 32, 50, 46, 48] [97] 1
        ([[defaultWord, []], [[97], [49, 46, 49, 48, 48, 48, 48], [0]]].filterMap (ruleOf [97]))
        [2, 0] :=
  ⟨_, rfl, found_follows, by decide, fun h => absurd (h.default (by decide)) (by decide)⟩

end Hengine.UserAgent
