import Hengine.Http.RequestLine
import Hengine.Http.UriSafe

/-!
# From the Request Line to the URI

What the request line parser guarantees about the URI it records, and with it the whole
way a URI takes: `ngx_http_parse_request_line`, the buffer that
`ngx_http_process_request_uri` allocates, and `ngx_http_parse_complex_uri`.

The invariant of the request line loop follows the URI through the phases of the line:
before it there is none; in an absolute URI the slash behind the schema is remembered,
because it stands in for an empty path; while the URI is read it starts with a slash (or
with the question mark of an empty path) and holds no control character; behind it
nothing changes it any more.
-/

namespace Hengine

open List

/-! ### The URI in the request line -/

/-- No URI has been seen. -/
def NoUri (r : RequestLine) : Prop :=
  r.uriStart = none ∧ r.uriEnd = none ∧ r.argsStart = none ∧ r.emptyPathInUri = false

/-- The bytes `uri`, at `pre.length`, are those of the URI so far: where it starts, how it
starts, that it has no `NUL`, and that recorded arguments follow a question mark. -/
structure UriRead (r : RequestLine) (pre uri : List UInt8) : Prop where
  start : r.uriStart = some pre.length
  starts : UriStarts r.emptyPathInUri uri
  noNul : (0 : UInt8) ∉ uri
  args : ∀ a, r.argsStart = some a → ∃ k, a = pre.length + k + 1 ∧ uri[k]? = some (byte '?')

/-- The URI is behind: there is none (`CONNECT`), or it has been read. -/
def UriDone (seen : List UInt8) (r : RequestLine) : Prop :=
  (r.uriStart = none ∧ r.uriEnd = none) ∨
    ∃ pre uri, pre ++ uri <+: seen ∧ UriRead r pre uri ∧ r.uriEnd = some (pre ++ uri).length

/-- The slash behind the schema, that stands in for an empty path. -/
def SchemaSlash (seen : List UInt8) (r : RequestLine) : Prop :=
  NoUri r ∧ ∃ a, a ++ [byte ':', byte '/'] <+: seen ∧ r.schemaEnd = some a.length

/-- The invariant of the loop. -/
def LineInv (seen : List UInt8) (s : LineLoop) : Prop :=
  match s.state with
  | .swStart | .swMethod | .swSpacesBeforeConnectHost | .swConnectHostStart | .swConnectHost
  | .swConnectHostEnd | .swConnectHostIpLiteral | .swConnectPort | .swSpacesBeforeUri
  | .swSchema => NoUri s.line
  | .swSchemaSlash =>
    NoUri s.line ∧ ∃ a, seen = a ++ [byte ':'] ∧ s.line.schemaEnd = some a.length
  | .swSchemaSlashSlash => SchemaSlash seen s.line
  | .swHostStart | .swHost | .swHostEnd | .swHostIpLiteral | .swPort => SchemaSlash seen s.line
  | .swAfterSlashInUri | .swCheckUri | .swUri =>
    ∃ pre uri, seen = pre ++ uri ∧ UriRead s.line pre uri
  | .swHttp09 | .swHttpH | .swHttpHT | .swHttpHTT | .swHttpHTTP | .swFirstMajorDigit
  | .swMajorDigit | .swFirstMinorDigit | .swMinorDigit | .swSpacesAfterDigit | .swAlmostDone =>
    UriDone seen s.line

/-- What a step may do: it keeps the invariant, or the line ends behind the URI. -/
structure LineOk (seen : List UInt8) (ch : UInt8) (next : Verdict LineLoop LineExit) : Prop where
  more : ∀ s', next = .more s' → LineInv (seen ++ [ch]) s'
  done : ∀ line, next = .stop (.done line) → UriDone (seen ++ [ch]) line

section Step

variable {seen : List UInt8} {ch : UInt8} {r : RequestLine}

theorem LineOk.go {s' : LineLoop} (h : LineInv (seen ++ [ch]) s') : LineOk seen ch (.more s') := by
  refine ⟨?_, ?_⟩
  · intro s₁ h₁
    cases h₁
    exact h
  · intro line h₁
    cases h₁

theorem LineOk.finish {line : RequestLine} (h : UriDone (seen ++ [ch]) line) :
    LineOk seen ch (.stop (.done line)) := by
  refine ⟨?_, ?_⟩
  · intro s₁ h₁
    cases h₁
  · intro line' h₁
    cases h₁
    exact h

theorem LineOk.error (err : LineError) (line : RequestLine) :
    LineOk seen ch (.stop (.ret err line)) := by
  refine ⟨?_, ?_⟩
  · intro s₁ h₁
    cases h₁
  · intro line' h₁
    cases h₁

/-- A branch may do what both ways may. -/
theorem LineOk.ite {c : Prop} [Decidable c] {t e : Verdict LineLoop LineExit}
    (ht : c → LineOk seen ch t) (he : ¬ c → LineOk seen ch e) :
    LineOk seen ch (if c then t else e) := iteInduction ht he

/-- Only the four fields of the URI matter. -/
theorem UriRead.frame {pre uri : List UInt8} {r r' : RequestLine} (h : UriRead r pre uri)
    (hstart : r'.uriStart = r.uriStart) (hempty : r'.emptyPathInUri = r.emptyPathInUri)
    (hargs : r'.argsStart = r.argsStart) : UriRead r' pre uri := by
  refine ⟨?_, ?_, h.noNul, ?_⟩
  · rw [hstart, h.start]
  · rw [hempty]
    exact h.starts
  · rw [hargs]
    exact h.args

/-- Bytes behind the URI do not change it. -/
theorem UriDone.snoc {seen : List UInt8} {r r' : RequestLine} (h : UriDone seen r) (ch : UInt8)
    (hstart : r'.uriStart = r.uriStart) (hempty : r'.emptyPathInUri = r.emptyPathInUri)
    (hargs : r'.argsStart = r.argsStart) (huend : r'.uriEnd = r.uriEnd) :
    UriDone (seen ++ [ch]) r' := by
  rcases h with ⟨hs, he⟩ | ⟨pre, uri, hpre, hread, hend⟩
  · exact Or.inl ⟨by rw [hstart, hs], by rw [huend, he]⟩
  · exact Or.inr ⟨pre, uri, hpre.trans (prefix_append _ _),
      hread.frame hstart hempty hargs, by rw [huend, hend]⟩

theorem SchemaSlash.snoc {seen : List UInt8} {r : RequestLine} (h : SchemaSlash seen r)
    (ch : UInt8) : SchemaSlash (seen ++ [ch]) r := by
  obtain ⟨hno, a, ha, hs⟩ := h
  exact ⟨hno, a, ha.trans (prefix_append _ _), hs⟩

/-- A URI begins at its slash. -/
theorem UriRead.slash {seen : List UInt8} {r r' : RequestLine} (h : NoUri r)
    (hstart : r'.uriStart = some seen.length) (hargs : r'.argsStart = r.argsStart)
    (hempty : r'.emptyPathInUri = r.emptyPathInUri) : UriRead r' seen [byte '/'] := by
  refine ⟨hstart, ?_, by decide, ?_⟩
  · rw [hempty, h.2.2.2]
    rfl
  · intro a ha
    rw [hargs, h.2.2.1] at ha
    cases ha

/-- A URI without a path begins at its question mark. -/
theorem UriRead.question {seen : List UInt8} {r : RequestLine}
    (hstart : r.uriStart = some seen.length) (hargs : r.argsStart = some (seen.length + 1))
    (hempty : r.emptyPathInUri = true) : UriRead r seen [byte '?'] := by
  refine ⟨hstart, by rw [hempty]; rfl, by decide, ?_⟩
  intro a ha
  rw [hargs] at ha
  cases ha
  exact ⟨0, rfl, rfl⟩

/-- A URI grows by a byte that is no `NUL`; the arguments are recorded at most then. -/
theorem UriRead.snoc {pre uri : List UInt8} {r r' : RequestLine} (h : UriRead r pre uri)
    (hch : ch ≠ 0) (hstart : r'.uriStart = r.uriStart)
    (hempty : r'.emptyPathInUri = r.emptyPathInUri)
    (hargs : r'.argsStart = r.argsStart ∨
      (r'.argsStart = some ((pre ++ uri).length + 1) ∧ ch = byte '?')) :
    UriRead r' pre (uri ++ [ch]) := by
  have hne : uri ≠ [] := by
    rintro rfl
    cases h.starts
  refine ⟨by rw [hstart, h.start], ?_, ?_, ?_⟩
  · rw [hempty, UriStarts, head?_append_of_ne_nil _ hne]
    exact h.starts
  · rw [mem_append, mem_singleton, not_or]
    exact ⟨h.noNul, fun h0 => hch h0.symm⟩
  · intro a ha
    rcases hargs with hold | ⟨hnew, hq⟩
    · rw [hold] at ha
      obtain ⟨k, hk, hget⟩ := h.args a ha
      refine ⟨k, hk, ?_⟩
      have hlt : k < uri.length := (List.getElem?_eq_some_iff.mp hget).1
      rw [List.getElem?_append_left hlt, hget]
    · rw [hnew] at ha
      cases ha
      refine ⟨uri.length, by rw [length_append], ?_⟩
      rw [hq]
      simp

theorem usual_ne_zero {c : UInt8} (h : usual c = true) : c ≠ 0 := by
  rintro rfl
  exact absurd h (by decide)

/-! ### Before the URI -/

/-- The bytes of an IP literal change nothing in the record. -/
theorem ipLiteral_ok {state after : RequestLineState}
    (hstate : LineInv (seen ++ [ch]) ⟨r, state⟩) (hafter : LineInv (seen ++ [ch]) ⟨r, after⟩) :
    LineOk seen ch (ipLiteral state after r ch) := by
  rw [ipLiteral]
  split
  · exact .go hstate
  split
  · exact .go hstate
  split
  · exact .go hstate
  split
  · exact .go hafter
  split
  · exact .go hstate
  · exact .error _ _

/-- A byte that is expected leads on. -/
theorem expect_ok {want : Char} {next : RequestLineState}
    (h : ch = byte want → LineInv (seen ++ [ch]) ⟨r, next⟩) :
    LineOk seen ch (expect want next r ch) := by
  rw [expect]
  split
  · rename_i hch
    exact .go (h hch)
  · exact .error _ _

section

variable (h : NoUri r)
include h

/-- The method. -/
theorem method_ok (proxyConnect : Bool) :
    LineOk seen ch (lineStart seen.length r ch) ∧
      LineOk seen ch (lineMethod proxyConnect seen r ch) := by
  refine ⟨?_, ?_⟩
  · simp only [lineStart]
    split
    · exact .go h
    split
    · exact .error _ _
    · exact .go h
  · simp only [lineMethod]
    split
    · split
      · exact .go h
      · exact .go h
    split
    · exact .error _ _
    · exact .go h

theorem connectHostEnd_ok (p : ℕ) : LineOk seen ch (connectHostEnd p r ch) := by
  simp only [connectHostEnd]
  split
  · exact .go h
  · exact .error _ _

theorem connectHost_ok (p : ℕ) : LineOk seen ch (connectHost p r ch) := by
  simp only [connectHost]
  split
  · exact .go h
  split
  · exact .go h
  · exact connectHostEnd_ok h p

theorem connectHostStart_ok (p : ℕ) : LineOk seen ch (connectHostStart p r ch) := by
  simp only [connectHostStart]
  split
  · exact .go h
  · exact connectHost_ok (by exact h) p

theorem connectPort_ok (p : ℕ) : LineOk seen ch (connectPort p r ch) := by
  simp only [connectPort]
  split
  · exact .go h
  split
  · exact .go (Or.inl ⟨h.1, h.2.1⟩)
  · exact .error _ _

/-- The spaces before a URI, and its first byte. -/
theorem spacesBeforeUri_ok : LineOk seen ch (spacesBeforeUri seen.length r ch) := by
  simp only [spacesBeforeUri]
  split
  · rename_i hch
    exact .go ⟨seen, [ch], rfl, hch ▸ UriRead.slash h rfl rfl rfl⟩
  split
  · exact .go h
  split
  · exact .go h
  · exact .error _ _

theorem schema_ok : LineOk seen ch (schema seen.length r ch) := by
  simp only [schema]
  split
  · exact .go h
  split
  · exact .go h
  split
  · rename_i hch
    exact .go ⟨h, seen, by rw [hch], rfl⟩
  · exact .error _ _

end

/-! ### The host of an absolute URI -/

section

variable (h : SchemaSlash seen r)
include h

/-- The URI of one slash is complete. -/
theorem singleSlash_done : UriDone seen (singleSlash r) := by
  obtain ⟨hno, a, ha, hs⟩ := h
  have hlen : (a ++ [byte ':']).length = a.length + 1 := by simp
  refine Or.inr ⟨a ++ [byte ':'], [byte '/'], by simpa using ha, ?_, ?_⟩
  · exact UriRead.slash hno (by simp [singleSlash, hs]) rfl rfl
  · simp [singleSlash, hs]

/-- What follows the host or the port: a slash, the arguments, or the end of the URI. -/
theorem hostEnd_ok : LineOk seen ch (hostEnd seen.length r ch) := by
  simp only [hostEnd]
  split
  · exact .go (h.snoc ch)
  split
  · rename_i hch
    exact .go ⟨seen, [ch], rfl, hch ▸ UriRead.slash h.1 rfl rfl rfl⟩
  split
  · rename_i hch
    exact .go ⟨seen, [ch], rfl, hch ▸ UriRead.question rfl rfl rfl⟩
  split
  · exact .go (singleSlash_done (h.snoc ch))
  · exact .error _ _

theorem host_ok : LineOk seen ch (host seen.length r ch) := by
  simp only [host]
  split
  · exact .go (h.snoc ch)
  split
  · exact .go (h.snoc ch)
  · exact hostEnd_ok h

theorem hostStart_ok : LineOk seen ch (hostStart seen.length r ch) := by
  simp only [hostStart]
  split
  · exact .go (h.snoc ch)
  · exact host_ok (by exact h)

/-- The port. -/
theorem port_ok : LineOk seen ch (port seen.length r ch) := by
  simp only [port]
  split
  · exact .go (h.snoc ch)
  split
  · rename_i hch
    exact .go ⟨seen, [ch], rfl, hch ▸ UriRead.slash h.1 rfl rfl rfl⟩
  split
  · rename_i hch
    exact .go ⟨seen, [ch], rfl, hch ▸ UriRead.question rfl rfl rfl⟩
  split
  · exact .go (singleSlash_done (h.snoc ch))
  · exact .error _ _

end

/-! ### The URI and what follows it -/

section Uri

variable {pre uri : List UInt8}

section

variable (h : UriRead r pre uri)
include h

/-- The URI has one more byte. -/
theorem UriRead.go {r' : RequestLine} {state : RequestLineState} (hch : ch ≠ 0)
    (hstart : r'.uriStart = r.uriStart) (hempty : r'.emptyPathInUri = r.emptyPathInUri)
    (hargs : r'.argsStart = r.argsStart ∨ (r'.argsStart = some ((pre ++ uri).length + 1) ∧ ch =
      byte '?'))
    (hstate : state = .swAfterSlashInUri ∨ state = .swCheckUri ∨ state = .swUri) :
    LineOk (pre ++ uri) ch (goLine r' state) := by
  refine .go ?_
  have hread : ∃ pre' uri', pre ++ uri ++ [ch] = pre' ++ uri' ∧ UriRead r' pre' uri' :=
    ⟨pre, uri ++ [ch], by rw [append_assoc], h.snoc hch hstart hempty hargs⟩
  rcases hstate with rfl | rfl | rfl
  · exact hread
  · exact hread
  · exact hread

/-- The URI ends before the byte at hand. -/
theorem UriRead.ends {r' : RequestLine} (hstart : r'.uriStart = r.uriStart)
    (hempty : r'.emptyPathInUri = r.emptyPathInUri) (hargs : r'.argsStart = r.argsStart)
    (hend : r'.uriEnd = some (pre ++ uri).length) : UriDone (pre ++ uri ++ [ch]) r' :=
  Or.inr ⟨pre, uri, prefix_append _ _, h.frame hstart hempty hargs, hend⟩

/-- It ends there, or the state goes on. -/
theorem UriRead.uriEndOr {other : Verdict LineLoop LineExit}
    (hother : LineOk (pre ++ uri) ch other) :
    LineOk (pre ++ uri) ch (uriEndOr (pre ++ uri).length r ch other) := by
  rw [Hengine.uriEndOr]
  split
  · exact .go (h.ends rfl rfl rfl rfl)
  split
  · exact .go (h.ends rfl rfl rfl rfl)
  split
  · exact .finish (h.ends rfl rfl rfl rfl)
  · exact hother

/-- Any other byte of the URI. -/
theorem UriRead.uriDefault {state : RequestLineState}
    (hstate : state = .swAfterSlashInUri ∨ state = .swCheckUri ∨ state = .swUri) :
    LineOk (pre ++ uri) ch (uriDefault state r ch) := by
  rw [Hengine.uriDefault]
  split
  · exact .error _ _
  · rename_i hctl
    have hch : ch ≠ 0 := by
      rintro rfl
      exact hctl (Or.inl (by decide))
    exact h.go hch rfl rfl (Or.inl rfl) hstate

/-- `sw_after_slash_in_uri`. -/
theorem afterSlashInUri_ok :
    LineOk (pre ++ uri) ch (afterSlashInUri (pre ++ uri).length r ch) := by
  have hgo : ∀ c : Char, ch = byte c → byte c ≠ 0 → ch ≠ 0 := fun c hc h0 => hc ▸ h0
  rw [afterSlashInUri]
  refine .ite (fun hu => h.go (usual_ne_zero hu) rfl rfl (.inl rfl) (by simp)) fun _ => ?_
  refine h.uriEndOr ?_
  refine .ite (fun hc => h.go (hgo '.' hc (by decide)) rfl rfl (.inl rfl) (by simp)) fun _ => ?_
  refine .ite (fun hc => h.go (hgo '%' hc (by decide)) rfl rfl (.inl rfl) (by simp)) fun _ => ?_
  refine .ite (fun hc => h.go (hgo '/' hc (by decide)) rfl rfl (.inl rfl) (by simp)) fun _ => ?_
  refine .ite (fun hc => h.go (hgo '?' hc (by decide)) rfl rfl (.inr ⟨rfl, hc⟩) (by simp))
    fun _ => ?_
  refine .ite (fun hc => h.go (hgo '#' hc (by decide)) rfl rfl (.inl rfl) (by simp)) fun _ => ?_
  refine .ite (fun hc => h.go (hgo '+' hc (by decide)) rfl rfl (.inl rfl) (by simp)) fun _ => ?_
  exact h.uriDefault (by simp)

/-- `sw_check_uri`. -/
theorem checkUri_ok : LineOk (pre ++ uri) ch (checkUri (pre ++ uri).length r ch) := by
  have hgo : ∀ c : Char, ch = byte c → byte c ≠ 0 → ch ≠ 0 := fun c hc h0 => hc ▸ h0
  rw [checkUri]
  refine .ite (fun hu => h.go (usual_ne_zero hu) rfl rfl (.inl rfl) (by simp)) fun _ => ?_
  refine .ite (fun hc => h.go (hgo '/' hc (by decide)) rfl rfl (.inl rfl) (by simp)) fun _ => ?_
  refine .ite (fun hc => h.go (hgo '.' hc (by decide)) rfl rfl (.inl rfl) (by simp)) fun _ => ?_
  refine h.uriEndOr ?_
  refine .ite (fun hc => h.go (hgo '%' hc (by decide)) rfl rfl (.inl rfl) (by simp)) fun _ => ?_
  refine .ite (fun hc => h.go (hgo '?' hc (by decide)) rfl rfl (.inr ⟨rfl, hc⟩) (by simp))
    fun _ => ?_
  refine .ite (fun hc => h.go (hgo '#' hc (by decide)) rfl rfl (.inl rfl) (by simp)) fun _ => ?_
  refine .ite (fun hc => h.go (hgo '+' hc (by decide)) rfl rfl (.inl rfl) (by simp)) fun _ => ?_
  exact h.uriDefault (by simp)

/-- The states behind the path go on reading the URI. -/
theorem uriRest_ok : LineOk (pre ++ uri) ch (uriRest (pre ++ uri).length r ch) := by
  rw [uriRest]
  split
  · rename_i hu
    exact h.go (usual_ne_zero hu) rfl rfl (Or.inl rfl) (by simp)
  refine h.uriEndOr ?_
  split
  · rename_i hc
    exact h.go (by rw [hc]; decide) rfl rfl (Or.inl rfl) (by simp)
  · exact h.uriDefault (by simp)

end

end Uri

/-- The version, behind the URI. -/
theorem version_ok (h : UriDone seen r) (p : ℕ) :
    LineOk seen ch (http09 p r ch) ∧ LineOk seen ch (firstMajorDigit r ch) ∧
      LineOk seen ch (majorDigit r ch) ∧ LineOk seen ch (firstMinorDigit r ch) ∧
      LineOk seen ch (minorDigit r ch) ∧ LineOk seen ch (spacesAfterDigit r ch) ∧
      LineOk seen ch (almostDone p r ch) := by
  refine ⟨?_, ?_, ?_, ?_, ?_, ?_, ?_⟩
  · simp only [http09]
    split
    · exact .go (h.snoc ch rfl rfl rfl rfl)
    split
    · exact .go (h.snoc ch rfl rfl rfl rfl)
    split
    · exact .finish (h.snoc ch rfl rfl rfl rfl)
    split
    · exact .go (h.snoc ch rfl rfl rfl rfl)
    · exact .error _ _
  · simp only [firstMajorDigit]
    split
    · exact .error _ _
    split
    · exact .error _ _
    · exact .go (h.snoc ch rfl rfl rfl rfl)
  · simp only [majorDigit]
    split
    · exact .go (h.snoc ch rfl rfl rfl rfl)
    split
    · exact .error _ _
    split
    · exact .error _ _
    · exact .go (h.snoc ch rfl rfl rfl rfl)
  · simp only [firstMinorDigit]
    split
    · exact .error _ _
    · exact .go (h.snoc ch rfl rfl rfl rfl)
  · simp only [minorDigit]
    split
    · exact .go (h.snoc ch rfl rfl rfl rfl)
    split
    · exact .finish (h.snoc ch rfl rfl rfl rfl)
    split
    · exact .go (h.snoc ch rfl rfl rfl rfl)
    split
    · exact .error _ _
    split
    · exact .error _ _
    · exact .go (h.snoc ch rfl rfl rfl rfl)
  · simp only [spacesAfterDigit]
    split
    · exact .go (h.snoc ch rfl rfl rfl rfl)
    split
    · exact .go (h.snoc ch rfl rfl rfl rfl)
    split
    · exact .finish (h.snoc ch rfl rfl rfl rfl)
    · exact .error _ _
  · simp only [almostDone]
    split
    · exact .finish (h.snoc ch rfl rfl rfl rfl)
    · exact .error _ _

/-- **One byte of the request line** keeps the invariant. -/
theorem lineStep_uri (proxyConnect : Bool) {s : LineLoop} (h : LineInv seen s) :
    LineOk seen ch (lineStep proxyConnect seen s ch) := by
  obtain ⟨r, state⟩ := s
  cases state with
  | swStart => exact (method_ok h proxyConnect).1
  | swMethod => exact (method_ok h proxyConnect).2
  | swSpacesBeforeConnectHost =>
    simp only [lineStep]
    split
    · exact .go h
    · exact connectHostStart_ok h _
  | swConnectHostStart => exact connectHostStart_ok h _
  | swConnectHost => exact connectHost_ok h _
  | swConnectHostEnd => exact connectHostEnd_ok h _
  | swConnectHostIpLiteral => exact ipLiteral_ok h h
  | swConnectPort => exact connectPort_ok h _
  | swSpacesBeforeUri => exact spacesBeforeUri_ok h
  | swSchema => exact schema_ok h
  | swSchemaSlash =>
    obtain ⟨hno, a, rfl, hs⟩ := h
    refine expect_ok fun hch => ⟨hno, a, ?_, hs⟩
    rw [hch, append_assoc]
    exact prefix_refl _
  | swSchemaSlashSlash => exact expect_ok fun _ => SchemaSlash.snoc h ch
  | swHostStart => exact hostStart_ok h
  | swHost => exact host_ok h
  | swHostEnd => exact hostEnd_ok h
  | swHostIpLiteral => exact ipLiteral_ok (SchemaSlash.snoc h ch) (SchemaSlash.snoc h ch)
  | swPort => exact port_ok h
  | swAfterSlashInUri =>
    obtain ⟨pre, uri, rfl, hread⟩ := h
    exact afterSlashInUri_ok hread
  | swCheckUri =>
    obtain ⟨pre, uri, rfl, hread⟩ := h
    exact checkUri_ok hread
  | swUri =>
    obtain ⟨pre, uri, rfl, hread⟩ := h
    exact uriRest_ok hread
  | swHttp09 => exact (version_ok h _).1
  | swHttpH => exact expect_ok fun _ => UriDone.snoc h ch rfl rfl rfl rfl
  | swHttpHT => exact expect_ok fun _ => UriDone.snoc h ch rfl rfl rfl rfl
  | swHttpHTT => exact expect_ok fun _ => UriDone.snoc h ch rfl rfl rfl rfl
  | swHttpHTTP => exact expect_ok fun _ => UriDone.snoc h ch rfl rfl rfl rfl
  | swFirstMajorDigit => exact (version_ok h 0).2.1
  | swMajorDigit => exact (version_ok h 0).2.2.1
  | swFirstMinorDigit => exact (version_ok h 0).2.2.2.1
  | swMinorDigit => exact (version_ok h 0).2.2.2.2.1
  | swSpacesAfterDigit => exact (version_ok h 0).2.2.2.2.2.1
  | swAlmostDone => exact (version_ok h _).2.2.2.2.2.2

end Step

/-- **The URI of an accepted request line.** -/
theorem parseRequestLine_uri {proxyConnect : Bool} {b b' : Buf} {r : LineRequest}
    (h : parseRequestLine proxyConnect {} b = (.ok, r, b')) (huri : r.uriStart ≠ none) :
    ∃ pre, UriRead r.toRequestLine pre (between (b.before ++ b.rest) r.uriStart r.uriEnd) ∧
      r.uriEnd = some (pre ++ between (b.before ++ b.rest) r.uriStart r.uriEnd).length := by
  have hstart : LineInv b.before ⟨{}, .swStart⟩ := ⟨rfl, rfl, rfl, rfl⟩
  obtain ⟨-, hstopped⟩ := scan_invariant (P := LineInv)
    (fun _ s c s' hs hc => (lineStep_uri proxyConnect hs).more s' hc) b.rest b.before _ hstart
  rw [parseRequestLine, Resumable.call] at h
  cases hscan : scan (lineScanner proxyConnect).step b.before ⟨{}, .swStart⟩ b.rest with
  | again s =>
    have hsaved : (lineScanner proxyConnect).saved {} = ⟨{}, .swStart⟩ := rfl
    rw [hsaved, hscan] at h
    cases h
  | stopped e rest =>
    have hsaved : (lineScanner proxyConnect).saved {} = ⟨{}, .swStart⟩ := rfl
    rw [hsaved, hscan] at h
    obtain ⟨read, s, c, cs, hin, hrest, hs, hstop⟩ := hstopped e rest hscan
    cases e with
    | ret err line => cases err <;> cases h
    | done line =>
      have hdone := (lineStep_uri proxyConnect hs).done line hstop
      simp only [lineDone] at h
      split at h
      · cases h
      · cases h
        rcases hdone with hnone | ⟨pre, uri, ⟨post, hpre⟩, hread, hend⟩
        · exact absurd hnone.1 huri
        · -- The bytes between the two pointers are those the invariant speaks of.
          have hmem : b.before ++ b.rest = pre ++ uri ++ (post ++ cs) := by
            rw [hin, hrest, ← append_assoc, ← singleton_append, ← append_assoc,
              ← append_assoc, hpre]
          have hbetween : between (b.before ++ b.rest) line.uriStart line.uriEnd = uri := by
            rw [hmem, hread.start, hend, between_part]
          refine ⟨pre, ?_⟩
          simp only [lineEnd]
          rw [hbetween]
          exact ⟨hread.frame rfl rfl rfl, hend⟩

/-! ### The path of an HTTP/2 request -/

/-- The states of `ngx_http_parse_uri`. -/
inductive ParseUriState
  | swStart | swAfterSlashInUri | swCheckUri | swUri
deriving Repr, DecidableEq

/-- The loop goes on. -/
abbrev goPath (r : RequestLine) (state : ParseUriState) :
    Verdict (RequestLine × ParseUriState) Unit := .more (r, state)

/-- `default:`, in its three states. -/
def pathDefault (state : ParseUriState) (r : RequestLine) (ch : UInt8) :
    Verdict (RequestLine × ParseUriState) Unit :=
  if ch ≤ 0x20 ∨ ch = 0x7f then .stop () else goPath r state

/-- `switch (state)`; leaving the loop is `return NGX_ERROR`. -/
def pathStep (seen : List UInt8) (s : RequestLine × ParseUriState) (ch : UInt8) :
    Verdict (RequestLine × ParseUriState) Unit :=
  let p := seen.length
  let r := s.1
  match s.2 with
  | .swStart => if ch ≠ byte '/' then .stop () else goPath r .swAfterSlashInUri
  | .swAfterSlashInUri =>
    if usual ch then goPath r .swCheckUri
    else if ch = byte '.' then goPath { r with complexUri := true } .swUri
    else if ch = byte '%' then goPath { r with quotedUri := true } .swUri
    else if ch = byte '/' then goPath { r with complexUri := true } .swUri
    else if ch = byte '?' then goPath { r with argsStart := some (p + 1) } .swUri
    else if ch = byte '#' then goPath { r with complexUri := true } .swUri
    else if ch = byte '+' then goPath { r with plusInUri := true } .swAfterSlashInUri
    else pathDefault .swCheckUri r ch
  | .swCheckUri =>
    if usual ch then goPath r .swCheckUri
    else if ch = byte '/' then goPath { r with uriExt := none } .swAfterSlashInUri
    else if ch = byte '.' then goPath { r with uriExt := some (p + 1) } .swCheckUri
    else if ch = byte '%' then goPath { r with quotedUri := true } .swUri
    else if ch = byte '?' then goPath { r with argsStart := some (p + 1) } .swUri
    else if ch = byte '#' then goPath { r with complexUri := true } .swUri
    else if ch = byte '+' then goPath { r with plusInUri := true } .swCheckUri
    else pathDefault .swCheckUri r ch
  | .swUri =>
    if usual ch then goPath r .swUri
    else if ch = byte '#' then goPath { r with complexUri := true } .swUri
    else pathDefault .swUri r ch

/-- `ngx_http_parse_uri` on the value of `:path`, with offsets from `r->uri_start`; `none`
is `NGX_ERROR`. -/
def parseUri (path : List UInt8) : Option RequestLine :=
  match scan pathStep [] ({ uriStart := some 0, uriEnd := some path.length }, .swStart) path with
  | .again s => some s.1
  | .stopped _ _ => none

/-- The invariant: nothing has been read, or the path so far is a URI. -/
def PathInv (len : ℕ) (seen : List UInt8) (s : RequestLine × ParseUriState) : Prop :=
  s.1.uriEnd = some len ∧
    if s.2 = .swStart then
      seen = [] ∧ s.1.uriStart = some 0 ∧ s.1.argsStart = none ∧ s.1.emptyPathInUri = false
    else UriRead s.1 [] seen

section Path

variable {len : ℕ} {seen : List UInt8} {ch : UInt8} {r r' : RequestLine}
  {s' : RequestLine × ParseUriState}

/-- What a step over the path may do: where it goes on, it keeps the invariant. -/
structure PathOk (len : ℕ) (seen : List UInt8) (ch : UInt8)
    (next : Verdict (RequestLine × ParseUriState) Unit) : Prop where
  more : ∀ s', next = .more s' → PathInv len (seen ++ [ch]) s'

theorem PathOk.stop : PathOk len seen ch (.stop ()) := ⟨fun _ h => nomatch h⟩

/-- A branch may do what both ways may. -/
theorem PathOk.ite {c : Prop} [Decidable c] {t e : Verdict (RequestLine × ParseUriState) Unit}
    (ht : c → PathOk len seen ch t) (he : ¬ c → PathOk len seen ch e) :
    PathOk len seen ch (if c then t else e) := iteInduction ht he

/-- One more byte of the path. -/
theorem PathOk.grow {state : ParseUriState} (h : r.uriEnd = some len ∧ UriRead r [] seen)
    (hch : ch ≠ 0) (hend : r'.uriEnd = r.uriEnd) (hstart : r'.uriStart = r.uriStart)
    (hempty : r'.emptyPathInUri = r.emptyPathInUri)
    (hargs : r'.argsStart = r.argsStart ∨
      (r'.argsStart = some (seen.length + 1) ∧ ch = byte '?'))
    (hstate : state ≠ .swStart) : PathOk len seen ch (goPath r' state) := by
  refine ⟨?_⟩
  rintro s' ⟨⟩
  refine ⟨by rw [← h.1, ← hend], ?_⟩
  rw [if_neg hstate]
  exact h.2.snoc hch hstart hempty (by rwa [nil_append])

/-- Any other byte of the path. -/
theorem pathDefault_ok {state : ParseUriState} (h : r.uriEnd = some len ∧ UriRead r [] seen)
    (hstate : state ≠ .swStart) : PathOk len seen ch (pathDefault state r ch) := by
  rw [pathDefault]
  refine .ite (fun _ => .stop) fun hctl => ?_
  have hch : ch ≠ 0 := by
    rintro rfl
    exact hctl (Or.inl (by decide))
  exact .grow h hch rfl rfl rfl (.inl rfl) hstate

/-- **One byte of the path** keeps the invariant. -/
theorem pathStep_ok {s : RequestLine × ParseUriState} (h : PathInv len seen s) :
    PathOk len seen ch (pathStep seen s ch) := by
  obtain ⟨r, state⟩ := s
  have hgo : ∀ c : Char, ch = byte c → byte c ≠ 0 → ch ≠ 0 := fun c hc h0 => hc ▸ h0
  cases state with
  | swStart =>
    obtain ⟨hend, rfl, hs, ha, he⟩ := h
    simp only [pathStep]
    refine .ite (fun _ => .stop) fun hch => ⟨?_⟩
    rw [not_not] at hch
    rintro s' ⟨⟩
    refine ⟨hend, ?_⟩
    rw [if_neg (by simp), hch]
    refine ⟨hs, ?_, by decide, ?_⟩
    · rw [he]
      rfl
    · rw [ha]
      simp
  | swAfterSlashInUri =>
    have h : r.uriEnd = some len ∧ UriRead r [] seen := h
    simp only [pathStep]
    refine .ite (fun hu => .grow h (usual_ne_zero hu) rfl rfl rfl (.inl rfl) nofun)
      fun _ => ?_
    refine .ite (fun hc => .grow h (hgo '.' hc (by decide)) rfl rfl rfl (.inl rfl) nofun)
      fun _ => ?_
    refine .ite (fun hc => .grow h (hgo '%' hc (by decide)) rfl rfl rfl (.inl rfl) nofun)
      fun _ => ?_
    refine .ite (fun hc => .grow h (hgo '/' hc (by decide)) rfl rfl rfl (.inl rfl) nofun)
      fun _ => ?_
    refine .ite (fun hc => .grow h (hgo '?' hc (by decide)) rfl rfl rfl (.inr ⟨rfl, hc⟩) nofun)
      fun _ => ?_
    refine .ite (fun hc => .grow h (hgo '#' hc (by decide)) rfl rfl rfl (.inl rfl) nofun)
      fun _ => ?_
    refine .ite (fun hc => .grow h (hgo '+' hc (by decide)) rfl rfl rfl (.inl rfl) nofun)
      fun _ => ?_
    exact pathDefault_ok h nofun
  | swCheckUri =>
    have h : r.uriEnd = some len ∧ UriRead r [] seen := h
    simp only [pathStep]
    refine .ite (fun hu => .grow h (usual_ne_zero hu) rfl rfl rfl (.inl rfl) nofun)
      fun _ => ?_
    refine .ite (fun hc => .grow h (hgo '/' hc (by decide)) rfl rfl rfl (.inl rfl) nofun)
      fun _ => ?_
    refine .ite (fun hc => .grow h (hgo '.' hc (by decide)) rfl rfl rfl (.inl rfl) nofun)
      fun _ => ?_
    refine .ite (fun hc => .grow h (hgo '%' hc (by decide)) rfl rfl rfl (.inl rfl) nofun)
      fun _ => ?_
    refine .ite (fun hc => .grow h (hgo '?' hc (by decide)) rfl rfl rfl (.inr ⟨rfl, hc⟩) nofun)
      fun _ => ?_
    refine .ite (fun hc => .grow h (hgo '#' hc (by decide)) rfl rfl rfl (.inl rfl) nofun)
      fun _ => ?_
    refine .ite (fun hc => .grow h (hgo '+' hc (by decide)) rfl rfl rfl (.inl rfl) nofun)
      fun _ => ?_
    exact pathDefault_ok h nofun
  | swUri =>
    have h : r.uriEnd = some len ∧ UriRead r [] seen := h
    simp only [pathStep]
    refine .ite (fun hu => .grow h (usual_ne_zero hu) rfl rfl rfl (.inl rfl) nofun)
      fun _ => ?_
    refine .ite (fun hc => .grow h (hgo '#' hc (by decide)) rfl rfl rfl (.inl rfl) nofun)
      fun _ => ?_
    exact pathDefault_ok h nofun

end Path

/-- **The URI of an accepted path.** -/
theorem parseUri_uri {path : List UInt8} {r : RequestLine} (h : parseUri path = some r)
    (hne : path ≠ []) : UriRead r [] path ∧ r.uriEnd = some path.length := by
  have hstart : PathInv path.length []
      ({ uriStart := some 0, uriEnd := some path.length }, .swStart) :=
    ⟨rfl, rfl, rfl, rfl, rfl⟩
  obtain ⟨hagain, -⟩ := scan_invariant (P := PathInv path.length)
    (fun _ _ _ _ hs hc => (pathStep_ok hs).more _ hc) path [] _ hstart
  rw [parseUri] at h
  split at h
  · rename_i s hscan
    cases h
    obtain ⟨hend, hread⟩ := hagain s hscan
    rw [nil_append] at hread
    split at hread
    · exact absurd hread.1 hne
    · exact ⟨hread, hend⟩
  · cases h

/-! ### The buffer and the whole way -/

/-- The URIs that reach `ngx_http_process_request_uri`: that of an accepted request line,
and the (non-empty) `:path` of an HTTP/2 request. -/
inductive UriAccepted : RequestLine → List UInt8 → Prop
  | line {proxyConnect : Bool} {b b' : Buf} {r : LineRequest}
      (accepted : parseRequestLine proxyConnect {} b = (.ok, r, b')) (uri : r.uriStart ≠ none) :
      UriAccepted r.toRequestLine (between (b.before ++ b.rest) r.uriStart r.uriEnd)
  | path {raw : List UInt8} {r : RequestLine} (accepted : parseUri raw = some r)
      (nonempty : raw ≠ []) : UriAccepted r raw

/-- An accepted URI has been read. -/
theorem UriAccepted.read {r : RequestLine} {raw : List UInt8} (h : UriAccepted r raw) :
    ∃ pre, UriRead r pre raw ∧ r.uriEnd = some (pre ++ raw).length := by
  cases h with
  | line accepted uri => exact parseRequestLine_uri accepted uri
  | path accepted nonempty => exact ⟨[], parseUri_uri accepted nonempty⟩

/-- `r->uri.len` in `ngx_http_process_request_uri`: the bytes allocated for the path. -/
def uriLen (r : RequestLine) : ℕ :=
  (match r.argsStart with
    | some args => args - 1 - r.uriStart.getD 0
    | none => r.uriEnd.getD 0 - r.uriStart.getD 0) + if r.emptyPathInUri then 1 else 0

/-- What is read before a question mark fits into the buffer. -/
theorem UriRead.room {r : RequestLine} {pre raw read : List UInt8} (h : UriRead r pre raw)
    (hend : r.uriEnd = some (pre ++ raw).length) (hread : read <+: raw)
    (hno : byte '?' ∉ read) : pathRoom r.emptyPathInUri read ≤ uriLen r := by
  rw [pathRoom, uriLen, h.start, hend]
  cases hargs : r.argsStart with
  | none =>
    have := hread.length_le
    simp only [Option.getD_some, length_append]
    omega
  | some a =>
    obtain ⟨k, rfl, hk⟩ := h.args a hargs
    have hle : read.length ≤ k := by
      by_contra hlt
      rw [Nat.not_le] at hlt
      obtain ⟨post, rfl⟩ := hread
      rw [getElem?_append_left hlt] at hk
      exact hno (mem_of_getElem? hk)
    simp only [Option.getD_some]
    omega

/-- **The normalised URI is safe and canonical.** For every URI that the parsers accept:
whatever is written on the way stays in the allocated buffer; a path that is returned is
safe, fits, and is the reference path; and where there is no reference path, because of
a bad escape or because `..` would climb above the root, the request is refused, with the
write pointer at most one byte before the buffer. -/
theorem complexUri_safe (mergeSlashes : Bool) {r : RequestLine} {raw : List UInt8}
    (h : UriAccepted r raw) :
    (∀ read l, read <+: raw →
      scanFrom (uriStep mergeSlashes) (uriStart r.emptyPathInUri r.plusInUri r.quotedUri) read
        = .again l → l.fields.out.length ≤ uriLen r) ∧
    (∀ res, parseComplexUri mergeSlashes r.emptyPathInUri r.plusInUri r.quotedUri raw = .ok res →
      SafePath mergeSlashes res.uri ∧ res.uri.length ≤ uriLen r ∧
        referencePath mergeSlashes r.emptyPathInUri raw = some res.uri) ∧
    (referencePath mergeSlashes r.emptyPathInUri raw = none →
      ∃ u, parseComplexUri mergeSlashes r.emptyPathInUri r.plusInUri r.quotedUri raw
          = .invalidRequest u ∧ -1 ≤ u) := by
  obtain ⟨pre, hread, hend⟩ := h.read
  have heq := parseComplexUri_eq mergeSlashes r.emptyPathInUri r.plusInUri r.quotedUri hread.starts
  obtain ⟨hok, hinvalid⟩ :=
    parseComplexUri_room mergeSlashes r.emptyPathInUri r.plusInUri r.quotedUri raw
  refine ⟨?_, ?_, ?_⟩
  · intro read l hpre hscan
    have hroom := (scan_room mergeSlashes r.emptyPathInUri r.plusInUri r.quotedUri read).1 l hscan
    exact Nat.le_trans hroom.fits (hread.room hend hpre hroom.noArgs)
  · intro res hres
    rw [hres] at heq
    obtain ⟨read, hpre, hno, hle⟩ := hok res hres
    exact ⟨referencePath_safe hread.noNul heq.symm,
      Nat.le_trans hle (hread.room hend hpre hno), heq.symm⟩
  · intro hnone
    rw [hnone] at heq
    cases hres : parseComplexUri mergeSlashes r.emptyPathInUri r.plusInUri r.quotedUri raw with
    | ok res =>
      rw [hres] at heq
      cases heq
    | invalidRequest u => exact ⟨u, rfl, hinvalid u hres⟩

/-- `/a/%2e%2e//b` as `:path`. -/
def encodedDots : List UInt8 := methodBytes "/a/%2e%2e//b"

/-- An encoded `..` is resolved, and the slashes are merged. -/
theorem complexUri_safe_encodedDots :
    ∃ r res, UriAccepted r encodedDots ∧
      parseComplexUri true r.emptyPathInUri r.plusInUri r.quotedUri encodedDots = .ok res ∧
      res.uri = methodBytes "/b" ∧ SafePath true res.uri := by
  have haccepted : parseUri encodedDots
      = some { uriStart := some 0, uriEnd := some 12, quotedUri := true } := by decide
  have h := UriAccepted.path haccepted (by decide)
  have hres : parseComplexUri true false false true encodedDots
      = .ok ⟨methodBytes "/b", none, none, none, false, true⟩ := by decide
  exact ⟨_, _, h, hres, rfl, ((complexUri_safe true h).2.1 _ hres).1⟩

/-- At the root the write pointer does move below the buffer: for `/..`, where it is
compared with the start of the buffer, it is one byte before it. -/
theorem complexUri_pointer_below :
    (∃ r, UriAccepted r (methodBytes "/..") ∧
      parseComplexUri true r.emptyPathInUri r.plusInUri r.quotedUri (methodBytes "/..")
        = .invalidRequest (-1)) := by
  have haccepted : parseUri (methodBytes "/..")
      = some { uriStart := some 0, uriEnd := some 3, complexUri := true } := by decide
  exact ⟨_, .path haccepted (by decide), by decide⟩

end Hengine
