import Mathlib.Algebra.Order.Ring.Nat
import Hengine.Http.TrimFilter
import Hengine.Lib.Rewriter

/-!
# Trimming Does Not Depend on the Buffers

What the trim filter passes on is a function of the bytes of the response alone: `trimmer` is the
parser without memory, and every buffer, in its own memory or in new memory, gives what `trimmer`
gives for its bytes.

The text that a state may have due is bounded by `Ctx.hold`; `savedComment` and `looked` go together
there, which `Ctx.Fair` says. So a text is either written behind what is written already, over bytes
that were read, or it began in an earlier buffer, nothing is written yet, and the body filter passes
it on in front of the buffer.
-/

namespace Hengine.Trim

open List

/-- The parser without memory. -/
def trimmer : Rewriter Ctx UInt8 where
  next x raw :=
    let turn := x.turn (tolower raw)
    if turn.keep then { turn.ctx with prev := raw } else turn.ctx
  due x raw := (x.turn (tolower raw)).emit.text
  keep x raw := (x.turn (tolower raw)).keep

/-! ### The bound -/

namespace Ctx

/-- The number of bytes that are held back. -/
def hold (x : Ctx) : ℕ :=
  match x.state with
  | .textWhitespace => if x.prev = lf then 0 else 1
  | .tag | .commentBegin | .commentHackBegin | .commentIeBegin => x.savedComment
  | .tagScriptJsSingleCommentEnd => x.looked
  | .tagWhitespace | .tagStyleCssWhitespace | .tagStyleCssCommentBegin | .tagScriptJsReBegin
  | .tagScriptJsCommentBegin => 1
  | .tagStyleCssCommentBeginEmpty => 2
  | .tagStyleCssComment | .tagStyleCssCommentEnd | .tagStyleCssCommentEmpty
  | .tagStyleCssCommentBeginHack => 3
  | .tagStyleCssCommentHack => 4
  | _ => 0

/-- What is looked for and what is held back go together. -/
def Fair (x : Ctx) : Prop :=
  match x.state with
  | .tag => x.savedComment = 1
  | .commentBegin => x.savedComment = x.looked + 2 ∧ x.looked ≤ 1
  | .commentHackBegin => x.savedComment = 4
  | .commentIeBegin => x.savedComment = x.looked + 4 ∧ 1 ≤ x.looked ∧ x.looked ≤ 2
  | .tagScriptJsSingleCommentEnd => x.looked ≤ 8
  | _ => True

end Ctx

/-- The states in which nothing is held back and nothing is looked for. -/
def State.free (s : State) : Prop :=
  match s with
  | .textWhitespace | .tag | .commentBegin | .commentHackBegin | .commentIeBegin
  | .tagScriptJsSingleCommentEnd | .tagWhitespace | .tagStyleCssWhitespace
  | .tagStyleCssCommentBegin | .tagScriptJsReBegin | .tagScriptJsCommentBegin
  | .tagStyleCssComment | .tagStyleCssCommentEnd | .tagStyleCssCommentBeginEmpty
  | .tagStyleCssCommentEmpty | .tagStyleCssCommentBeginHack | .tagStyleCssCommentHack => False
  | _ => True

/-- A text may be due when `held` bytes are held back; the body filter knows it by its code. -/
structure Emit.Held (held : ℕ) (emit : Emit) : Prop where
  need : emit.need ≤ held
  size : emit.text.length = emit.need
  code : savedText emit.code = emit.text

namespace Emit

variable {held : ℕ}

theorem held_nothing : Held held .nothing := ⟨Nat.zero_le _, rfl, rfl⟩

/-- Up to seven held bytes may be put out as HTML. -/
theorem held_html {n : ℕ} (hn : n ≤ held) (hseven : n ≤ 7) : Held held (.html n) := by
  refine ⟨hn, ?_, ?_⟩
  · simp only [text, need, length_take]
    exact min_eq_left hseven
  · rcases Nat.eq_zero_or_pos n with rfl | hpos
    · rfl
    · have hcode : (html n).code > 0 := Int.natCast_pos.2 hpos
      rw [savedText, if_pos hcode]
      rfl

theorem held_slash (h : 1 ≤ held) : Held held .slash := ⟨h, rfl, rfl⟩

theorem held_jscss (h : 3 ≤ held) : Held held .jscss := ⟨h, rfl, rfl⟩

theorem held_space {c : Prop} [Decidable c] (h : c → 1 ≤ held) :
    Held held (if c then .space else .nothing) := by
  split_ifs with hc
  · exact ⟨h hc, rfl, rfl⟩
  · exact held_nothing

theorem held_hackcss (h : 4 ≤ held) : Held held .hackcss := ⟨h, rfl, rfl⟩

theorem held_javascript (h : 8 ≤ held) : Held held .javascript := ⟨h, rfl, rfl⟩

end Emit

/-- What a turn may do when `held` bytes are held back: the text that is due is among them; a byte
that is kept ends in a state that holds nothing back, or it is a line feed in white space; and a byte
that is skipped adds one. -/
structure Turn.Fits (held : ℕ) (ch : UInt8) (t : Turn) : Prop where
  fair : t.ctx.Fair
  emit : t.emit.Held held
  kept : t.keep = true → t.ctx.state.free ∨ t.ctx.state = .textWhitespace ∧ ch = lf
  skipped : t.keep = false → t.emit = .nothing → t.ctx.hold ≤ held + 1
  passed : t.keep = false → t.emit ≠ .nothing → t.ctx.hold ≤ 1

namespace Ctx

@[simp] theorem go_state (x : Ctx) (s : State) : (x.go s).state = s := rfl
@[simp] theorem go_prev (x : Ctx) (s : State) : (x.go s).prev = x.prev := rfl
@[simp] theorem go_looked (x : Ctx) (s : State) : (x.go s).looked = x.looked := rfl
@[simp] theorem look_state (x : Ctx) (n : ℕ) : (x.look n).state = x.state := rfl
@[simp] theorem look_prev (x : Ctx) (n : ℕ) : (x.look n).prev = x.prev := rfl
@[simp] theorem look_looked (x : Ctx) (n : ℕ) : (x.look n).looked = n := rfl
variable {x : Ctx}

theorem fair_of_free (hx : x.state.free) : x.Fair := by
  unfold Fair
  cases h : x.state <;> simp_all [State.free]

theorem hold_of_free (hx : x.state.free) : x.hold = 0 := by
  unfold hold
  cases h : x.state <;> simp_all [State.free]

end Ctx

/-- A branch fits when both ways do. -/
theorem Turn.Fits.ite {held : ℕ} {ch : UInt8} {c : Prop} [Decidable c] {t e : Turn}
    (ht : t.Fits held ch) (he : e.Fits held ch) : (if c then t else e).Fits held ch :=
  iteInduction (fun _ => ht) fun _ => he

/-- A turn without due text: a byte that is kept ends in a free state, and at most one byte is held
back behind one that is skipped. -/
structure Turn.Plain (t : Turn) : Prop where
  emit : t.emit = .nothing
  fair : t.ctx.Fair
  kept : t.keep = true → t.ctx.state.free
  hold : t.ctx.hold ≤ 1

/-- A plain turn fits, whatever was held. -/
theorem Turn.Plain.fits {t : Turn} {held : ℕ} {ch : UInt8} (h : t.Plain) : t.Fits held ch where
  fair := h.fair
  emit := by rw [h.emit]; exact Emit.held_nothing
  kept hk := .inl (h.kept hk)
  skipped _ _ := by have := h.hold; omega
  passed _ hne := (hne h.emit).elim

namespace Ctx

variable {x : Ctx} {ch : UInt8}

@[simp] theorem plain_keep : x.keep.Plain ↔ x.state.free :=
  ⟨fun h => h.kept rfl, fun h => ⟨rfl, fair_of_free h, fun _ => h, by
    rw [show x.keep.ctx = x from rfl, hold_of_free h]; omega⟩⟩

@[simp] theorem plain_skip : x.skip.Plain ↔ x.Fair ∧ x.hold ≤ 1 :=
  ⟨fun h => ⟨h.fair, h.hold⟩, fun h => ⟨rfl, h.1, nofun, h.2⟩⟩

/-! ### Text and tags -/

theorem plain_onTagText (hx : x.state = .tagText) : (x.onTagText ch).Plain := by
  unfold onTagText
  split_ifs <;> simp [State.free, Fair, hold, hx]

theorem closeTag_free : x.closeTag.state.free := by
  unfold closeTag
  cases x.tag
  case script | style => dsimp only; split_ifs <;> trivial
  all_goals trivial

theorem plain_onTagAttribute (hx : x.state = .tagAttribute) : (x.onTagAttribute ch).Plain := by
  unfold onTagAttribute
  split_ifs
  all_goals first
    | exact plain_keep.2 closeTag_free
    | simp [State.free, Fair, hold, hx]

@[simp] theorem lookType_state (enable : Bool) (tag : Tag) (data : List UInt8) :
    (lookType enable tag data x ch).state = x.state := by
  unfold lookType
  split_ifs <;> rfl

theorem plain_onTagQuote (q : UInt8) (hx : x.state.free) : (x.onTagQuote q ch).Plain := by
  unfold onTagQuote
  simp only [plain_keep, lookType_state]
  split_ifs
  · trivial
  · exact hx

theorem plain_onTagS : (x.onTagS ch).Plain := by
  unfold onTagS
  split_ifs <;> simp [State.free, Fair, hold]

/-- A byte of a name that begins is kept in a free state, or is skipped. -/
theorem plain_onBegin (data : List UInt8) {full : Ctx → Ctx} (named : Ctx → Ctx)
    (hfull : ∀ y, (full y).state.free) (hx : x.state.free) :
    (x.onBegin data full named ch).Plain := by
  unfold onBegin
  dsimp only
  split_ifs
  all_goals first
    | exact plain_keep.2 (hfull _)
    | exact plain_keep.2 hx
    | simp [State.free, Fair, hold]

/-- Likewise where a name ends. -/
theorem plain_onEnd (data : List UInt8) {other : Ctx → Ctx}
    (hother : ∀ y, y.state.free → (other y).state.free) (hx : x.state.free) :
    (x.onEnd data other ch).Plain := by
  unfold onEnd
  dsimp only
  split_ifs
  all_goals first
    | exact plain_keep.2 hx
    | exact plain_keep.2 (hother _ hx)
    | simp [State.free, Fair, hold]

/-! ### Preformatted text -/

theorem plain_onTagPre (hx : x.state = .tagPre) : (x.onTagPre ch).Plain := by
  unfold onTagPre
  split_ifs <;> simp [State.free, hx]

theorem plain_onTagPreAngle (hx : x.state = .tagPreAngle) : (x.onTagPreAngle ch).Plain := by
  unfold onTagPreAngle
  split_ifs <;> simp [State.free, hx]

theorem plain_onTagPreNest (hx : x.state = .tagPreNest) : (x.onTagPreNest ch).Plain := by
  unfold onTagPreNest
  dsimp only
  split_ifs <;> simp [State.free, Fair, hold, hx]

theorem plain_onTagPreEnd (hx : x.state = .tagPreEnd) : (x.onTagPreEnd ch).Plain := by
  unfold onTagPreEnd
  dsimp only
  split_ifs <;> simp [State.free, Fair, hold, hx]

/-! ### Comments -/

theorem plain_onCommentEnd (hx : x.state = .commentEnd) : (x.onCommentEnd ch).Plain := by
  unfold onCommentEnd
  dsimp only
  split_ifs <;> simp [Fair, hold, hx]

theorem plain_onCommentIeEnd (hx : x.state = .commentIeEnd) : (x.onCommentIeEnd ch).Plain := by
  unfold onCommentIeEnd
  dsimp only
  split_ifs <;> simp [State.free, hx]

theorem plain_onCommentHackEnd (hx : x.state = .commentHackEnd) :
    (x.onCommentHackEnd ch).Plain := by
  unfold onCommentHackEnd
  dsimp only
  split_ifs <;> simp [State.free, hx]

/-! ### Scripts and style sheets -/

theorem plain_onQuoted (q : UInt8) {esc after : State} (hesc : esc.free) (hafter : after.free)
    (hx : x.state.free) : (x.onQuoted q esc after ch).Plain := by
  unfold onQuoted
  split_ifs <;> simp [hesc, hafter, hx]

theorem plain_onJsSlash : x.onJsSlash.Plain := by
  unfold onJsSlash
  split_ifs <;> simp [Fair, hold]

/-- A turn in the text of a script is plain. -/
theorem plain_onTagScriptJsText (hx : x.state = .tagScriptJsText) :
    (x.onTagScriptJsText ch).Plain := by
  unfold onTagScriptJsText
  dsimp only
  split_ifs
  all_goals first
    | exact plain_onJsSlash
    | simp [State.free, Fair, hold, hx]

theorem plain_onTagScriptJsWhitespace (hx : x.state = .tagScriptJsWhitespace) :
    (x.onTagScriptJsWhitespace ch).Plain := by
  unfold onTagScriptJsWhitespace
  split_ifs
  all_goals first
    | exact plain_onJsSlash
    | simp [State.free, Fair, hold, hx]

theorem plain_onTagScriptJsSingleComment (hx : x.state = .tagScriptJsSingleComment) :
    (x.onTagScriptJsSingleComment ch).Plain := by
  unfold onTagScriptJsSingleComment
  dsimp only
  split_ifs <;> simp [State.free, Fair, hold, hx]

theorem plain_onTagScriptJsMultiComment (hx : x.state = .tagScriptJsMultiComment) :
    (x.onTagScriptJsMultiComment ch).Plain := by
  unfold onTagScriptJsMultiComment
  split_ifs <;> simp [Fair, hold, hx]

theorem plain_onTagScriptJsMultiCommentEnd (hx : x.state = .tagScriptJsMultiCommentEnd) :
    (x.onTagScriptJsMultiCommentEnd ch).Plain := by
  unfold onTagScriptJsMultiCommentEnd
  split_ifs <;> simp [Fair, hold, hx]

theorem plain_onTagStyleCssText (hx : x.state = .tagStyleCssText) :
    (x.onTagStyleCssText ch).Plain := by
  unfold onTagStyleCssText
  split_ifs <;> simp [State.free, Fair, hold, hx]

theorem plain_onTagStyleCssCommentHackText (hx : x.state = .tagStyleCssCommentHackText) :
    (x.onTagStyleCssCommentHackText ch).Plain := by
  unfold onTagStyleCssCommentHackText
  split_ifs <;> simp [State.free, hx]

/-- Likewise in a hack of a style. -/
theorem plain_onTagStyleCssCommentHackTextBegin
    (hx : x.state = .tagStyleCssCommentHackTextBegin) :
    (x.onTagStyleCssCommentHackTextBegin ch).Plain := by
  unfold onTagStyleCssCommentHackTextBegin
  split_ifs <;> simp [State.free, hx]

theorem plain_onTagStyleCssCommentHackTextEnd (hx : x.state = .tagStyleCssCommentHackTextEnd) :
    (x.onTagStyleCssCommentHackTextEnd ch).Plain := by
  unfold onTagStyleCssCommentHackTextEnd
  split_ifs <;> simp [State.free, Fair, hold, hx]

theorem plain_onTagStyleCssCommentHackTextLast (hx : x.state = .tagStyleCssCommentHackTextLast) :
    (x.onTagStyleCssCommentHackTextLast ch).Plain := by
  unfold onTagStyleCssCommentHackTextLast
  split_ifs <;> simp [State.free, hx]

/-! ### States with text held back -/

theorem fits_keep {y : Ctx} {emit : Emit} {held : ℕ} (hs : y.state.free) (he : emit.Held held) :
    Turn.Fits held ch ⟨y, emit, true⟩ :=
  ⟨fair_of_free hs, he, fun _ => .inl hs, nofun, nofun⟩

theorem fits_skip {y : Ctx} {held : ℕ} (hf : y.Fair) (hh : y.hold ≤ held + 1) :
    Turn.Fits held ch y.skip :=
  ⟨hf, Emit.held_nothing, nofun, fun _ _ => hh, fun _ h => (h rfl).elim⟩

/-- A turn that skips a byte fits. -/
theorem fits_pass {y : Ctx} {emit : Emit} {held : ℕ} (hf : y.Fair) (hh : y.hold ≤ 1)
    (he : emit.Held held) : Turn.Fits held ch ⟨y, emit, false⟩ :=
  ⟨hf, he, nofun, fun _ _ => Nat.le_trans hh (Nat.le_add_left 1 held), fun _ _ => hh⟩

/-- What this state does with a byte fits what is held back. -/
theorem fits_onText (hx : x.state = .text) : (x.onText ch).Fits x.hold ch := by
  have hfree : x.state.free := hx ▸ trivial
  unfold onText
  split_ifs with h₁ h₂ h₃ h₄ h₅
  · exact (plain_skip.2 ⟨fair_of_free hfree, by rw [hold_of_free hfree]; omega⟩).fits
  · exact fits_skip trivial (by simp [hold, h₃])
  · exact ⟨trivial, Emit.held_nothing, fun _ => .inr ⟨rfl, h₂⟩, nofun, nofun⟩
  · exact fits_skip trivial (by simp only [hold, go_state]; split_ifs <;> omega)
  · exact fits_skip rfl (by simp [hold])
  · exact (plain_keep.2 hfree).fits

/-- Likewise where whitespace has been read. -/
theorem fits_onTextWhitespace (hx : x.state = .textWhitespace) :
    (x.onTextWhitespace ch).Fits x.hold ch := by
  have hfair : x.Fair := by simp [Fair, hx]
  have hhold : x.hold = if x.prev = lf then 0 else 1 := by simp [hold, hx]
  have hheld : Emit.Held x.hold (if x.prev ≠ lf then .space else .nothing) :=
    Emit.held_space fun h => by rw [hhold, if_neg h]
  unfold onTextWhitespace
  dsimp only
  generalize (if x.prev ≠ lf then Emit.space else .nothing) = emit at hheld ⊢
  split_ifs with h₁ h₂ h₃ h₄
  · exact fits_skip hfair (by omega)
  · exact fits_skip hfair (by omega)
  · exact ⟨hfair, Emit.held_nothing, fun _ => .inr ⟨hx, h₂⟩, nofun, nofun⟩
  · exact fits_pass rfl (by simp [hold]) hheld
  · exact fits_keep trivial hheld

/-- Likewise in a tag. -/
theorem fits_onTag (hx : x.state = .tag) (hf : x.Fair) : (x.onTag ch).Fits x.hold ch := by
  have hone : x.savedComment = 1 := by simpa only [Fair, hx] using hf
  have hhold : x.hold = 1 := by simpa only [hold, hx] using hone
  have hheld : (Emit.html x.savedComment).Held x.hold := Emit.held_html (by omega) (by omega)
  unfold onTag
  dsimp only
  refine .ite (fits_pass trivial (by simp [hold, byte, lf]) hheld) (.ite ?_ ?_)
  · exact fits_skip ⟨by simp [hone], by simp⟩ (by rw [hhold]; simp [hold, hone])
  refine .ite (fits_keep trivial hheld) (.ite (fits_keep trivial hheld) ?_)
  refine .ite (fits_keep trivial hheld) (.ite ?_ ?_)
  · exact fits_pass (by simp [Fair, hx, hone]) (by simp [hold, hx, hone]) hheld
  exact .ite (fits_keep trivial hheld) (.ite (fits_keep trivial hheld) (fits_keep trivial hheld))

/-- Likewise behind whitespace in a tag. -/
theorem fits_onTagWhitespace (hx : x.state = .tagWhitespace) :
    (x.onTagWhitespace ch).Fits x.hold ch := by
  have hhold : x.hold = 1 := by simp only [hold, hx]
  have hheld : Emit.Held x.hold
      (if ch ≠ byte '>' ∧ ch ≠ byte '=' then .space else .nothing) :=
    Emit.held_space fun _ => by omega
  unfold onTagWhitespace
  dsimp only
  generalize (if ch ≠ byte '>' ∧ ch ≠ byte '=' then Emit.space else .nothing) = emit at hheld ⊢
  split_ifs
  · exact fits_skip (by simp [Fair, hx]) (by omega)
  · exact fits_keep trivial hheld
  · exact fits_keep trivial hheld
  · exact fits_keep closeTag_free hheld
  · exact fits_keep trivial hheld

/-- Likewise where a comment may begin. -/
theorem fits_onCommentBegin (hx : x.state = .commentBegin) (hf : x.Fair) :
    (x.onCommentBegin ch).Fits x.hold ch := by
  obtain ⟨hsaved, hle⟩ : x.savedComment = x.looked + 2 ∧ x.looked ≤ 1 := by
    simpa only [Fair, hx] using hf
  have hhold : x.hold = x.savedComment := by simp only [hold, hx]
  have hheld : (Emit.html x.savedComment).Held x.hold := Emit.held_html (by omega) (by omega)
  unfold onCommentBegin
  dsimp only
  split_ifs with h₁ h₂
  · have hlooked : x.looked + 1 = 2 := h₂
    exact fits_skip (by simp [Fair]; omega) (by rw [hhold]; simp [hold])
  · have hlooked : x.looked + 1 ≠ 2 := h₂
    exact fits_skip (by simp [Fair, hx]; omega) (by simp [hold, hx])
  · exact fits_skip trivial (by simp [hold])
  · exact fits_keep trivial hheld
  · exact fits_keep trivial hheld

/-- Likewise where a hack may begin. -/
theorem fits_onCommentHackBegin (hx : x.state = .commentHackBegin) (hf : x.Fair) :
    (x.onCommentHackBegin ch).Fits x.hold ch := by
  have hsaved : x.savedComment = 4 := by simpa only [Fair, hx] using hf
  have hhold : x.hold = 4 := by simpa only [hold, hx] using hsaved
  unfold onCommentHackBegin
  split_ifs
  · exact fits_keep trivial (Emit.held_html (by omega) (by omega))
  · exact fits_skip (by simp [Fair, hsaved]) (by rw [hhold]; simp [hold, hsaved])
  · exact fits_skip trivial (by simp [hold])
  · exact fits_skip trivial (by simp [hold])

/-- Likewise where a conditional comment may begin. -/
theorem fits_onCommentIeBegin (hx : x.state = .commentIeBegin) (hf : x.Fair) :
    (x.onCommentIeBegin ch).Fits x.hold ch := by
  obtain ⟨hsaved, hpos, hle⟩ :
      x.savedComment = x.looked + 4 ∧ 1 ≤ x.looked ∧ x.looked ≤ 2 := by
    simpa only [Fair, hx] using hf
  have hhold : x.hold = x.savedComment := by simp only [hold, hx]
  unfold onCommentIeBegin
  dsimp only
  split_ifs with h₁ h₂
  · exact fits_keep trivial (Emit.held_html (by omega) (by omega))
  · have hlooked : x.looked + 1 ≠ 3 := h₂
    exact fits_skip (by simp [Fair, hx]; omega) (by simp [hold, hx])
  · exact fits_skip trivial (by simp [hold])
  · exact fits_skip trivial (by simp [hold])

/-- Likewise where a regular expression may begin. -/
theorem fits_onTagScriptJsReBegin (hx : x.state = .tagScriptJsReBegin) :
    (x.onTagScriptJsReBegin ch).Fits x.hold ch := by
  have hhold : x.hold = 1 := by simp only [hold, hx]
  unfold onTagScriptJsReBegin
  split_ifs
  · exact fits_skip trivial (by simp [hold])
  · exact fits_skip trivial (by simp [hold])
  · exact fits_keep trivial (Emit.held_slash (by omega))
  · exact fits_keep trivial (Emit.held_slash (by omega))

/-- Likewise where a comment of a script may begin. -/
theorem fits_onTagScriptJsCommentBegin (hx : x.state = .tagScriptJsCommentBegin) :
    (x.onTagScriptJsCommentBegin ch).Fits x.hold ch := by
  have hhold : x.hold = 1 := by simp only [hold, hx]
  unfold onTagScriptJsCommentBegin
  split_ifs
  · exact fits_skip trivial (by simp [hold])
  · exact fits_skip trivial (by simp [hold])
  · exact fits_keep trivial (Emit.held_slash (by omega))

/-- The beginning of an end tag of a script is held back. -/
theorem fits_onTagScriptJsSingleCommentEnd (hx : x.state = .tagScriptJsSingleCommentEnd)
    (hf : x.Fair) : (x.onTagScriptJsSingleCommentEnd ch).Fits x.hold ch := by
  have hle : x.looked ≤ 8 := by simpa only [Fair, hx] using hf
  have hhold : x.hold = x.looked := by simp only [hold, hx]
  unfold onTagScriptJsSingleCommentEnd
  dsimp only
  split_ifs with h₁ h₂ h₃ h₄ h₅
  · have hlooked : x.looked + 1 = 9 := h₂
    exact fits_keep trivial (Emit.held_javascript (by omega))
  · have hlooked : x.looked + 1 ≠ 9 := h₂
    exact fits_skip (by simp [Fair, hx]; omega) (by simp [hold, hx])
  · have hlooked : x.looked + 1 = 9 := h₄
    exact fits_pass trivial (by simp [hold]) (Emit.held_javascript (by omega))
  · exact fits_skip (by simp [Fair, hx]) (by simp [hold, hx])
  · exact fits_skip (by simp [Fair, hx]) (by simp [hold, hx])
  · exact fits_skip trivial (by simp [hold])

/-- Likewise behind whitespace in a style sheet. -/
theorem fits_onTagStyleCssWhitespace (hx : x.state = .tagStyleCssWhitespace) :
    (x.onTagStyleCssWhitespace ch).Fits x.hold ch := by
  have hhold : x.hold = 1 := by simp only [hold, hx]
  have hheld : Emit.Held x.hold (if !inCssPrefix ch then .space else .nothing) :=
    Emit.held_space fun _ => by omega
  unfold onTagStyleCssWhitespace
  by_cases hspace : isSpace ch
  · rw [if_pos hspace]
    exact fits_skip (by simp [Fair, hx]) (by omega)
  rw [if_neg hspace]
  by_cases hslash : ch = byte '/'
  · subst hslash
    exact fits_pass trivial (by simp [hold, byte, quote, dquote]) hheld
  · simp only [ne_eq, hslash, not_false_eq_true, decide_true, if_false]
    refine fits_keep ?_ hheld
    split_ifs <;> trivial

/-- Likewise where a comment of a style sheet may begin. -/
theorem fits_onTagStyleCssCommentBegin (hx : x.state = .tagStyleCssCommentBegin) :
    (x.onTagStyleCssCommentBegin ch).Fits x.hold ch := by
  have hhold : x.hold = 1 := by simp only [hold, hx]
  unfold onTagStyleCssCommentBegin
  split_ifs
  · exact fits_skip trivial (by rw [hhold]; simp [hold])
  · exact fits_pass (by simp [Fair, hx]) (by omega) (Emit.held_slash (by omega))
  · exact fits_keep trivial (Emit.held_slash (by omega))

/-- Likewise where a comment of a style is empty so far. -/
theorem fits_onTagStyleCssCommentBeginEmpty (hx : x.state = .tagStyleCssCommentBeginEmpty) :
    (x.onTagStyleCssCommentBeginEmpty ch).Fits x.hold ch := by
  have hhold : x.hold = 2 := by simp only [hold, hx]
  unfold onTagStyleCssCommentBeginEmpty
  split_ifs <;> exact fits_skip trivial (by rw [hhold]; simp [hold])

/-- Likewise where the comment may be a hack. -/
theorem fits_onTagStyleCssCommentBeginHack (hx : x.state = .tagStyleCssCommentBeginHack) :
    (x.onTagStyleCssCommentBeginHack ch).Fits x.hold ch := by
  have hhold : x.hold = 3 := by simp only [hold, hx]
  unfold onTagStyleCssCommentBeginHack
  split_ifs <;> exact fits_skip trivial (by rw [hhold]; simp [hold])

/-- Likewise in a comment of a style. -/
theorem fits_onTagStyleCssComment (hx : x.state = .tagStyleCssComment) :
    (x.onTagStyleCssComment ch).Fits x.hold ch := by
  have hhold : x.hold = 3 := by simp only [hold, hx]
  unfold onTagStyleCssComment
  split_ifs
  · exact fits_skip trivial (by rw [hhold]; simp [hold])
  · exact fits_skip trivial (by rw [hhold]; simp [hold])
  · exact fits_skip (by simp [Fair, hx]) (by omega)

/-- Likewise where it may end. -/
theorem fits_onTagStyleCssCommentEnd (hx : x.state = .tagStyleCssCommentEnd) :
    (x.onTagStyleCssCommentEnd ch).Fits x.hold ch := by
  have hhold : x.hold = 3 := by simp only [hold, hx]
  unfold onTagStyleCssCommentEnd
  split_ifs
  · exact fits_skip trivial (by simp [hold])
  · exact fits_skip (by simp [Fair, hx]) (by omega)
  · exact fits_skip trivial (by rw [hhold]; simp [hold])
  · exact fits_skip trivial (by rw [hhold]; simp [hold])

/-- Likewise at a star in it. -/
theorem fits_onCssCommentStar {after : State} {emit : Emit} {held : ℕ} (hafter : after.free)
    (hheld : emit.Held held) (hhold : 3 ≤ held) :
    (x.onCssCommentStar after emit ch).Fits held ch := by
  unfold onCssCommentStar
  split_ifs
  · exact fits_keep hafter hheld
  all_goals exact fits_skip trivial (by simp only [hold, go_state]; omega)

variable (ch) in
/-- **Every turn keeps to the bound.** -/
theorem turn_fits (hf : x.Fair) : (x.turn ch).Fits x.hold ch := by
  unfold turn
  cases hx : x.state with
  | text => exact fits_onText hx
  | textWhitespace => exact fits_onTextWhitespace hx
  | tag => exact fits_onTag hx hf
  | tagText => exact (plain_onTagText hx).fits
  | tagAttribute => exact (plain_onTagAttribute hx).fits
  | tagWhitespace => exact fits_onTagWhitespace hx
  | tagSingleQuote | tagDoubleQuote => exact (plain_onTagQuote _ (hx ▸ trivial)).fits
  | tagS => exact plain_onTagS.fits
  | tagPreBegin | tagTextareaBegin =>
    refine (plain_onBegin _ _ ?_ (hx ▸ trivial)).fits
    exact fun _ => trivial
  | tagStyleBegin | tagScriptBegin =>
    refine (plain_onBegin _ _ ?_ (hx ▸ trivial)).fits
    intro y
    simp only [look_state, go_state]
    split_ifs <;> trivial
  | tagTextareaEnd | tagStyleEnd | tagScriptEnd =>
    exact (plain_onEnd _ (fun _ => id) (hx ▸ trivial)).fits
  | tagStyleCssEnd | tagScriptJsEnd =>
    refine (plain_onEnd _ ?_ (hx ▸ trivial)).fits
    exact fun _ _ => trivial
  | tagPre => exact (plain_onTagPre hx).fits
  | tagPreAngle => exact (plain_onTagPreAngle hx).fits
  | tagPreNest => exact (plain_onTagPreNest hx).fits
  | tagPreEnd => exact (plain_onTagPreEnd hx).fits
  | tagStyleCssText => exact (plain_onTagStyleCssText hx).fits
  | tagStyleCssWhitespace => exact fits_onTagStyleCssWhitespace hx
  | tagStyleCssSingleQuote | tagStyleCssDoubleQuote | tagScriptJsSingleQuote
  | tagScriptJsDoubleQuote | tagScriptJsRe =>
    refine (plain_onQuoted _ ?_ ?_ (hx ▸ trivial)).fits <;> trivial
  | tagStyleCssSingleQuoteEsc | tagStyleCssDoubleQuoteEsc | tagScriptJsSingleQuoteEsc
  | tagScriptJsDoubleQuoteEsc | tagScriptJsReEsc =>
    refine (plain_keep.2 ?_).fits
    trivial
  | tagStyleCssComment => exact fits_onTagStyleCssComment hx
  | tagStyleCssCommentBegin => exact fits_onTagStyleCssCommentBegin hx
  | tagStyleCssCommentEnd => exact fits_onTagStyleCssCommentEnd hx
  | tagStyleCssCommentBeginEmpty => exact fits_onTagStyleCssCommentBeginEmpty hx
  | tagStyleCssCommentEmpty =>
    have hhold : x.hold = 3 := by simp only [hold, hx]
    exact fits_onCssCommentStar trivial (Emit.held_jscss (by omega)) (by omega)
  | tagStyleCssCommentBeginHack => exact fits_onTagStyleCssCommentBeginHack hx
  | tagStyleCssCommentHack =>
    have hhold : x.hold = 4 := by simp only [hold, hx]
    exact fits_onCssCommentStar trivial (Emit.held_hackcss (by omega)) (by omega)
  | tagStyleCssCommentHackText => exact (plain_onTagStyleCssCommentHackText hx).fits
  | tagStyleCssCommentHackTextBegin => exact (plain_onTagStyleCssCommentHackTextBegin hx).fits
  | tagStyleCssCommentHackTextEnd => exact (plain_onTagStyleCssCommentHackTextEnd hx).fits
  | tagStyleCssCommentHackTextLast => exact (plain_onTagStyleCssCommentHackTextLast hx).fits
  | tagScriptJsText => exact (plain_onTagScriptJsText hx).fits
  | tagScriptJsReBegin => exact fits_onTagScriptJsReBegin hx
  | tagScriptJsWhitespace => exact (plain_onTagScriptJsWhitespace hx).fits
  | tagScriptJsCommentBegin => exact fits_onTagScriptJsCommentBegin hx
  | tagScriptJsSingleComment => exact (plain_onTagScriptJsSingleComment hx).fits
  | tagScriptJsSingleCommentEnd => exact fits_onTagScriptJsSingleCommentEnd hx hf
  | tagScriptJsMultiComment => exact (plain_onTagScriptJsMultiComment hx).fits
  | tagScriptJsMultiCommentEnd => exact (plain_onTagScriptJsMultiCommentEnd hx).fits
  | commentBegin => exact fits_onCommentBegin hx hf
  | commentIeBegin => exact fits_onCommentIeBegin hx hf
  | commentHackBegin => exact fits_onCommentHackBegin hx hf
  | commentEnd => exact (plain_onCommentEnd hx).fits
  | commentIeEnd => exact (plain_onCommentIeEnd hx).fits
  | commentHackEnd => exact (plain_onCommentHackEnd hx).fits

end Ctx

theorem tolower_lf {c : UInt8} (h : tolower c = lf) : c = lf := by
  have key : ∀ n : Fin 256, tolower (UInt8.ofFin n) = lf → UInt8.ofFin n = lf := by
    decide +kernel
  exact key c.toFin h

/-- The bound for the parser without memory. -/
theorem trimmer_holds : trimmer.Holds Ctx.Fair Ctx.hold where
  good := by
    intro x raw hf
    have h := Ctx.turn_fits (tolower raw) hf
    simp only [trimmer]
    split_ifs with hk
    · rcases h.kept hk with hfree | ⟨hs, -⟩
      · exact Ctx.fair_of_free hfree
      · simp [Ctx.Fair, hs]
    · exact h.fair
  due := by
    intro x raw hf
    have h := (Ctx.turn_fits (tolower raw) hf).emit
    exact Nat.le_trans (Nat.le_of_eq h.size) h.need
  kept := by
    intro x raw hf hk
    have h := Ctx.turn_fits (tolower raw) hf
    simp only [trimmer] at hk ⊢
    rw [if_pos hk]
    rcases h.kept hk with hfree | ⟨hs, hlf⟩
    · exact Ctx.hold_of_free hfree
    · simp only [Ctx.hold, hs]
      rw [if_pos (tolower_lf hlf)]
  skipped := by
    intro x raw hf hk hdue
    have h := Ctx.turn_fits (tolower raw) hf
    simp only [trimmer] at hk hdue ⊢
    rw [if_neg (by simp [hk])]
    by_cases he : (x.turn (tolower raw)).emit = .nothing
    · exact h.skipped hk he
    · exact Nat.le_trans (h.passed hk he) (Nat.le_add_left 1 _)
  passed := by
    intro x raw hf hk hdue
    have h := Ctx.turn_fits (tolower raw) hf
    simp only [trimmer] at hk hdue ⊢
    rw [if_neg (by simp [hk])]
    refine h.passed hk fun he => hdue ?_
    rw [he]
    rfl

/-! ### The parser in memory -/

theorem Emit.code_ne_zero {emit : Emit} (h : 0 < emit.need) : emit.code ≠ 0 := by
  cases emit with
  | nothing => cases h
  | html n =>
    have hpos : 0 < n := h
    simp only [code]
    omega
  | slash | jscss | space | hackcss | javascript => simp [code]

section Memory

variable {mem text : List UInt8} {pos : ℕ}

theorem length_overwrite (h : pos + text.length ≤ mem.length) :
    (overwrite mem pos text).length = mem.length := by
  simp only [overwrite, length_append, length_take, length_drop]
  omega

theorem take_overwrite (h : pos ≤ mem.length) :
    (overwrite mem pos text).take (pos + text.length) = mem.take pos ++ text := by
  have hlen : (mem.take pos ++ text).length = pos + text.length := by
    rw [length_append, length_take, min_eq_left h]
  rw [overwrite, ← hlen, take_left]

/-- Overwriting changes nothing behind. -/
theorem drop_overwrite {n : ℕ} (h : pos ≤ mem.length) (hn : pos + text.length ≤ n) :
    (overwrite mem pos text).drop n = mem.drop n := by
  have hlen : (mem.take pos ++ text).length = pos + text.length := by
    rw [length_append, length_take, min_eq_left h]
  rw [overwrite, drop_append, hlen, drop_eq_nil_of_le (by omega), nil_append,
    drop_drop, Nat.add_sub_cancel' hn]

end Memory

namespace Parse

variable {p : Parse} {bytes : List UInt8} {n : ℕ}

/-- The memory from a position on is as it was. -/
structure Clear (bytes : List UInt8) (n : ℕ) (p : Parse) : Prop where
  size : p.dst.length = bytes.length
  same : p.temporary = true → p.src = p.dst
  unread : p.src.drop n = bytes.drop n

section

variable (h : p.Clear bytes n)
include h

theorem Clear.read : p.read n = bytes.getD n 0 := by
  have hn : p.src[n]? = bytes[n]? := by
    have hhead : (p.src.drop n)[0]? = (bytes.drop n)[0]? := by rw [h.unread]
    rwa [getElem?_drop, getElem?_drop, Nat.add_zero] at hhead
  simp only [Parse.read, getD_eq_getElem?_getD, hn]

theorem Clear.next : p.Clear bytes (n + 1) :=
  ⟨h.size, h.same, by rw [← drop_drop, h.unread, drop_drop]⟩

/-- A text is written before the position. -/
theorem Clear.put (text : List UInt8) (hn : p.write + text.length ≤ n) (hle : n ≤ bytes.length) :
    (p.put text).Clear bytes n := by
  have hsize := h.size
  have hfits : p.write ≤ p.dst.length := by omega
  have hdrop := drop_overwrite hfits hn
  refine ⟨?_, ?_, ?_⟩
  · rw [← h.size]
    exact length_overwrite (by omega)
  · intro ht
    have ht : p.temporary = true := ht
    simp [Parse.put, ht]
  · simp only [Parse.put]
    split_ifs with ht
    · rw [hdrop, ← h.same ht, h.unread]
    · exact h.unread

theorem Clear.out_put (text : List UInt8) (hn : p.write ≤ bytes.length) :
    (p.put text).out = p.out ++ text :=
  take_overwrite (h.size ▸ hn)

/-- A byte may be written over itself. -/
theorem Clear.read_put (hw : p.write ≤ n) (hn : n < bytes.length) :
    (p.put [bytes.getD n 0]).read n = bytes.getD n 0 := by
  rcases Nat.lt_or_eq_of_le hw with hlt | heq
  · exact (h.put [bytes.getD n 0] hlt hn.le).read
  · have hlen : (p.dst.take n).length = n := by
      rw [length_take, h.size, min_eq_left hn.le]
    have hat : (overwrite p.dst n [bytes.getD n 0]).getD n 0 = bytes.getD n 0 := by
      rw [overwrite, append_assoc, getD_eq_getElem?_getD,
        getElem?_append_right hlen.le, hlen, Nat.sub_self]
      rfl
    simp only [Parse.read, Parse.put, heq]
    split_ifs with ht
    · exact hat
    · exact h.read

/-- With room enough the text is written at once. -/
theorem Clear.flush_eq {emit : Emit} (hn : emit.need ≤ n) : p.flush n emit = p.put emit.text := by
  unfold flush
  split_ifs with he
  · subst he
    have hmem : overwrite p.dst p.write [] = p.dst := by simp [overwrite]
    by_cases ht : p.temporary = true
    · have hsame := h.same ht
      cases p
      simp_all [Parse.put, Emit.text]
    · cases p
      simp_all [Parse.put, Emit.text]
  · rfl

end

/-- The state of the loop before the turn at a position: the context is the one of `trimmer`, the
text that was saved and what was written is what `trimmer` gives, and the memory has room. -/
structure Sound (ctx : Ctx) (bytes : List UInt8) (n : ℕ) (p : Parse) : Prop where
  state : p.ctx = trimmer.after ctx (bytes.take n)
  clear : p.Clear bytes n
  room : Rewriter.Room p.ctx.hold n p.write (decide (p.saved ≠ 0))
  out : savedText p.saved ++ p.out = trimmer.out ctx (bytes.take n)

/-- The text that is due at a position: behind it the byte has room, and what was saved and written
has grown by it. -/
theorem due_spec (hc : p.Clear bytes n) (hf : p.ctx.Fair)
    (hr : Rewriter.Room p.ctx.hold n p.write (decide (p.saved ≠ 0))) (hn : n < bytes.length) :
    (p.due n).Clear bytes n ∧ (p.due n).ctx = (p.ctx.turn (tolower (bytes.getD n 0))).ctx ∧
      (p.due n).write ≤ n ∧
      savedText (p.due n).saved ++ (p.due n).out =
        savedText p.saved ++ p.out ++ trimmer.due p.ctx (bytes.getD n 0) ∧
      Rewriter.Room (trimmer.next p.ctx (bytes.getD n 0)).hold (n + 1)
        ((p.due n).write + (trimmer.keep p.ctx (bytes.getD n 0)).toNat)
        (decide ((p.due n).saved ≠ 0)) := by
  have hheld := (Ctx.turn_fits (tolower (bytes.getD n 0)) hf).emit
  unfold due
  rw [hc.read]
  generalize hraw : bytes.getD n 0 = raw at hheld ⊢
  set turn := p.ctx.turn (tolower raw) with hturn
  set q : Parse := { p with ctx := turn.ctx } with hq
  have hq' : q.Clear bytes n := ⟨hc.size, hc.same, hc.unread⟩
  have hdue : (trimmer.due p.ctx raw).length = turn.emit.need := hheld.size
  rcases Nat.lt_or_ge n turn.emit.need with hlt | hfit
  · -- the text began before this buffer
    obtain ⟨⟨hzero, hleft⟩, hroom⟩ := Rewriter.Room.left trimmer_holds hf hr (hdue ▸ hlt)
    have hsaved : p.saved = 0 := by simpa using hleft
    have hne : turn.emit ≠ .nothing := by
      rintro h
      rw [h] at hlt
      exact Nat.not_lt_zero _ hlt
    have hflush : q.flush n turn.emit = { q with saved := turn.emit.code } := by
      rw [flush, if_neg hne, if_neg (by omega)]
    have hcode : turn.emit.code ≠ 0 := Emit.code_ne_zero (by omega)
    rw [hflush]
    refine ⟨⟨hc.size, hc.same, hc.unread⟩, rfl, ?_, ?_, ?_⟩
    · change p.write ≤ n
      omega
    · have hout : p.out = [] := by simp [Parse.out, hzero]
      change savedText turn.emit.code ++ p.out = _
      rw [hheld.code, hout, hsaved, append_nil, append_nil]
      rfl
    · change Rewriter.Room _ _ (p.write + _) _
      rw [hzero, Nat.zero_add]
      simpa only [decide_eq_true hcode] using hroom
  · -- the text was read here
    obtain ⟨hle, hroom⟩ := Rewriter.Room.written trimmer_holds hf hr (hdue ▸ hfit)
    have hle' : q.write + turn.emit.text.length ≤ n := hle
    rw [hq'.flush_eq hfit]
    refine ⟨hq'.put _ hle' (by omega), rfl, hle', ?_, hroom⟩
    rw [hq'.out_put _ (by omega), ← append_assoc]
    rfl

/-- **A turn in memory is a turn of `trimmer`.** -/
theorem Sound.step {ctx : Ctx} (h : p.Sound ctx bytes n) (hf : ctx.Fair) (hn : n < bytes.length) :
    (p.step n).Sound ctx bytes (n + 1) := by
  have hfair : p.ctx.Fair := h.state ▸ trimmer_holds.after _ hf
  obtain ⟨hc, hctx, hle, hout, hroom⟩ := due_spec h.clear hfair h.room hn
  have htake : bytes.take (n + 1) = bytes.take n ++ [bytes.getD n 0] := by
    rw [take_add_one, getD_eq_getElem?_getD, getElem?_eq_getElem hn]
    rfl
  have hafter : trimmer.after ctx (bytes.take (n + 1)) = trimmer.next p.ctx (bytes.getD n 0) := by
    rw [htake, Rewriter.after_append, ← h.state]
    rfl
  have hgive : trimmer.out ctx (bytes.take (n + 1)) =
      savedText p.saved ++ p.out ++ trimmer.give p.ctx (bytes.getD n 0) := by
    rw [htake, Rewriter.out_concat, ← h.state, h.out]
  unfold Parse.step
  rw [h.clear.read]
  dsimp only
  split_ifs with hk
  · -- the byte is kept
    have hkeep : trimmer.keep p.ctx (bytes.getD n 0) = true := hk
    have hnext : trimmer.next p.ctx (bytes.getD n 0) =
        { (p.due n).ctx with prev := bytes.getD n 0 } := by
      rw [hctx]
      exact if_pos hk
    rw [hkeep] at hroom
    rw [hc.read]
    have hput := hc.next.put [bytes.getD n 0] (by simpa using hle) hn
    have hread : ((p.due n).put [bytes.getD n 0]).read n = bytes.getD n 0 := hc.read_put hle hn
    refine ⟨?_, ⟨hput.size, hput.same, hput.unread⟩, ?_, ?_⟩
    · rw [hafter, hnext, hread]
      rfl
    · rw [hread]
      rw [hnext] at hroom
      exact hroom
    · change savedText (p.due n).saved ++ ((p.due n).put [bytes.getD n 0]).out = _
      rw [hc.out_put _ (by omega), ← append_assoc, hout, hgive, Rewriter.give, hkeep]
      simp
  · -- the byte is skipped
    have hkeep : trimmer.keep p.ctx (bytes.getD n 0) = false := Bool.eq_false_iff.2 hk
    have hnext : trimmer.next p.ctx (bytes.getD n 0) = (p.due n).ctx := by
      rw [hctx]
      exact if_neg hk
    rw [hkeep, Bool.toNat_false, Nat.add_zero, hnext] at hroom
    refine ⟨hnext ▸ hafter.symm, hc.next, hroom, ?_⟩
    rw [hout, hgive, Rewriter.give, hkeep]
    simp

/-- The state at the start of a buffer is sound. -/
theorem Sound.start (ctx : Ctx) (b : Buf) : (b.start ctx).Sound ctx b.bytes 0 where
  state := rfl
  clear := by
    refine ⟨?_, ?_, rfl⟩
    · simp only [Buf.start]
      split_ifs <;> simp
    · intro (ht : b.temporary = true)
      simp [Buf.start, ht]
  room := Rewriter.Room.start _
  out := rfl

/-- **Every byte of a buffer** leaves the state sound. -/
theorem steps_sound {ctx : Ctx} (hf : ctx.Fair) (b : Buf) :
    ∀ n ≤ b.bytes.length, ((b.start ctx).steps n).Sound ctx b.bytes n
  | 0, _ => Sound.start ctx b
  | n + 1, hn => (steps_sound hf b n (Nat.le_of_succ_le hn)).step hf hn

/-- **The write position never passes the read position**, neither before the text that is due nor
behind it. -/
theorem steps_room {ctx : Ctx} (hf : ctx.Fair) (b : Buf) {n : ℕ} (hn : n < b.bytes.length) :
    ((b.start ctx).steps n).write ≤ n ∧ (((b.start ctx).steps n).due n).write ≤ n := by
  have h := steps_sound hf b n hn.le
  have hfair : ((b.start ctx).steps n).ctx.Fair := h.state ▸ trimmer_holds.after _ hf
  have hfits := h.room.fits
  exact ⟨by omega, (due_spec h.clear hfair h.room hn).2.2.1⟩

end Parse

/-! ### The body filter -/

/-- **A buffer** is passed on as `trimmer` says. -/
theorem bodyFilterBuf_sent {x : TrimCtx} (hf : x.ctx.Fair) (b : Buf) :
    (bodyFilterBuf x b).1.ctx = trimmer.after x.ctx b.bytes ∧
      sent (bodyFilterBuf x b).2 = trimmer.out x.ctx b.bytes := by
  have h := Parse.steps_sound hf b b.bytes.length le_rfl
  have hout := h.out
  have hstate := h.state
  rw [take_length] at hout hstate
  refine ⟨hstate, ?_⟩
  rw [← hout]
  change _ = savedText (trimParse x.ctx b).saved ++ (trimParse x.ctx b).out
  unfold bodyFilterBuf
  dsimp only
  generalize trimParse x.ctx b = p
  have hsaved : sent (if p.saved ≠ 0 then [⟨savedText p.saved, false⟩] else []) =
      savedText p.saved := by
    split_ifs with hz
    · simp [sent]
    · rw [not_not.1 hz]
      rfl
  have hrest : sent (if p.out = [] then (if b.lastBuf then [⟨[], true⟩] else [])
      else [⟨p.out, b.lastBuf⟩]) = p.out := by
    split_ifs with hempty <;> simp [sent, *]
  rw [sent, flatMap_append]
  exact congrArg₂ (· ++ ·) hsaved hrest

/-- **A chain of buffers.** -/
theorem bodyFilter_sent (bs : List Buf) : ∀ {x : TrimCtx}, x.ctx.Fair →
    (bodyFilter x bs).1.ctx = trimmer.after x.ctx (bs.flatMap Buf.bytes) ∧
      sent (bodyFilter x bs).2 = trimmer.out x.ctx (bs.flatMap Buf.bytes) := by
  induction bs with
  | nil => exact fun _ => ⟨rfl, rfl⟩
  | cons b bs ih =>
    intro x hf
    obtain ⟨hctx, hsent⟩ := bodyFilterBuf_sent hf b
    obtain ⟨hctx', hsent'⟩ := ih (x := (bodyFilterBuf x b).1)
      (hctx ▸ trimmer_holds.after _ hf)
    rw [flatMap_cons, Rewriter.after_append, Rewriter.out_append, ← hctx, ← hsent]
    refine ⟨hctx', ?_⟩
    rw [← hsent', sent, sent, sent, ← flatMap_append]
    rfl

/-- **The calls of the filter.** -/
theorem calls_trimmer (cs : List (List Buf)) : ∀ {x : TrimCtx}, x.ctx.Fair →
    sent (calls x cs).2 = trimmer.out x.ctx (cs.flatten.flatMap Buf.bytes) := by
  induction cs with
  | nil => exact fun _ => rfl
  | cons bs cs ih =>
    intro x hf
    obtain ⟨hctx, hsent⟩ := bodyFilter_sent bs hf
    have hrest := ih (x := (bodyFilter x bs).1) (hctx ▸ trimmer_holds.after _ hf)
    rw [flatten_cons, flatMap_append, Rewriter.out_append, ← hctx, ← hsent, ← hrest,
      sent, sent, sent, ← flatMap_append]
    rfl

/-- **The buffers do not matter**: for every response, in any calls with any chains of buffers, the
filter passes on the bytes that it passes on when the whole response is one buffer, of either kind;
and in every buffer, whatever was read before it, the write position never passes the read position,
neither before a turn nor when the text that is due in it is written. -/
theorem calls_sent (jsEnable cssEnable : Bool) (cs : List (List Buf)) :
    (∀ whole : Buf, whole.bytes = cs.flatten.flatMap Buf.bytes →
      sent (calls (.initial jsEnable cssEnable) cs).2 =
        sent (calls (.initial jsEnable cssEnable) [[whole]]).2) ∧
    ∀ before b after, cs.flatten = before ++ b :: after → ∀ n < b.bytes.length,
      let p := (b.start (bodyFilter (.initial jsEnable cssEnable) before).1.ctx).steps n
      p.write ≤ n ∧ (p.due n).write ≤ n := by
  have hf : (TrimCtx.initial jsEnable cssEnable).ctx.Fair := trivial
  refine ⟨?_, ?_⟩
  · intro whole hwhole
    rw [calls_trimmer cs hf, calls_trimmer [[whole]] hf, ← hwhole]
    simp
  · intro before b _ _ n hn
    refine Parse.steps_room ?_ b hn
    rw [(bodyFilter_sent before hf).1]
    exact trimmer_holds.after _ hf

/-- A buffer in memory that may be written. -/
def temporaryBuf (bytes : List UInt8) : Buf := ⟨bytes, true, false, fun _ => 0⟩

/-- A response that is cut after the beginnings of two comments, of which one is none. -/
def cutBody : List (List Buf) :=
  [[temporaryBuf (str "a  <!-"), temporaryBuf (str "b> <!-")], [temporaryBuf (str "-x--> c")]]

/-- A body that is cut inside a comment is trimmed as the whole one. -/
theorem calls_sent_cut :
    sent (calls (.initial true true) cutBody).2 = str "a <!-b>  c" ∧
      sent (calls (.initial true true) cutBody).2 =
        sent (calls (.initial true true) [[temporaryBuf (str "a  <!-b> <!--x--> c")]]).2 :=
  ⟨by decide, (calls_sent true true cutBody).1 _ (by decide)⟩

end Hengine.Trim
