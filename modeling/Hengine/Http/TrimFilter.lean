import Hengine.Http.Bytes

/-!
# The Trim Filter

The model of `ngx_http_trim_filter_module.c`, which takes white space and comments out of HTML and
out of the scripts and styles in it. `ngx_http_trim_parse` reads a buffer byte by byte and writes
what it keeps, in the same memory if the buffer is temporary. A byte that may turn out to belong to
a comment is not written; if it does not, the text that was held back is written after all, by the
parser if all of it was read in this buffer, and else by the body filter in front of the buffer:
`saved` says which text that is.

One byte is one turn: the new state, the text that is due, and whether the byte is written (`break`)
or not (`continue`). A buffer is its bytes in memory; `fresh` is what the new memory for one that is
not temporary holds before.

## Main definitions

* `Ctx.turn`: the `switch` over the states.
* `Parse.step`, `trimParse`: the loop of `ngx_http_trim_parse`.
* `bodyFilter`: `ngx_http_trim_body_filter`.
-/

namespace Hengine.Trim

/-- `trim_state_...`. -/
inductive State
  | text
  | textWhitespace
  | tag
  | tagText
  | tagAttribute
  | tagWhitespace
  | tagSingleQuote
  | tagDoubleQuote
  | tagS
  | tagPreBegin
  | tagPre
  | tagPreAngle
  | tagPreNest
  | tagPreEnd
  | tagTextareaBegin
  | tagTextareaEnd
  | tagStyleBegin
  | tagStyleEnd
  | tagStyleCssEnd
  | tagStyleCssText
  | tagStyleCssWhitespace
  | tagStyleCssSingleQuote
  | tagStyleCssSingleQuoteEsc
  | tagStyleCssDoubleQuote
  | tagStyleCssDoubleQuoteEsc
  | tagStyleCssComment
  | tagStyleCssCommentBegin
  | tagStyleCssCommentEnd
  | tagStyleCssCommentBeginEmpty
  | tagStyleCssCommentEmpty
  | tagStyleCssCommentBeginHack
  | tagStyleCssCommentHack
  | tagStyleCssCommentHackText
  | tagStyleCssCommentHackTextBegin
  | tagStyleCssCommentHackTextEnd
  | tagStyleCssCommentHackTextLast
  | tagScriptBegin
  | tagScriptEnd
  | tagScriptJsEnd
  | tagScriptJsText
  | tagScriptJsSingleQuote
  | tagScriptJsSingleQuoteEsc
  | tagScriptJsDoubleQuote
  | tagScriptJsDoubleQuoteEsc
  | tagScriptJsReBegin
  | tagScriptJsRe
  | tagScriptJsReEsc
  | tagScriptJsWhitespace
  | tagScriptJsCommentBegin
  | tagScriptJsSingleComment
  | tagScriptJsSingleCommentEnd
  | tagScriptJsMultiComment
  | tagScriptJsMultiCommentEnd
  | commentBegin
  | commentIeBegin
  | commentHackBegin
  | commentEnd
  | commentIeEnd
  | commentHackEnd
deriving DecidableEq, Repr

/-- `NGX_HTTP_TRIM_TAG_...`, and `0`. -/
inductive Tag
  | none
  | pre
  | style
  | script
  | textarea
deriving DecidableEq, Repr

/-- The parser's part of `ngx_http_trim_ctx_t`, but for `saved`. -/
structure Ctx where
  prev : UInt8
  looked : ℕ
  savedComment : ℕ
  tag : Tag
  count : ℤ
  state : State
  jsEnable : Bool
  cssEnable : Bool
deriving DecidableEq, Repr

/-! ### Texts and tables -/

/-- `'\t'`. -/
def tab : UInt8 := 0x09
/-- `' '`. -/
def blank : UInt8 := 0x20
/-- The single quote. -/
def quote : UInt8 := 0x27
/-- `'"'`. -/
def dquote : UInt8 := 0x22
/-- The backslash. -/
def backslash : UInt8 := 0x5c

/-- `ngx_http_trim_pre`. -/
def trimPre : List UInt8 := str "</pre>"
/-- `ngx_http_trim_style`. -/
def trimStyle : List UInt8 := str "</style>"
/-- `ngx_http_trim_script`. -/
def trimScript : List UInt8 := str "</script>"
/-- `ngx_http_trim_style_css`. -/
def trimStyleCss : List UInt8 := str "text/css"
/-- `ngx_http_trim_script_js`. -/
def trimScriptJs : List UInt8 := str "text/javascript"
/-- `ngx_http_trim_comment`. -/
def trimComment : List UInt8 := str "-->"
/-- `ngx_http_trim_textarea`. -/
def trimTextarea : List UInt8 := str "</textarea>"
/-- `ngx_http_trim_comment_ie`. -/
def trimCommentIe : List UInt8 := str "[if"
/-- `ngx_http_trim_comment_ie_end`. -/
def trimCommentIeEnd : List UInt8 := str "<![endif]-->"
/-- `ngx_http_trim_saved_html`. -/
def savedHtml : List UInt8 := str "<!--[if"
/-- `ngx_http_trim_saved_jscss`. -/
def savedJscss : List UInt8 := str "/**"
/-- `ngx_http_trim_saved_css_hack`. -/
def savedCssHack : List UInt8 := [byte '/', byte '*', backslash, byte '*']

/-- `trim_js_prefix[]`. -/
def jsPrefixTable : List UInt32 := [0, 0xec001542, 0x08000000, 0x58000000, 0, 0, 0, 0]
/-- `trim_css_prefix[]`. -/
def cssPrefixTable : List UInt32 := [0, 0x4c001000, 0, 0x28000000, 0, 0, 0, 0]

/-- `table[c >> 5] & (1 << (c & 0x1f))`. -/
def inTable (table : List UInt32) (c : UInt8) : Bool :=
  (table.getD (c >>> 5).toNat 0) &&& ((1 : UInt32) <<< (c &&& 0x1f).toUInt32) != 0

/-- The cases `'\r'`, `'\n'`, `'\t'` and `' '`. -/
def isSpace (ch : UInt8) : Bool := ch = cr || ch = lf || ch = tab || ch = blank

/-! ### Turns -/

/-- The text that is due: the first bytes of the beginning of a comment, a slash, the beginnings of
two comments of style sheets, a blank, and the end tag of a script without its `>`. -/
inductive Emit
  | nothing
  | html (n : ℕ)
  | slash
  | jscss
  | space
  | hackcss
  | javascript
deriving DecidableEq, Repr

/-- The text. -/
def Emit.text : Emit → List UInt8
  | .nothing => []
  | .html n => savedHtml.take n
  | .slash => [byte '/']
  | .jscss => savedJscss
  | .space => [blank]
  | .hackcss => savedCssHack
  | .javascript => trimScript.take (trimScript.length - 1)

/-- How many bytes of the buffer must have been read for the parser to write the text itself. -/
def Emit.need : Emit → ℕ
  | .nothing => 0
  | .html n => n
  | .slash => 1
  | .jscss => savedJscss.length
  | .space => 1
  | .hackcss => savedCssHack.length
  | .javascript => trimScript.length - 1

/-- The value of `ctx->saved`: the number of bytes, or `NGX_HTTP_TRIM_SAVE_...`. -/
def Emit.code : Emit → ℤ
  | .nothing => 0
  | .html n => n
  | .slash => -1
  | .jscss => -2
  | .space => -3
  | .hackcss => -4
  | .javascript => -5

/-- What the body filter makes of `ctx->saved`. -/
def savedText (saved : ℤ) : List UInt8 :=
  if saved > 0 then savedHtml.take saved.toNat
  else if saved = -1 then savedJscss.take 1
  else if saved = -3 then [blank]
  else if saved = -2 then savedJscss
  else if saved = -4 then savedCssHack
  else if saved = -5 then trimScript.take (trimScript.length - 1)
  else []

/-- The result of the `switch` for a byte: `keep` is `break`. -/
structure Turn where
  ctx : Ctx
  emit : Emit
  keep : Bool

namespace Ctx

/-- `break`. -/
def keep (x : Ctx) : Turn := ⟨x, .nothing, true⟩

/-- `continue`. -/
def skip (x : Ctx) : Turn := ⟨x, .nothing, false⟩

/-- `ctx->state = state`. -/
def go (x : Ctx) (state : State) : Ctx := { x with state := state }

/-- `ctx->looked = n`. -/
def look (x : Ctx) (n : ℕ) : Ctx := { x with looked := n }

/-! ### Text and tags -/

/-- `trim_state_text`. -/
def onText (x : Ctx) (ch : UInt8) : Turn :=
  if ch = cr then x.skip
  else if ch = lf then
    if x.prev = lf then (x.go .textWhitespace).skip else (x.go .textWhitespace).keep
  else if ch = tab ∨ ch = blank then (x.go .textWhitespace).skip
  else if ch = byte '<' then skip { x with state := .tag, savedComment := 1 }
  else x.keep

/-- `trim_state_text_whitespace`. -/
def onTextWhitespace (x : Ctx) (ch : UInt8) : Turn :=
  if ch = cr ∨ ch = tab ∨ ch = blank then x.skip
  else if ch = lf then
    if x.prev = lf then x.skip else x.keep
  else
    let emit := if x.prev ≠ lf then .space else .nothing
    if ch = byte '<' then ⟨{ x with state := .tag, savedComment := 1 }, emit, false⟩
    else ⟨x.go .text, emit, true⟩

/-- `trim_state_tag`. -/
def onTag (x : Ctx) (ch : UInt8) : Turn :=
  let held := Emit.html x.savedComment
  if isSpace ch then ⟨{ x with state := .textWhitespace, prev := byte '<' }, held, false⟩
  else if ch = byte '!' then
    skip { x with state := .commentBegin, looked := 0, savedComment := x.savedComment + 1 }
  else if ch = byte 'p' then ⟨(x.go .tagPreBegin).look 3, held, true⟩
  else if ch = byte 't' then ⟨(x.go .tagTextareaBegin).look 3, held, true⟩
  else if ch = byte 's' then ⟨x.go .tagS, held, true⟩
  else if ch = byte '<' then ⟨{ x with prev := byte '<' }, held, false⟩
  else if ch = byte '>' then ⟨x.go .text, held, true⟩
  else if (byte 'a' ≤ ch ∧ ch ≤ byte 'z') ∨ ch = byte '/' then ⟨x.go .tagText, held, true⟩
  else ⟨x.go .text, held, true⟩

/-- `trim_state_tag_text`. -/
def onTagText (x : Ctx) (ch : UInt8) : Turn :=
  if isSpace ch then (x.go .tagWhitespace).skip
  else if ch = byte '>' then (x.go .text).keep
  else x.keep

/-- The case `'>'` of `trim_state_tag_attribute` and `trim_state_tag_whitespace`. -/
def closeTag (x : Ctx) : Ctx :=
  let state := match x.tag with
    | .pre => State.tagPre
    | .textarea => .tagTextareaEnd
    | .script =>
      if x.jsEnable ∧ x.looked = trimScriptJs.length then .tagScriptJsText else .tagScriptEnd
    | .style =>
      if x.cssEnable ∧ x.looked = trimStyleCss.length then .tagStyleCssText else .tagStyleEnd
    | .none => .text
  { x with state := state, tag := .none, looked := 0 }

/-- `trim_state_tag_attribute`. -/
def onTagAttribute (x : Ctx) (ch : UInt8) : Turn :=
  if isSpace ch then
    if x.prev ≠ byte '=' then (x.go .tagWhitespace).skip else x.skip
  else if ch = quote then (x.go .tagSingleQuote).keep
  else if ch = dquote then (x.go .tagDoubleQuote).keep
  else if ch = byte '>' then x.closeTag.keep
  else x.keep

/-- `trim_state_tag_whitespace`. -/
def onTagWhitespace (x : Ctx) (ch : UInt8) : Turn :=
  if isSpace ch then x.skip
  else
    let emit := if ch ≠ byte '>' ∧ ch ≠ byte '=' then .space else .nothing
    if ch = quote then ⟨x.go .tagSingleQuote, emit, true⟩
    else if ch = dquote then ⟨x.go .tagDoubleQuote, emit, true⟩
    else if ch = byte '>' then ⟨x.closeTag, emit, true⟩
    else ⟨x.go .tagAttribute, emit, true⟩

/-- The comparison of the value of an attribute with the type of a script or a style sheet. -/
def lookType (enable : Bool) (tag : Tag) (data : List UInt8) (x : Ctx) (ch : UInt8) : Ctx :=
  if enable ∧ x.tag = tag ∧ x.looked ≠ data.length then
    if ch ≠ data.getD x.looked 0 then x.look 0 else x.look (x.looked + 1)
  else x

/-- `trim_state_tag_single_quote` and `trim_state_tag_double_quote`. -/
def onTagQuote (q : UInt8) (x : Ctx) (ch : UInt8) : Turn :=
  let x := if ch = q then x.go .tagAttribute else x
  let x := lookType x.jsEnable .script trimScriptJs x ch
  (lookType x.cssEnable .style trimStyleCss x ch).keep

/-- `trim_state_tag_s`. -/
def onTagS (x : Ctx) (ch : UInt8) : Turn :=
  if isSpace ch then (x.go .tagWhitespace).skip
  else if ch = byte 't' then ((x.go .tagStyleBegin).look 4).keep
  else if ch = byte 'c' then ((x.go .tagScriptBegin).look 4).keep
  else if ch = byte '>' then (x.go .text).keep
  else (x.go .tagText).keep

/-- The states in which the name of a tag is compared with `data`: `full` is done at its `>`, and
`named` at a white space in the place of the `>`. -/
def onBegin (data : List UInt8) (full named : Ctx → Ctx) (x : Ctx) (ch : UInt8) : Turn :=
  let next := x.look (x.looked + 1)
  if ch = data.getD x.looked 0 then
    if next.looked = data.length then (full next).keep else next.keep
  else if isSpace ch then
    let next := if next.looked = data.length then named next else next
    ((next.go .tagWhitespace).look 0).skip
  else if ch = byte '>' then (next.go .text).keep
  else (next.go .tagText).keep

/-- `trim_state_tag_pre_begin`. -/
def onTagPreBegin : Ctx → UInt8 → Turn :=
  onBegin trimPre (fun x => { x with state := .tagPre, count := 1, looked := 0 })
    fun x => { x with tag := .pre, count := 1 }

/-- `trim_state_tag_textarea_begin`. -/
def onTagTextareaBegin : Ctx → UInt8 → Turn :=
  onBegin trimTextarea (fun x => (x.go .tagTextareaEnd).look 0) fun x => { x with tag := .textarea }

/-- `trim_state_tag_script_begin`. -/
def onTagScriptBegin : Ctx → UInt8 → Turn :=
  onBegin trimScript
    (fun x => (x.go (if x.jsEnable then .tagScriptJsText else .tagScriptEnd)).look 0)
    fun x => { x with tag := .script }

/-- `trim_state_tag_style_begin`. -/
def onTagStyleBegin : Ctx → UInt8 → Turn :=
  onBegin trimStyle
    (fun x => (x.go (if x.cssEnable then .tagStyleCssText else .tagStyleEnd)).look 0)
    fun x => { x with tag := .style }

/-- The states that look for an end tag; `other` is done at a byte that is not part of it. -/
def onEnd (data : List UInt8) (other : Ctx → Ctx) (x : Ctx) (ch : UInt8) : Turn :=
  let next := x.look (x.looked + 1)
  if ch = data.getD x.looked 0 then
    if next.looked = data.length then (next.go .text).keep else next.keep
  else if isSpace ch then
    if next.looked = data.length then ((next.go .tagWhitespace).look 0).skip
    else (next.look 0).keep
  else if ch = byte '<' then (next.look 1).keep
  else (other (next.look 0)).keep

/-- `trim_state_tag_script_end`. -/
def onTagScriptEnd : Ctx → UInt8 → Turn := onEnd trimScript id

/-- `trim_state_tag_script_js_end`. -/
def onTagScriptJsEnd : Ctx → UInt8 → Turn := onEnd trimScript fun x => x.go .tagScriptJsText

/-- `trim_state_tag_style_end`. -/
def onTagStyleEnd : Ctx → UInt8 → Turn := onEnd trimStyle id

/-- `trim_state_tag_style_css_end`. -/
def onTagStyleCssEnd : Ctx → UInt8 → Turn := onEnd trimStyle fun x => x.go .tagStyleCssText

/-- `trim_state_tag_textarea_end`. -/
def onTagTextareaEnd : Ctx → UInt8 → Turn := onEnd trimTextarea id

/-! ### Preformatted text -/

/-- `trim_state_tag_pre`. -/
def onTagPre (x : Ctx) (ch : UInt8) : Turn :=
  if ch = byte '<' then (x.go .tagPreAngle).keep else x.keep

/-- `trim_state_tag_pre_angle`. -/
def onTagPreAngle (x : Ctx) (ch : UInt8) : Turn :=
  if ch = byte '/' then ((x.go .tagPreEnd).look 2).keep
  else if ch = byte 'p' then ((x.go .tagPreNest).look 3).keep
  else if ch = byte '<' then x.keep
  else (x.go .tagPre).keep

/-- `trim_state_tag_pre_nest`. -/
def onTagPreNest (x : Ctx) (ch : UInt8) : Turn :=
  let next := x.look (x.looked + 1)
  if ch = trimPre.getD x.looked 0 then
    if next.looked = trimPre.length then keep { next with count := x.count + 1, state := .tagPre }
    else next.keep
  else if isSpace ch then
    if next.looked = trimPre.length then
      skip { next with count := x.count + 1, tag := .pre, state := .tagWhitespace }
    else (next.go .tagPre).keep
  else if ch = byte '<' then (next.go .tagPreAngle).keep
  else (next.go .tagPre).keep

/-- `trim_state_tag_pre_end`. -/
def onTagPreEnd (x : Ctx) (ch : UInt8) : Turn :=
  let next := x.look (x.looked + 1)
  if ch = trimPre.getD x.looked 0 then
    if next.looked = trimPre.length then
      keep { next with count := x.count - 1, state := if x.count - 1 > 0 then .tagPre else .text }
    else next.keep
  else if isSpace ch then
    if next.looked = trimPre.length then
      skip { next with
        count := x.count - 1
        tag := if x.count - 1 > 0 then .pre else x.tag
        state := .tagWhitespace
        looked := 0 }
    else (next.look 0).keep
  else if ch = byte '<' then (next.go .tagPreAngle).keep
  else (next.go .tagPre).keep

/-! ### Comments -/

/-- `trim_state_comment_begin`. -/
def onCommentBegin (x : Ctx) (ch : UInt8) : Turn :=
  let next := x.look (x.looked + 1)
  if ch = trimComment.getD x.looked 0 then
    let next := if next.looked = trimComment.length - 1 then (next.go .commentHackBegin).look 0
      else next
    skip { next with savedComment := x.savedComment + 1 }
  else if isSpace ch then (next.go .tagWhitespace).skip
  else if ch = byte '>' then ⟨next.go .text, .html x.savedComment, true⟩
  else ⟨next.go .tagText, .html x.savedComment, true⟩

/-- `trim_state_comment_hack_begin`. -/
def onCommentHackBegin (x : Ctx) (ch : UInt8) : Turn :=
  if ch = byte '#' ∨ ch = byte 'e' then
    ⟨(x.go .commentHackEnd).look 0, .html x.savedComment, true⟩
  else if ch = byte '[' then
    skip { x with state := .commentIeBegin, looked := 1, savedComment := x.savedComment + 1 }
  else if ch = byte '-' then ((x.go .commentEnd).look 1).skip
  else ((x.go .commentEnd).look 0).skip

/-- `trim_state_comment_ie_begin`. -/
def onCommentIeBegin (x : Ctx) (ch : UInt8) : Turn :=
  let next := x.look (x.looked + 1)
  if ch = trimCommentIe.getD x.looked 0 then
    if next.looked = trimCommentIe.length then
      ⟨(next.go .commentIeEnd).look 0, .html x.savedComment, true⟩
    else skip { next with savedComment := x.savedComment + 1 }
  else if ch = byte '-' then ((next.go .commentEnd).look 1).skip
  else ((next.go .commentEnd).look 0).skip

/-- `trim_state_comment_end`. -/
def onCommentEnd (x : Ctx) (ch : UInt8) : Turn :=
  let next := x.look (x.looked + 1)
  if ch = trimComment.getD x.looked 0 then
    if next.looked = trimComment.length then (next.go .text).skip else next.skip
  else if ch = byte '-' then (next.look x.looked).skip
  else (next.look 0).skip

/-- `trim_state_comment_ie_end`. -/
def onCommentIeEnd (x : Ctx) (ch : UInt8) : Turn :=
  let next := x.look (x.looked + 1)
  if ch = trimCommentIeEnd.getD x.looked 0 then
    if next.looked = trimCommentIeEnd.length then (next.go .text).keep else next.keep
  else if ch = byte '<' then (next.look 1).keep
  else (next.look 0).keep

/-- `trim_state_comment_hack_end`. -/
def onCommentHackEnd (x : Ctx) (ch : UInt8) : Turn :=
  let next := x.look (x.looked + 1)
  if ch = trimComment.getD x.looked 0 then
    if next.looked = trimComment.length then (next.go .text).keep else next.keep
  else if ch = byte '-' then (next.look x.looked).keep
  else (next.look 0).keep

/-! ### Scripts -/

/-- The states of a quoted string: `esc` is the state after a backslash, `after` the one after the
closing quote. -/
def onQuoted (q : UInt8) (esc after : State) (x : Ctx) (ch : UInt8) : Turn :=
  if ch = backslash then (x.go esc).keep
  else if ch = q then (x.go after).keep
  else x.keep

/-- `trim_js_prefix[ctx->prev >> 5] & (1 << (ctx->prev & 0x1f))`. -/
def afterJsPrefix (x : Ctx) : Bool := inTable jsPrefixTable x.prev

/-- The case `'/'` of `trim_state_tag_script_js_text` and `trim_state_tag_script_js_whitespace`. -/
def onJsSlash (x : Ctx) : Turn :=
  if x.afterJsPrefix ∨ x.prev = byte '+' ∨ x.prev = byte '-' then (x.go .tagScriptJsReBegin).skip
  else (x.go .tagScriptJsCommentBegin).skip

/-- `trim_state_tag_script_js_text`. -/
def onTagScriptJsText (x : Ctx) (ch : UInt8) : Turn :=
  if ch = cr then x.skip
  else if ch = lf ∨ ch = tab ∨ ch = blank then
    let next := x.go .tagScriptJsWhitespace
    if x.afterJsPrefix ∨ x.prev = ch then next.skip else next.keep
  else if ch = quote then (x.go .tagScriptJsSingleQuote).keep
  else if ch = dquote then (x.go .tagScriptJsDoubleQuote).keep
  else if ch = byte '<' then ((x.go .tagScriptJsEnd).look 1).keep
  else if ch = byte '/' then x.onJsSlash
  else x.keep

/-- `trim_state_tag_script_js_whitespace`. -/
def onTagScriptJsWhitespace (x : Ctx) (ch : UInt8) : Turn :=
  if ch = lf then
    if x.afterJsPrefix ∨ x.prev = ch then x.skip else x.keep
  else if ch = cr ∨ ch = tab ∨ ch = blank then x.skip
  else if ch = quote then (x.go .tagScriptJsSingleQuote).keep
  else if ch = dquote then (x.go .tagScriptJsDoubleQuote).keep
  else if ch = byte '<' then ((x.go .tagScriptJsEnd).look 1).keep
  else if ch = byte '/' then x.onJsSlash
  else (x.go .tagScriptJsText).keep

/-- `trim_state_tag_script_js_re_begin`. -/
def onTagScriptJsReBegin (x : Ctx) (ch : UInt8) : Turn :=
  if ch = byte '/' then (x.go .tagScriptJsSingleComment).skip
  else if ch = byte '*' then (x.go .tagScriptJsMultiComment).skip
  else if ch = backslash then ⟨x.go .tagScriptJsReEsc, .slash, true⟩
  else ⟨x.go .tagScriptJsRe, .slash, true⟩

/-- `trim_state_tag_script_js_comment_begin`. -/
def onTagScriptJsCommentBegin (x : Ctx) (ch : UInt8) : Turn :=
  if ch = byte '/' then (x.go .tagScriptJsSingleComment).skip
  else if ch = byte '*' then (x.go .tagScriptJsMultiComment).skip
  else ⟨x.go .tagScriptJsText, .slash, true⟩

/-- `trim_state_tag_script_js_single_comment`. -/
def onTagScriptJsSingleComment (x : Ctx) (ch : UInt8) : Turn :=
  if ch = byte '<' then ((x.go .tagScriptJsSingleCommentEnd).look 1).skip
  else if ch = lf then
    let next := x.go .tagScriptJsText
    if x.afterJsPrefix ∨ x.prev = ch then next.skip else next.keep
  else x.skip

/-- `trim_state_tag_script_js_single_comment_end`. -/
def onTagScriptJsSingleCommentEnd (x : Ctx) (ch : UInt8) : Turn :=
  let next := x.look (x.looked + 1)
  if ch = trimScript.getD x.looked 0 then
    if next.looked = trimScript.length then ⟨(next.go .text).look 0, .javascript, true⟩
    else next.skip
  else if isSpace ch then
    if next.looked = trimScript.length then
      ⟨{ next with state := .tagWhitespace, prev := byte 't', looked := 0 }, .javascript, false⟩
    else (next.look 0).skip
  else if ch = byte '<' then (next.look 1).skip
  else ((next.go .tagScriptJsSingleComment).look 0).skip

/-- `trim_state_tag_script_js_multi_comment`. -/
def onTagScriptJsMultiComment (x : Ctx) (ch : UInt8) : Turn :=
  if ch = byte '*' then (x.go .tagScriptJsMultiCommentEnd).skip else x.skip

/-- `trim_state_tag_script_js_multi_comment_end`. -/
def onTagScriptJsMultiCommentEnd (x : Ctx) (ch : UInt8) : Turn :=
  if ch = byte '/' then (x.go .tagScriptJsText).skip
  else if ch = byte '*' then x.skip
  else (x.go .tagScriptJsMultiComment).skip

/-! ### Style sheets -/

/-- `trim_css_prefix[c >> 5] & (1 << (c & 0x1f))`. -/
def inCssPrefix (c : UInt8) : Bool := inTable cssPrefixTable c

/-- `trim_state_tag_style_css_text`. -/
def onTagStyleCssText (x : Ctx) (ch : UInt8) : Turn :=
  if ch = cr then x.skip
  else if ch = lf ∨ ch = tab ∨ ch = blank then
    if !inCssPrefix x.prev then (x.go .tagStyleCssWhitespace).skip else x.skip
  else if ch = quote then (x.go .tagStyleCssSingleQuote).keep
  else if ch = dquote then (x.go .tagStyleCssDoubleQuote).keep
  else if ch = byte '<' then ((x.go .tagStyleCssEnd).look 1).keep
  else if ch = byte '/' then (x.go .tagStyleCssCommentBegin).skip
  else x.keep

/-- `trim_state_tag_style_css_whitespace`. -/
def onTagStyleCssWhitespace (x : Ctx) (ch : UInt8) : Turn :=
  if isSpace ch then x.skip
  else
    let next :=
      if ch = quote then x.go .tagStyleCssSingleQuote
      else if ch = dquote then x.go .tagStyleCssDoubleQuote
      else if ch = byte '<' then (x.go .tagStyleCssEnd).look 1
      else if ch = byte '/' then x.go .tagStyleCssCommentBegin
      else x.go .tagStyleCssText
    ⟨next, if !inCssPrefix ch then .space else .nothing, ch ≠ byte '/'⟩

/-- `trim_state_tag_style_css_comment_begin`. -/
def onTagStyleCssCommentBegin (x : Ctx) (ch : UInt8) : Turn :=
  if ch = byte '*' then (x.go .tagStyleCssCommentBeginEmpty).skip
  else if ch = byte '/' then ⟨x, .slash, false⟩
  else ⟨x.go .tagStyleCssText, .slash, true⟩

/-- `trim_state_tag_style_css_comment_begin_empty`. -/
def onTagStyleCssCommentBeginEmpty (x : Ctx) (ch : UInt8) : Turn :=
  if ch = byte '*' then (x.go .tagStyleCssCommentEmpty).skip
  else if ch = backslash then (x.go .tagStyleCssCommentBeginHack).skip
  else (x.go .tagStyleCssComment).skip

/-- `trim_state_tag_style_css_comment`. -/
def onTagStyleCssComment (x : Ctx) (ch : UInt8) : Turn :=
  if ch = byte '*' then (x.go .tagStyleCssCommentEnd).skip
  else if ch = backslash then (x.go .tagStyleCssCommentBeginHack).skip
  else x.skip

/-- `trim_state_tag_style_css_comment_empty` and `trim_state_tag_style_css_comment_hack`, which have
a `*` behind them: at a slash the comment ends, and its beginning `held` is written. -/
def onCssCommentStar (after : State) (held : Emit) (x : Ctx) (ch : UInt8) : Turn :=
  if ch = byte '/' then ⟨x.go after, held, true⟩
  else if ch = byte '*' then (x.go .tagStyleCssCommentEnd).skip
  else if ch = backslash then (x.go .tagStyleCssCommentBeginHack).skip
  else (x.go .tagStyleCssComment).skip

/-- `trim_state_tag_style_css_comment_empty`. -/
def onTagStyleCssCommentEmpty : Ctx → UInt8 → Turn := onCssCommentStar .tagStyleCssText .jscss

/-- `trim_state_tag_style_css_comment_begin_hack`. -/
def onTagStyleCssCommentBeginHack (x : Ctx) (ch : UInt8) : Turn :=
  if ch = byte '*' then (x.go .tagStyleCssCommentHack).skip
  else (x.go .tagStyleCssComment).skip

/-- `trim_state_tag_style_css_comment_hack`. -/
def onTagStyleCssCommentHack : Ctx → UInt8 → Turn :=
  onCssCommentStar .tagStyleCssCommentHackText .hackcss

/-- `trim_state_tag_style_css_comment_hack_text`. -/
def onTagStyleCssCommentHackText (x : Ctx) (ch : UInt8) : Turn :=
  if ch = byte '/' then (x.go .tagStyleCssCommentHackTextBegin).keep else x.keep

/-- `trim_state_tag_style_css_comment_hack_text_begin`. -/
def onTagStyleCssCommentHackTextBegin (x : Ctx) (ch : UInt8) : Turn :=
  if ch = byte '*' then (x.go .tagStyleCssCommentHackTextEnd).keep
  else if ch = byte '/' then x.keep
  else (x.go .tagStyleCssCommentHackText).keep

/-- `trim_state_tag_style_css_comment_hack_text_end`. -/
def onTagStyleCssCommentHackTextEnd (x : Ctx) (ch : UInt8) : Turn :=
  if ch = byte '*' then (x.go .tagStyleCssCommentHackTextLast).keep else x.skip

/-- `trim_state_tag_style_css_comment_hack_text_last`. -/
def onTagStyleCssCommentHackTextLast (x : Ctx) (ch : UInt8) : Turn :=
  if ch = byte '*' then x.keep
  else if ch = byte '/' then (x.go .tagStyleCssText).keep
  else (x.go .tagStyleCssCommentHackTextEnd).keep

/-- `trim_state_tag_style_css_comment_end`. -/
def onTagStyleCssCommentEnd (x : Ctx) (ch : UInt8) : Turn :=
  if ch = byte '/' then (x.go .tagStyleCssText).skip
  else if ch = byte '*' then x.skip
  else if ch = backslash then (x.go .tagStyleCssCommentBeginHack).skip
  else (x.go .tagStyleCssComment).skip

/-! ### The parser -/

/-- The `switch` over the states. -/
def turn (x : Ctx) (ch : UInt8) : Turn :=
  match x.state with
  | .text => x.onText ch
  | .textWhitespace => x.onTextWhitespace ch
  | .tag => x.onTag ch
  | .tagText => x.onTagText ch
  | .tagAttribute => x.onTagAttribute ch
  | .tagWhitespace => x.onTagWhitespace ch
  | .tagSingleQuote => x.onTagQuote quote ch
  | .tagDoubleQuote => x.onTagQuote dquote ch
  | .tagS => x.onTagS ch
  | .tagPreBegin => x.onTagPreBegin ch
  | .tagPre => x.onTagPre ch
  | .tagPreAngle => x.onTagPreAngle ch
  | .tagPreNest => x.onTagPreNest ch
  | .tagPreEnd => x.onTagPreEnd ch
  | .tagTextareaBegin => x.onTagTextareaBegin ch
  | .tagTextareaEnd => x.onTagTextareaEnd ch
  | .tagStyleBegin => x.onTagStyleBegin ch
  | .tagStyleEnd => x.onTagStyleEnd ch
  | .tagStyleCssEnd => x.onTagStyleCssEnd ch
  | .tagStyleCssText => x.onTagStyleCssText ch
  | .tagStyleCssWhitespace => x.onTagStyleCssWhitespace ch
  | .tagStyleCssSingleQuote => x.onQuoted quote .tagStyleCssSingleQuoteEsc .tagStyleCssText ch
  | .tagStyleCssSingleQuoteEsc => (x.go .tagStyleCssSingleQuote).keep
  | .tagStyleCssDoubleQuote => x.onQuoted dquote .tagStyleCssDoubleQuoteEsc .tagStyleCssText ch
  | .tagStyleCssDoubleQuoteEsc => (x.go .tagStyleCssDoubleQuote).keep
  | .tagStyleCssComment => x.onTagStyleCssComment ch
  | .tagStyleCssCommentBegin => x.onTagStyleCssCommentBegin ch
  | .tagStyleCssCommentEnd => x.onTagStyleCssCommentEnd ch
  | .tagStyleCssCommentBeginEmpty => x.onTagStyleCssCommentBeginEmpty ch
  | .tagStyleCssCommentEmpty => x.onTagStyleCssCommentEmpty ch
  | .tagStyleCssCommentBeginHack => x.onTagStyleCssCommentBeginHack ch
  | .tagStyleCssCommentHack => x.onTagStyleCssCommentHack ch
  | .tagStyleCssCommentHackText => x.onTagStyleCssCommentHackText ch
  | .tagStyleCssCommentHackTextBegin => x.onTagStyleCssCommentHackTextBegin ch
  | .tagStyleCssCommentHackTextEnd => x.onTagStyleCssCommentHackTextEnd ch
  | .tagStyleCssCommentHackTextLast => x.onTagStyleCssCommentHackTextLast ch
  | .tagScriptBegin => x.onTagScriptBegin ch
  | .tagScriptEnd => x.onTagScriptEnd ch
  | .tagScriptJsEnd => x.onTagScriptJsEnd ch
  | .tagScriptJsText => x.onTagScriptJsText ch
  | .tagScriptJsSingleQuote => x.onQuoted quote .tagScriptJsSingleQuoteEsc .tagScriptJsText ch
  | .tagScriptJsSingleQuoteEsc => (x.go .tagScriptJsSingleQuote).keep
  | .tagScriptJsDoubleQuote => x.onQuoted dquote .tagScriptJsDoubleQuoteEsc .tagScriptJsText ch
  | .tagScriptJsDoubleQuoteEsc => (x.go .tagScriptJsDoubleQuote).keep
  | .tagScriptJsReBegin => x.onTagScriptJsReBegin ch
  | .tagScriptJsRe => x.onQuoted (byte '/') .tagScriptJsReEsc .tagScriptJsText ch
  | .tagScriptJsReEsc => (x.go .tagScriptJsRe).keep
  | .tagScriptJsWhitespace => x.onTagScriptJsWhitespace ch
  | .tagScriptJsCommentBegin => x.onTagScriptJsCommentBegin ch
  | .tagScriptJsSingleComment => x.onTagScriptJsSingleComment ch
  | .tagScriptJsSingleCommentEnd => x.onTagScriptJsSingleCommentEnd ch
  | .tagScriptJsMultiComment => x.onTagScriptJsMultiComment ch
  | .tagScriptJsMultiCommentEnd => x.onTagScriptJsMultiCommentEnd ch
  | .commentBegin => x.onCommentBegin ch
  | .commentIeBegin => x.onCommentIeBegin ch
  | .commentHackBegin => x.onCommentHackBegin ch
  | .commentEnd => x.onCommentEnd ch
  | .commentIeEnd => x.onCommentIeEnd ch
  | .commentHackEnd => x.onCommentHackEnd ch

end Ctx

/-- The variables of `ngx_http_trim_parse`: the context and `ctx->saved`, the memory of the buffer
and the memory that is written, which is the same one if `temporary` is set, and `write - b->pos`. -/
structure Parse where
  ctx : Ctx
  saved : ℤ
  temporary : Bool
  src : List UInt8
  dst : List UInt8
  write : ℕ

/-- Memory with a text written at a position. -/
def overwrite (mem : List UInt8) (pos : ℕ) (text : List UInt8) : List UInt8 :=
  mem.take pos ++ text ++ mem.drop (pos + text.length)

namespace Parse

/-- `write = ngx_cpymem(write, text)`. -/
def put (p : Parse) (text : List UInt8) : Parse :=
  let dst := overwrite p.dst p.write text
  { p with dst := dst, src := if p.temporary then dst else p.src, write := p.write + text.length }

/-- `*read`, with `read - buf->pos`. -/
def read (p : Parse) (pos : ℕ) : UInt8 := p.src.getD pos 0

/-- The text that is due is written here or left to the body filter. -/
def flush (p : Parse) (pos : ℕ) (emit : Emit) : Parse :=
  if emit = .nothing then p
  else if emit.need ≤ pos then p.put emit.text
  else { p with saved := emit.code }

/-- The turn at a position, up to the text that is due. -/
def due (p : Parse) (pos : ℕ) : Parse :=
  let turn := p.ctx.turn (tolower (p.read pos))
  { p with ctx := turn.ctx }.flush pos turn.emit

/-- The turn at a position: at its end `*write++ = *read` and `ctx->prev = *read`. -/
def step (p : Parse) (pos : ℕ) : Parse :=
  let turn := p.ctx.turn (tolower (p.read pos))
  let due := p.due pos
  if turn.keep then
    let written := due.put [due.read pos]
    { written with ctx := { written.ctx with prev := written.read pos } }
  else due

/-- The first `n` turns. -/
@[grind =]
def steps (p : Parse) : ℕ → Parse
  | 0 => p
  | n + 1 => (p.steps n).step n

end Parse

/-- A buffer of the response: its bytes, its flags, and what new memory of its size holds. -/
structure Buf where
  bytes : List UInt8
  temporary : Bool
  lastBuf : Bool
  fresh : ℕ → UInt8

/-- The loop of `ngx_http_trim_parse` starts. -/
def Buf.start (b : Buf) (ctx : Ctx) : Parse where
  ctx := ctx
  saved := 0
  temporary := b.temporary
  src := b.bytes
  dst := if b.temporary then b.bytes else (List.range b.bytes.length).map b.fresh
  write := 0

/-- `ngx_http_trim_parse`: a buffer without bytes has no turns. -/
def trimParse (ctx : Ctx) (b : Buf) : Parse := (b.start ctx).steps b.bytes.length

/-- The bytes between `b->pos` and `b->last`. -/
def Parse.out (p : Parse) : List UInt8 := p.dst.take p.write

/-! ### The body filter -/

/-- `ngx_http_trim_ctx_t`: `tin` and `tout` count the bytes. -/
structure TrimCtx where
  ctx : Ctx
  tin : ℕ
  tout : ℕ

/-- A buffer for the next filter. -/
structure Out where
  bytes : List UInt8
  lastBuf : Bool

/-- One turn of the loop of `ngx_http_trim_body_filter`: the text that was saved, and the rest of the
buffer; an empty buffer is passed on as a new one if it is the last. -/
def bodyFilterBuf (x : TrimCtx) (b : Buf) : TrimCtx × List Out :=
  let p := trimParse x.ctx b
  let saved := savedText p.saved
  (⟨p.ctx, x.tin + b.bytes.length, x.tout + saved.length + p.out.length⟩,
    (if p.saved ≠ 0 then [⟨saved, false⟩] else []) ++
      if p.out = [] then (if b.lastBuf then [⟨[], true⟩] else []) else [⟨p.out, b.lastBuf⟩])

/-- `ngx_http_trim_body_filter`. -/
@[grind =]
def bodyFilter (x : TrimCtx) : List Buf → TrimCtx × List Out
  | [] => (x, [])
  | b :: bs =>
    let first := bodyFilterBuf x b
    let rest := bodyFilter first.1 bs
    (rest.1, first.2 ++ rest.2)

/-- The calls of the filter, one after another. -/
@[grind =]
def calls (x : TrimCtx) : List (List Buf) → TrimCtx × List Out
  | [] => (x, [])
  | bs :: more =>
    let first := bodyFilter x bs
    let rest := calls first.1 more
    (rest.1, first.2 ++ rest.2)

/-- The context that `ngx_http_trim_header_filter` makes. -/
def TrimCtx.initial (jsEnable cssEnable : Bool) : TrimCtx :=
  ⟨⟨blank, 0, 0, .none, 0, .text, jsEnable, cssEnable⟩, 0, 0⟩

/-- The bytes that the filter passes on. -/
def sent (outs : List Out) : List UInt8 := outs.flatMap Out.bytes

end Hengine.Trim
