import Hengine.Upstream.DyupsTable

/-!
# Routing by Tags

The model of `ngx_ingress_get_tag_match_service` in `ngx_ingress_module.c`, with the functions it
calls for one item and with `ngx_http_header_in`. An item names a tag of the request and the value
it must have; a rule is a list of items, and the service of the first router with a rule whose
items all match is taken.

`ngx_ingress_get_req_tag_value` gives an empty value for a tag that it does not find, and reports
success, so its caller's branch for a missing tag is never taken: an item that is configured with
an empty value **slips** through where its tag is missing.
-/

namespace Hengine.Ingress

open List

open Dyups (sameHost hostKey)

/-- `Ingress__LocationType`. -/
inductive LocationType
  | locHttpHeader
  | locHttpQuery
  | locNginxVar
  | locXBizInfo
  | unknown (location : ℕ)
deriving Repr, DecidableEq

/-- `Ingress__MatchType`. -/
inductive MatchType
  | wholeMatch
  | prefixMatch
  | suffixMatch
  | regMatch
  | unknown (matchType : ℕ)
deriving Repr, DecidableEq

/-- A header line of the request; one with `hash` zero has been removed. -/
structure Header where
  hash : ℕ
  key : List UInt8
  value : List UInt8
deriving Repr, DecidableEq

/-- What a request carries: its header lines, and the tags of the sources that the module does not
read yet. -/
structure Request where
  headers : List Header
  elsewhere : LocationType → List UInt8 → Option (List UInt8)

/-- `ngx_ingress_tag_item_t`. -/
structure TagItem where
  location : LocationType
  key : List UInt8
  value : List UInt8
  matchType : MatchType
deriving Repr, DecidableEq

/-- `ngx_ingress_tag_rule_t`. -/
structure TagRule where
  items : List TagItem

/-- `ngx_ingress_service_t`, with the targets of its upstreams. -/
structure Service where
  name : List UInt8
  upstreams : List (List UInt8)
deriving Repr, DecidableEq

/-- `ngx_ingress_tag_router_t`. -/
structure TagRouter where
  rules : List TagRule
  service : Service

/-! ### The code -/

/-- `ngx_http_header_in`, over the lines of all parts of the list. -/
def headerIn (name : List UInt8) : List Header → Option (List UInt8)
  | [] => none
  | header :: headers =>
    if header.hash = 0 then headerIn name headers
    else if sameHost header.key name then some header.value
    else headerIn name headers

/-- `ngx_ingress_cmp_tag_value`: the other comparisons are not written yet. -/
def cmpTagValue (matchType : MatchType) (value1 value2 : List UInt8) : Bool :=
  match matchType with
  | .wholeMatch => sameHost value1 value2
  | _ => false

/-- `ngx_ingress_get_req_tag_value`: `NGX_OK` with a value, whatever was found. -/
def getReqTagValue (r : Request) (location : LocationType) (key : List UInt8) :
    Option (List UInt8) :=
  let found :=
    match location with
    | .locHttpHeader => headerIn key r.headers
    | _ => none
  match found with
  | some value => some value
  | none => some []

/-- The turn of the innermost loop for one item. -/
def matchItem (r : Request) (item : TagItem) : Bool :=
  match getReqTagValue r item.location item.key with
  | none => false
  | some value => cmpTagValue item.matchType item.value value

/-- The loop over the items: whether it ran to its end. -/
def matchItems (r : Request) : List TagItem → Bool
  | [] => true
  | item :: items => if matchItem r item then matchItems r items else false

/-- `ngx_ingress_check_upstream_enable`. -/
def checkUpstreamEnable (service : Service) : Bool := !service.upstreams.isEmpty

/-- The loop over the rules of a router: whether it returns the service. -/
def matchRules (r : Request) (service : Service) : List TagRule → Bool
  | [] => false
  | rule :: rules =>
    if matchItems r rule.items && checkUpstreamEnable service then true
    else matchRules r service rules

/-- `ngx_ingress_get_tag_match_service`. -/
def getTagMatchService (r : Request) : List TagRouter → Option Service
  | [] => none
  | router :: tags =>
    if matchRules r router.service router.rules then some router.service
    else getTagMatchService r tags

/-! ### What a rule asks for -/

/-- The value of a tag that is present in the request. -/
def Request.tag (r : Request) (location : LocationType) (key : List UInt8) :
    Option (List UInt8) :=
  match location with
  | .locHttpHeader => headerIn key r.headers
  | _ => r.elsewhere location key

/-- An item is **satisfied**: the tag it names is present, and has the configured value by the
comparison of the item. -/
def Satisfied (r : Request) (item : TagItem) : Prop :=
  ∃ value, r.tag item.location item.key = some value ∧
    cmpTagValue item.matchType item.value value = true

/-- A rule of the list has all its items satisfied. -/
def SomeRule (r : Request) (tags : List TagRouter) : Prop :=
  ∃ router ∈ tags, ∃ rule ∈ router.rules, ∀ item ∈ rule.items, Satisfied r item

/-- An item **slips** through: it is configured with an empty value for the whole match, and the
module does not find its tag. -/
def Slips (r : Request) (item : TagItem) : Prop :=
  item.matchType = .wholeMatch ∧ item.value = [] ∧
    (item.location = .locHttpHeader → headerIn item.key r.headers = none)

/-! ### One item -/

/-- Two values match when they are equal but for the case of letters. -/
theorem cmpTagValue_iff (matchType : MatchType) (value1 value2 : List UInt8) :
    cmpTagValue matchType value1 value2 = true ↔
      matchType = .wholeMatch ∧ hostKey value1 = hostKey value2 := by
  cases matchType <;> simp [cmpTagValue, Dyups.sameHost_iff]

/-- An empty value is matched by the whole match of nothing alone. -/
theorem cmpTagValue_nil (matchType : MatchType) (value : List UInt8) :
    cmpTagValue matchType value [] = true ↔ matchType = .wholeMatch ∧ value = [] := by
  rw [cmpTagValue_iff, hostKey, hostKey]
  refine and_congr_right fun _ => ⟨fun h => ?_, fun h => by rw [h]⟩
  exact length_eq_zero_iff.mp (congrArg Prod.fst h)

/-- **The items that match** are those that a header satisfies, and those that slip. -/
theorem matchItem_iff (r : Request) (item : TagItem) :
    matchItem r item = true ↔
      item.location = .locHttpHeader ∧ Satisfied r item ∨ Slips r item := by
  obtain ⟨location, key, value, matchType⟩ := item
  cases location with
  | locHttpHeader =>
    cases hfound : headerIn key r.headers with
    | none => simp [matchItem, getReqTagValue, hfound, Satisfied, Request.tag, Slips, cmpTagValue_nil]
    | some found => simp [matchItem, getReqTagValue, hfound, Satisfied, Request.tag, Slips]
  | _ => simp [matchItem, getReqTagValue, Slips, cmpTagValue_nil]

/-! ### The loops -/

/-- All items have to match. -/
theorem matchItems_iff (r : Request) (items : List TagItem) :
    matchItems r items = true ↔ ∀ item ∈ items, matchItem r item = true := by
  induction items with
  | nil => simp [matchItems]
  | cons item items ih =>
    rw [matchItems, forall_mem_cons, ← ih]
    cases matchItem r item <;> simp

/-- **Rules match** when one of them does. -/
theorem matchRules_iff (r : Request) (service : Service) (rules : List TagRule) :
    matchRules r service rules = true ↔
      checkUpstreamEnable service = true ∧ ∃ rule ∈ rules, matchItems r rule.items = true := by
  induction rules with
  | nil => simp [matchRules]
  | cons rule rules ih =>
    rw [matchRules, exists_mem_cons_iff]
    cases matchItems r rule.items <;> cases henable : checkUpstreamEnable service <;>
      simp [ih, henable]

/-- **A service is returned** when an enabled router has a rule whose items all match. -/
theorem getTagMatchService_isSome_iff (r : Request) (tags : List TagRouter) :
    (getTagMatchService r tags).isSome ↔
      ∃ router ∈ tags, checkUpstreamEnable router.service = true ∧
        ∃ rule ∈ router.rules, ∀ item ∈ rule.items,
          item.location = .locHttpHeader ∧ Satisfied r item ∨ Slips r item := by
  simp only [← matchItem_iff, ← matchItems_iff, ← matchRules_iff]
  induction tags with
  | nil => simp [getTagMatchService]
  | cons router tags ih =>
    rw [getTagMatchService, exists_mem_cons_iff]
    cases matchRules r router.service router.rules <;> simp [ih]

/-- **Soundness, exactly.** A service is returned only if some rule has all its items satisfied,
unless an enabled router has a rule that matches by items that slip. -/
theorem routes_sound_iff (r : Request) (tags : List TagRouter) :
    (∀ service, getTagMatchService r tags = some service → SomeRule r tags) ↔
      (SomeRule r tags ∨
        ∀ router ∈ tags, checkUpstreamEnable router.service = true →
          ∀ rule ∈ router.rules, ∃ item ∈ rule.items,
            ¬ (item.location = .locHttpHeader ∧ Satisfied r item) ∧ ¬ Slips r item) := by
  have hsome := getTagMatchService_isSome_iff r tags
  rw [← exists_imp, ← Option.isSome_iff_exists, hsome]
  constructor
  · intro hsound
    by_cases hrule : SomeRule r tags
    · exact .inl hrule
    · refine .inr fun router hrouter henable rule hmem => ?_
      by_contra hnone
      refine hrule (hsound ⟨router, hrouter, henable, rule, hmem, fun item hitem => ?_⟩)
      by_contra hmatch
      exact hnone ⟨item, hitem, not_or.mp hmatch⟩
  · rintro (hrule | hnone) ⟨router, hrouter, henable, rule, hmem, hall⟩
    · exact hrule
    · obtain ⟨item, hitem, hnot, hslips⟩ := hnone router hrouter henable rule hmem
      exact ((hall item hitem).elim hnot hslips).elim

/-- A request without headers. -/
def bare : Request := ⟨[], fun _ _ => none⟩

/-- One rule, that the header `x` is empty. -/
def blankRule : List TagRouter :=
  [⟨[⟨[⟨.locHttpHeader, [120], [], .wholeMatch⟩]⟩], ⟨[115], [[117]]⟩⟩]

/-- The request without the header is routed by the rule. -/
theorem blankRule_routes :
    ¬ ∀ service, getTagMatchService bare blankRule = some service → SomeRule bare blankRule := by
  intro h
  obtain ⟨router, hrouter, rule, hrule, hall⟩ := h ⟨[115], [[117]]⟩ (by decide)
  rw [blankRule, mem_singleton] at hrouter
  subst hrouter
  obtain rfl := mem_singleton.mp hrule
  obtain ⟨value, htag, -⟩ := hall _ (mem_singleton_self _)
  cases htag

end Hengine.Ingress
