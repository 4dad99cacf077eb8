import Hengine.Core.DnsName
import Hengine.Core.SplitString

/-!
# Names in a DNS Query

The model of `ngx_resolver_create_name_query` and `ngx_resolver_create_srv_query` in
`ngx_resolver.c`. The name is written from its last byte down; a label of up to 255 bytes is
accepted, and its length is stored in a byte whose two upper bits say to the reader that it is no
length: from 64 bytes on the query cannot be read, and from 192 on it is a compression pointer.
The reader also takes no more than 128 turns, the zero byte being the last of them.
-/

namespace Hengine.Dns

open List Option

/-! ### The code -/

/-- `NGX_RESOLVE_A`, `NGX_RESOLVE_AAAA`, `NGX_RESOLVE_SRV`. -/
def resolveA : UInt8 := 1
def resolveAaaa : UInt8 := 28
def resolveSrv : UInt8 := 33

/-- The loop over the name, from its last byte on: `out` is what stands behind `p`, and `none` is
`NGX_DECLINED`. -/
def labelLoop : List UInt8 → List UInt8 → ℕ → Option (List UInt8)
  | [], out, len => if len = 0 ∨ 255 < len then none else some (UInt8.ofNat len :: out)
  | s :: rest, out, len =>
    if s ≠ 46 then labelLoop rest (s :: out) (len + 1)
    else if len = 0 ∨ 255 < len then none
    else labelLoop rest (UInt8.ofNat len :: out) 0

/-- `nlen`. -/
def nlen (name : List UInt8) : ℕ := if name = [] then 1 else 1 + name.length + 1

/-- `sizeof(ngx_resolver_hdr_t) + nlen + sizeof(ngx_resolver_qs_t)`. -/
def queryLen (name : List UInt8) : ℕ := 12 + nlen name + 4

/-- The header: the identifier, the recursion flag, and one question. -/
def header (ident : UInt8 × UInt8) : List UInt8 := [ident.1, ident.2, 1, 0, 0, 1, 0, 0, 0, 0, 0, 0]

/-- What both functions write to `rn->query`. -/
def createQuery (type : UInt8) (ident : UInt8 × UInt8) (name : List UInt8) : Option (List UInt8) :=
  if name = [] then none
  else
    match labelLoop name.reverse [0] 0 with
    | none => none
    | some encoded => some (header ident ++ encoded ++ [0, type, 0, 1])

/-- What is stored in the node. -/
structure Query where
  query : List UInt8
  query6 : Option (List UInt8)
  qlen : ℕ
deriving Repr, DecidableEq

/-- `ngx_resolver_create_srv_query`. -/
def createSrvQuery (ident : UInt8 × UInt8) (name : List UInt8) : Option Query :=
  (createQuery resolveSrv ident name).map fun query => ⟨query, none, queryLen name % 65536⟩

/-- The query for IPv6: `qlen` bytes of the other one, over what the memory held, with an
identifier and a type of its own. -/
def aaaaQuery (fresh : ℕ → UInt8) (ident6 : UInt8 × UInt8) (name query : List UInt8) (qlen : ℕ) :
    List UInt8 :=
  let p := query.take qlen ++ (List.range (queryLen name - qlen)).map fresh
  ((p.set 0 ident6.1).set 1 ident6.2).set (12 + nlen name + 1) resolveAaaa

/-- `ngx_resolver_create_name_query`. -/
def createNameQuery (ipv6 : Bool) (fresh : ℕ → UInt8) (ident ident6 : UInt8 × UInt8)
    (name : List UInt8) : Option Query :=
  (createQuery resolveA ident name).map fun query =>
    let qlen := queryLen name % 65536
    ⟨query, if ipv6 then some (aaaaQuery fresh ident6 name query qlen) else none, qlen⟩

/-! ### Reading a query back -/

/-- The stored length is that of the query, and the name in it is read as the name in lower
case. -/
def Readable (name query : List UInt8) (qlen : ℕ) : Prop :=
  qlen = query.length ∧ ∃ read, resolverCopy true true 128 (query.take qlen) 12 =
    some (.done (some read)) ∧ read.text = name.map tolower

/-- Both queries of a node can be read back. -/
def Query.Readable (q : Query) (name : List UInt8) : Prop :=
  Dns.Readable name q.query q.qlen ∧ ∀ query6 ∈ q.query6, Dns.Readable name query6 q.qlen

/-- The labels of a name fit the reader. -/
def Fits (name : List UInt8) : Prop :=
  (∀ l ∈ name.splitOn 46, l.length ≤ 63) ∧ (name.splitOn 46).length ≤ 127

instance (name : List UInt8) : Decidable (Fits name) := inferInstanceAs (Decidable (_ ∧ _))

/-- The labels as they are written. -/
def wire (ls : List (List UInt8)) : List UInt8 := ls.flatMap fun l => UInt8.ofNat l.length :: l

@[simp] theorem wire_cons (l : List UInt8) (ls : List (List UInt8)) :
    wire (l :: ls) = UInt8.ofNat l.length :: (l ++ wire ls) := rfl

/-- A label as the writer takes it. -/
structure Label (l : List UInt8) : Prop where
  pos : 0 < l.length
  le : l.length ≤ 255
  dot : 46 ∉ l

/-! ### Writing -/

/-- The loop goes back over the letters of a label. -/
theorem labelLoop_label : ∀ (y rest out : List UInt8) (len : ℕ), 46 ∉ y →
    labelLoop (y ++ rest) out len = labelLoop rest (y.reverse ++ out) (len + y.length)
  | [], rest, out, len, _ => rfl
  | c :: y, rest, out, len, h => by
    have hc : c ≠ 46 := fun h' => h (h' ▸ mem_cons_self)
    rw [cons_append, labelLoop, if_pos hc,
      labelLoop_label y rest _ _ fun h' => h (mem_cons_of_mem c h')]
    simp [Nat.add_comm, Nat.add_left_comm]

/-- Over a dot, the loop begins a label anew. -/
theorem labelLoop_dot : ∀ (r rest out : List UInt8) (len : ℕ),
    labelLoop (r ++ 46 :: rest) out len =
      (labelLoop r out len).bind fun out' => labelLoop rest out' 0
  | [], rest, out, len => by
    simp only [nil_append, labelLoop]
    split_ifs <;> simp_all
  | c :: r, rest, out, len => by
    simp only [cons_append, labelLoop]
    split_ifs <;> simp [labelLoop_dot r]

/-- **The last label** gets its length in front, and must be a label. -/
theorem labelLoop_single {x out out' : List UInt8} (hx : 46 ∉ x)
    (h : labelLoop x.reverse out 0 = some out') :
    Label x ∧ out' = UInt8.ofNat x.length :: (x ++ out) := by
  rw [← append_nil x.reverse, labelLoop_label _ _ _ _ (by simpa using hx)] at h
  simp only [labelLoop, reverse_reverse, length_reverse, Nat.zero_add] at h
  split_ifs at h with hbad
  rw [not_or, Nat.not_lt] at hbad
  cases h
  exact ⟨⟨Nat.pos_of_ne_zero hbad.1, hbad.2, hx⟩, rfl⟩

/-- **What is written for an accepted name**: its labels; and read with their dots they are the
name. -/
theorem labelLoop_spec (name : List UInt8) {out out' : List UInt8}
    (h : labelLoop name.reverse out 0 = some out') :
    (∀ l ∈ name.splitOn 46, Label l) ∧ out' = wire (name.splitOn 46) ++ out ∧
      dotted (name.splitOn 46) = name.map tolower ++ [46] := by
  obtain hx | ⟨x, rest, hx, rfl⟩ := SplitString.cut 46 name
  · obtain ⟨hlabel, hout⟩ := labelLoop_single hx h
    rw [splitOn_eq_singleton hx]
    exact ⟨by simpa using hlabel, by simp [hout, wire], by simp⟩
  · rw [reverse_append, reverse_cons, append_assoc, singleton_append,
      labelLoop_dot, bind_eq_some_iff] at h
    obtain ⟨mid, hmid, hlast⟩ := h
    obtain ⟨hlabels, hrest, hdotted⟩ := labelLoop_spec rest hmid
    obtain ⟨hlabel, hout⟩ := labelLoop_single hx hlast
    rw [splitOn_append_cons_self_of_not_mem hx]
    refine ⟨forall_mem_cons.mpr ⟨hlabel, hlabels⟩, by simp [hout, hrest], ?_⟩
    rw [dotted_cons, hdotted]
    simp [show tolower 46 = 46 by decide]
termination_by name.length
decreasing_by
  subst_vars
  simp
  omega

/-! ### Length bytes -/

/-- Only a dot is a dot in lower case. -/
theorem tolower_dot (c : UInt8) : tolower c = 46 ↔ c = 46 := by
  rw [tolower]
  split_ifs with hc
  · have hlow : 65 ≤ c.toNat := UInt8.le_iff_toNat_le.1 hc.1
    have hor : 65 ≤ (c ||| 0x20).toNat := by
      rw [UInt8.toNat_or]
      exact Nat.le_trans hlow Nat.left_le_or
    constructor <;> intro h
    · rw [h] at hor
      exact absurd hor (by decide)
    · rw [h] at hlow
      exact absurd hlow (by decide)
  · rfl

set_option maxRecDepth 8000 in
theorem upper_bits : ∀ k : Fin 256,
    (k.val &&& 192 = 0 ↔ k.val < 64) ∧ (k.val &&& 192 = 192 ↔ 192 ≤ k.val) := by
  decide

theorem label_type (n : UInt8) : n &&& 0xc0 = 0 ↔ n.toNat < 64 := by
  rw [← UInt8.toNat_inj, UInt8.toNat_and]
  exact (upper_bits ⟨n.toNat, n.toNat_lt⟩).1

theorem pointer_type (n : UInt8) : n &&& 0xc0 = 0xc0 ↔ 192 ≤ n.toNat := by
  rw [← UInt8.toNat_inj, UInt8.toNat_and]
  exact (upper_bits ⟨n.toNat, n.toNat_lt⟩).2

theorem Label.toNat {l : List UInt8} (h : Label l) : (UInt8.ofNat l.length).toNat = l.length := by
  have := h.le
  rw [UInt8.toNat_ofNat']
  omega

theorem Label.ne_zero {l : List UInt8} (h : Label l) : UInt8.ofNat l.length ≠ 0 := by
  intro h'
  have := h.pos
  rw [← h.toNat, h'] at this
  exact absurd this (by decide)

/-- No label in a query is longer than 63 bytes. -/
theorem Labels.length_le {buf : List UInt8} {p : ℕ} {ls : List (List UInt8)}
    (h : Labels buf p ls) : ∀ l ∈ ls, l.length ≤ 63 := by
  induction h with
  | nil _ => simp
  | pointer _ _ _ _ ih => exact ih
  | label _ _ htype _ _ ih =>
    have := (label_type _).mp htype
    refine forall_mem_cons.mpr ⟨?_, ih⟩
    rw [length_take]
    omega

/-! ### Reading what was written -/

/-- A response with the labels at the position behind `pre`. -/
def response (pre : List UInt8) (ls : List (List UInt8)) (post : List UInt8) : List UInt8 :=
  pre ++ (wire ls ++ 0 :: post)

theorem response_cons (pre : List UInt8) (l : List UInt8) (ls : List (List UInt8))
    (post : List UInt8) : response pre (l :: ls) post =
      response (pre ++ UInt8.ofNat l.length :: l) ls post := by
  simp [response]

theorem response_head (pre : List UInt8) (l : List UInt8) (ls : List (List UInt8))
    (post : List UInt8) :
    (response pre (l :: ls) post)[pre.length]? = some (UInt8.ofNat l.length) := by
  simp [response]

theorem response_label (pre : List UInt8) (l : List UInt8) (ls : List (List UInt8))
    (post : List UInt8) :
    ((response pre (l :: ls) post).drop (pre.length + 1)).take l.length = l := by
  rw [response, drop_append, drop_of_length_le (by omega)]
  simp

theorem response_nil (pre post : List UInt8) : (response pre [] post)[pre.length]? = some 0 := by
  simp [response, wire]

/-- The labels of a name stand in the response as they are written. -/
theorem labels_wire (post : List UInt8) : ∀ {ls : List (List UInt8)} (pre : List UInt8),
    (∀ l ∈ ls, Label l ∧ l.length ≤ 63) → Labels (response pre ls post) pre.length ls
  | [], pre, _ => .nil (response_nil pre post)
  | l :: ls, pre, h => by
    obtain ⟨⟨hl, hle⟩, hls⟩ := forall_mem_cons.mp h
    have hrest := labels_wire post (pre ++ UInt8.ofNat l.length :: l) hls
    have hlabel := Labels.label (response_head pre l ls post) hl.ne_zero
      ((label_type _).mpr (by rw [hl.toNat]; omega)) (by rw [hl.toNat]; simp [response]; omega)
      (by rw [response_cons, hl.toNat]; simpa [Nat.add_assoc, Nat.add_comm 1] using hrest)
    rwa [hl.toNat, response_label] at hlabel

/-- There is one reading only. -/
theorem Labels.unique {buf : List UInt8} {p : ℕ} {ls ls' : List (List UInt8)}
    (h : Labels buf p ls) (h' : Labels buf p ls') : ls = ls' := by
  induction h generalizing ls' with
  | nil h =>
    cases h' with
    | nil _ => rfl
    | pointer h' htype => cases h.symm.trans h'; exact absurd htype (by decide)
    | label h' hn => cases h.symm.trans h'; exact absurd rfl hn
  | pointer h htype hlo _ ih =>
    cases h' with
    | nil h' => cases h.symm.trans h'; exact absurd htype (by decide)
    | pointer h' _ hlo' hrest' =>
      cases h.symm.trans h'
      cases hlo.symm.trans hlo'
      exact ih hrest'
    | label h' _ htype' =>
      cases h.symm.trans h'
      rw [htype] at htype'
      exact absurd htype' (by decide)
  | label h hn htype _ _ ih =>
    cases h' with
    | nil h' => cases h.symm.trans h'; exact absurd rfl hn
    | pointer h' htype' =>
      cases h.symm.trans h'
      rw [htype] at htype'
      exact absurd htype' (by decide)
    | label h' _ _ _ hrest' => cases h.symm.trans h'; rw [ih hrest']

/-- **The turns it takes** to measure labels that are not too long. -/
theorem measure_wire {post : List UInt8} (hpost : post ≠ []) : ∀ {ls : List (List UInt8)}
    (pre : List UInt8) (turns len : ℕ), (∀ l ∈ ls, Label l ∧ l.length ≤ 63) →
      if ls.length < turns then
        ∃ total, measure (response pre ls post) turns pre.length len = .done total
      else measure (response pre ls post) turns pre.length len = .error .loop
  | _, _, 0, _, _ => rfl
  | [], pre, turns + 1, len, _ => by
    rw [if_pos (show List.length [] < turns + 1 from Nat.succ_pos turns), measure, response_nil]
    exact ⟨len, rfl⟩
  | l :: ls, pre, turns + 1, len, h => by
    obtain ⟨⟨hl, hle⟩, hls⟩ := forall_mem_cons.mp h
    have hnext := measure_wire hpost (pre ++ UInt8.ofNat l.length :: l) turns
      (len + (1 + l.length)) hls
    have hend : ¬ (response pre (l :: ls) post).length ≤ pre.length + 1 + l.length := by
      have := length_pos_iff.mpr hpost
      simp [response]
      omega
    have hpos : (pre ++ UInt8.ofNat l.length :: l).length = pre.length + 1 + l.length := by
      simp
      omega
    have hflags : UInt8.ofNat l.length &&& 0xc0 = 0 :=
      (label_type _).mpr (by rw [hl.toNat]; omega)
    have hstep : measure (response pre (l :: ls) post) (turns + 1) pre.length len =
        measure (response (pre ++ UInt8.ofNat l.length :: l) ls post) turns
          (pre ++ UInt8.ofNat l.length :: l).length (len + (1 + l.length)) := by
      rw [measure, response_head]
      dsimp only
      rw [if_neg hl.ne_zero, if_neg (by simpa using hflags), hl.toNat, if_neg hend, hpos,
        response_cons]
    simpa [hstep] using hnext

/-- **A long label is not read as itself.** -/
theorem labels_long {post : List UInt8} : ∀ {ls : List (List UInt8)} {pre : List UInt8}
    {ls' : List (List UInt8)}, (∀ l ∈ ls, Label l) → Labels (response pre ls post) pre.length ls' →
      dotted ls' = dotted ls → ∀ l ∈ ls, l.length ≤ 63
  | [], _, _, _, _, _ => by simp
  | l :: ls, pre, ls', h, hread, heq => by
    obtain ⟨hl, hls⟩ := forall_mem_cons.mp h
    have hhead := response_head pre l ls post
    cases hread with
    | nil hzero => exact absurd (Option.some.inj (hhead.symm.trans hzero)) hl.ne_zero
    | pointer hn htype _ hrest =>
      -- the labels behind the pointer are short, so a dot comes where the long label has none
      cases hhead.symm.trans hn
      have hlong : 192 ≤ l.length := by simpa [hl.toNat] using (pointer_type _).mp htype
      cases ls' with
      | nil => simp at heq
      | cons a as =>
        have ha := hrest.length_le a mem_cons_self
        have hdot : (dotted (a :: as))[a.length]? = some 46 := by simp
        have hin : (dotted (l :: ls))[a.length]? = (l.map tolower)[a.length]? := by
          rw [dotted_cons, append_assoc,
            getElem?_append_left (by rw [length_map]; omega)]
        rw [heq, hin, getElem?_map] at hdot
        obtain ⟨c, hc, hlow⟩ := map_eq_some_iff.mp hdot
        exact absurd ((tolower_dot c).mp hlow ▸ mem_of_getElem? hc) hl.dot
    | label hn _ htype _ hrest =>
      cases hhead.symm.trans hn
      have hshort := (label_type _).mp htype
      rw [hl.toNat] at hshort hrest heq
      rw [response_label] at heq
      have hpos : (pre ++ UInt8.ofNat l.length :: l).length = pre.length + 1 + l.length := by
        simp
        omega
      rw [response_cons, ← hpos] at hrest
      refine forall_mem_cons.mpr ⟨by omega, labels_long hls hrest ?_⟩
      simpa using heq

/-! ### The queries -/

theorem length_wire : ∀ ls : List (List UInt8), (wire ls).length = (dotted ls).length
  | [] => rfl
  | l :: ls => by
    simp [length_wire ls]
    omega

/-- The length of a name by its number of labels. -/
theorem length_dotted_le : ∀ {ls : List (List UInt8)}, (∀ l ∈ ls, l.length ≤ 63) →
    (dotted ls).length ≤ 64 * ls.length
  | [], _ => Nat.le_refl 0
  | l :: ls, h => by
    obtain ⟨hl, hls⟩ := forall_mem_cons.mp h
    have := length_dotted_le hls
    simp
    omega

/-- The labels of a name that was accepted. -/
structure Accepted (name : List UInt8) : Prop where
  ne : name ≠ []
  labels : ∀ l ∈ name.splitOn 46, Label l
  dotted : dotted (name.splitOn 46) = name.map tolower ++ [46]

section

variable {name : List UInt8} (h : Accepted name)
include h

/-- A response with this name is as long as the query. -/
theorem Accepted.length (pre post : List UInt8) (hpre : pre.length = 12)
    (hpost : post.length = 4) : (response pre (name.splitOn 46) post).length = queryLen name := by
  have hwire := length_wire (name.splitOn 46)
  rw [h.dotted] at hwire
  simp [response, hwire, hpre, hpost, queryLen, nlen, h.ne]
  omega

/-- The length of a query fits a `u_short`. -/
theorem Accepted.queryLen_lt (hfits : Fits name) : queryLen name < 65536 := by
  have hlen := length_dotted_le hfits.1
  have hcount := hfits.2
  rw [h.dotted] at hlen
  simp only [length_append, length_map, length_singleton] at hlen
  rw [queryLen, nlen, if_neg h.ne]
  omega

/-- **One query, exactly.** -/
theorem readable_response (pre post : List UInt8) (hpre : pre.length = 12)
    (hpost : post.length = 4) :
    Readable name (response pre (name.splitOn 46) post) (queryLen name % 65536) ↔ Fits name := by
  have hlen := h.length pre post hpre hpost
  have hne : post ≠ [] := fun h' => by simp [h'] at hpost
  constructor
  · rintro ⟨hqlen, read, hread, htext⟩
    rw [hqlen, take_length] at hread
    obtain ⟨len, hmeasure⟩ : ∃ len,
        measure (response pre (name.splitOn 46) post) 128 12 0 = .done len := by
      cases hmeasure : measure (response pre (name.splitOn 46) post) 128 12 0 with
      | done len => exact ⟨len, rfl⟩
      | _ => simp [resolverCopy, hmeasure] at hread
    obtain ⟨read', ls', hread', -, hls', hjoined⟩ := resolverCopy_of_measure hmeasure (.inr rfl)
    obtain rfl : read = read' := by simpa [hread] using hread'
    rw [htext] at hjoined
    have hls'ne : ls' ≠ [] := by
      rintro rfl
      exact h.ne (map_eq_nil_iff.mp hjoined)
    have hshort := labels_long h.labels (hpre ▸ hls') (by rw [dotted_eq hls'ne, h.dotted, hjoined])
    refine ⟨hshort, ?_⟩
    by_contra hcount
    have hloop := measure_wire hne pre 128 0 fun l hl => ⟨h.labels l hl, hshort l hl⟩
    rw [if_neg (by omega), hpre] at hloop
    rw [resolverCopy, hloop] at hread
    cases hread
  · intro hfits
    have hshort : ∀ l ∈ name.splitOn 46, Label l ∧ l.length ≤ 63 :=
      fun l hl => ⟨h.labels l hl, hfits.1 l hl⟩
    rw [Nat.mod_eq_of_lt (h.queryLen_lt hfits), ← hlen]
    refine ⟨rfl, ?_⟩
    rw [take_length]
    have hdone := measure_wire hne pre 128 0 hshort
    rw [if_pos (Nat.lt_succ_of_le hfits.2), hpre] at hdone
    obtain ⟨total, htotal⟩ := hdone
    obtain ⟨ls', hls', htotal', hcopy⟩ := measure_spec htotal
    obtain rfl : ls' = name.splitOn 46 := hls'.unique (hpre ▸ labels_wire post pre hshort)
    rw [h.dotted, Nat.zero_add] at htotal'
    refine ⟨⟨total, name.map tolower ++ [46], name.length⟩, ?_, by simp [Name.text]⟩
    rw [resolverCopy, htotal]
    dsimp only
    rw [hcopy total [] (by rw [h.dotted, htotal']; simp), h.dotted]
    simp [htotal']

end

/-- What both functions write holds the labels of the name behind the header. -/
theorem createQuery_eq {type : UInt8} {ident : UInt8 × UInt8} {name query : List UInt8}
    (h : createQuery type ident name = some query) :
    Accepted name ∧ query = response (header ident) (name.splitOn 46) [0, type, 0, 1] := by
  rw [createQuery] at h
  split_ifs at h with hne
  cases hloop : labelLoop name.reverse [0] 0 with
  | none =>
    rw [hloop] at h
    cases h
  | some encoded =>
    rw [hloop] at h
    cases h
    obtain ⟨hlabels, hout, hdotted⟩ := labelLoop_spec name hloop
    exact ⟨⟨hne, hlabels, hdotted⟩, by simp [hout, response]⟩

/-- With its whole length stored, the query for IPv6 differs in the identifier and the type. -/
theorem aaaaQuery_eq {fresh : ℕ → UInt8} {ident ident6 : UInt8 × UInt8} {name : List UInt8}
    (h : Accepted name) :
    aaaaQuery fresh ident6 name (response (header ident) (name.splitOn 46) [0, resolveA, 0, 1])
        (queryLen name) =
      response (header ident6) (name.splitOn 46) [0, resolveAaaa, 0, 1] := by
  have hlen := h.length (header ident) [0, resolveA, 0, 1] rfl rfl
  have hset : ∀ x : List UInt8, x.length = 12 + nlen name →
      (x ++ [0, resolveA, 0, 1]).set (12 + nlen name + 1) resolveAaaa = x ++ [0, resolveAaaa, 0,
        1] := by
    intro x hx
    rw [← hx, set_append_right _ _ (Nat.le_add_right x.length 1), Nat.add_sub_cancel_left]
    rfl
  have hwire : (wire (name.splitOn 46)).length = name.length + 1 := by
    rw [length_wire, h.dotted]
    simp
  have hsix := hset (header ident6 ++ (wire (name.splitOn 46) ++ [0]))
    (by simp [header, hwire, nlen, h.ne]; omega)
  rw [aaaaQuery, Nat.sub_self, ← hlen, take_length]
  simpa [response, header] using hsix

/-- **Queries that can be read back, exactly.** Where a function accepts a name, the query that it
stores can be read back as the name in lower case exactly if no label has more than 63 bytes and
there are at most 127 of them. -/
theorem readable_iff (ipv6 : Bool) (fresh : ℕ → UInt8) (ident ident6 : UInt8 × UInt8)
    (name : List UInt8) :
    (∀ q, createNameQuery ipv6 fresh ident ident6 name = some q → (q.Readable name ↔ Fits name)) ∧
      ∀ q, createSrvQuery ident name = some q → (q.Readable name ↔ Fits name) := by
  constructor
  · intro q hq
    rw [createNameQuery, map_eq_some_iff] at hq
    obtain ⟨query, hquery, rfl⟩ := hq
    obtain ⟨haccepted, rfl⟩ := createQuery_eq hquery
    have hone := readable_response haccepted (header ident) [0, resolveA, 0, 1] rfl rfl
    refine ⟨fun h => hone.mp h.1, fun hfits => ⟨hone.mpr hfits, fun query6 hquery6 => ?_⟩⟩
    dsimp only at hquery6 ⊢
    split_ifs at hquery6
    · cases hquery6
      rw [Nat.mod_eq_of_lt (haccepted.queryLen_lt hfits), aaaaQuery_eq haccepted,
        ← Nat.mod_eq_of_lt (haccepted.queryLen_lt hfits)]
      exact (readable_response haccepted _ _ rfl rfl).mpr hfits
    · cases hquery6
  · intro q hq
    rw [createSrvQuery, map_eq_some_iff] at hq
    obtain ⟨query, hquery, rfl⟩ := hq
    obtain ⟨haccepted, rfl⟩ := createQuery_eq hquery
    have hone := readable_response haccepted (header ident) [0, resolveSrv, 0, 1] rfl rfl
    exact ⟨fun h => hone.mp h.1, fun hfits => ⟨hone.mpr hfits, nofun⟩⟩

theorem readable_short :
    (⟨header (0, 0) ++ [1, 97, 1, 98, 0, 0, 33, 0, 1], none, 21⟩ : Query).Readable [97, 46, 98] :=
  ((readable_iff false (fun _ => 0) (0, 0) (0, 0) [97, 46, 98]).2 _ (by decide)).mpr (by decide)

/-- A name of 64 bytes is accepted, and its query cannot be read back. -/
theorem long_label :
    ¬ ∀ name q, createSrvQuery (0, 0) name = some q → q.Readable name := by
  intro h
  have hq : createSrvQuery (0, 0) (List.replicate 64 97) =
      some ⟨header (0, 0) ++ (64 :: List.replicate 64 97) ++ [0, 0, 33, 0, 1], none, 82⟩ := by
    decide
  have herror : resolverCopy true true 128
      ((header (0, 0) ++ (64 :: List.replicate 64 97) ++ [0, 0, 33, 0, 1]).take 82) 12 =
        some (.error .labelType) := by
    decide
  obtain ⟨-, read, hread, -⟩ := (h _ _ hq).1
  rw [herror] at hread
  cases hread

end Hengine.Dns
