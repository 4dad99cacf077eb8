import Hengine.Core.Inet
import Hengine.Lib.Tables

/-!
# The PROXY protocol

The model of `ngx_proxy_protocol.c`, with `ngx_sock_ntop` as it is called there (without a port) and
`ngx_atoi`.

The reader has the bytes between `buf` and `last`, a list, and a pointer into them is a number. Every byte
is read through `buf[p]?` or `slice`, which give `none` behind `last`: a run that is `none` has read a byte
it must not read. Where the source returns `NULL` or a pointer there is an option inside. What an
allocation from the pool gives is told by `alloc`, one answer for each call.
-/

namespace Hengine.Proxy

open Option List

open Hengine.Inet

/-! ### Addresses -/

/-- The 16 bytes of an IPv6 address. -/
structure In6Addr where
  bytes : List UInt8
  length_eq : bytes.length = 16

/-- `struct sockaddr` of the three families. -/
inductive SockAddr where
  | inet (a b c d : UInt8) (port : UInt16)
  | inet6 (addr : In6Addr) (port : UInt16)
  | unix (path : List UInt8)

/-- `ngx_sock_ntop` without a port. A text for which `len` is too short is cut. -/
def sockNtop (sa : SockAddr) (len : ℕ) : List UInt8 :=
  match sa with
  | .inet a b c d _ => (sprintfDotted a b c d).take len
  | .inet6 addr _ => inet6Ntop addr.bytes len
  | .unix path => (("unix:".toUTF8.toList ++ path ++ [0]).take len).dropLast

/-- `ngx_inet_get_port`. -/
def SockAddr.getPort : SockAddr → UInt16
  | .inet _ _ _ _ port => port
  | .inet6 _ port => port
  | .unix _ => 0

/-- `ngx_atoi`; `none` is `NGX_ERROR`. -/
@[grind =]
def atoiLoop : List UInt8 → ℕ → Option ℕ
  | [], value => some value
  | c :: line, value =>
    if c < 0x30 ∨ 0x39 < c then none
    else if 922337203685477580 ≤ value ∧ (922337203685477580 < value ∨ 7 < (c - 0x30).toNat) then none
    else atoiLoop line (value * 10 + (c - 0x30).toNat)

@[inherit_doc atoiLoop]
def atoi (line : List UInt8) : Option ℕ := if line = [] then none else atoiLoop line 0

/-! ### Reading bytes -/

/-- Some bytes, none of them behind `last`. -/
def slice (buf : List UInt8) (p n : ℕ) : Option (List UInt8) :=
  if p + n ≤ buf.length then some ((buf.drop p).take n) else none

/-- `ngx_strncmp(p, lit, n) == 0`. -/
@[grind =]
def strncmp (buf : List UInt8) : List UInt8 → ℕ → Option Bool
  | [], _ => some true
  | c :: lit, p => (buf[p]?).bind fun ch => if ch = c then strncmp buf lit (p + 1) else some false

/-- `ngx_proxy_protocol_t`. -/
structure ProxyProtocol where
  srcAddr : List UInt8
  dstAddr : List UInt8
  srcPort : UInt16
  dstPort : UInt16
  deriving DecidableEq

/-- What a call leaves: the pointer that is returned, and `c->proxy_protocol`. -/
structure Outcome where
  pos : Option ℕ
  proxyProtocol : Option ProxyProtocol
  deriving DecidableEq

/-- What follows a call that may return `NULL`, where the label `invalid` does. -/
def orInvalid {α : Type} (prior : Option ProxyProtocol) (r : Option (Option α))
    (next : α → Option Outcome) : Option Outcome :=
  r.bind fun r => match r with
    | none => some ⟨none, prior⟩
    | some a => next a

/-! ### Version 1 -/

/-- The loop of `ngx_proxy_protocol_read_addr`. -/
def readAddrLoop (buf : List UInt8) (p : ℕ) : Option (Option ℕ) :=
  if p = buf.length then some none
  else
    match h : buf[p]? with
    | none => none
    | some ch =>
      if ch = 0x20 then some (some (p + 1))
      else if ch ≠ 0x3a ∧ ch ≠ 0x2e ∧ (ch < 0x61 ∨ 0x66 < ch) ∧ (ch < 0x41 ∨ 0x46 < ch) ∧
        (ch < 0x30 ∨ 0x39 < ch) then some none
      else readAddrLoop buf (p + 1)
termination_by buf.length - p
decreasing_by
  obtain ⟨hlt, -⟩ := List.getElem?_eq_some_iff.1 h
  omega

/-- `ngx_proxy_protocol_read_addr`: the address and the pointer behind the blank. -/
def readAddr (buf : List UInt8) (p : ℕ) (alloc : Bool) : Option (Option (List UInt8 × ℕ)) :=
  (readAddrLoop buf p).bind fun q => match q with
    | none => some none
    | some q =>
      if alloc then (slice buf p (q - p - 1)).map fun addr => some (addr, q)
      else some none

/-- The loop of `ngx_proxy_protocol_read_port`. -/
def readPortLoop (buf : List UInt8) (p : ℕ) (sep : UInt8) : Option (Option ℕ) :=
  if p = buf.length then some none
  else
    match h : buf[p]? with
    | none => none
    | some ch => if ch = sep then some (some (p + 1)) else readPortLoop buf (p + 1) sep
termination_by buf.length - p
decreasing_by
  obtain ⟨hlt, -⟩ := List.getElem?_eq_some_iff.1 h
  omega

/-- `ngx_proxy_protocol_read_port`: the port and the pointer behind the separator. -/
def readPort (buf : List UInt8) (p : ℕ) (sep : UInt8) : Option (Option (UInt16 × ℕ)) :=
  (readPortLoop buf p sep).bind fun q => match q with
    | none => some none
    | some q =>
      (slice buf p (q - p - 1)).map fun line =>
        match atoi line with
        | none => none
        | some n => if 65535 < n then none else some (n.toUInt16, q)

/-- The loop behind the label `skip`. -/
def skipLine (buf : List UInt8) (p : ℕ) : Option (Option ℕ) :=
  if h : p + 1 < buf.length then
    (buf[p]?).bind fun ch =>
      if ch = 0x0d then
        (buf[p + 1]?).bind fun next =>
          if next = 0x0a then some (some (p + 2)) else skipLine buf (p + 1)
      else skipLine buf (p + 1)
  else some none
termination_by buf.length - p

/-- The two addresses and the two ports of version 1, from the first address on. -/
def readTcp (alloc : ℕ → Bool) (buf : List UInt8) (prior : Option ProxyProtocol) : Option Outcome :=
  if alloc 0 then
    orInvalid prior (readAddr buf 11 (alloc 1)) fun src =>
    orInvalid prior (readAddr buf src.2 (alloc 2)) fun dst =>
    orInvalid prior (readPort buf dst.2 0x20) fun srcPort =>
    orInvalid prior (readPort buf srcPort.2 0x0d) fun dstPort =>
      if dstPort.2 = buf.length then some ⟨none, prior⟩
      else (buf[dstPort.2]?).bind fun ch =>
        if ch ≠ 0x0a then some ⟨none, prior⟩
        else some ⟨some (dstPort.2 + 1), some ⟨src.1, dst.1, srcPort.1, dstPort.1⟩⟩
  else some ⟨none, prior⟩

/-- `p[3]` and `p[4]` are the rest of `TCP4 ` or `TCP6 `. -/
def isTcp (buf : List UInt8) : Option Bool :=
  if buf.length - 6 < 5 then some false
  else (strncmp buf "TCP".toUTF8.toList 6).bind fun tcp =>
    if tcp then
      (buf[9]?).bind fun version =>
        if version ≠ 0x34 ∧ version ≠ 0x36 then some false
        else (buf[10]?).map fun blank => blank = 0x20
    else some false

/-- `UNKNOWN` is in the place of `TCP4` or `TCP6`. -/
def isUnknown (buf : List UInt8) : Option Bool :=
  if 7 ≤ buf.length - 6 then strncmp buf "UNKNOWN".toUTF8.toList 6 else some false

/-- A header of version 1. -/
def readV1 (alloc : ℕ → Bool) (buf : List UInt8) (prior : Option ProxyProtocol) : Option Outcome :=
  if buf.length < 8 then some ⟨none, prior⟩
  else (strncmp buf "PROXY ".toUTF8.toList 0).bind fun proxy =>
    if proxy then
      (isUnknown buf).bind fun unknown =>
        if unknown then (skipLine buf 13).map fun p => ⟨p, prior⟩
        else (isTcp buf).bind fun tcp =>
          if tcp then readTcp alloc buf prior else some ⟨none, prior⟩
    else some ⟨none, prior⟩

/-! ### Version 2 -/

/-- `signature`. -/
def signature : List UInt8 :=
  [0x0d, 0x0a, 0x0d, 0x0a, 0x00, 0x0d, 0x0a, 0x51, 0x55, 0x49, 0x54, 0x0a]

/-- `ngx_proxy_protocol_parse_uint16`. -/
def parseUint16 (h l : UInt8) : UInt16 := (h.toUInt16 <<< 8) ||| l.toUInt16

/-- `NGX_SOCKADDR_STRLEN`. -/
def sockaddrStrLen : ℕ := 113

/-- An address of version 2 in bytes, as the family has it. -/
def sockaddrOf (bytes : List UInt8) (inet6 : Bool) : SockAddr :=
  if h : inet6 ∧ bytes.length = 16 then .inet6 ⟨bytes, h.2⟩ 0
  else .inet (bytes.getD 0 0) (bytes.getD 1 0) (bytes.getD 2 0) (bytes.getD 3 0) 0

/-- What is recorded of an address block of version 2: two addresses of `n` bytes and two ports. -/
def readBlock (alloc : ℕ → Bool) (block : List UInt8) (inet6 : Bool) (last : ℕ)
    (prior : Option ProxyProtocol) : Outcome :=
  let n := if inet6 then 16 else 4
  if alloc 1 ∧ alloc 2 then
    ⟨some last, some {
      srcAddr := sockNtop (sockaddrOf (block.take n) inet6) sockaddrStrLen
      dstAddr := sockNtop (sockaddrOf ((block.drop n).take n) inet6) sockaddrStrLen
      srcPort := parseUint16 (block.getD (2 * n) 0) (block.getD (2 * n + 1) 0)
      dstPort := parseUint16 (block.getD (2 * n + 2) 0) (block.getD (2 * n + 3) 0) }⟩
  else ⟨none, prior⟩

/-- `ngx_proxy_protocol_v2_read`. -/
def v2Read (alloc : ℕ → Bool) (buf : List UInt8) (prior : Option ProxyProtocol) : Option Outcome :=
  (slice buf 12 4).bind fun header =>
    let versionCommand := header.getD 0 0
    let familyTransport := header.getD 1 0
    let len := (parseUint16 (header.getD 2 0) (header.getD 3 0)).toNat
    if versionCommand >>> 4 ≠ 2 then some ⟨none, prior⟩
    else if buf.length - 16 < len then some ⟨none, prior⟩
    else if versionCommand &&& 0x0f ≠ 1 then some ⟨some (16 + len), prior⟩
    else if familyTransport &&& 0x0f ≠ 1 then some ⟨some (16 + len), prior⟩
    else if alloc 0 then
      if familyTransport >>> 4 = 1 then
        if len < 12 then some ⟨none, prior⟩
        else (slice buf 16 12).map fun block => readBlock alloc block false (16 + len) prior
      else if familyTransport >>> 4 = 2 then
        if len < 36 then some ⟨none, prior⟩
        else (slice buf 16 36).map fun block => readBlock alloc block true (16 + len) prior
      else some ⟨some (16 + len), prior⟩
    else some ⟨none, prior⟩

/-- `ngx_proxy_protocol_read`. -/
def read (alloc : ℕ → Bool) (buf : List UInt8) (prior : Option ProxyProtocol) : Option Outcome :=
  if 16 ≤ buf.length then
    (slice buf 0 12).bind fun begin =>
      if begin = signature then v2Read alloc buf prior else readV1 alloc buf prior
  else readV1 alloc buf prior

/-! ### Writing -/

/-- What `ngx_proxy_protocol_write` has of a connection, and whether
`ngx_connection_local_sockaddr` returns `NGX_OK`. -/
structure Connection where
  sockaddr : SockAddr
  localSockaddr : SockAddr
  localOk : Bool

/-- `ngx_proxy_protocol_write` into `size` bytes; `none` is `NULL`. -/
def write (c : Connection) (size : ℕ) : Option (List UInt8) :=
  if size < 107 then none
  else if c.localOk then
    match c.sockaddr with
    | .unix _ => some "PROXY UNKNOWN\r\n".toUTF8.toList
    | sa =>
      let head := match sa with
        | .inet6 _ _ => "PROXY TCP6 ".toUTF8.toList
        | _ => "PROXY TCP4 ".toUTF8.toList
      let src := head ++ sockNtop sa (size - head.length) ++ [0x20]
      let dst := src ++ sockNtop c.localSockaddr (size - src.length)
      some (dst ++ (0x20 :: (sprintfDec sa.getPort.toNat ++ 0x20 ::
        (sprintfDec c.localSockaddr.getPort.toNat ++ [0x0d, 0x0a]))).take (size - dst.length))
  else none

/-! ### No byte behind the end is read -/

/-- A result that was found without reading behind `last`, and is `NULL` or has a property. -/
def Ends {α : Type} (P : α → Prop) (r : Option (Option α)) : Prop :=
  ∃ x, r = some x ∧ ∀ a, x = some a → P a

/-- What a call may leave: an error leaves `c->proxy_protocol` as it is, and a pointer is behind `buf`
and not behind `last`. -/
def Safe (buf : List UInt8) (prior : Option ProxyProtocol) (r : Option Outcome) : Prop :=
  ∃ o, r = some o ∧ ((o.pos = none ∧ o.proxyProtocol = prior) ∨
    ∃ p, o.pos = some p ∧ 0 < p ∧ p ≤ buf.length)

variable {buf : List UInt8} {prior : Option ProxyProtocol}

theorem Safe.null : Safe buf prior (some ⟨none, prior⟩) := ⟨_, rfl, .inl ⟨rfl, rfl⟩⟩

theorem Safe.ptr {p : ℕ} {pp : Option ProxyProtocol} (h₀ : 0 < p) (h : p ≤ buf.length) :
    Safe buf prior (some ⟨some p, pp⟩) := ⟨_, rfl, .inr ⟨p, rfl, h₀, h⟩⟩

/-- A branch is safe when both ways are. -/
theorem Safe.ite {c : Prop} [Decidable c] {r r' : Option Outcome} (hr : c → Safe buf prior r)
    (hr' : ¬ c → Safe buf prior r') : Safe buf prior (if c then r else r') :=
  iteInduction hr hr'

/-- A step that ends where the rest is safe is safe, whether it fails or not. -/
theorem Safe.orInvalid {α : Type} {P : α → Prop} {r : Option (Option α)} {next : α → Option Outcome}
    (hr : Ends P r) (hnext : ∀ a, P a → Safe buf prior (next a)) :
    Safe buf prior (Proxy.orInvalid prior r next) := by
  obtain ⟨x, rfl, hx⟩ := hr
  cases x with
  | none => exact .null
  | some a => exact hnext a (hx a rfl)

theorem getElem?_below (buf : List UInt8) {p : ℕ} (h : p < buf.length) : ∃ ch, buf[p]? = some ch :=
  ⟨buf[p], getElem?_eq_getElem h⟩

theorem slice_within {p n : ℕ} (h : p + n ≤ buf.length) :
    slice buf p n = some ((buf.drop p).take n) := by
  rw [slice, if_pos h]

/-- A comparison that ends inside the buffer reads nothing behind it. -/
theorem strncmp_within : ∀ (lit : List UInt8) {p : ℕ}, p + lit.length ≤ buf.length →
    ∃ b, strncmp buf lit p = some b
  | [], _, _ => ⟨true, rfl⟩
  | c :: lit, p, h => by
    rw [length_cons] at h
    obtain ⟨ch, hch⟩ := getElem?_below buf (by omega : p < _)
    rw [strncmp, hch, bind_some]
    by_cases heq : ch = c
    · rw [if_pos heq]
      exact strncmp_within lit (by omega)
    · exact ⟨false, if_neg heq⟩

/-- An address ends in front of `last`. -/
theorem readAddrLoop_ends (n : ℕ) : ∀ {p : ℕ}, p + n = buf.length →
    Ends (fun q => p < q ∧ q ≤ buf.length) (readAddrLoop buf p) := by
  induction n with
  | zero =>
    intro p hp
    rw [readAddrLoop, if_pos (by omega)]
    exact ⟨none, rfl, nofun⟩
  | succ n ih =>
    intro p hp
    obtain ⟨ch, hch⟩ := getElem?_below buf (by omega : p < _)
    rw [readAddrLoop, if_neg (by omega)]
    split
    · rename_i hnone
      rw [hch] at hnone
      cases hnone
    · split_ifs
      · refine ⟨_, rfl, fun q hq => ?_⟩
        cases hq
        omega
      · exact ⟨none, rfl, nofun⟩
      · obtain ⟨x, hx, hP⟩ := ih (p := p + 1) (by omega)
        refine ⟨x, hx, fun q hq => ?_⟩
        obtain ⟨hlt, hle⟩ := hP q hq
        omega

/-- A port ends in front of `last`. -/
theorem readPortLoop_ends (sep : UInt8) (n : ℕ) : ∀ {p : ℕ}, p + n = buf.length →
    Ends (fun q => p < q ∧ q ≤ buf.length) (readPortLoop buf p sep) := by
  induction n with
  | zero =>
    intro p hp
    rw [readPortLoop, if_pos (by omega)]
    exact ⟨none, rfl, nofun⟩
  | succ n ih =>
    intro p hp
    obtain ⟨ch, hch⟩ := getElem?_below buf (by omega : p < _)
    rw [readPortLoop, if_neg (by omega)]
    split
    · rename_i hnone
      rw [hch] at hnone
      cases hnone
    · split_ifs
      · refine ⟨_, rfl, fun q hq => ?_⟩
        cases hq
        omega
      · obtain ⟨x, hx, hP⟩ := ih (p := p + 1) (by omega)
        refine ⟨x, hx, fun q hq => ?_⟩
        obtain ⟨hlt, hle⟩ := hP q hq
        omega

/-- An address is read inside the buffer, and the reading goes on behind it. -/
theorem readAddr_ends {p : ℕ} (hp : p ≤ buf.length) (alloc : Bool) :
    Ends (fun a => p < a.2 ∧ a.2 ≤ buf.length) (readAddr buf p alloc) := by
  obtain ⟨x, hx, hP⟩ := readAddrLoop_ends (buf.length - p) (Nat.add_sub_of_le hp)
  rw [readAddr, hx, bind_some]
  cases x with
  | none => exact ⟨none, rfl, nofun⟩
  | some q =>
    obtain ⟨hlt, hle⟩ := hP q rfl
    cases alloc with
    | false => exact ⟨none, rfl, nofun⟩
    | true =>
      dsimp only
      rw [if_pos rfl, slice_within (by omega)]
      refine ⟨_, rfl, fun a ha => ?_⟩
      cases ha
      exact ⟨hlt, hle⟩

/-- A port is read inside the buffer, and the reading goes on behind it. -/
theorem readPort_ends {p : ℕ} (hp : p ≤ buf.length) (sep : UInt8) :
    Ends (fun a => p < a.2 ∧ a.2 ≤ buf.length) (readPort buf p sep) := by
  obtain ⟨x, hx, hP⟩ := readPortLoop_ends sep (buf.length - p) (Nat.add_sub_of_le hp)
  rw [readPort, hx, bind_some]
  cases x with
  | none => exact ⟨none, rfl, nofun⟩
  | some q =>
    obtain ⟨hlt, hle⟩ := hP q rfl
    dsimp only
    rw [slice_within (by omega), map_some]
    refine ⟨_, rfl, fun a ha => ?_⟩
    split at ha
    · cases ha
    · split_ifs at ha
      cases ha
      exact ⟨hlt, hle⟩

/-- The search for the end of the line stays in front of `last`. -/
theorem skipLine_ends (n : ℕ) : ∀ {p : ℕ}, buf.length ≤ p + n →
    Ends (fun q => p < q ∧ q ≤ buf.length) (skipLine buf p) := by
  induction n with
  | zero =>
    intro p hp
    rw [skipLine, dif_neg (by omega)]
    exact ⟨none, rfl, nofun⟩
  | succ n ih =>
    intro p hp
    have hrest : Ends (fun q => p < q ∧ q ≤ buf.length) (skipLine buf (p + 1)) := by
      obtain ⟨x, hx, hP⟩ := ih (p := p + 1) (by omega)
      refine ⟨x, hx, fun q hq => ?_⟩
      obtain ⟨hlt, hle⟩ := hP q hq
      omega
    rw [skipLine]
    split_ifs with hlt
    · obtain ⟨ch, hch⟩ := getElem?_below buf (by omega : p < _)
      obtain ⟨next, hnext⟩ := getElem?_below buf hlt
      rw [hch, bind_some]
      split_ifs
      · rw [hnext, bind_some]
        split_ifs
        · refine ⟨_, rfl, fun q hq => ?_⟩
          cases hq
          omega
        · exact hrest
      · exact hrest
    · exact ⟨none, rfl, nofun⟩

/-! ### Reading is safe -/

/-- **A line for TCP** is read inside the buffer. -/
theorem readTcp_safe (alloc : ℕ → Bool) (h : 11 ≤ buf.length) :
    Safe buf prior (readTcp alloc buf prior) := by
  rw [readTcp]
  split_ifs
  · refine .orInvalid (readAddr_ends h _) fun src hsrc => ?_
    refine .orInvalid (readAddr_ends hsrc.2 _) fun dst hdst => ?_
    refine .orInvalid (readPort_ends hdst.2 _) fun srcPort hsrcPort => ?_
    refine .orInvalid (readPort_ends hsrcPort.2 _) fun dstPort hdstPort => ?_
    split_ifs with hend
    · exact .null
    · obtain ⟨ch, hch⟩ := getElem?_below buf (by omega : dstPort.2 < _)
      rw [hch, bind_some]
      split_ifs
      · exact .null
      · exact .ptr (Nat.succ_pos _) (by omega)
  · exact .null

theorem proxy_word : "PROXY ".toUTF8.toList = [0x50, 0x52, 0x4f, 0x58, 0x59, 0x20] :=
  (toUTF8_toList _).trans (by decide)

theorem tcp_word : "TCP".toUTF8.toList = [0x54, 0x43, 0x50] := (toUTF8_toList _).trans (by decide)

theorem unknown_word : "UNKNOWN".toUTF8.toList = [0x55, 0x4e, 0x4b, 0x4e, 0x4f, 0x57, 0x4e] :=
  (toUTF8_toList _).trans (by decide)

/-- The test for TCP reads nothing behind the buffer; where it succeeds there are eleven bytes. -/
theorem isTcp_within (buf : List UInt8) : ∃ b, isTcp buf = some b ∧ (b = true → 11 ≤ buf.length) := by
  rw [isTcp]
  split_ifs with hlen
  · exact ⟨false, rfl, nofun⟩
  have htcp : "TCP".toUTF8.toList.length = 3 := congrArg List.length tcp_word
  obtain ⟨b, hb⟩ := strncmp_within "TCP".toUTF8.toList (by omega : 6 + _ ≤ buf.length)
  obtain ⟨version, hversion⟩ := getElem?_below buf (by omega : 9 < _)
  obtain ⟨blank, hblank⟩ := getElem?_below buf (by omega : 10 < _)
  rw [hb, bind_some, hversion, hblank]
  cases b with
  | false => exact ⟨false, rfl, nofun⟩
  | true =>
    rw [if_pos rfl, bind_some]
    split_ifs
    · exact ⟨false, rfl, nofun⟩
    · exact ⟨_, rfl, fun _ => by omega⟩

theorem isUnknown_within (buf : List UInt8) : ∃ b, isUnknown buf = some b := by
  have hword : "UNKNOWN".toUTF8.toList.length = 7 := congrArg List.length unknown_word
  rw [isUnknown]
  split_ifs
  · exact strncmp_within _ (by omega)
  · exact ⟨false, rfl⟩

/-- **Version 1** is read inside the buffer. -/
theorem readV1_safe (alloc : ℕ → Bool) : Safe buf prior (readV1 alloc buf prior) := by
  have hproxy : "PROXY ".toUTF8.toList.length = 6 := congrArg List.length proxy_word
  rw [readV1]
  by_cases hlen : buf.length < 8
  · rw [if_pos hlen]
    exact .null
  obtain ⟨b, hb⟩ := strncmp_within "PROXY ".toUTF8.toList (by omega : 0 + _ ≤ buf.length)
  rw [if_neg hlen, hb, bind_some]
  cases b with
  | false => exact .null
  | true =>
    obtain ⟨u, hu⟩ := isUnknown_within buf
    rw [if_pos rfl, hu, bind_some]
    cases u with
    | true =>
      obtain ⟨x, hx, hP⟩ := skipLine_ends buf.length (by omega : buf.length ≤ 13 + _)
      rw [if_pos rfl, hx, map_some]
      cases x with
      | none => exact .null
      | some q => exact .ptr (by have := (hP q rfl).1; omega) (hP q rfl).2
    | false =>
      obtain ⟨t, ht, hlen⟩ := isTcp_within buf
      rw [if_neg (by decide), ht, bind_some]
      cases t with
      | false => exact .null
      | true => exact readTcp_safe alloc (hlen rfl)

/-- The block of addresses is read inside the buffer. -/
theorem readBlock_safe (alloc : ℕ → Bool) (block : List UInt8) (inet6 : Bool) {last : ℕ}
    (h₀ : 0 < last) (h : last ≤ buf.length) :
    Safe buf prior (some (readBlock alloc block inet6 last prior)) := by
  rw [readBlock]
  by_cases halloc : alloc 1 ∧ alloc 2
  · rw [if_pos halloc]
    exact .ptr h₀ h
  · rw [if_neg halloc]
    exact .null

/-- **Version 2** is read inside the buffer. -/
theorem v2Read_safe (alloc : ℕ → Bool) (h : 16 ≤ buf.length) :
    Safe buf prior (v2Read alloc buf prior) := by
  rw [v2Read, slice_within h, bind_some]
  dsimp only
  refine .ite (fun _ => .null) fun _ => .ite (fun _ => .null) fun hlen => ?_
  have hptr {len : ℕ} (hlen : ¬ buf.length - 16 < len) :
      Safe buf prior (some ⟨some (16 + len), prior⟩) := .ptr (by omega) (by omega)
  refine .ite (fun _ => hptr hlen) fun _ => .ite (fun _ => hptr hlen) fun _ => ?_
  refine .ite (fun _ => ?_) fun _ => .null
  -- both families have a block of their own length
  refine .ite (fun _ => .ite (fun _ => .null) fun h₁ => ?_) fun _ => ?_
  · rw [slice_within (by omega)]
    exact readBlock_safe alloc _ _ (by omega) (by omega)
  refine .ite (fun _ => .ite (fun _ => .null) fun h₁ => ?_) fun _ => hptr hlen
  rw [slice_within (by omega)]
  exact readBlock_safe alloc _ _ (by omega) (by omega)

/-- **Reading is safe**, whatever the bytes are. -/
theorem read_safe (alloc : ℕ → Bool) : Safe buf prior (read alloc buf prior) := by
  rw [read]
  split_ifs with hlen
  · rw [slice_within (by omega), bind_some]
    split_ifs
    · exact v2Read_safe alloc hlen
    · exact readV1_safe alloc
  · exact readV1_safe alloc

end Hengine.Proxy
