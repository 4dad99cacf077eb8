import Hengine.Core.InetTrip
import Hengine.Core.ProxyProtocol

/-!
# PROXY headers that are written and read

What `ngx_proxy_protocol_write` makes of a connection, read by `ngx_proxy_protocol_read`.

The reader is followed with `At`, which says what stands at a pointer. The reader keeps an address as the
text that is written for it, which is the text of `ngx_sock_ntop`; the ports are numbers again.
-/

namespace Hengine.Proxy

open List Option

open Hengine.Inet

/-! ### What stands at a pointer -/

/-- The bytes from a pointer on. -/
def At (buf : List UInt8) (p : ℕ) (s : List UInt8) : Prop := ∃ a, a.length = p ∧ buf = a ++ s

section At

variable {buf s t : List UInt8} {p : ℕ} {c : UInt8}

theorem At.append (h : At buf p (t ++ s)) : At buf (p + t.length) s := by
  obtain ⟨a, rfl, rfl⟩ := h
  exact ⟨a ++ t, length_append, (append_assoc a t s).symm⟩

theorem At.next (h : At buf p (c :: s)) : At buf (p + 1) s := At.append (t := [c]) h

theorem At.get (h : At buf p (c :: s)) : buf[p]? = some c := by
  obtain ⟨a, rfl, rfl⟩ := h
  rw [getElem?_append_right (Nat.le_refl _), Nat.sub_self, getElem?_cons_zero]

theorem At.length (h : At buf p s) : buf.length = p + s.length := by
  obtain ⟨a, rfl, rfl⟩ := h
  exact length_append

theorem At.slice (h : At buf p (t ++ s)) : slice buf p t.length = some t := by
  obtain ⟨a, rfl, rfl⟩ := h
  have hle : a.length + t.length ≤ (a ++ (t ++ s)).length := by
    simp only [length_append]
    omega
  rw [slice_within hle, drop_left, take_left]

theorem At.strncmp : ∀ {t : List UInt8} {p : ℕ}, At buf p (t ++ s) → strncmp buf t p = some true
  | [], _, _ => rfl
  | c :: t, p, h => by
    rw [Proxy.strncmp, At.get h, bind_some, if_pos rfl]
    exact At.strncmp (At.next h)

theorem At.strncmp_ne {d : UInt8} (h : At buf p (c :: s)) (hne : c ≠ d) :
    Proxy.strncmp buf (d :: t) p = some false := by
  rw [Proxy.strncmp, h.get, bind_some, if_neg hne]

theorem At.ne_last (h : At buf p (c :: s)) : p ≠ buf.length := by
  have hlen := h.length
  rw [length_cons] at hlen
  omega

/-! ### Addresses -/

/-- A character that `ngx_proxy_protocol_read_addr` takes. -/
def IsAddrChar (ch : UInt8) : Prop :=
  ch ≠ 0x20 ∧ ¬(ch ≠ 0x3a ∧ ch ≠ 0x2e ∧ (ch < 0x61 ∨ 0x66 < ch) ∧ (ch < 0x41 ∨ 0x46 < ch) ∧
    (ch < 0x30 ∨ 0x39 < ch))

instance (ch : UInt8) : Decidable (IsAddrChar ch) := inferInstanceAs (Decidable (_ ∧ _))

/-- The loop over an address ends at the space behind it. -/
theorem readAddrLoop_text : ∀ {t : List UInt8} {p : ℕ}, (∀ ch ∈ t, IsAddrChar ch) →
    At buf p (t ++ 0x20 :: s) → readAddrLoop buf p = some (some (p + t.length + 1))
  | [], p, _, h => by
    have hget := At.get h
    rw [readAddrLoop, if_neg (At.ne_last h)]
    split
    · rename_i hnone
      rw [hget] at hnone
      cases hnone
    · rename_i ch hch
      rw [hget] at hch
      cases hch
      rfl
  | c :: t, p, hall, h => by
    obtain ⟨⟨hblank, hchar⟩, ht⟩ := forall_mem_cons.1 hall
    have hget := At.get h
    rw [readAddrLoop, if_neg (At.ne_last h)]
    split
    · rename_i hnone
      rw [hget] at hnone
      cases hnone
    · rename_i ch hch
      rw [hget] at hch
      cases hch
      rw [if_neg hblank, if_neg hchar, readAddrLoop_text ht (At.next h), length_cons]
      congr 2
      omega

/-- **An address is read**: its text is what is recorded. -/
theorem readAddr_text {t : List UInt8} (ht : ∀ ch ∈ t, IsAddrChar ch)
    (h : At buf p (t ++ 0x20 :: s)) :
    readAddr buf p true = some (some (t, p + t.length + 1)) ∧ At buf (p + t.length + 1) s := by
  refine ⟨?_, At.next (At.append h)⟩
  have hlen : p + t.length + 1 - p - 1 = t.length := by omega
  rw [readAddr, readAddrLoop_text ht h, bind_some]
  dsimp only
  rw [if_pos rfl, hlen, At.slice h]
  rfl

/-! ### Ports -/

/-- The loop over a port ends at the separator behind it. -/
theorem readPortLoop_text {sep : UInt8} : ∀ {t : List UInt8} {p : ℕ}, (∀ ch ∈ t, ch ≠ sep) →
    At buf p (t ++ sep :: s) → readPortLoop buf p sep = some (some (p + t.length + 1))
  | [], p, _, h => by
    have hget := At.get h
    rw [readPortLoop, if_neg (At.ne_last h)]
    split
    · rename_i hnone
      rw [hget] at hnone
      cases hnone
    · rename_i ch hch
      rw [hget] at hch
      cases hch
      rw [if_pos rfl]
      rfl
  | c :: t, p, hall, h => by
    obtain ⟨hc, ht⟩ := forall_mem_cons.1 hall
    have hget := At.get h
    rw [readPortLoop, if_neg (At.ne_last h)]
    split
    · rename_i hnone
      rw [hget] at hnone
      cases hnone
    · rename_i ch hch
      rw [hget] at hch
      cases hch
      rw [if_neg hc, readPortLoop_text ht (At.next h), length_cons]
      congr 2
      omega

/-- A number is read. -/
theorem atoi_sprintfDec {n : ℕ} (hn : n ≤ 65535) : atoi (sprintfDec n) = some n := by
  have hloop : ∀ line : List UInt8, atoiLoop (sprintfDec n ++ line) 0 = atoiLoop line n := by
    refine numeral_induction (c := Inet.hexChar) (k := 8)
      (P := fun n t => n ≤ 65535 → ∀ line, atoiLoop (t ++ line) 0 = atoiLoop line n) ?_ ?_ n hn
    · intro d hd _ line
      obtain ⟨hdigit, hvalue⟩ := decChar_spec hd
      rw [singleton_append, atoiLoop, hvalue, if_neg, if_neg (by omega), Nat.zero_mul,
        Nat.zero_add]
      rintro (hlow | hhigh)
      · exact absurd hdigit.1 (UInt8.not_le.2 hlow)
      · exact absurd hdigit.2 (UInt8.not_le.2 hhigh)
    · intro m d _ hd ih hm line
      obtain ⟨hdigit, hvalue⟩ := decChar_spec hd
      rw [append_assoc, singleton_append, ih (by omega), atoiLoop, hvalue, if_neg,
        if_neg (by omega)]
      rintro (hlow | hhigh)
      · exact absurd hdigit.1 (UInt8.not_le.2 hlow)
      · exact absurd hdigit.2 (UInt8.not_le.2 hhigh)
  have hall := hloop []
  rw [append_nil] at hall
  have hne : sprintfDec n ≠ [] := numeral_ne_nil n
  rw [atoi, if_neg hne, hall, atoiLoop]

/-- **A port is read.** -/
theorem readPort_text {sep : UInt8} (hsep : sep = 0x20 ∨ sep = 0x0d) (port : UInt16)
    (h : At buf p (sprintfDec port.toNat ++ sep :: s)) :
    readPort buf p sep = some (some (port, p + (sprintfDec port.toNat).length + 1)) ∧
      At buf (p + (sprintfDec port.toNat).length + 1) s := by
  refine ⟨?_, At.next (At.append h)⟩
  have hne : ∀ ch ∈ sprintfDec port.toNat, ch ≠ sep := by
    intro ch hch
    obtain ⟨d, hd, rfl⟩ := mem_numeral _ ch hch
    have hall : ∀ d < 10, Inet.hexChar d ≠ 0x20 ∧ Inet.hexChar d ≠ 0x0d := by decide
    rcases hsep with rfl | rfl
    · exact (hall d hd).1
    · exact (hall d hd).2
  have hport : port.toNat ≤ 65535 := Nat.le_of_lt_succ port.toNat_lt
  have hlen : p + (sprintfDec port.toNat).length + 1 - p - 1 = (sprintfDec port.toNat).length := by
    omega
  rw [readPort, readPortLoop_text hne h, bind_some]
  dsimp only
  rw [hlen, At.slice h, map_some, atoi_sprintfDec hport]
  dsimp only
  rw [if_neg (by omega)]
  congr 3
  exact UInt16.ofNat_toNat

end At

/-! ### The text of an address -/

theorem isAddrChar_hexChar {d : ℕ} (hd : d < 16) : IsAddrChar (Inet.hexChar d) := by
  have hall : ∀ d < 16, IsAddrChar (Inet.hexChar d) := by decide
  exact hall d hd

theorem isAddrChar_numeral {k : ℕ} (hk : k ≤ 14) (n : ℕ) :
    ∀ ch ∈ numeral Inet.hexChar k n, IsAddrChar ch := by
  intro ch hch
  obtain ⟨d, hd, rfl⟩ := mem_numeral n ch hch
  exact isAddrChar_hexChar (by omega)

/-- A dotted address has characters of addresses only. -/
theorem isAddrChar_dotted (a b c d : UInt8) : ∀ ch ∈ sprintfDotted a b c d, IsAddrChar ch := by
  have hdec (x : UInt8) : ∀ ch ∈ sprintfDec x.toNat, IsAddrChar ch := isAddrChar_numeral (by decide) _
  have hdot : IsAddrChar 0x2e := by decide
  simp only [sprintfDotted, forall_mem_append, forall_mem_cons]
  exact ⟨hdec a, hdot, hdec b, hdot, hdec c, hdot, hdec d⟩

/-- The groups of an address are printed in characters of addresses. -/
theorem isAddrChar_words (p : List UInt8) (z : Option ℕ) (m n : ℕ) (r : ℕ) : ∀ {i : ℕ},
    n ≤ i + r → ∀ ch ∈ printWords p z m n i, IsAddrChar ch := by
  have hcolon : IsAddrChar 0x3a := by decide
  induction r with
  | zero =>
    intro i hi
    rw [printWords_end (by omega)]
    exact nofun
  | succ r ih =>
    intro i hi
    by_cases hlt : i < n
    · by_cases hz : some i = z
      · subst hz
        rw [printWords_gap hlt, forall_mem_cons]
        exact ⟨hcolon, ih (by omega)⟩
      · rw [printWords_word hlt hz]
        simp only [forall_mem_append]
        refine ⟨isAddrChar_numeral (by decide) _, ?_, ih (by omega)⟩
        split_ifs
        · exact forall_mem_singleton.2 hcolon
        · exact nofun
    · rw [printWords_end (by omega)]
      exact nofun

/-- An IPv6 address is printed in characters of addresses. -/
theorem isAddrChar_inet6Ntop (p : List UInt8) (len : ℕ) :
    ∀ ch ∈ inet6Ntop p len, IsAddrChar ch := by
  have hcolon : IsAddrChar 0x3a := by decide
  rw [inet6Ntop]
  by_cases hlen : len < inet6AddrStrLen
  · rw [if_pos hlen]
    exact fun _ h => absurd h not_mem_nil
  rw [if_neg hlen]
  dsimp only
  simp only [forall_mem_append]
  refine ⟨?_, isAddrChar_words p _ _ _ _ (Nat.le_add_left _ _), ?_⟩
  · split_ifs
    · exact forall_mem_singleton.2 hcolon
    · exact fun _ h => absurd h not_mem_nil
  · by_cases hdotted : dottedTail p (Zeros.scan p)
    · rw [if_pos hdotted, if_pos rfl]
      exact isAddrChar_dotted _ _ _ _
    · rw [if_neg hdotted, if_neg (by decide : ¬(16 = 12))]
      exact fun _ h => absurd h not_mem_nil

/-! ### What is recorded of an address -/

/-- An address of one of the two families that have a header. -/
def SockAddr.IsInet : SockAddr → Prop
  | .inet _ _ _ _ _ => True
  | .inet6 _ _ => True
  | .unix _ => False

/-- Two addresses are the same, whatever their ports are. -/
def SockAddr.Same : SockAddr → SockAddr → Prop
  | .inet a b c d _, .inet a' b' c' d' _ => a = a' ∧ b = b' ∧ c = c' ∧ d = d'
  | .inet6 addr _, .inet6 addr' _ => addr.bytes = addr'.bytes
  | .unix path, .unix path' => path = path'
  | _, _ => False

/-- The text of an address, written into as much as is kept for it. -/
def SockAddr.text (sa : SockAddr) : List UInt8 := sockNtop sa sockaddrStrLen

/-- The room does not matter where it is enough. -/
theorem inet6Ntop_len (p : List UInt8) {len len' : ℕ} (h : inet6AddrStrLen ≤ len)
    (h' : inet6AddrStrLen ≤ len') : inet6Ntop p len = inet6Ntop p len' := by
  rw [inet6Ntop, if_neg (Nat.not_lt.2 h), inet6Ntop, if_neg (Nat.not_lt.2 h')]

/-- The text fits in 39 characters, and is the same wherever 45 are left. -/
theorem SockAddr.IsInet.text {sa : SockAddr} (h : sa.IsInet) :
    (∀ ch ∈ sa.text, IsAddrChar ch) ∧ sa.text.length ≤ 39 ∧
      ∀ len, 45 ≤ len → sockNtop sa len = sa.text := by
  cases sa with
  | inet a b c d port =>
    have hlen := length_sprintfDotted a b c d
    have htake {len : ℕ} (hle : 45 ≤ len) :
        (sprintfDotted a b c d).take len = sprintfDotted a b c d :=
      take_of_length_le (by omega)
    have htext : SockAddr.text (.inet a b c d port) = sprintfDotted a b c d := htake (by decide)
    rw [htext]
    exact ⟨isAddrChar_dotted a b c d, by omega, fun len hle => htake hle⟩
  | inet6 addr port =>
    exact ⟨isAddrChar_inet6Ntop addr.bytes sockaddrStrLen,
      length_inet6Ntop addr.bytes sockaddrStrLen,
      fun len hle => inet6Ntop_len addr.bytes hle (by decide : 45 ≤ sockaddrStrLen)⟩
  | unix path => exact h.elim

/-- A printed IPv6 address has a colon. -/
theorem colon_mem_inet6Ntop (p : List UInt8) {len : ℕ} (hlen : inet6AddrStrLen ≤ len) :
    (0x3a : UInt8) ∈ inet6Ntop p len := by
  rw [inet6Ntop, if_neg (Nat.not_lt.2 hlen)]
  dsimp only
  by_cases hz : (Zeros.scan p).zero = some 0
  · rw [if_pos hz]
    exact mem_append_left _ (mem_singleton.2 rfl)
  · rw [if_neg hz, nil_append, printWords_word (by split_ifs <;> decide) (Ne.symm hz),
      if_pos (by decide)]
    simp

/-- A printed IPv4 address has none. -/
theorem colon_not_mem_dotted (a b c d : UInt8) : (0x3a : UInt8) ∉ sprintfDotted a b c d := by
  have hdec (x : UInt8) : (0x3a : UInt8) ∉ sprintfDec x.toNat := by
    intro h
    obtain ⟨e, he, heq⟩ := mem_numeral _ _ h
    exact (hexChar_spec (by omega : e < 16)).1 heq.symm
  have hdot : (0x3a : UInt8) ≠ 0x2e := by decide
  simp only [sprintfDotted, mem_append, mem_cons, not_or]
  exact ⟨hdec a, hdot, hdec b, hdot, hdec c, hdot, hdec d⟩

/-- **Dotted text** says which four numbers it is of. -/
theorem sprintfDotted_inj {a b c d a' b' c' d' : UInt8}
    (h : sprintfDotted a b c d = sprintfDotted a' b' c' d') : a = a' ∧ b = b' ∧ c = c' ∧ d = d' := by
  have hread := congrArg inetAddr h
  rw [inetAddr_dotted, inetAddr_dotted] at hread
  have hnum := congrArg (fun w => (htonl w).toNat) hread
  simp only [htonl_htonl, toNat_ipv4] at hnum
  have hb (x : UInt8) : x.toNat < 256 := x.toNat_lt
  have := hb a; have := hb b; have := hb c; have := hb d
  have := hb a'; have := hb b'; have := hb c'; have := hb d'
  refine ⟨?_, ?_, ?_, ?_⟩ <;> exact UInt8.toNat_inj.1 (by omega)

/-- The text of an IPv6 address is that of no other. -/
theorem inet6Ntop_inj {p q : List UInt8} (hp : p.length = 16) (hq : q.length = 16) {len : ℕ}
    (hlen : inet6AddrStrLen ≤ len) (h : inet6Ntop p len = inet6Ntop q len) : p = q := by
  have hread : inet6Addr (inet6Ntop p len) (List.replicate 16 0) = inet6Addr (inet6Ntop q len) _ :=
    congrArg (inet6Addr · _) h
  rw [inet6Addr_inet6Ntop p _ hp rfl hlen, inet6Addr_inet6Ntop q _ hq rfl hlen] at hread
  by_cases hpl : p = mappedNone ∨ p = compatibleNone
  · by_cases hql : q = mappedNone ∨ q = compatibleNone
    · have hne : inet6Ntop mappedNone len ≠ inet6Ntop compatibleNone len := by
        have htext : inet6Ntop mappedNone 45 ≠ inet6Ntop compatibleNone 45 := by decide +kernel
        rwa [inet6Ntop_len _ hlen (Nat.le_refl 45), inet6Ntop_len _ hlen (Nat.le_refl 45)]
      rcases hpl with rfl | rfl <;> rcases hql with rfl | rfl
      · rfl
      · exact absurd h hne
      · exact absurd h.symm hne
      · rfl
    · rw [if_pos hpl, if_neg hql] at hread
      cases hread
  · by_cases hql : q = mappedNone ∨ q = compatibleNone
    · rw [if_neg hpl, if_pos hql] at hread
      cases hread
    · rw [if_neg hpl, if_neg hql] at hread
      exact Option.some.inj hread

/-- **The text that is recorded** is that of one address only. -/
theorem SockAddr.text_inj {sa sb : SockAddr} (ha : sa.IsInet) (hb : sb.IsInet)
    (h : sa.text = sb.text) : sa.Same sb := by
  have hdotted (a b c d : UInt8) (port : UInt16) :
      SockAddr.text (.inet a b c d port) = sprintfDotted a b c d := by
    have hlen := length_sprintfDotted a b c d
    exact take_of_length_le (Nat.le_trans hlen (by decide))
  have hmax : inet6AddrStrLen ≤ sockaddrStrLen := by decide
  cases sa with
  | inet a b c d port =>
    cases sb with
    | inet a' b' c' d' port' =>
      rw [hdotted, hdotted] at h
      exact sprintfDotted_inj h
    | inet6 addr port' =>
      rw [hdotted] at h
      exact absurd (h ▸ colon_mem_inet6Ntop addr.bytes hmax) (colon_not_mem_dotted a b c d)
    | unix => exact hb.elim
  | inet6 addr port =>
    cases sb with
    | inet a b c d port' =>
      rw [hdotted] at h
      exact absurd (h ▸ colon_mem_inet6Ntop addr.bytes hmax) (colon_not_mem_dotted a b c d)
    | inet6 addr' port' => exact inet6Ntop_inj addr.length_eq addr'.length_eq hmax h
    | unix => exact hb.elim
  | unix => exact ha.elim

/-! ### The theorem -/

/-- The first bytes of a header. -/
def headOf : SockAddr → List UInt8
  | .inet6 _ _ => "PROXY TCP6 ".toUTF8.toList
  | _ => "PROXY TCP4 ".toUTF8.toList

/-- The digit of the family in the first bytes. -/
def familyOf : SockAddr → UInt8
  | .inet6 _ _ => 0x36
  | _ => 0x34

/-- How the head of a line is put together. -/
theorem headOf_eq (sa : SockAddr) :
    headOf sa = "PROXY ".toUTF8.toList ++ ("TCP".toUTF8.toList ++ [familyOf sa, 0x20]) := by
  have hfour : "PROXY TCP4 ".toUTF8.toList =
      "PROXY ".toUTF8.toList ++ ("TCP".toUTF8.toList ++ [0x34, 0x20]) := by
    rw [proxy_word, tcp_word]
    exact (toUTF8_toList _).trans (by decide)
  have hsix : "PROXY TCP6 ".toUTF8.toList =
      "PROXY ".toUTF8.toList ++ ("TCP".toUTF8.toList ++ [0x36, 0x20]) := by
    rw [proxy_word, tcp_word]
    exact (toUTF8_toList _).trans (by decide)
  cases sa with
  | inet => exact hfour
  | inet6 => exact hsix
  | unix => exact hfour

theorem length_words_of_head :
    "PROXY ".toUTF8.toList.length = 6 ∧ "TCP".toUTF8.toList.length = 3 :=
  ⟨congrArg List.length proxy_word, congrArg List.length tcp_word⟩

theorem length_headOf (sa : SockAddr) : (headOf sa).length = 11 := by
  obtain ⟨hproxy, htcp⟩ := length_words_of_head
  rw [headOf_eq, length_append, length_append, hproxy, htcp]
  rfl

/-- The bytes behind the two addresses. -/
def portsOf (c : Connection) : List UInt8 :=
  0x20 :: (sprintfDec c.sockaddr.getPort.toNat ++
    0x20 :: (sprintfDec c.localSockaddr.getPort.toNat ++ [0x0d, 0x0a]))

/-- A header of a connection. -/
def headerOf (c : Connection) : List UInt8 :=
  headOf c.sockaddr ++ (c.sockaddr.text ++ 0x20 :: (c.localSockaddr.text ++ portsOf c))

/-- Both ports with the ends of the line take at most 14 bytes. -/
theorem length_portsOf (c : Connection) : (portsOf c).length ≤ 14 := by
  have hdec (port : UInt16) : (sprintfDec port.toNat).length ≤ 5 :=
    length_numeral_le 4 (Nat.lt_of_lt_of_le port.toNat_lt (by decide))
  have hsrc := hdec c.sockaddr.getPort
  have hdst := hdec c.localSockaddr.getPort
  simp only [portsOf, length_cons, length_append, length_nil]
  omega

/-- **The whole header is written**: 107 bytes are enough. -/
theorem write_eq {c : Connection} (hok : c.localOk = true) (hsrc : c.sockaddr.IsInet)
    (hdst : c.localSockaddr.IsInet) {size : ℕ} (hsize : 107 ≤ size) :
    write c size = some (headerOf c) := by
  have hports := length_portsOf c
  have hhead := length_headOf c.sockaddr
  obtain ⟨-, hsrcLen, hsrcText⟩ := hsrc.text
  obtain ⟨-, hdstLen, hdstText⟩ := hdst.text
  have hwrite : write c size = some (
      let src := headOf c.sockaddr ++ sockNtop c.sockaddr (size - (headOf c.sockaddr).length) ++ [0x20]
      let dst := src ++ sockNtop c.localSockaddr (size - src.length)
      dst ++ (portsOf c).take (size - dst.length)) := by
    rw [write, if_neg (Nat.not_lt.2 hsize), if_pos hok]
    obtain ⟨sa, la, ok⟩ := c
    cases sa with
    | inet a b c d port => rfl
    | inet6 addr port => rfl
    | unix path => exact hsrc.elim
  have hsrcRoom : 45 ≤ size - (headOf c.sockaddr).length := by omega
  have hdstRoom : 45 ≤ size - (headOf c.sockaddr ++ c.sockaddr.text ++ [0x20]).length := by
    simp only [length_append, length_singleton]
    omega
  rw [hwrite, hsrcText _ hsrcRoom]
  dsimp only
  rw [hdstText _ hdstRoom, take_of_length_le]
  · simp only [headerOf, append_assoc, cons_append, nil_append]
  · simp only [length_append, length_singleton]
    omega

/-- A header that does not begin with a carriage return is one of version 1. -/
theorem read_of_ne {buf s : List UInt8} {c : UInt8} (h : buf = c :: s) (hc : c ≠ 0x0d)
    (alloc : ℕ → Bool) (prior : Option ProxyProtocol) :
    read alloc buf prior = readV1 alloc buf prior := by
  rw [read]
  split_ifs with hlen
  · rw [slice_within (by omega), bind_some, if_neg]
    rw [h]
    intro hsig
    exact hc (List.cons.inj hsig).1
  · rfl

/-- The first bytes of a header lead to its addresses. -/
theorem readV1_head {buf s : List UInt8} (sa : SockAddr) (h : buf = headOf sa ++ s)
    (alloc : ℕ → Bool) (prior : Option ProxyProtocol) :
    readV1 alloc buf prior = readTcp alloc buf prior := by
  obtain ⟨hproxy, htcp⟩ := length_words_of_head
  have hlen : 11 ≤ buf.length := by
    rw [h, length_append, length_headOf]
    omega
  have hbegin : At buf 0 ("PROXY ".toUTF8.toList ++
      ("TCP".toUTF8.toList ++ (familyOf sa :: 0x20 :: s))) := by
    refine ⟨[], rfl, ?_⟩
    simp only [h, headOf_eq, nil_append, append_assoc, cons_append]
  have hsix : At buf 6 ("TCP".toUTF8.toList ++ (familyOf sa :: 0x20 :: s)) := by
    have := At.append hbegin
    rwa [hproxy] at this
  have hnine : At buf 9 (familyOf sa :: 0x20 :: s) := by
    have := At.append hsix
    rwa [htcp] at this
  have hunknown : isUnknown buf = some false := by
    rw [tcp_word] at hsix
    rw [isUnknown, unknown_word]
    split_ifs
    · exact At.strncmp_ne hsix (by decide)
    · rfl
  have hfamily : ¬(familyOf sa ≠ 0x34 ∧ familyOf sa ≠ 0x36) := by
    cases sa with
    | inet => exact fun hne => hne.1 rfl
    | inet6 => exact fun hne => hne.2 rfl
    | unix => exact fun hne => hne.1 rfl
  have htcp4 : isTcp buf = some true := by
    rw [isTcp, if_neg (by omega), At.strncmp hsix, bind_some, if_pos rfl, At.get hnine,
      bind_some, if_neg hfamily, At.get (At.next hnine)]
    rfl
  rw [readV1, if_neg (by omega), At.strncmp hbegin, bind_some, if_pos rfl, hunknown,
    bind_some, if_neg (by decide), htcp4, bind_some, if_pos rfl]

/-- **A header is read**: the pointer behind it, the texts of the addresses and the ports. -/
theorem read_headerOf {c : Connection} (hsrc : c.sockaddr.IsInet) (hdst : c.localSockaddr.IsInet)
    {alloc : ℕ → Bool} (halloc : ∀ n, alloc n = true) (rest : List UInt8)
    (prior : Option ProxyProtocol) :
    read alloc (headerOf c ++ rest) prior = some ⟨some (headerOf c).length,
      some ⟨c.sockaddr.text, c.localSockaddr.text, c.sockaddr.getPort, c.localSockaddr.getPort⟩⟩ := by
  obtain ⟨hsrcText, -, -⟩ := hsrc.text
  obtain ⟨hdstText, -, -⟩ := hdst.text
  have hbuf : headerOf c ++ rest = headOf c.sockaddr ++ (c.sockaddr.text ++ 0x20 ::
      (c.localSockaddr.text ++ 0x20 :: (sprintfDec c.sockaddr.getPort.toNat ++ 0x20 ::
        (sprintfDec c.localSockaddr.getPort.toNat ++ 0x0d :: 0x0a :: rest)))) := by
    simp [headerOf, portsOf]
  have hfirst : ∃ t, headerOf c ++ rest = 0x50 :: t := by
    rw [hbuf, headOf_eq, proxy_word]
    exact ⟨_, rfl⟩
  obtain ⟨t, ht⟩ := hfirst
  have hlen : (headerOf c).length = 11 + c.sockaddr.text.length + 1 + c.localSockaddr.text.length + 1 +
      (sprintfDec c.sockaddr.getPort.toNat).length + 1 +
      (sprintfDec c.localSockaddr.getPort.toNat).length + 1 + 1 := by
    simp only [headerOf, portsOf, length_append, length_cons, length_nil, length_headOf]
    omega
  rw [read_of_ne ht (by decide), readV1_head c.sockaddr hbuf, hlen]
  have heleven : At (headerOf c ++ rest) 11 _ := ⟨headOf c.sockaddr, length_headOf _, hbuf⟩
  obtain ⟨hreadSrc, hatDst⟩ := readAddr_text hsrcText heleven
  obtain ⟨hreadDst, hatSrcPort⟩ := readAddr_text hdstText hatDst
  obtain ⟨hreadSrcPort, hatDstPort⟩ := readPort_text (.inl rfl) c.sockaddr.getPort hatSrcPort
  obtain ⟨hreadDstPort, hatEnd⟩ := readPort_text (.inr rfl) c.localSockaddr.getPort hatDstPort
  have hend := At.ne_last hatEnd
  have hget := At.get hatEnd
  rw [readTcp, if_pos (halloc 0), halloc 1, halloc 2, orInvalid, hreadSrc, bind_some]
  dsimp only
  rw [orInvalid, hreadDst, bind_some]
  dsimp only
  rw [orInvalid, hreadSrcPort, bind_some]
  dsimp only
  rw [orInvalid, hreadDstPort, bind_some]
  dsimp only
  rw [if_neg hend, hget, bind_some, if_neg (by decide)]

/-- **Headers are read back**, and reading is safe. A header that is written for two addresses of the
families IPv4 and IPv6, with anything behind it, is read as the texts of these addresses and their ports,
and the pointer behind it is returned; the text is that of no other address. Of any other bytes none behind
the end is read, and either there is an error that leaves `c->proxy_protocol` as it is, or the pointer that
is returned is behind the beginning and not behind the end. -/
theorem proxy_trip :
    (∀ (c : Connection) (size : ℕ) (alloc : ℕ → Bool) (rest : List UInt8)
      (prior : Option ProxyProtocol), c.localOk = true → c.sockaddr.IsInet →
      c.localSockaddr.IsInet → 107 ≤ size → (∀ n, alloc n = true) →
      ∃ header, write c size = some header ∧
        read alloc (header ++ rest) prior = some ⟨some header.length, some
          ⟨c.sockaddr.text, c.localSockaddr.text, c.sockaddr.getPort, c.localSockaddr.getPort⟩⟩) ∧
    (∀ sa sb : SockAddr, sa.IsInet → sb.IsInet → sa.text = sb.text → sa.Same sb) ∧
    ∀ (alloc : ℕ → Bool) (buf : List UInt8) (prior : Option ProxyProtocol),
      ∃ o, read alloc buf prior = some o ∧ ((o.pos = none ∧ o.proxyProtocol = prior) ∨
        ∃ p, o.pos = some p ∧ 0 < p ∧ p ≤ buf.length) :=
  ⟨fun _ _ _ rest prior hok hsrc hdst hsize halloc =>
    ⟨_, write_eq hok hsrc hdst hsize, read_headerOf hsrc hdst halloc rest prior⟩,
    fun _ _ ha hb h => SockAddr.text_inj ha hb h, fun alloc _ _ => read_safe alloc⟩

end Hengine.Proxy
