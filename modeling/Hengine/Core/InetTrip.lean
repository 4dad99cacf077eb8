import Hengine.Core.Inet

/-!
# Addresses that are printed and read

The text that `ngx_inet6_ntop` prints, read by `ngx_inet6_addr`.

The printer leaves out one run of zero words, of which nothing is needed here but that the words are zero
(`Run`, `scan_spec`). The parser is followed along the text: words in front of the run, the run, words
behind it, or the four numbers of an IPv4 address at the end. `Ready` says that it stands in front of a
word.

An IPv4 address of four times 255 is the number `INADDR_NONE`, by which `ngx_inet_addr` reports an error.
-/

namespace Hengine.Inet

open List Option

/-! ### Digits -/

/-- A hexadecimal digit is no colon and no dot, and the parser reads its value. -/
theorem hexChar_spec {d : ℕ} (hd : d < 16) :
    hexChar d ≠ 0x3a ∧ hexChar d ≠ 0x2e ∧
      ((0x30 ≤ hexChar d ∧ hexChar d ≤ 0x39) ∧ (hexChar d - 0x30).toNat = d ∨
        ¬(0x30 ≤ hexChar d ∧ hexChar d ≤ 0x39) ∧
          (0x61 ≤ hexChar d ||| 0x20 ∧ hexChar d ||| 0x20 ≤ 0x66) ∧
          ((hexChar d ||| 0x20) - 0x61).toNat + 10 = d) := by
  have hall : ∀ d < 16, hexChar d ≠ 0x3a ∧ hexChar d ≠ 0x2e ∧
      ((0x30 ≤ hexChar d ∧ hexChar d ≤ 0x39) ∧ (hexChar d - 0x30).toNat = d ∨
        ¬(0x30 ≤ hexChar d ∧ hexChar d ≤ 0x39) ∧
          (0x61 ≤ hexChar d ||| 0x20 ∧ hexChar d ||| 0x20 ≤ 0x66) ∧
          ((hexChar d ||| 0x20) - 0x61).toNat + 10 = d) := by decide
  exact hall d hd

theorem decChar_spec {d : ℕ} (hd : d < 10) :
    (0x30 ≤ hexChar d ∧ hexChar d ≤ 0x39) ∧ (hexChar d - 0x30).toNat = d := by
  have hall : ∀ d < 10, (0x30 ≤ hexChar d ∧ hexChar d ≤ 0x39) ∧ (hexChar d - 0x30).toNat = d := by
    decide
  exact hall d hd

/-! ### IPv4 addresses -/

/-- A number of an IPv4 address is read. -/
theorem inetAddrLoop_dec {n : ℕ} (hn : n ≤ 255) (text : List UInt8) (addr : UInt32) (m : ℕ) :
    inetAddrLoop (sprintfDec n ++ text) addr 0 m = inetAddrLoop text addr n m := by
  refine numeral_induction (c := hexChar) (k := 8)
    (P := fun n s => n ≤ 255 → ∀ text, inetAddrLoop (s ++ text) addr 0 m = inetAddrLoop text addr n m)
    ?_ ?_ n hn text
  · intro d hd hn text
    obtain ⟨hdigit, hvalue⟩ := decChar_spec hd
    rw [singleton_append, inetAddrLoop, if_pos hdigit, hvalue, if_neg (by omega), Nat.zero_mul,
      Nat.zero_add]
  · intro n d _ hd ih hn text
    obtain ⟨hdigit, hvalue⟩ := decChar_spec hd
    rw [append_assoc, singleton_append, ih (by omega), inetAddrLoop, if_pos hdigit, hvalue,
      if_neg (by omega)]

/-- The number of an IPv4 address. -/
def ipv4 (a b c d : UInt8) : UInt32 :=
  (((((((((0 : UInt32) <<< 8) + a.toUInt32) <<< 8) + b.toUInt32) <<< 8) + c.toUInt32) <<< 8) +
    d.toUInt32)

/-- **An IPv4 address is read.** -/
theorem inetAddr_dotted (a b c d : UInt8) :
    inetAddr (sprintfDotted a b c d) = htonl (ipv4 a b c d) := by
  have hdot (text : List UInt8) (addr : UInt32) (octet m : ℕ) :
      inetAddrLoop (0x2e :: text) addr octet m =
        inetAddrLoop text ((addr <<< 8) + octet.toUInt32) 0 (m + 1) := by
    rw [inetAddrLoop, if_neg (by decide), if_pos rfl]
  have hle (x : UInt8) : x.toNat ≤ 255 := Nat.le_of_lt_succ x.toNat_lt
  have hcast (x : UInt8) : x.toNat.toUInt32 = x.toUInt32 := UInt32.ofNat_uInt8ToNat x
  have hlast := inetAddrLoop_dec (hle d) []
  simp only [append_nil] at hlast
  rw [inetAddr, sprintfDotted, inetAddrLoop_dec (hle a), hdot, inetAddrLoop_dec (hle b), hdot,
    inetAddrLoop_dec (hle c), hdot, hlast, inetAddrLoop, if_pos rfl, hcast, hcast, hcast, hcast]
  rfl

/-- The number of an address of four octets. -/
theorem toNat_ipv4 (a b c d : UInt8) :
    (ipv4 a b c d).toNat =
      a.toNat * 16777216 + b.toNat * 65536 + c.toNat * 256 + d.toNat := by
  have ha := a.toNat_lt
  have hb := b.toNat_lt
  have hc := c.toNat_lt
  have hd := d.toNat_lt
  simp only [ipv4, UInt32.toNat_add, UInt32.toNat_shiftLeft, UInt8.toNat_toUInt32, Nat.shiftLeft_eq,
    UInt32.reduceToNat, Nat.reduceMod, Nat.reducePow]
  omega

/-- `htonl` turns the four bytes of a word around. -/
theorem toNat_htonl {w : UInt32} {a b c d : ℕ} (ha : a < 256) (hb : b < 256) (hc : c < 256)
    (hd : d < 256) (hw : w.toNat = a * 16777216 + b * 65536 + c * 256 + d) :
    (htonl w).toNat = d * 16777216 + c * 65536 + b * 256 + a := by
  have h₀ : w.toNat % 256 = d := by omega
  have h₁ : w.toNat / 256 % 256 = c := by omega
  have h₂ : w.toNat / 65536 % 256 = b := by omega
  have h₃ : w.toNat / 16777216 % 256 = a := by omega
  simp only [htonl, UInt32.toNat_add, UInt32.toNat_shiftLeft, UInt32.toNat_shiftRight,
    UInt32.toNat_toUInt8, UInt8.toNat_toUInt32, Nat.shiftLeft_eq, Nat.shiftRight_eq_div_pow,
    UInt32.reduceToNat, Nat.reduceMod, Nat.reducePow, h₀, h₁, h₂, h₃]
  omega

/-- Turned around twice, a word is the same. -/
theorem htonl_htonl (w : UInt32) : htonl (htonl w) = w := by
  have hw := w.toNat_lt
  have hsplit : w.toNat = w.toNat / 16777216 * 16777216 + w.toNat / 65536 % 256 * 65536 +
      w.toNat / 256 % 256 * 256 + w.toNat % 256 := by
    omega
  have h₃ : w.toNat / 16777216 < 256 := by omega
  have hmod (n : ℕ) : n % 256 < 256 := Nat.mod_lt n (by decide)
  apply UInt32.toNat_inj.1
  rw [toNat_htonl (hmod _) (hmod _) (hmod _) h₃ (toNat_htonl h₃ (hmod _) (hmod _) (hmod _) hsplit)]
  exact hsplit.symm

/-- The address that is taken for an error. -/
theorem htonl_ipv4_none (a b c d : UInt8) :
    htonl (ipv4 a b c d) = inaddrNone ↔ a = 255 ∧ b = 255 ∧ c = 255 ∧ d = 255 := by
  have hnone : htonl inaddrNone = inaddrNone := by decide
  have hswap : htonl (ipv4 a b c d) = inaddrNone ↔ ipv4 a b c d = inaddrNone := by
    constructor
    · intro h
      rw [← htonl_htonl (ipv4 a b c d), h, hnone]
    · intro h
      rw [h, hnone]
  rw [hswap, ← UInt32.toNat_inj, toNat_ipv4]
  have ha := a.toNat_lt
  have hb := b.toNat_lt
  have hc := c.toNat_lt
  have hd := d.toNat_lt
  simp only [← UInt8.toNat_inj, UInt8.reduceToNat]
  have htop : inaddrNone.toNat = 4294967295 := rfl
  omega

/-- The four bytes that are written for an IPv4 address. -/
theorem ipv4_bytes (a b c d : UInt8) :
    [((ipv4 a b c d >>> 24) &&& 0xff).toUInt8, ((ipv4 a b c d >>> 16) &&& 0xff).toUInt8] ++
      wordBytes (ipv4 a b c d).toNat = [a, b, c, d] := by
  have hv := toNat_ipv4 a b c d
  have ha := a.toNat_lt
  have hb := b.toNat_lt
  have hc := c.toNat_lt
  have hd := d.toNat_lt
  have hand (x : ℕ) : x &&& 255 = x % 256 := Nat.and_two_pow_sub_one_eq_mod x 8
  have hbyte {x : UInt8} {n : ℕ} (h : n % 256 = x.toNat) : n.toUInt8 = x := by
    apply UInt8.toNat_inj.1
    rw [UInt8.toNat_ofNat', h]
  have h₁ : ((ipv4 a b c d >>> 24) &&& 0xff).toUInt8 = a := by
    apply UInt8.toNat_inj.1
    rw [UInt32.toNat_toUInt8, UInt32.toNat_and, UInt32.toNat_shiftRight, Nat.shiftRight_eq_div_pow]
    simp only [UInt32.reduceToNat, Nat.reduceMod, Nat.reducePow, hand]
    omega
  have h₂ : ((ipv4 a b c d >>> 16) &&& 0xff).toUInt8 = b := by
    apply UInt8.toNat_inj.1
    rw [UInt32.toNat_toUInt8, UInt32.toNat_and, UInt32.toNat_shiftRight, Nat.shiftRight_eq_div_pow]
    simp only [UInt32.reduceToNat, Nat.reduceMod, Nat.reducePow, hand]
    omega
  have h₃ : ((ipv4 a b c d).toNat >>> 8).toUInt8 = c := by
    refine hbyte ?_
    rw [Nat.shiftRight_eq_div_pow]
    omega
  have h₄ : ((ipv4 a b c d).toNat &&& 0xff).toUInt8 = d := by
    refine hbyte ?_
    rw [hand]
    omega
  rw [wordBytes, h₁, h₂, h₃, h₄]
  rfl

/-! ### Words -/

/-- The parser from some point of the text on. -/
def parseRest (mem text : List UInt8) (s : State) : Option (List UInt8) :=
  (inet6Loop text s).bind (inet6Finish mem)

/-- The parser stands in front of a word. -/
structure Ready (s : State) : Prop where
  nibbles : s.nibbles = 0
  word : s.word = 0

variable {p : List UInt8} {s : State} {z : Zeros}

/-- **One digit** goes into the word. -/
theorem inet6Loop_char {d : ℕ} (hd : d < 16) (text : List UInt8) (hn : s.nibbles < 4) :
    inet6Loop (hexChar d :: text) s =
      inet6Loop text { s with nibbles := s.nibbles + 1, word := s.word * 16 + d } := by
  obtain ⟨hcolon, hdot, hcase⟩ := hexChar_spec hd
  rw [inet6Loop, if_neg hcolon, if_neg fun h => hdot h.1, if_neg (by omega)]
  rcases hcase with ⟨hdigit, hvalue⟩ | ⟨hdigit, hletter, hvalue⟩
  · rw [if_pos hdigit, hvalue]
  · rw [if_neg hdigit, if_pos hletter, Nat.add_assoc, hvalue]

/-- Some digits, no more than four in a group. -/
theorem inet6Loop_digits (text : List UInt8) : ∀ (ds : List ℕ) (s : State), (∀ d ∈ ds, d < 16) →
    s.nibbles + ds.length ≤ 4 →
    inet6Loop (ds.map hexChar ++ text) s = inet6Loop text { s with
      nibbles := s.nibbles + ds.length, word := ds.foldl (fun w d => w * 16 + d) s.word }
  | [], _, _, _ => rfl
  | d :: ds, s, hall, hlen => by
    obtain ⟨hd, hds⟩ := forall_mem_cons.1 hall
    rw [length_cons] at hlen
    rw [map_cons, cons_append, inet6Loop_char hd _ (by omega),
      inet6Loop_digits text ds _ hds (by dsimp only; omega), length_cons, foldl_cons]
    dsimp only
    rw [Nat.add_assoc, Nat.add_comm 1]

/-- A numeral in the digits of the parser. -/
theorem inet6Loop_numeral {k n : ℕ} (hk : k ≤ 14) (hn : (numeral hexChar k n).length ≤ 4)
    (text : List UInt8) (hready : Ready s) :
    inet6Loop (numeral hexChar k n ++ text) s = inet6Loop text { s with
      nibbles := (numeral hexChar k n).length
      word := (numeral id k n).foldl (fun w d => w * 16 + d) 0 } := by
  have hmap : numeral hexChar k n = (numeral id k n).map hexChar := (map_numeral hexChar n).symm
  rw [hmap, length_map] at hn ⊢
  have hall : ∀ d ∈ numeral id k n, d < 16 := by
    intro d hd
    obtain ⟨e, he, rfl⟩ := mem_numeral n d hd
    exact Nat.lt_of_lt_of_le he (by omega)
  rw [inet6Loop_digits text _ s hall (by rw [hready.nibbles]; omega), hready.nibbles, hready.word,
    Nat.zero_add]

/-- **A word is read.** -/
theorem inet6Loop_hex {w : ℕ} (hw : w < 65536) (text : List UInt8) (hready : Ready s) :
    ∃ m, 0 < m ∧ inet6Loop (sprintfHex w ++ text) s =
      inet6Loop text { s with nibbles := m, word := w } := by
  refine ⟨(sprintfHex w).length, length_pos_iff.2 (numeral_ne_nil w), ?_⟩
  have hvalue : (numeral id 14 w).foldl (fun w d => w * 16 + d) 0 = w :=
    foldl_numeral (v := id) (fun d _ => rfl) w
  rw [sprintfHex, inet6Loop_numeral (by decide) (length_numeral_le 3 hw) text hready, hvalue]

/-- The first number of a dotted address is read as a group, whatever its value then is. -/
theorem inet6Loop_dec (a : UInt8) (text : List UInt8) (hready : Ready s) :
    ∃ m w, 0 < m ∧ inet6Loop (sprintfDec a.toNat ++ text) s =
      inet6Loop text { s with nibbles := m, word := w } := by
  have hlen : (sprintfDec a.toNat).length ≤ 4 :=
    length_numeral_le 3 (Nat.lt_of_lt_of_le a.toNat_lt (by decide))
  exact ⟨_, _, length_pos_iff.2 (numeral_ne_nil _), inet6Loop_numeral (by decide) hlen text hready⟩

/-- At a colon behind a group, the loop writes the word of the group. -/
theorem inet6Loop_colon (text : List UInt8) (hm : 0 < s.nibbles) (hn : 2 ≤ s.n) :
    inet6Loop (0x3a :: text) s = inet6Loop text { s with
      digit := some text, out := s.out ++ wordBytes s.word, n := s.n - 1, nibbles := 0, word := 0 } := by
  rw [inet6Loop, if_pos rfl, if_pos (Nat.pos_iff_ne_zero.1 hm), if_pos (by omega)]

/-- A second colon in a row is the place of the zeros. -/
theorem parseRest_colon (mem text : List UInt8) (hm : s.nibbles = 0) (hz : s.zero = none) :
    parseRest mem (0x3a :: text) s =
      parseRest mem text { s with digit := some text, zero := some s.out.length } := by
  rw [parseRest, inet6Loop, if_pos rfl, if_neg fun h => h hm, if_pos hz, parseRest]

theorem inet6Loop_dot (text : List UInt8) (hm : 0 < s.nibbles) :
    inet6Loop (0x2e :: text) s = dotted s := by
  rw [inet6Loop, if_neg (by decide), if_pos ⟨rfl, Nat.pos_iff_ne_zero.1 hm⟩]

/-! ### The end of the text -/

/-- The address when all of its words are read, and `n` are left. -/
def result (mem : List UInt8) (z : Option ℕ) (n : ℕ) (out : List UInt8) : Option (List UInt8) :=
  if n ≠ 0 then z.map fun z => expand mem out z (n * 2)
  else if z = none then some (out ++ mem.drop out.length) else none

/-- At the end of the text the last word is written, and the zeros are moved in. -/
theorem inet6Finish_eq (mem : List UInt8) (h : ¬(s.nibbles = 0 ∧ s.zero = none)) :
    inet6Finish mem s = result mem s.zero (s.n - 1) (s.out ++ wordBytes s.word) := by
  rw [inet6Finish, if_neg h, result]
  dsimp only
  by_cases hn : s.n - 1 ≠ 0
  · rw [if_pos hn, if_pos hn]
    cases s.zero <;> rfl
  · rw [if_neg hn, if_neg hn]
    cases s.zero <;> rfl

/-- The bytes of a word of the address. -/
theorem wordBytes_wordAt (p : List UInt8) (i : ℕ) :
    wordBytes (wordAt p i) = [p.getD i 0, p.getD (i + 1) 0] := by
  have hl := (p.getD (i + 1) 0).toNat_lt
  have hh := (p.getD i 0).toNat_lt
  have hand (x : ℕ) : x &&& 255 = x % 256 := Nat.and_two_pow_sub_one_eq_mod x 8
  have hbyte {x : UInt8} {n : ℕ} (h : n % 256 = x.toNat) : n.toUInt8 = x := by
    apply UInt8.toNat_inj.1
    rw [UInt8.toNat_ofNat', h]
  rw [wordBytes, hbyte (n := wordAt p i >>> 8) (x := p.getD i 0), hbyte (x := p.getD (i + 1) 0)]
  · rw [hand, wordAt]
    omega
  · rw [Nat.shiftRight_eq_div_pow, wordAt]
    omega

theorem wordAt_lt (p : List UInt8) (i : ℕ) : wordAt p i < 65536 := by
  have hl := (p.getD (i + 1) 0).toNat_lt
  have hh := (p.getD i 0).toNat_lt
  rw [wordAt]
  omega

/-- The next word of the address, and the rest. -/
theorem drop_word (hp : p.length = 16) {i : ℕ} (hi : i < 15) :
    p.drop i = p.getD i 0 :: p.getD (i + 1) 0 :: p.drop (i + 2) := by
  have hget (j : ℕ) (hj : j < 16) : p.getD j 0 = p[j] := by
    rw [getD_eq_getElem?_getD, getElem?_eq_getElem (by omega), getD_some]
  rw [hget i (by omega), hget (i + 1) (by omega), drop_eq_getElem_cons (by omega),
    drop_eq_getElem_cons (i := i + 1) (by omega)]

/-! ### Words behind the gap and in front of it -/

/-- A word outside the zeros is printed with its colon. -/
theorem printWords_word {z : Option ℕ} {m n i : ℕ} (hi : i < n) (hz : some i ≠ z) :
    printWords p z m n i = sprintfHex (wordAt p i) ++
      ((if i < 14 then [0x3a] else []) ++ printWords p z m n (i + 2)) := by
  rw [printWords, if_pos hi, if_neg hz]

theorem printWords_gap {m n i : ℕ} (hi : i < n) :
    printWords p (some i) m n i = 0x3a :: printWords p (some i) m n (i + (m - 1) * 2 + 2) := by
  rw [printWords, if_pos hi, if_pos rfl]

theorem printWords_end {z : Option ℕ} {m n i : ℕ} (hi : n ≤ i) : printWords p z m n i = [] := by
  rw [printWords, if_neg (by omega)]

/-- **A group in the middle** adds its two bytes. -/
theorem parseRest_word (mem text : List UInt8) (i : ℕ) (hready : Ready s) (hn : 2 ≤ s.n) :
    parseRest mem (sprintfHex (wordAt p i) ++ 0x3a :: text) s = parseRest mem text { s with
      digit := some text, out := s.out ++ [p.getD i 0, p.getD (i + 1) 0], n := s.n - 1
      nibbles := 0, word := 0 } := by
  obtain ⟨m, hm, hread⟩ := inet6Loop_hex (wordAt_lt p i) (0x3a :: text) hready
  have hcolon := inet6Loop_colon text (s := { s with nibbles := m, word := wordAt p i }) hm hn
  rw [parseRest, hread, hcolon, wordBytes_wordAt, parseRest]

/-- **Words up to the end** are read. -/
theorem parseRest_words {p mem : List UInt8} (hp : p.length = 16) {z : Option ℕ} {w : ℕ} (m : ℕ) :
    ∀ {k : ℕ} {s : State}, k + m = 7 → (∀ j, k ≤ j → some (2 * j) ≠ z) → Ready s →
      m + 1 ≤ s.n → parseRest mem (printWords p z w 16 (2 * k)) s =
        result mem s.zero (s.n - (m + 1)) (s.out ++ p.drop (2 * k)) := by
  induction m with
  | zero =>
    intro k s hk hz hready _
    obtain rfl : k = 7 := hk
    obtain ⟨m, hm, hread⟩ := inet6Loop_hex (wordAt_lt p 14) [] hready
    have hprint : printWords p z w 16 (2 * 7) = sprintfHex (wordAt p 14) ++ [] := by
      rw [printWords_word (by decide) (hz 7 le_rfl), printWords_end (by decide)]
      rfl
    have hdrop : p.drop (2 * 7) = [p.getD 14 0, p.getD 15 0] := by
      rw [drop_word hp (by decide), drop_of_length_le (by omega)]
    rw [parseRest, hprint, hread, inet6Loop, bind_some,
      inet6Finish_eq mem fun h => Nat.pos_iff_ne_zero.1 hm h.1, wordBytes_wordAt, hdrop]
  | succ m ih =>
    intro k s hk hz hready hn
    have hprint : printWords p z w 16 (2 * k) = sprintfHex (wordAt p (2 * k)) ++
        0x3a :: printWords p z w 16 (2 * (k + 1)) := by
      rw [printWords_word (by omega) (hz k le_rfl), if_pos (by omega)]
      rfl
    rw [hprint, parseRest_word mem _ _ hready (by omega)]
    refine (ih (by omega) (fun j hj => hz j (by omega)) ⟨rfl, rfl⟩ (by dsimp only; omega)).trans ?_
    dsimp only
    rw [drop_word hp (i := 2 * k) (by omega), append_assoc, Nat.sub_sub, Nat.add_comm 1]
    rfl

/-- Words that are zero. -/
def Run (p : List UInt8) (k m : ℕ) : Prop := ∀ i, 2 * k ≤ i → i < 2 * (k + m) → p.getD i 0 = 0

/-- An address with a run of zeros is what stands before the run, the zeros and what stands
behind. -/
theorem Run.split (hp : p.length = 16) {k m : ℕ} (h : Run p k m) (hm : k + m ≤ 8) :
    p.take (2 * k) ++ (List.replicate (2 * m) 0 ++ p.drop (2 * (k + m))) = p := by
  have hmiddle : List.replicate (2 * m) 0 = (p.drop (2 * k)).take (2 * m) := by
    refine ext_getElem (by simp; omega) fun i h₁ _ => ?_
    rw [length_replicate] at h₁
    have hzero := h (2 * k + i) (by omega) (by omega)
    rw [getD_eq_getElem?_getD, getElem?_eq_getElem (by omega), getD_some] at hzero
    simp [hzero]
  have hdrop : p.drop (2 * (k + m)) = (p.drop (2 * k)).drop (2 * m) := by
    rw [drop_drop, ← Nat.mul_add]
  rw [hmiddle, hdrop, take_append_drop, take_append_drop]

/-- **A gap and the words behind it** are read. -/
theorem parseRest_gap {p mem : List UInt8} (hp : p.length = 16) (hmem : mem.length = 16) {k m : ℕ}
    (hm : 2 ≤ m) (hkm : k + m ≤ 8) (hrun : Run p k m) (hready : Ready s) (hz : s.zero = none)
    (hout : s.out = p.take (2 * k)) (hn : s.n = 8 - k) :
    parseRest mem (0x3a :: printWords p (some (2 * k)) m 16 (2 * (k + m))) s = some p := by
  have hlen : s.out.length = 2 * k := by
    rw [hout, length_take]
    omega
  have hbehind : ∀ j, k + m ≤ j → some (2 * j) ≠ some (2 * k) := by
    intro j hj h
    have := Option.some.inj h
    omega
  rw [parseRest_colon mem _ hready.nibbles hz]
  by_cases hend : k + m = 8
  · -- the word that is written at the end of the text is one of the zero words
    rw [hend, printWords_end (by decide), parseRest, inet6Loop, bind_some,
      inet6Finish_eq mem (by simp)]
    dsimp only
    rw [hready.word, result, if_pos (by omega), map_some,
      expand_eq (by omega) (by rw [hmem, hlen, hn]; simp [wordBytes]; omega)]
    have hsplit := hrun.split hp hkm
    rw [hend, drop_of_length_le (by omega), append_nil] at hsplit
    rw [hout]
    refine congrArg some (Eq.trans ?_ hsplit)
    congr 1
    have hcount : 2 * m = (s.n - 1) * 2 + 2 := by omega
    rw [hcount, replicate_add]
    rfl
  · obtain ⟨r, hr⟩ : ∃ r, k + m + r = 7 := ⟨7 - (k + m), by omega⟩
    have hbegin : Ready { s with
        digit := some (printWords p (some (2 * k)) m 16 (2 * (k + m))), zero := some s.out.length } :=
      ⟨hready.nibbles, hready.word⟩
    rw [parseRest_words hp r hr hbehind hbegin (by dsimp only; omega)]
    dsimp only
    rw [result, if_pos (by omega), map_some,
      expand_eq (by omega) (by rw [hmem, hlen, hn, length_drop, hp]; omega), hout]
    have hcount : (s.n - (r + 1)) * 2 = 2 * m := by omega
    rw [hcount, hrun.split hp hkm]

/-- **Words in front of a gap** are read, and what follows. -/
theorem parseRest_front {p mem : List UInt8} (hp : p.length = 16) (hmem : mem.length = 16) {k m : ℕ}
    (hm : 2 ≤ m) (hkm : k + m ≤ 8) (hrun : Run p k m) (r : ℕ) : ∀ {j : ℕ} {s : State}, j + r = k →
    Ready s → s.zero = none → s.out = p.take (2 * j) → s.n = 8 - j →
    parseRest mem (printWords p (some (2 * k)) m 16 (2 * j)) s = some p := by
  induction r with
  | zero =>
    intro j s hj hready hz hout hn
    obtain rfl : j = k := hj
    have hnext : 2 * j + (m - 1) * 2 + 2 = 2 * (j + m) := by omega
    rw [printWords_gap (by omega), hnext]
    exact parseRest_gap hp hmem hm hkm hrun hready hz hout hn
  | succ r ih =>
    intro j s hj hready hz hout hn
    have hprint : printWords p (some (2 * k)) m 16 (2 * j) = sprintfHex (wordAt p (2 * j)) ++
        0x3a :: printWords p (some (2 * k)) m 16 (2 * (j + 1)) := by
      rw [printWords_word (by omega) (fun h => by have := Option.some.inj h; omega),
        if_pos (by omega)]
      rfl
    rw [hprint, parseRest_word mem _ _ hready (by omega)]
    refine ih (by omega) ⟨rfl, rfl⟩ hz ?_ (by dsimp only; omega)
    dsimp only
    have hdrop := drop_word hp (i := 2 * j) (by omega)
    have htake : (p.drop (2 * j)).take 2 = [p.getD (2 * j) 0, p.getD (2 * j + 1) 0] := by
      rw [hdrop]
      rfl
    rw [hout, ← htake, ← take_add]
    rfl

/-! ### IPv4 addresses at the end -/

/-- **An IPv4 address at the end** is read, unless it is taken for an error. -/
theorem parseRest_dotted (mem : List UInt8) (a b c d : UInt8) (hready : Ready s) (hn : 2 ≤ s.n)
    (hz : s.zero ≠ none) (hdigit : s.digit = some (sprintfDotted a b c d)) :
    parseRest mem (sprintfDotted a b c d) s =
      if a = 255 ∧ b = 255 ∧ c = 255 ∧ d = 255 then none
      else result mem s.zero (s.n - 2) (s.out ++ [a, b, c, d]) := by
  obtain ⟨m, w, hm, hread⟩ := inet6Loop_dec a (0x2e :: (sprintfDec b.toNat ++ 0x2e ::
    (sprintfDec c.toNat ++ 0x2e :: sprintfDec d.toNat))) hready
  have hloop : inet6Loop (sprintfDotted a b c d) s =
      dotted { s with nibbles := m, word := w } := by
    rw [sprintfDotted, hread, inet6Loop_dot]
    exact hm
  rw [parseRest, hloop, dotted]
  simp only [hdigit, if_neg (Nat.not_lt.2 hn), inetAddr_dotted, htonl_ipv4_none, htonl_htonl]
  split_ifs with hnone
  · rfl
  · have hfinish := inet6Finish_eq mem (s := { s with
      nibbles := m, word := (ipv4 a b c d).toNat, n := s.n - 1
      out := s.out ++ [((ipv4 a b c d >>> 24) &&& 0xff).toUInt8,
        ((ipv4 a b c d >>> 16) &&& 0xff).toUInt8] }) fun h => hz h.2
    dsimp only at hfinish
    rw [append_assoc, ipv4_bytes, Nat.sub_sub] at hfinish
    rw [← hdigit]
    exact hfinish

/-! ### Zeros -/

/-- What the loop that looks for zeros knows in front of the word `j`: the run that ends there, and one of
two words or more. -/
structure Zeros.Inv (p : List UInt8) (j : ℕ) (z : Zeros) : Prop where
  last : 0 < z.n → ∃ k, k + z.n = j ∧ z.last = some (2 * k) ∧ Run p k z.n
  max : 1 ≤ z.max
  zero : z.zero = none ∨ ∃ k, z.zero = some (2 * k) ∧ 2 ≤ z.max ∧ k + z.max ≤ j ∧ Run p k z.max

/-- Recording a run of zeros keeps the invariant of the scan. -/
theorem Zeros.Inv.record {j : ℕ} (h : z.Inv p j) : z.record.Inv p j ∧ z.record.n = z.n := by
  rw [Zeros.record]
  split_ifs with hmax
  · obtain ⟨k, hk, hlast, hrun⟩ := h.last (by omega)
    have hmax1 := h.max
    exact ⟨⟨h.last, by dsimp only; omega, .inr ⟨k, hlast, by dsimp only; omega, hk.le, hrun⟩⟩, rfl⟩
  · exact ⟨h, rfl⟩

/-- One turn goes over one word. -/
theorem Zeros.Inv.turn {j : ℕ} (h : z.Inv p j) : (z.turn p (2 * j)).Inv p (j + 1) := by
  rw [Zeros.turn]
  by_cases hword : p.getD (2 * j) 0 ≠ 0 ∨ p.getD (2 * j + 1) 0 ≠ 0
  · rw [if_pos hword]
    obtain ⟨hrec, -⟩ := h.record
    refine ⟨fun hn => absurd hn (Nat.lt_irrefl 0), hrec.max, ?_⟩
    rcases hrec.zero with hz | ⟨k, hz, htwo, hk, hrun⟩
    · exact .inl hz
    · exact .inr ⟨k, hz, htwo, by dsimp only; omega, hrun⟩
  · rw [if_neg hword]
    obtain ⟨hlow, hhigh⟩ := not_or.1 hword
    have hrun (k : ℕ) (hk : k + z.n = j) (hr : Run p k z.n) : Run p k (z.n + 1) := by
      intro i hi hlt
      by_cases hlt' : i < 2 * (k + z.n)
      · exact hr i hi hlt'
      · rcases (by omega : i = 2 * j ∨ i = 2 * j + 1) with rfl | rfl
        · exact not_not.1 hlow
        · exact not_not.1 hhigh
    refine ⟨fun _ => ?_, h.max, ?_⟩
    · by_cases hn : z.n = 0
      · refine ⟨j, by dsimp only; omega, if_pos hn, hrun j (by omega) ?_⟩
        intro i hi hlt
        omega
      · obtain ⟨k, hk, hlast, hr⟩ := h.last (Nat.pos_iff_ne_zero.2 hn)
        exact ⟨k, by dsimp only; omega, (if_neg hn).trans hlast, hrun k hk hr⟩
    · rcases h.zero with hz | ⟨k, hz, htwo, hk, hr⟩
      · exact .inl hz
      · exact .inr ⟨k, hz, htwo, by dsimp only; omega, hr⟩

/-- **The words that are left out are zero.** -/
theorem scan_spec (p : List UInt8) :
    (Zeros.scan p).zero = none ∨ ∃ k, (Zeros.scan p).zero = some (2 * k) ∧
      2 ≤ (Zeros.scan p).max ∧ k + (Zeros.scan p).max ≤ 8 ∧ Run p k (Zeros.scan p).max := by
  have h₀ : Zeros.Inv p 0 ⟨none, none, 1, 0⟩ :=
    ⟨fun hn => absurd hn (Nat.lt_irrefl 0), le_rfl, .inl rfl⟩
  exact h₀.turn.turn.turn.turn.turn.turn.turn.turn.record.1.zero

/-! ### The theorem -/

/-- The variables in front of the loop. -/
def State.init : State := ⟨[], none, none, 8, 0, 0⟩

theorem ready_init : Ready State.init := ⟨rfl, rfl⟩

theorem inet6Addr_colon (text mem : List UInt8) :
    inet6Addr (0x3a :: text) mem = parseRest mem text .init := by
  rw [inet6Addr, if_pos rfl]
  rfl

/-- An address that begins with a group is read from the start state. -/
theorem inet6Addr_word (w : ℕ) (text mem : List UInt8) :
    inet6Addr (sprintfHex w ++ text) mem = parseRest mem (sprintfHex w ++ text) .init := by
  cases hs : sprintfHex w with
  | nil => exact absurd hs (numeral_ne_nil w)
  | cons c cs =>
    have hc : c ∈ numeral hexChar 14 w := by
      show c ∈ sprintfHex w
      rw [hs]
      exact mem_cons_self
    obtain ⟨d, hd, rfl⟩ := mem_numeral w c hc
    rw [cons_append, inet6Addr, if_neg (hexChar_spec hd).1]
    rfl

/-- `::ffff:255.255.255.255`. -/
def mappedNone : List UInt8 := List.replicate 10 0 ++ [255, 255, 255, 255, 255, 255]

/-- `::255.255.255.255`. -/
def compatibleNone : List UInt8 := List.replicate 12 0 ++ [255, 255, 255, 255]

theorem drop_last (hp : p.length = 16) :
    p.drop 12 = [p.getD 12 0, p.getD 13 0, p.getD 14 0, p.getD 15 0] := by
  rw [drop_word hp (by decide), drop_word hp (by decide), drop_of_length_le (by omega)]

/-- An IPv4 address of four times 255 stands at the end of two addresses that are printed with one. -/
theorem last_none (hp : p.length = 16) (hdotted : dottedTail p z) (hrun : Run p 0 z.max)
    (hlast : p.getD 12 0 = 255 ∧ p.getD 13 0 = 255 ∧ p.getD 14 0 = 255 ∧ p.getD 15 0 = 255) :
    p = mappedNone ∨ p = compatibleNone := by
  have hend : p.drop 12 = [255, 255, 255, 255] := by
    rw [drop_last hp, hlast.1, hlast.2.1, hlast.2.2.1, hlast.2.2.2]
  obtain ⟨-, ⟨hmax, hten, heleven⟩ | hmax | ⟨hmax, -⟩⟩ := hdotted
  · have hsplit := hrun.split hp (by omega)
    rw [hmax, drop_word hp (by decide), hend, hten, heleven] at hsplit
    exact .inl hsplit.symm
  · have hsplit := hrun.split hp (by omega)
    rw [hmax, hend] at hsplit
    exact .inr hsplit.symm
  · have hzero := hrun 12 (by omega) (by omega)
    rw [hlast.1] at hzero
    cases hzero

/-- **An address that is printed with an IPv4 address at its end** is read, unless that is taken for an
error. -/
theorem inet6Addr_dottedTail {p mem : List UInt8} (hp : p.length = 16) (hmem : mem.length = 16)
    (hdotted : dottedTail p z) (hrun : Run p 0 z.max) :
    inet6Addr (0x3a :: (printWords p (some 0) z.max 12 0 ++
      sprintfDotted (p.getD 12 0) (p.getD 13 0) (p.getD 14 0) (p.getD 15 0))) mem =
      if p.getD 12 0 = 255 ∧ p.getD 13 0 = 255 ∧ p.getD 14 0 = 255 ∧ p.getD 15 0 = 255 then none
      else some p := by
  obtain ⟨-, hcase⟩ := hdotted
  have hend := drop_last hp
  have h₇ : 2 ≤ 7 := by decide
  have h₈ : 2 ≤ 8 := by decide
  rw [inet6Addr_colon, printWords_gap (by decide), cons_append,
    parseRest_colon mem _ rfl rfl]
  rcases hcase with ⟨hmax, hten, heleven⟩ | hcase
  · -- the word `ffff` stands in front of the IPv4 address
    have hprint : printWords p (some 0) 5 12 (0 + (5 - 1) * 2 + 2) =
        sprintfHex (wordAt p 10) ++ [0x3a] := by
      rw [printWords_word (by decide) (by decide), if_pos (by decide), printWords_end (by decide),
        append_nil]
    have hsplit := hrun.split hp (by omega)
    rw [hmax, drop_word hp (by decide), hend] at hsplit
    rw [hmax, hprint, append_assoc, singleton_append,
      parseRest_word mem _ 10 ⟨rfl, rfl⟩ h₈,
      parseRest_dotted mem _ _ _ _ ⟨rfl, rfl⟩ h₇ (by simp) rfl]
    split_ifs
    · rfl
    · have hexpand := expand_eq (a := []) (b := [p.getD 10 0, p.getD 11 0, p.getD 12 0,
        p.getD 13 0, p.getD 14 0, p.getD 15 0]) (n := 10) (by decide) hmem.symm
      exact (congrArg some hexpand).trans (congrArg some hsplit)
  · have hprint : printWords p (some 0) z.max 12 (0 + (z.max - 1) * 2 + 2) = [] :=
      printWords_end (by omega)
    have hsplit : List.replicate 12 0 ++ p.drop 12 = p := by
      have hsix : Run p 0 6 := fun i hi hlt => hrun i hi (by omega)
      exact hsix.split hp (by decide)
    rw [hend] at hsplit
    rw [hprint, nil_append,
      parseRest_dotted mem _ _ _ _ ⟨rfl, rfl⟩ h₈ (by simp) rfl]
    split_ifs
    · rfl
    · have hexpand := expand_eq (a := []) (b := [p.getD 12 0, p.getD 13 0, p.getD 14 0, p.getD 15 0])
        (n := 12) (by decide) hmem.symm
      exact (congrArg some hexpand).trans (congrArg some hsplit)

/-- A word takes five characters at most. -/
theorem length_printWords (p : List UInt8) (z : Option ℕ) (max n : ℕ) (m : ℕ) : ∀ {i : ℕ},
    n ≤ i + 2 * m → (printWords p z max n i).length ≤ 5 * m := by
  induction m with
  | zero =>
    intro i hi
    rw [printWords_end (by omega)]
    exact le_rfl
  | succ m ih =>
    intro i hi
    by_cases hlt : i < n
    · by_cases hz : some i = z
      · subst hz
        have hrest := ih (i := i + (max - 1) * 2 + 2) (by omega)
        rw [printWords_gap hlt, length_cons]
        omega
      · have hrest := ih (i := i + 2) (by omega)
        have hword : (sprintfHex (wordAt p i)).length ≤ 4 := length_numeral_le 3 (wordAt_lt p i)
        have hcolon : (if i < 14 then [0x3a] else [] : List UInt8).length ≤ 1 := by
          split_ifs <;> decide
        rw [printWords_word hlt hz, length_append, length_append]
        omega
    · rw [printWords_end (by omega)]
      exact Nat.zero_le _

/-- A dotted address has at most 15 characters. -/
theorem length_sprintfDotted (a b c d : UInt8) : (sprintfDotted a b c d).length ≤ 15 := by
  have hdec (x : UInt8) : (sprintfDec x.toNat).length ≤ 3 :=
    length_numeral_le 2 (Nat.lt_of_lt_of_le x.toNat_lt (by decide))
  have ha := hdec a
  have hb := hdec b
  have hc := hdec c
  have hd := hdec d
  simp only [sprintfDotted, length_append, length_cons]
  omega

/-- Words up to the end, the last of them without a colon. -/
theorem length_words (p : List UInt8) (z : Option ℕ) (m : ℕ) (r : ℕ) : ∀ {k : ℕ}, k + r = 7 →
    (∀ j, k ≤ j → some (2 * j) ≠ z) → (printWords p z m 16 (2 * k)).length ≤ 5 * r + 4 := by
  induction r with
  | zero =>
    intro k hk hz
    obtain rfl : k = 7 := hk
    have hword : (sprintfHex (wordAt p 14)).length ≤ 4 := length_numeral_le 3 (wordAt_lt p 14)
    rw [printWords_word (by decide) (hz 7 (Nat.le_refl 7)), printWords_end (by decide)]
    simpa using hword
  | succ r ih =>
    intro k hk hz
    have hword : (sprintfHex (wordAt p (2 * k))).length ≤ 4 :=
      length_numeral_le 3 (wordAt_lt p (2 * k))
    have hrest : (printWords p z m 16 (2 * k + 2)).length ≤ 5 * r + 4 :=
      ih (k := k + 1) (by omega) fun j hj => hz j (by omega)
    rw [printWords_word (by omega) (hz k (Nat.le_refl k)), if_pos (by omega)]
    simp only [length_append, length_cons, length_nil]
    omega

/-- Words with a gap among them. -/
theorem length_front (p : List UInt8) {k m : ℕ} (hm : 2 ≤ m) (hkm : k + m ≤ 8) (r : ℕ) : ∀ {j : ℕ},
    j + r = k → (printWords p (some (2 * k)) m 16 (2 * j)).length ≤ 5 * r + 1 + 5 * (8 - k - m) := by
  induction r with
  | zero =>
    intro j hj
    obtain rfl : j = k := hj
    have hrest := length_printWords p (some (2 * j)) m 16 (8 - j - m)
      (i := 2 * j + (m - 1) * 2 + 2) (by omega)
    rw [printWords_gap (by omega), length_cons]
    omega
  | succ r ih =>
    intro j hj
    have hne : some (2 * j) ≠ some (2 * k) := fun h => by
      have := Option.some.inj h
      omega
    have hword : (sprintfHex (wordAt p (2 * j))).length ≤ 4 :=
      length_numeral_le 3 (wordAt_lt p (2 * j))
    have hrest : (printWords p (some (2 * k)) m 16 (2 * j + 2)).length ≤
        5 * r + 1 + 5 * (8 - k - m) := ih (j := j + 1) (by omega)
    rw [printWords_word (by omega) hne, if_pos (by omega)]
    simp only [length_append, length_cons, length_nil]
    omega

/-- **The longest text** of an IPv6 address has eight words of four digits. -/
theorem length_inet6Ntop (p : List UInt8) (len : ℕ) : (inet6Ntop p len).length ≤ 39 := by
  rw [inet6Ntop]
  by_cases hlen : len < inet6AddrStrLen
  · rw [if_pos hlen]
    exact Nat.zero_le _
  rw [if_neg hlen]
  dsimp only
  by_cases hdotted : dottedTail p (Zeros.scan p)
  · have hz := hdotted.1
    have hcase := hdotted.2
    have hwords := length_printWords p (some 0) (Zeros.scan p).max 12 1
      (i := 0 + ((Zeros.scan p).max - 1) * 2 + 2) (by omega)
    have htail := length_sprintfDotted (p.getD 12 0) (p.getD 13 0) (p.getD 14 0) (p.getD 15 0)
    rw [if_pos hdotted, if_pos hz, if_pos rfl, hz, printWords_gap (by decide)]
    simp only [length_append, length_cons, length_nil]
    omega
  · rw [if_neg hdotted, if_neg (by decide : ¬(16 = 12)), append_nil, length_append]
    rcases scan_spec p with hz | ⟨k, hz, htwo, hle, -⟩
    · have hwords := length_words p none (Zeros.scan p).max 7 (k := 0) rfl fun _ _ => Option.some_ne_none _
      rw [hz, if_neg (Option.some_ne_none _).symm]
      simpa using hwords
    · have hwords : (printWords p (some (2 * k)) (Zeros.scan p).max 16 0).length ≤ _ :=
        length_front p htwo hle k (j := 0) (Nat.zero_add k)
      have hcolon : (if (Zeros.scan p).zero = some 0 then [0x3a] else [] : List UInt8).length ≤ 1 := by
        split_ifs <;> decide
      rw [hz] at hcolon ⊢
      omega

/-- **An address that is printed without an IPv4 address** is read. -/
theorem inet6Addr_words {p mem : List UInt8} (hp : p.length = 16) (hmem : mem.length = 16) :
    inet6Addr ((if (Zeros.scan p).zero = some 0 then [0x3a] else []) ++
      printWords p (Zeros.scan p).zero (Zeros.scan p).max 16 0) mem = some p := by
  rcases scan_spec p with hz | ⟨k, hz, htwo, hle, hrun⟩
  · have hwords : parseRest mem (printWords p none (Zeros.scan p).max 16 (2 * 0)) .init = _ :=
      parseRest_words hp 7 rfl (fun _ _ h => nomatch h) ready_init (by decide)
    have hprint := printWords_word (p := p) (z := none) (m := (Zeros.scan p).max) (n := 16) (i := 0)
      (by decide) (fun h => nomatch h)
    rw [hz, if_neg (fun h => nomatch h), nil_append, hprint, inet6Addr_word, ← hprint]
    refine hwords.trans (congrArg some ?_)
    show p ++ mem.drop p.length = p
    rw [drop_of_length_le (by omega), append_nil]
  · have hfront := parseRest_front hp hmem htwo hle hrun k (j := 0) (Nat.zero_add k) ready_init rfl
      rfl rfl
    rw [hz]
    by_cases hk : k = 0
    · subst hk
      rw [if_pos rfl, singleton_append, inet6Addr_colon]
      exact hfront
    · have hne : some 0 ≠ some (2 * k) := fun h => by
        have := Option.some.inj h
        omega
      have hprint := printWords_word (p := p) (m := (Zeros.scan p).max) (n := 16) (by decide) hne
      rw [if_neg (Ne.symm hne), nil_append, hprint, inet6Addr_word, ← hprint]
      exact hfront

/-- **The text of an IPv6 address** is read as the address, unless it is one of the two addresses that are
printed with `255.255.255.255` at the end, and then it is not read at all. -/
theorem inet6Addr_inet6Ntop (p mem : List UInt8) {len : ℕ} (hp : p.length = 16)
    (hmem : mem.length = 16) (hlen : inet6AddrStrLen ≤ len) :
    inet6Addr (inet6Ntop p len) mem =
      if p = mappedNone ∨ p = compatibleNone then none else some p := by
  rw [inet6Ntop, if_neg (by omega)]
  dsimp only
  by_cases hdotted : dottedTail p (Zeros.scan p)
  · have hz := hdotted.1
    have hrun : Run p 0 (Zeros.scan p).max := by
      rcases scan_spec p with h | ⟨k, h, -, -, hrun⟩
      · rw [hz] at h
        cases h
      · rw [hz] at h
        obtain rfl : k = 0 := by
          have := Option.some.inj h
          omega
        exact hrun
    rw [if_pos hdotted, if_pos hz, if_pos rfl, hz, singleton_append,
      inet6Addr_dottedTail hp hmem hdotted hrun]
    by_cases hlast : p.getD 12 0 = 255 ∧ p.getD 13 0 = 255 ∧ p.getD 14 0 = 255 ∧ p.getD 15 0 = 255
    · rw [if_pos hlast, if_pos (last_none hp hdotted hrun hlast)]
    · rw [if_neg hlast, if_neg]
      rintro (rfl | rfl)
      · exact hlast (by decide)
      · exact hlast (by decide)
  · rw [if_neg hdotted, if_neg (by decide : ¬(16 = 12)), append_nil, inet6Addr_words hp hmem,
      if_neg]
    rintro (rfl | rfl)
    · exact hdotted (by decide)
    · exact hdotted (by decide)

/-- **The text of an IPv6 address** fits in what is kept for it, and is read as the address, unless it is
one of the two addresses that are printed with `255.255.255.255` at the end. -/
theorem inet6_trip (p mem : List UInt8) (len : ℕ) (hp : p.length = 16) (hmem : mem.length = 16)
    (hlen : inet6AddrStrLen ≤ len) :
    (inet6Ntop p len).length ≤ inet6AddrStrLen ∧
      (inet6Addr (inet6Ntop p len) mem = some p ↔ p ≠ mappedNone ∧ p ≠ compatibleNone) := by
  refine ⟨(length_inet6Ntop p len).trans (by decide), ?_⟩
  rw [inet6Addr_inet6Ntop p mem hp hmem hlen, ← not_or]
  by_cases hlost : p = mappedNone ∨ p = compatibleNone
  · rw [if_pos hlost]
    exact iff_of_false nofun (not_not.2 hlost)
  · rw [if_neg hlost]
    exact iff_of_true rfl hlost

/-- The loopback address and what remains of it when it is read. -/
theorem inet6_trip_loopback : inet6Addr (inet6Ntop (List.replicate 15 0 ++ [1]) 45)
    (List.replicate 16 0xff) = some (List.replicate 15 0 ++ [1]) :=
  ((inet6_trip (List.replicate 15 0 ++ [1]) (List.replicate 16 0xff) 45 rfl rfl le_rfl).2).2
    ⟨by decide, by decide⟩

/-- The text `::ffff:255.255.255.255` is printed, and is not read. -/
theorem mapped_broadcast_lost : mappedNone.length = 16 ∧
    inet6Ntop mappedNone 45 = "::ffff:255.255.255.255".toUTF8.toList ∧
    inet6Addr (inet6Ntop mappedNone 45) (List.replicate 16 0) = none := by
  decide +kernel

end Hengine.Inet
