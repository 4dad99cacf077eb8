import Hengine.Dubbo.HessianObject
import Mathlib.Tactic.IntervalCases

/-!
# Dubbo Requests

The model of `ngx_dubbo_encode_request` in `ngx_dubbo.c`, with the functions of `ngx_dubbo_util.cpp` that
it uses.

A request is a header of 16 bytes and a body. The length of the body stands in the header; it is a sum
that is made before anything is written. It counts the encoding of the given service version, and what
is written is that of `"0.0.0"`.

A string is written to the end of its last character, so if that one is cut, some bytes of the memory
behind the string are written too.
-/

namespace Hengine.Dubbo

open List

open Hessian

/-! ### Encodings -/

/-- A string, and what lies behind it in memory. -/
structure Text where
  data : List UInt8
  behind : List UInt8

/-- `write_utf8_string`, on memory; also `ngx_dubbo_hessian2_encode_str`. -/
def Text.encode (s : Text) : List UInt8 :=
  let byteSize := s.data.length % 2 ^ 32
  if byteSize = 0 then writeNull else writeChunks (s.data ++ s.behind) byteSize 0 0 0

/-- `ngx_keyval_t`, copied to strings of C++. -/
structure KeyVal where
  key : Text
  value : Text

/-- `Map::put`, on a `std::map` of which the keys are strings. -/
@[grind =]
def mapPut (kv : KeyVal) : List KeyVal → List KeyVal
  | [] => [kv]
  | e :: es =>
    if e.key.data < kv.key.data then e :: mapPut kv es
    else if kv.key.data < e.key.data then kv :: e :: es
    else { e with value := kv.value } :: es

/-- The key whose value is a byte array. -/
def bodyKey : List UInt8 := "body".toUTF8.toList

/-- An entry of a map. -/
def KeyVal.encode (kv : KeyVal) : List UInt8 :=
  kv.key.encode ++ if kv.key.data = bodyKey then writeBytes kv.value.data else kv.value.encode

/-- `ngx_dubbo_hessian2_encode_payload_map`. -/
def encodePayloadMap (kvs : List KeyVal) : List UInt8 :=
  0x48 :: ((kvs.foldl (fun m kv => mapPut kv m) []).flatMap KeyVal.encode) ++ [0x5a]

/-! ### Requests -/

/-- `ngx_dubbo_arg_t`. -/
inductive Arg
  | str (s : Text)
  | int (n : Int32)
  | lstr (s : List Text)
  | map (m : List KeyVal)

/-- `ngx_dubbo_arg_type_map`. -/
def Arg.typeName : Arg → List UInt8
  | .str _ => "Ljava/lang/String;".toUTF8.toList
  | .int _ => "I".toUTF8.toList
  | .lstr _ => "Ljava/util/List;".toUTF8.toList
  | .map _ => "Ljava/util/Map;".toUTF8.toList

/-- The encoding of an argument. -/
@[grind =]
def Arg.encode : Arg → Option (List UInt8)
  | .str s => some s.encode
  | .map m => some (encodePayloadMap m)
  | .int _ => none
  | .lstr _ => none

/-- The parameters of `ngx_dubbo_encode_request`. -/
structure Request where
  serviceName : Text
  serviceVersion : Text
  methodName : Text
  args : List Arg

/-- `arg_types`. -/
def Request.argTypes (r : Request) : Text := ⟨r.args.flatMap Arg.typeName, []⟩

/-- `DUBBO_VERSION_ENCODE`: `"2.0.2"`. -/
def dubboVersionEncode : List UInt8 := [0x05, 0x32, 0x2e, 0x30, 0x2e, 0x32]

/-- `DUBBO_SERVICE_VERSION_ENCODE`: `"0.0.0"`. -/
def dubboServiceVersionEncode : List UInt8 := [0x05, 0x30, 0x2e, 0x30, 0x2e, 0x30]

/-- `DUBBO_NULL`. -/
def dubboNull : List UInt8 := [0x4e]

/-- `sizeof(ngx_dubbo_header_t)`. -/
def headerSize : ℕ := 16

/-- A buffer: its size, and the bytes from `pos` to `last`. -/
structure Buf where
  size : ℕ
  data : List UInt8

/-- `memcpy` to `last`. -/
def Buf.put (b : Buf) (s : List UInt8) : Buf := { b with data := b.data ++ s }

@[simp] theorem Buf.put_size (b : Buf) (s : List UInt8) : (b.put s).size = b.size := rfl

@[simp] theorem Buf.put_data (b : Buf) (s : List UInt8) : (b.put s).data = b.data ++ s := rfl

theorem foldl_put_size (l : List (List UInt8)) : ∀ b : Buf, (l.foldl Buf.put b).size = b.size := by
  induction l with
  | nil => exact fun _ => rfl
  | cons s l ih => exact fun b => ih (b.put s)

/-- What is put into a buffer goes behind its data. -/
theorem foldl_put_data (l : List (List UInt8)) :
    ∀ b : Buf, (l.foldl Buf.put b).data = b.data ++ l.flatten := by
  induction l with
  | nil => exact fun b => (append_nil b.data).symm
  | cons s l ih =>
    intro b
    rw [foldl_cons, ih, Buf.put_data, flatten_cons, append_assoc]

/-- `ngx_dubbo_encode_request`: the buffer, and `last_request_id`. -/
def encodeRequest (lastRequestId : UInt64) (r : Request) : Option (Buf × UInt64) := do
  let serviceName := r.serviceName.encode
  let serviceVersion := r.serviceVersion.encode
  let methodName := r.methodName.encode
  let args ← r.args.mapM Arg.encode
  let argTypes := r.argTypes.encode
  let props := dubboNull
  let len := headerSize + dubboVersionEncode.length + serviceName.length + serviceVersion.length +
    methodName.length + (args.map List.length).sum + argTypes.length + props.length
  let id := lastRequestId + 1
  let b : Buf := ⟨len, []⟩
  let b := b.put [0xda, 0xbb, 0xc2, 0]
  let b := b.put (numberBytes 8 id.toNat)
  let b := b.put (numberBytes 4 (len - headerSize))
  let b := b.put dubboVersionEncode
  let b := b.put serviceName
  let b := b.put dubboServiceVersionEncode
  let b := b.put methodName
  let b := b.put argTypes
  let b := args.foldl Buf.put b
  let b := b.put props
  return (b, id)

/-! ### The length and the body -/

/-- The body that is meant: all encodings, one after the other. -/
def Request.body (r : Request) : Option (List UInt8) :=
  (r.args.mapM Arg.encode).map fun args =>
    dubboVersionEncode ++ r.serviceName.encode ++ r.serviceVersion.encode ++ r.methodName.encode ++
      r.argTypes.encode ++ args.flatten ++ dubboNull

/-- A request with the length of its body in the header, in a buffer that is large enough. -/
structure Framed (r : Request) (b : Buf) : Prop where
  length : ofNumberBytes ((b.data.drop 12).take 4) = (b.data.drop headerSize).length
  fits : b.data.length ≤ b.size
  body : r.body = some (b.data.drop headerSize)

/-- A request that is encoded: its arguments can be encoded, and the length counts the given service
version where another one is written. -/
theorem encodeRequest_eq {lastRequestId id : UInt64} {r : Request} {b : Buf}
    (h : encodeRequest lastRequestId r = some (b, id)) :
    ∃ args, r.args.mapM Arg.encode = some args ∧
      b.size = headerSize + (dubboVersionEncode ++ r.serviceName.encode ++ r.serviceVersion.encode ++
        r.methodName.encode ++ r.argTypes.encode ++ args.flatten ++ dubboNull).length ∧
      b.data = [0xda, 0xbb, 0xc2, 0] ++ numberBytes 8 id.toNat ++ numberBytes 4 (b.size - headerSize) ++
        (dubboVersionEncode ++ r.serviceName.encode ++ dubboServiceVersionEncode ++
          r.methodName.encode ++ r.argTypes.encode ++ args.flatten ++ dubboNull) := by
  rw [encodeRequest] at h
  obtain ⟨args, hargs, h⟩ := Option.bind_eq_some_iff.1 h
  cases h
  refine ⟨args, hargs, ?_, ?_⟩
  · simp only [Buf.put_size, foldl_put_size, length_append, length_flatten]
    omega
  · simp [foldl_put_size, foldl_put_data]

/-! ### Maps -/

/-- The entries as objects. -/
@[grind =]
def entriesOf : List KeyVal → Entries
  | [] => .nil
  | kv :: kvs =>
    .cons (.str kv.key.data)
      (if kv.key.data = bodyKey then .bytes kv.value.data else .str kv.value.data) (entriesOf kvs)

/-- Strings that have nothing behind them, not even the zero byte of a `std::string`. -/
def Whole (kvs : List KeyVal) : Prop := ∀ kv ∈ kvs, kv.key.behind = [] ∧ kv.value.behind = []

theorem Text.encode_whole {s : Text} (h : s.behind = []) : s.encode = writeUtf8String s.data := by
  rw [Text.encode, h, append_nil]
  rfl

/-- A whole pair joins others. -/
theorem Whole.put {kv : KeyVal} (hkv : kv.key.behind = [] ∧ kv.value.behind = []) :
    ∀ {m : List KeyVal}, Whole m → Whole (mapPut kv m)
  | [], _ => forall_mem_singleton.2 hkv
  | e :: es, h => by
    obtain ⟨he, hes⟩ := forall_mem_cons.1 h
    rw [mapPut]
    split_ifs
    · exact forall_mem_cons.2 ⟨he, Whole.put hkv hes⟩
    · exact forall_mem_cons.2 ⟨hkv, h⟩
    · exact forall_mem_cons.2 ⟨⟨he.1, hkv.2⟩, hes⟩

/-- The entries are written pair by pair, without references. -/
theorem writeEntries_entriesOf : ∀ {m : List KeyVal}, Whole m → ∀ refs,
    writeEntries (entriesOf m) refs = (m.flatMap KeyVal.encode, refs)
  | [], _, _ => rfl
  | kv :: kvs, h, refs => by
    obtain ⟨⟨hkey, hvalue⟩, hrest⟩ := forall_mem_cons.1 h
    rw [entriesOf, writeEntries, flatMap_cons, KeyVal.encode, kv.key.encode_whole hkey]
    split_ifs
    · rw [writeObject, writeObject, writeEntries_entriesOf hrest]
    · rw [writeObject, writeObject, writeEntries_entriesOf hrest, kv.value.encode_whole hvalue]

/-- **The map of an argument** is written as an object. -/
theorem encodePayloadMap_eq {kvs : List KeyVal} (h : Whole kvs) :
    encodePayloadMap kvs =
      (writeObject (.map 0 (entriesOf (kvs.foldl (fun m kv => mapPut kv m) []))) []).1 := by
  have hput : ∀ (l m : List KeyVal), Whole l → Whole m →
      Whole (l.foldl (fun m kv => mapPut kv m) m) := by
    intro l
    induction l with
    | nil => exact fun m _ hm => hm
    | cons kv l ih =>
      intro m hl hm
      obtain ⟨hkv, hl⟩ := forall_mem_cons.1 hl
      exact ih _ hl (Whole.put hkv hm)
  have hwhole := hput kvs [] h nofun
  rw [encodePayloadMap, writeObject]
  show _ = 0x48 :: (writeEntries _ ([] ++ [0])).1 ++ [0x5a]
  rw [writeEntries_entriesOf hwhole]

/-! ### The service version -/

/-- The end of a string of which the first chunk is not full: `i` is the position behind its last
character. -/
theorem writeChunks_last (str : List UInt8) (n : ℕ) : ∀ (m i len : ℕ), n - i ≤ m → 0 < n →
    (0 < len ∨ i < n) →
      (∃ w, writeChunks str n i len 0 = 0x52 :: w) ∨
      ∃ i' len', n ≤ i' ∧ writeChunks str n i len 0 = lengthTag len' ++ str.take i'
  | m, i, len, hm, hn, hlen => by
    rw [writeChunks]
    by_cases hi : i < n
    · have hwidth : 0 < charWidth (str.getD i 0) := by
        unfold charWidth
        split_ifs <;> omega
      rw [if_pos hi]
      dsimp only
      split_ifs with hfull
      · exact .inl ⟨_, rfl⟩
      · cases m with
        | zero => omega
        | succ m => exact writeChunks_last str n m _ _ (by omega) hn (.inl (Nat.succ_pos _))
    · rw [if_neg hi, if_neg (by omega), drop_zero, Nat.sub_zero]
      exact .inr ⟨i, len, Nat.not_lt.1 hi, rfl⟩

/-- One chunk of characters of one byte. -/
theorem writeChunks_ascii {str : List UInt8} {n : ℕ} (hpos : 0 < n) (hlt : n < 0x8000)
    (h : ∀ i < n, charWidth (str.getD i 0) = 1) :
    writeChunks str n 0 0 0 = lengthTag n ++ str.take n := by
  have hrun : ∀ j ≤ n, writeChunks str n 0 0 0 = writeChunks str n j j 0 := by
    intro j
    induction j with
    | zero => exact fun _ => rfl
    | succ j ih =>
      intro hj
      rw [ih (Nat.le_of_succ_le hj), writeChunks, if_pos (Nat.lt_of_succ_le hj)]
      dsimp only
      rw [if_neg (by omega), h j hj]
  rw [hrun n (Nat.le_refl n), writeChunks, if_neg (Nat.lt_irrefl n), if_neg (Nat.not_le.2 hpos)]
  rfl

/-- At most five characters of `"0.0.0"`. -/
theorem writeChunks_zero (w : List UInt8) {n : ℕ} (hpos : 0 < n) (hle : n ≤ 5) :
    writeChunks (dubboServiceVersionEncode.drop 1 ++ w) n 0 0 0 =
      UInt8.ofNat n :: (dubboServiceVersionEncode.drop 1).take n := by
  have hone : ∀ i < 5, charWidth ((dubboServiceVersionEncode.drop 1 ++ w).getD i 0) = 1 := by
    intro i hi
    have hzero : charWidth 0x30 = 1 := by decide
    have hdot : charWidth 0x2e = 1 := by decide
    interval_cases i
    · exact hzero
    · exact hdot
    · exact hzero
    · exact hdot
    · exact hzero
  rw [writeChunks_ascii hpos (by omega) fun i hi => hone i (by omega), lengthTag, if_pos (by omega)]
  rw [take_append_of_le_length hle]
  rfl

/-- What stands behind the tag of a version that is right. -/
theorem lengthTag_five {len : ℕ} {w : List UInt8} (h : lengthTag len ++ w = dubboServiceVersionEncode) :
    w = dubboServiceVersionEncode.drop 1 := by
  unfold lengthTag at h
  split_ifs at h with hshort hmiddle
  · exact (List.cons.inj h).2
  · have hfirst := congrArg UInt8.toNat (List.cons.inj h).1
    rw [UInt8.toNat_ofNat', Nat.mod_eq_of_lt (by omega)] at hfirst
    have hfive : (0x05 : UInt8).toNat = 5 := rfl
    omega
  · cases h

/-- A string that counts as `"0.0.0"`: only the lower 32 bits of its length count. -/
def Text.IsZero (s : Text) : Prop :=
  s.data.length % 2 ^ 32 = 5 ∧ s.data.take 5 = dubboServiceVersionEncode.drop 1

instance (s : Text) : Decidable s.IsZero := inferInstanceAs (Decidable (_ ∧ _))

/-- **The service version that is written.** -/
theorem Text.encode_eq_zero (s : Text) : s.encode = dubboServiceVersionEncode ↔ s.IsZero := by
  unfold Text.encode Text.IsZero
  dsimp only
  generalize hn : s.data.length % 2 ^ 32 = n
  have hle : n ≤ s.data.length := hn ▸ Nat.mod_le _ _
  constructor
  · intro h
    split_ifs at h with hzero
    · cases h
    · have hpos : 0 < n := Nat.pos_of_ne_zero hzero
      rcases writeChunks_last (s.data ++ s.behind) n n 0 0 (Nat.sub_le _ _) hpos (.inr hpos) with
        ⟨w, hw⟩ | ⟨i, len, hi, hw⟩
      · rw [hw] at h
        cases h
      · have htake := lengthTag_five (hw.symm.trans h)
        obtain ⟨w, hsplit⟩ : ∃ w, s.data ++ s.behind = dubboServiceVersionEncode.drop 1 ++ w :=
          ⟨(s.data ++ s.behind).drop i, by rw [← htake, take_append_drop]⟩
        have hlen : n ≤ 5 := by
          have hsize := congrArg List.length htake
          rw [length_take, length_append] at hsize
          have hfive : (dubboServiceVersionEncode.drop 1).length = 5 := rfl
          omega
        rw [hsplit, writeChunks_zero w hpos hlen] at h
        have hn5 : n = 5 := by
          have hfirst : UInt8.ofNat n = 5 := (List.cons.inj h).1
          have hnat := congrArg UInt8.toNat hfirst
          rw [UInt8.toNat_ofNat', Nat.mod_eq_of_lt (by omega)] at hnat
          exact hnat
        refine ⟨hn5, ?_⟩
        have hdata := congrArg (List.take 5) hsplit
        have hfive : (dubboServiceVersionEncode.drop 1).length = 5 := rfl
        rw [take_append_of_le_length (by omega), take_left' hfive] at hdata
        exact hdata
  · rintro ⟨rfl, hdata⟩
    obtain ⟨w, hw⟩ : ∃ w, s.data ++ s.behind = dubboServiceVersionEncode.drop 1 ++ w :=
      ⟨s.data.drop 5 ++ s.behind, by rw [← hdata, ← append_assoc, take_append_drop]⟩
    rw [if_neg (by decide), hw]
    exact writeChunks_zero w (by decide) (Nat.le_refl _)

/-! ### The length and the body -/

section Framed

variable {lastRequestId id : UInt64} {r : Request} {b : Buf}

/-- What stands in a buffer: the lower half of the length, and the encodings with another service
version. -/
theorem encodeRequest_parts (h : encodeRequest lastRequestId r = some (b, id)) :
    ofNumberBytes ((b.data.drop 12).take 4) = (b.size - headerSize) % 2 ^ 32 ∧
    ∃ front back, r.body = some (front ++ r.serviceVersion.encode ++ back) ∧
      b.size = headerSize + (front ++ r.serviceVersion.encode ++ back).length ∧
      b.data.drop headerSize = front ++ dubboServiceVersionEncode ++ back := by
  obtain ⟨args, hargs, hsize, hdata⟩ := encodeRequest_eq h
  have hid : ([0xda, 0xbb, 0xc2, 0] ++ numberBytes 8 id.toNat).length = 12 := by
    rw [length_append, numberBytes_length]
    rfl
  have hheader : ([0xda, 0xbb, 0xc2, 0] ++ numberBytes 8 id.toNat ++
      numberBytes 4 (b.size - headerSize)).length = headerSize := by
    rw [length_append, hid, numberBytes_length]
    rfl
  refine ⟨?_, dubboVersionEncode ++ r.serviceName.encode,
    r.methodName.encode ++ r.argTypes.encode ++ args.flatten ++ dubboNull, ?_, ?_, ?_⟩
  · rw [hdata, append_assoc, append_assoc, ← append_assoc, drop_left' hid,
      take_left' (numberBytes_length 4 _), ofNumberBytes_numberBytes]
    rfl
  · rw [Request.body, hargs]
    simp
  · rw [hsize]
    simp
  · rw [hdata, drop_left' hheader]
    simp

/-- A request whose frame is right asks for the version 0.0.0. -/
theorem Framed.isZero (hframed : Framed r b) (h : encodeRequest lastRequestId r = some (b, id)) :
    r.serviceVersion.IsZero := by
  obtain ⟨-, front, back, hbody, -, hdrop⟩ := encodeRequest_parts h
  have hsame := hframed.body
  rw [hbody, hdrop, Option.some.injEq, append_cancel_right_eq, append_cancel_left_eq] at hsame
  exact r.serviceVersion.encode_eq_zero.1 hsame

/-- The length of the body that is meant fits in the header. -/
def Request.Fits (r : Request) : Prop := ∀ w ∈ r.body, w.length < 2 ^ 32

/-- **The requests that are framed**: the service version is `"0.0.0"`, and the length of the body is a
`uint32_t`. -/
theorem encodeRequest_framed (h : encodeRequest lastRequestId r = some (b, id)) :
    Framed r b ↔ r.serviceVersion.IsZero ∧ r.Fits := by
  obtain ⟨hstored, front, back, hbody, hsize, hdrop⟩ := encodeRequest_parts h
  constructor
  · intro hframed
    refine ⟨hframed.isZero h, fun w hw => ?_⟩
    have hlength := hframed.length
    have hsame := hframed.body.symm.trans hw
    rw [Option.some.injEq] at hsame
    rw [hstored, hsame] at hlength
    rw [← hlength]
    exact Nat.mod_lt _ (by decide)
  · rintro ⟨hzero, hfits⟩
    have hall := hfits _ hbody
    rw [r.serviceVersion.encode_eq_zero.2 hzero, ← hdrop] at hall hsize hbody
    have hlen : b.size - headerSize = (b.data.drop headerSize).length := by omega
    refine ⟨?_, ?_, hbody⟩
    · rw [hstored, hlen, Nat.mod_eq_of_lt hall]
    · rw [hsize, length_drop]
      omega

end Framed

/-- A request to a service of version `"0.0.0"`. -/
theorem encodeRequest_framed_zero :
    ∃ b id, encodeRequest 0 ⟨⟨[0x61], []⟩, ⟨[0x30, 0x2e, 0x30, 0x2e, 0x30], []⟩, ⟨[0x62], []⟩, []⟩ =
        some (b, id) ∧
      Framed ⟨⟨[0x61], []⟩, ⟨[0x30, 0x2e, 0x30, 0x2e, 0x30], []⟩, ⟨[0x62], []⟩, []⟩ b := by
  refine ⟨_, _, rfl, (encodeRequest_framed rfl).2 ⟨by decide, fun w hw => ?_⟩⟩
  have hone : ∀ c : UInt8, charWidth c = 1 → (Text.mk [c] []).encode = [1, c] := fun c hc =>
    writeChunks_ascii Nat.one_pos (show 1 < 0x8000 by decide) fun i hi => by
      rw [Nat.lt_one_iff.1 hi]
      exact hc
  have hzero : (Text.mk [0x30, 0x2e, 0x30, 0x2e, 0x30] []).encode = dubboServiceVersionEncode :=
    (Text.encode_eq_zero _).2 (by decide)
  cases hw
  simp only [Request.argTypes, length_append, hone 0x61 (by decide), hone 0x62 (by decide), hzero]
  decide

/-- **Another service version**: two bytes more are written than the length says. -/
theorem short_version_lost : ¬ ∀ (lastRequestId : UInt64) (r : Request) (b : Buf) (id : UInt64),
    encodeRequest lastRequestId r = some (b, id) → Framed r b := by
  intro h
  obtain ⟨b, id, hrun⟩ : ∃ b id,
      encodeRequest 0 ⟨⟨[0x61], []⟩, ⟨[0x31, 0x2e, 0x30], []⟩, ⟨[0x62], []⟩, []⟩ = some (b, id) :=
    ⟨_, _, rfl⟩
  exact absurd ((h _ _ _ _ hrun).isZero hrun).1 (by decide)

end Hengine.Dubbo
