import Mathlib.Data.List.Indexes
import Mathlib.Tactic.IntervalCases
import Hengine.Lib.Tables

/-!
# Names of TFS files

The model of `ngx_http_tfs_raw_fsname.c`, with `ngx_http_tfs_raw_fsname_hash` of `ngx_tfs_common.c`.

A name has a letter for the type of the file, a digit for the cluster, and 16 letters for the 12 bytes of
the block, the sequence number and the suffix. The bytes are masked, and each three of them are four
letters of an alphabet of the module's own. The bytes of a number are those of a little-endian machine.

A `ngx_str_t` is `some` text, or `none` where its `data` is `NULL`. The pointer `suffix` of the parser may
itself be `NULL`. The pointer `fsname` is not `NULL` in any call.
-/

namespace Hengine.Tfs

open List

/-! ### The codec -/

/-- `NGX_HTTP_TFS_KEY_MASK`. -/
def keyMask : List UInt8 := "Taobao-inc".toUTF8.toList

/-- `enc_table`. -/
def encTable : List UInt8 :=
  "0JoU8EaN3xf19hIS2d.6pZRFBYurMDGw7K5m4CyXsbQjg_vTOAkcHVtzqWilnLPe".toUTF8.toList

/-- `dec_table`. -/
def decTable : List UInt8 := [
    0, 0, 0, 0, 0, 0, 0, 0, 0, 0, 0, 0, 0, 0, 0, 0, 0, 0, 0,
    0, 0, 0, 0, 0, 0, 0, 0, 0, 0, 0, 0, 0, 0, 0, 0, 0, 0, 0, 0, 0, 0, 0, 0, 0, 0, 0, 18, 0, 0, 11, 16, 8,
    36, 34, 19, 32, 4, 12, 0, 0, 0, 0, 0, 0, 0, 49, 24, 37, 29, 5, 23, 30, 52, 14, 1, 33, 61, 28, 7,
    48, 62, 42, 22, 15, 47, 3, 53, 57, 39, 25, 21, 0, 0, 0, 0, 45, 0, 6, 41, 51, 17, 63, 10, 44, 13,
    58, 43, 50, 59, 35, 60, 2, 20, 56, 27, 40, 54, 26, 46, 31, 9, 38, 55, 0, 0, 0, 0, 0, 0, 0, 0, 0,
    0, 0, 0, 0, 0, 0, 0, 0, 0, 0, 0, 0, 0, 0, 0, 0, 0, 0, 0, 0, 0, 0, 0, 0, 0, 0, 0, 0, 0, 0, 0, 0, 0, 0, 0,
    0, 0, 0, 0, 0, 0, 0, 0, 0, 0, 0, 0, 0, 0, 0, 0, 0, 0, 0, 0, 0, 0, 0, 0, 0, 0, 0, 0, 0, 0, 0, 0, 0, 0, 0,
    0, 0, 0, 0, 0, 0, 0, 0, 0, 0, 0, 0, 0, 0, 0, 0, 0, 0, 0, 0, 0, 0, 0, 0, 0, 0, 0, 0, 0, 0, 0, 0, 0, 0, 0,
    0, 0, 0, 0, 0, 0, 0, 0, 0, 0, 0, 0, 0, 0, 0, 0, 0, 0, 0]

/-- `xor_mask`. -/
def xorMask (source : List UInt8) : List UInt8 :=
  source.mapIdx fun i b => b ^^^ keyMask.getD (i % 10) 0

/-- The number `value` of three bytes. -/
def bytesValue (a b c : UInt8) : UInt32 :=
  ((a.toUInt32 <<< 16) &&& (0xff0000 : UInt32)) + ((b.toUInt32 <<< 8) &&& (0xff00 : UInt32)) +
    (c.toUInt32 &&& 0xff)

/-- A letter of the alphabet. -/
def letter (i : UInt32) : UInt8 := encTable.getD i.toNat 0

/-- The place of a letter in the alphabet. -/
def place (ch : UInt8) : UInt32 := (decTable.getD ch.toNat 0).toUInt32

/-- The loop of `ngx_http_tfs_raw_fsname_encode`. -/
@[grind =]
def encodeGroups : List UInt8 → List UInt8
  | a :: b :: c :: s =>
    letter (bytesValue a b c >>> 18) :: letter ((bytesValue a b c >>> 12) &&& 0x3f) ::
      letter ((bytesValue a b c >>> 6) &&& 0x3f) :: letter (bytesValue a b c &&& 0x3f) ::
      encodeGroups s
  | _ => []

/-- `ngx_http_tfs_raw_fsname_encode`. -/
def encode (input : List UInt8) : List UInt8 := encodeGroups (xorMask input)

/-- The number `value` of four letters. -/
def lettersValue (a b c d : UInt8) : UInt32 :=
  (place a <<< 18) + (place b <<< 12) + (place c <<< 6) + place d

/-- The loop of `ngx_http_tfs_raw_fsname_decode`. -/
@[grind =]
def decodeGroups : List UInt8 → List UInt8
  | a :: b :: c :: d :: s =>
    ((lettersValue a b c d >>> 16) &&& 0xff).toUInt8 ::
      ((lettersValue a b c d >>> 8) &&& 0xff).toUInt8 ::
      (lettersValue a b c d &&& 0xff).toUInt8 :: decodeGroups s
  | _ => []

/-- `ngx_http_tfs_raw_fsname_decode`. -/
def decode (input : List UInt8) : List UInt8 := xorMask (decodeGroups input)

/-! ### Names -/

/-- `ngx_http_tfs_raw_fsname_filebits_t`. -/
structure FileBits where
  blockId : UInt32
  seqId : UInt32
  suffix : UInt32
  deriving DecidableEq

/-- The bytes of a number. -/
def wordBytes (w : UInt32) : List UInt8 :=
  [w.toUInt8, (w >>> 8).toUInt8, (w >>> 16).toUInt8, (w >>> 24).toUInt8]

/-- The number of four bytes. -/
def bytesWord (a b c d : UInt8) : UInt32 :=
  a.toUInt32 + (b.toUInt32 <<< 8) + (c.toUInt32 <<< 16) + (d.toUInt32 <<< 24)

/-- `(u_char*) &(fsname->file)`. -/
def FileBits.bytes (file : FileBits) : List UInt8 :=
  wordBytes file.blockId ++ wordBytes file.seqId ++ wordBytes file.suffix

/-- The fields that some bytes are written into. -/
def FileBits.ofBytes (s : List UInt8) : FileBits where
  blockId := bytesWord (s.getD 0 0) (s.getD 1 0) (s.getD 2 0) (s.getD 3 0)
  seqId := bytesWord (s.getD 4 0) (s.getD 5 0) (s.getD 6 0) (s.getD 7 0)
  suffix := bytesWord (s.getD 8 0) (s.getD 9 0) (s.getD 10 0) (s.getD 11 0)

/-- `ngx_http_tfs_raw_file_type_e`. -/
inductive FileType where
  | invalid
  | small
  | large
  deriving DecidableEq

/-- `ngx_http_tfs_raw_fsname_t`. -/
structure RawFsname where
  fileName : List UInt8
  file : FileBits
  clusterId : UInt32
  fileType : FileType
  deriving DecidableEq

/-- `ngx_memzero` of a name. -/
def RawFsname.zero : RawFsname :=
  ⟨List.replicate 19 0, ⟨0, 0, 0⟩, 0, .invalid⟩

/-- `ngx_http_tfs_raw_fsname_hash`. The length is a `int32_t`, and the sums wrap. -/
def hash (str : List UInt8) : UInt32 :=
  let len := str.length % 2 ^ 32
  if len = 0 ∨ 2 ^ 31 ≤ len then 0
  else (str.take len).foldl (fun h c => (h + c.toUInt32) * 7) 0 ||| 0x80000000

/-- `ngx_http_tfs_raw_fsname_set_suffix`. -/
def RawFsname.setSuffix (fsname : RawFsname) : Option (Option (List UInt8)) → RawFsname
  | some (some s) =>
    if s.length ≠ 0 then { fsname with file := { fsname.file with suffix := hash s } } else fsname
  | _ => fsname

/-- `ngx_http_tfs_raw_fsname_check_file_type`. -/
def checkFileType (data : List UInt8) : FileType :=
  if 18 ≤ data.length then
    if data.getD 0 0 = 0x4c then .large
    else if data.getD 0 0 = 0x54 then .small
    else .invalid
  else .invalid

/-- What the parser leaves: whether it returns `NGX_OK`, the name and the suffix. -/
structure Parsed where
  ok : Bool
  fsname : RawFsname
  suffix : Option (Option (List UInt8))

/-- A suffix behind the name is not the given one. -/
def suffixDiffers (data : List UInt8) : Option (Option (List UInt8)) → Bool
  | some (some s) => decide (18 < data.length) && decide (s ≠ data.drop 18)
  | _ => false

/-- `ngx_http_tfs_raw_fsname_parse`. An empty name has the byte `behind` at its place. -/
def parse (tfsName : Option (List UInt8)) (behind : UInt8) (suffix : Option (Option (List UInt8)))
    (fsname : RawFsname) : Parsed :=
  match tfsName with
  | none => ⟨true, fsname, suffix⟩
  | some data =>
    if data.headD behind = 0 then ⟨true, fsname, suffix⟩
    else
      let fsname := { RawFsname.zero with fileType := checkFileType data }
      if fsname.fileType = .invalid then ⟨false, fsname, suffix⟩
      else if suffixDiffers data suffix then ⟨false, fsname, suffix⟩
      else
        let fsname := { fsname with file := .ofBytes (decode ((data.drop 2).take 16)) }
        let suffix := if suffix = some none then some (some (data.drop 18)) else suffix
        let fsname := fsname.setSuffix suffix
        if fsname.clusterId = 0 then
          ⟨true, { fsname with clusterId := (data.getD 1 0).toUInt32 - 0x30 }, suffix⟩
        else ⟨true, fsname, suffix⟩

/-- `ngx_http_tfs_raw_fsname_get_name`, with the name in `fileName`. -/
def getName (fsname : RawFsname) (largeFlag simpleName : Bool) : RawFsname :=
  let file := if simpleName then { fsname.file with suffix := 0 } else fsname.file
  { fsname with
    file
    fileName := (if largeFlag then 0x4c else 0x54) :: (0x30 + fsname.clusterId).toUInt8 ::
      encode file.bytes ++ [0] }

/-- The 18 bytes of the name, without the zero byte at its end. -/
def RawFsname.name (fsname : RawFsname) : List UInt8 := fsname.fileName.take 18

/-! ### The mask -/

theorem length_xorMask (s : List UInt8) : (xorMask s).length = s.length := length_mapIdx

/-- Masked twice, the bytes are the same. -/
theorem xorMask_xorMask (s : List UInt8) : xorMask (xorMask s) = s := by
  rw [xorMask, xorMask, mapIdx_mapIdx]
  refine ext_getElem (length_mapIdx) fun i h₁ h₂ => ?_
  rw [getElem_mapIdx]
  show s[i] ^^^ _ ^^^ _ = _
  rw [UInt8.xor_assoc, UInt8.xor_self, UInt8.xor_zero]

/-! ### The alphabet -/

/-- The alphabet of the names, character by character. -/
theorem encTable_eq : encTable = [
    48, 74, 111, 85, 56, 69, 97, 78, 51, 120, 102, 49, 57, 104, 73, 83, 50, 100, 46, 54, 112, 90,
    82, 70, 66, 89, 117, 114, 77, 68, 71, 119, 55, 75, 53, 109, 52, 67, 121, 88, 115, 98, 81, 106,
    103, 95, 118, 84, 79, 65, 107, 99, 72, 86, 116, 122, 113, 87, 105, 108, 110, 76, 80, 101] :=
  (toUTF8_toList _).trans (by decide)

theorem length_encTable : encTable.length = 64 := by
  rw [encTable_eq]
  rfl

theorem place_getD {i : ℕ} (h : i < encTable.length) : place (encTable.getD i 0) = .ofNat i := by
  have hp := getD_of_all encTable (p := fun ch k => place ch == .ofNat k)
    (encTable_eq ▸ by decide) h 0
  exact eq_of_beq hp

theorem place_letter {i : UInt32} (h : i.toNat < 64) : place (letter i) = i := by
  rw [letter, place_getD (by rwa [length_encTable]), UInt32.ofNat_toNat]

/-- A letter of the alphabet is found in it. -/
theorem letter_place {ch : UInt8} (h : ch ∈ encTable) :
    letter (place ch) = ch ∧ (place ch).toNat < 64 := by
  obtain ⟨i, hi, rfl⟩ := getElem_of_mem h
  have hget : encTable.getD i 0 = encTable[i] := by
    rw [getD_eq_getElem?_getD, getElem?_eq_getElem hi, Option.getD_some]
  have hlt : i < 64 := length_encTable ▸ hi
  have hplace : (place encTable[i]).toNat = i := by
    rw [← hget, place_getD hi, UInt32.toNat_ofNat_of_lt' (by show i < 2 ^ 32; omega)]
  exact ⟨by rw [letter, hplace, hget], by rwa [hplace]⟩

/-! ### Groups -/

theorem toNat_and_mask (v : UInt32) :
    (v &&& 0x3f).toNat = v.toNat % 64 ∧ (v &&& 0xff).toNat = v.toNat % 256 := by
  rw [UInt32.toNat_and, UInt32.toNat_and]
  exact ⟨Nat.and_two_pow_sub_one_eq_mod _ 6, Nat.and_two_pow_sub_one_eq_mod _ 8⟩

theorem shiftLeft_and_mask (a : UInt8) (n : ℕ) : a.toNat <<< n &&& 255 <<< n = a.toNat * 2 ^ n := by
  have hmask : a.toNat &&& 255 = a.toNat := Nat.and_two_pow_sub_one_of_lt_two_pow (n := 8) a.toNat_lt
  rw [← Nat.shiftLeft_and_distrib, hmask, Nat.shiftLeft_eq]

/-- The number of three bytes. -/
theorem toNat_bytesValue (a b c : UInt8) :
    (bytesValue a b c).toNat = a.toNat * 65536 + b.toNat * 256 + c.toNat := by
  have ha := a.toNat_lt
  have hb := b.toNat_lt
  have hc := c.toNat_lt
  have h16 : (a.toUInt32 <<< 16).toNat = a.toNat <<< 16 := by
    simp only [UInt32.toNat_shiftLeft, UInt8.toNat_toUInt32, Nat.shiftLeft_eq, UInt32.reduceToNat,
      Nat.reduceMod, Nat.reducePow]
    omega
  have h8 : (b.toUInt32 <<< 8).toNat = b.toNat <<< 8 := by
    simp only [UInt32.toNat_shiftLeft, UInt8.toNat_toUInt32, Nat.shiftLeft_eq, UInt32.reduceToNat,
      Nat.reduceMod, Nat.reducePow]
    omega
  have hthird : ((a.toUInt32 <<< 16) &&& (0xff0000 : UInt32)).toNat = a.toNat * 2 ^ 16 := by
    rw [UInt32.toNat_and, h16]
    exact shiftLeft_and_mask a 16
  have hsecond : ((b.toUInt32 <<< 8) &&& (0xff00 : UInt32)).toNat = b.toNat * 2 ^ 8 := by
    rw [UInt32.toNat_and, h8]
    exact shiftLeft_and_mask b 8
  have hfirst : (c.toUInt32 &&& 0xff).toNat = c.toNat := by
    rw [(toNat_and_mask _).2, UInt8.toNat_toUInt32]
    omega
  rw [bytesValue, UInt32.toNat_add, UInt32.toNat_add, hthird, hsecond, hfirst]
  omega

/-- The number of four letters, without overflow. -/
theorem toNat_lettersValue {a b c d : UInt8} (ha : (place a).toNat < 64) (hb : (place b).toNat < 64)
    (hc : (place c).toNat < 64) (hd : (place d).toNat < 64) :
    (lettersValue a b c d).toNat =
      (place a).toNat * 262144 + (place b).toNat * 4096 + (place c).toNat * 64 + (place d).toNat := by
  rw [lettersValue]
  simp only [UInt32.toNat_add, UInt32.toNat_shiftLeft, Nat.shiftLeft_eq, UInt32.reduceToNat,
    Nat.reduceMod, Nat.reducePow]
  omega

/-- The four sextets of a word of 24 bits. -/
theorem toNat_places (v : UInt32) :
    (v >>> 18).toNat = v.toNat / 262144 ∧ ((v >>> 12) &&& 0x3f).toNat = v.toNat / 4096 % 64 ∧
      ((v >>> 6) &&& 0x3f).toNat = v.toNat / 64 % 64 ∧ (v &&& 0x3f).toNat = v.toNat % 64 := by
  refine ⟨?_, ?_, ?_, ?_⟩ <;>
    simp [(toNat_and_mask _).1, Nat.shiftRight_eq_div_pow]

/-- The three bytes of a number. -/
theorem toNat_octets (v : UInt32) :
    ((v >>> 16) &&& 0xff).toUInt8.toNat = v.toNat / 65536 % 256 ∧
      ((v >>> 8) &&& 0xff).toUInt8.toNat = v.toNat / 256 % 256 ∧
      (v &&& 0xff).toUInt8.toNat = v.toNat % 256 := by
  refine ⟨?_, ?_, ?_⟩ <;>
    simp only [UInt32.toNat_toUInt8, (toNat_and_mask _).2, UInt32.toNat_shiftRight,
      Nat.shiftRight_eq_div_pow, UInt32.reduceToNat, Nat.reduceMod, Nat.reducePow] <;>
    exact Nat.mod_mod _ _

/-- Four letters stand for the number of the three bytes. -/
theorem lettersValue_letters (a b c : UInt8) :
    lettersValue (letter (bytesValue a b c >>> 18)) (letter ((bytesValue a b c >>> 12) &&& 0x3f))
      (letter ((bytesValue a b c >>> 6) &&& 0x3f)) (letter (bytesValue a b c &&& 0x3f)) =
      bytesValue a b c := by
  have hv := toNat_bytesValue a b c
  have ha := a.toNat_lt
  have hb := b.toNat_lt
  have hc := c.toNat_lt
  obtain ⟨h₁, h₂, h₃, h₄⟩ := toNat_places (bytesValue a b c)
  have p₁ : place (letter (bytesValue a b c >>> 18)) = _ := place_letter (by omega)
  have p₂ : place (letter ((bytesValue a b c >>> 12) &&& 0x3f)) = _ := place_letter (by omega)
  have p₃ : place (letter ((bytesValue a b c >>> 6) &&& 0x3f)) = _ := place_letter (by omega)
  have p₄ : place (letter (bytesValue a b c &&& 0x3f)) = _ := place_letter (by omega)
  apply UInt32.toNat_inj.1
  rw [toNat_lettersValue (by rw [p₁]; omega) (by rw [p₂]; omega) (by rw [p₃]; omega)
    (by rw [p₄]; omega), p₁, p₂, p₃, p₄]
  omega

/-- Four letters of three bytes make the bytes again. -/
theorem decodeGroups_encodeGroups : ∀ {s : List UInt8}, 3 ∣ s.length →
    decodeGroups (encodeGroups s) = s
  | [], _ => rfl
  | [_], h => by
    rw [length_singleton] at h
    omega
  | [_, _], h => by
    simp only [length_cons, length_nil] at h
    omega
  | a :: b :: c :: s, h => by
    have ih : decodeGroups (encodeGroups s) = s := by
      refine decodeGroups_encodeGroups ?_
      simp only [length_cons] at h
      omega
    have hv := toNat_bytesValue a b c
    have ha := a.toNat_lt
    have hb := b.toNat_lt
    have hc := c.toNat_lt
    obtain ⟨h₁, h₂, h₃⟩ := toNat_octets (bytesValue a b c)
    rw [encodeGroups, decodeGroups, ih, lettersValue_letters]
    congr 1
    · exact UInt8.toNat_inj.1 (by omega)
    congr 1
    · exact UInt8.toNat_inj.1 (by omega)
    congr 1
    exact UInt8.toNat_inj.1 (by omega)

/-- **Three bytes and four letters** are the same number. -/
theorem bytesValue_bytes {a b c d : UInt8} (ha : (place a).toNat < 64) (hb : (place b).toNat < 64)
    (hc : (place c).toNat < 64) (hd : (place d).toNat < 64) :
    bytesValue ((lettersValue a b c d >>> 16) &&& 0xff).toUInt8
      ((lettersValue a b c d >>> 8) &&& 0xff).toUInt8 (lettersValue a b c d &&& 0xff).toUInt8 =
      lettersValue a b c d := by
  have hv := toNat_lettersValue ha hb hc hd
  obtain ⟨h₁, h₂, h₃⟩ := toNat_octets (lettersValue a b c d)
  apply UInt32.toNat_inj.1
  rw [toNat_bytesValue, h₁, h₂, h₃]
  omega

/-- Three bytes of four letters make the letters again. -/
theorem encodeGroups_decodeGroups : ∀ {s : List UInt8}, 4 ∣ s.length → (∀ c ∈ s, c ∈ encTable) →
    encodeGroups (decodeGroups s) = s
  | [], _, _ => rfl
  | [_], h, _ => by
    rw [length_singleton] at h
    omega
  | [_, _], h, _ => by
    simp only [length_cons, length_nil] at h
    omega
  | [_, _, _], h, _ => by
    simp only [length_cons, length_nil] at h
    omega
  | a :: b :: c :: d :: s, h, hs => by
    simp only [forall_mem_cons] at hs
    obtain ⟨ha, hb, hc, hd, hs⟩ := hs
    obtain ⟨la, ha⟩ := letter_place ha
    obtain ⟨lb, hb⟩ := letter_place hb
    obtain ⟨lc, hc⟩ := letter_place hc
    obtain ⟨ld, hd⟩ := letter_place hd
    have ih : encodeGroups (decodeGroups s) = s := by
      refine encodeGroups_decodeGroups ?_ hs
      simp only [length_cons] at h
      omega
    have hv := toNat_lettersValue ha hb hc hd
    obtain ⟨h₁, h₂, h₃, h₄⟩ := toNat_places (lettersValue a b c d)
    have p₁ : lettersValue a b c d >>> 18 = place a := UInt32.toNat_inj.1 (by omega)
    have p₂ : (lettersValue a b c d >>> 12) &&& 0x3f = place b := UInt32.toNat_inj.1 (by omega)
    have p₃ : (lettersValue a b c d >>> 6) &&& 0x3f = place c := UInt32.toNat_inj.1 (by omega)
    have p₄ : lettersValue a b c d &&& 0x3f = place d := UInt32.toNat_inj.1 (by omega)
    rw [decodeGroups, encodeGroups, ih, bytesValue_bytes ha hb hc hd, p₁, p₂, p₃, p₄, la, lb, lc, ld]

/-- Three bytes give four characters. -/
theorem length_encodeGroups : ∀ s : List UInt8, (encodeGroups s).length = s.length / 3 * 4
  | [] => rfl
  | [_] => by simp [encodeGroups]
  | [_, _] => by simp [encodeGroups]
  | a :: b :: c :: s => by
    simp only [encodeGroups, length_cons, length_encodeGroups s]
    omega

/-- Four characters give three bytes. -/
theorem length_decodeGroups : ∀ s : List UInt8, (decodeGroups s).length = s.length / 4 * 3
  | [] => rfl
  | [_] => by simp [decodeGroups]
  | [_, _] => by simp [decodeGroups]
  | [_, _, _] => by simp [decodeGroups]
  | a :: b :: c :: d :: s => by
    simp only [decodeGroups, length_cons, length_decodeGroups s]
    omega

/-- **What is encoded is decoded.** -/
theorem decode_encode {input : List UInt8} (h : 3 ∣ input.length) : decode (encode input) = input := by
  rw [decode, encode, decodeGroups_encodeGroups (by rwa [length_xorMask]), xorMask_xorMask]

/-- **What is decoded is encoded**, if it has letters of the alphabet. -/
theorem encode_decode {letters : List UInt8} (h : 4 ∣ letters.length)
    (hall : ∀ c ∈ letters, c ∈ encTable) : encode (decode letters) = letters := by
  rw [encode, decode, xorMask_xorMask, encodeGroups_decodeGroups h hall]

/-! ### The fields -/

/-- A word is put together from its bytes. -/
theorem bytesWord_wordBytes (w : UInt32) :
    bytesWord w.toUInt8 (w >>> 8).toUInt8 (w >>> 16).toUInt8 (w >>> 24).toUInt8 = w := by
  have hw := w.toNat_lt
  apply UInt32.toNat_inj.1
  simp only [bytesWord, UInt32.toNat_add, UInt32.toNat_shiftLeft, UInt32.toNat_shiftRight,
    UInt32.toNat_toUInt8, UInt8.toNat_toUInt32, Nat.shiftLeft_eq, Nat.shiftRight_eq_div_pow,
    UInt32.reduceToNat, Nat.reduceMod, Nat.reducePow]
  omega

/-- The number of four bytes has these bytes. -/
theorem wordBytes_bytesWord (a b c d : UInt8) : wordBytes (bytesWord a b c d) = [a, b, c, d] := by
  have ha := a.toNat_lt
  have hb := b.toNat_lt
  have hc := c.toNat_lt
  have hd := d.toNat_lt
  have hw : (bytesWord a b c d).toNat =
      a.toNat + b.toNat * 256 + c.toNat * 65536 + d.toNat * 16777216 := by
    simp only [bytesWord, UInt32.toNat_add, UInt32.toNat_shiftLeft, UInt8.toNat_toUInt32,
      Nat.shiftLeft_eq, UInt32.reduceToNat, Nat.reduceMod, Nat.reducePow]
    omega
  have hbyte (k : UInt32) : (bytesWord a b c d >>> k).toUInt8.toNat =
      (bytesWord a b c d).toNat / 2 ^ (k.toNat % 32) % 256 := by
    rw [UInt32.toNat_toUInt8, UInt32.toNat_shiftRight, Nat.shiftRight_eq_div_pow]
  have h₀ : (bytesWord a b c d).toUInt8 = a := by
    apply UInt8.toNat_inj.1
    rw [UInt32.toNat_toUInt8]
    omega
  have h₁ : (bytesWord a b c d >>> 8).toUInt8 = b := by
    apply UInt8.toNat_inj.1
    rw [hbyte]
    simp only [UInt32.reduceToNat, Nat.reduceMod, Nat.reducePow]
    omega
  have h₂ : (bytesWord a b c d >>> 16).toUInt8 = c := by
    apply UInt8.toNat_inj.1
    rw [hbyte]
    simp only [UInt32.reduceToNat, Nat.reduceMod, Nat.reducePow]
    omega
  have h₃ : (bytesWord a b c d >>> 24).toUInt8 = d := by
    apply UInt8.toNat_inj.1
    rw [hbyte]
    simp only [UInt32.reduceToNat, Nat.reduceMod, Nat.reducePow]
    omega
  rw [wordBytes, h₀, h₁, h₂, h₃]

theorem FileBits.length_bytes (file : FileBits) : file.bytes.length = 12 := rfl

theorem FileBits.ofBytes_bytes (file : FileBits) : ofBytes file.bytes = file := by
  obtain ⟨b, q, x⟩ := file
  exact congr (congr (congrArg FileBits.mk (bytesWord_wordBytes b)) (bytesWord_wordBytes q))
    (bytesWord_wordBytes x)

/-- The twelve bytes of a name are those of its fields. -/
theorem FileBits.bytes_ofBytes : ∀ {s : List UInt8}, s.length = 12 → (ofBytes s).bytes = s
  | [a, b, c, d, e, f, g, h, i, j, k, l], _ => by
    show wordBytes (bytesWord a b c d) ++ wordBytes (bytesWord e f g h) ++
      wordBytes (bytesWord i j k l) = _
    rw [wordBytes_bytesWord, wordBytes_bytesWord, wordBytes_bytesWord]
    rfl

/-! ### Names and their fields -/

/-- No suffix is given besides the name. -/
def NoSuffix (suffix : Option (Option (List UInt8))) : Prop :=
  suffix = none ∨ suffix = some none ∨ suffix = some (some [])

variable {suffix : Option (Option (List UInt8))} {name : List UInt8}

/-- A parser without a suffix reads a name of 18 letters into its parts. -/
theorem parse_name (hlen : name.length = 18) (hsuffix : NoSuffix suffix) (hzero : name.headD 0 ≠ 0)
    (behind : UInt8) (target : RawFsname) :
    (parse (some name) behind suffix target).ok = decide (checkFileType name ≠ .invalid) ∧
      (checkFileType name ≠ .invalid → (parse (some name) behind suffix target).fsname =
        ⟨RawFsname.zero.fileName, .ofBytes (decode ((name.drop 2).take 16)),
          (name.getD 1 0).toUInt32 - 0x30, checkFileType name⟩) := by
  have hhead : name.headD behind = name.headD 0 := by
    cases name with
    | nil => simp at hlen
    | cons a s => rfl
  have hdiff : suffixDiffers name suffix = false := by
    rcases hsuffix with rfl | rfl | rfl
    · rfl
    · rfl
    · simp [suffixDiffers, hlen]
  have hset (f : RawFsname) :
      f.setSuffix (if suffix = some none then some (some (name.drop 18)) else suffix) = f := by
    have hdrop : name.drop 18 = [] := drop_of_length_le hlen.le
    rcases hsuffix with rfl | rfl | rfl
    · rfl
    · rw [if_pos rfl, hdrop]
      rfl
    · rfl
  by_cases htype : checkFileType name = .invalid
  · refine ⟨?_, fun h => absurd htype h⟩
    simp only [parse, hhead, hzero, htype, if_true, if_false, ne_eq, not_true, decide_false]
  · simp only [parse, hhead, hzero, htype, hdiff, hset, if_false, if_true, RawFsname.zero, ne_eq,
      not_false_eq_true, decide_true, Bool.false_eq_true, true_and, forall_true_left]

/-- How a file name is put together. -/
theorem name_getName (fsname : RawFsname) (large : Bool) :
    (getName fsname large false).name =
      (if large then 0x4c else 0x54) :: (0x30 + fsname.clusterId).toUInt8 ::
        encode fsname.file.bytes := by
  have hlen : (encode fsname.file.bytes).length = 16 := by
    rw [encode, length_encodeGroups, length_xorMask, FileBits.length_bytes]
  rw [getName, if_neg Bool.false_ne_true, RawFsname.name, cons_append, cons_append]
  rw [take_succ_cons, take_succ_cons, take_append_of_le_length hlen.ge,
    take_of_length_le hlen.le]

theorem cluster_digit {k : UInt32} (hk : k.toNat ≤ 9) : (0x30 + k).toUInt8.toUInt32 - 0x30 = k := by
  have hall : ∀ n < 10, (0x30 + UInt32.ofNat n).toUInt8.toUInt32 - 0x30 = .ofNat n := by decide
  rw [← UInt32.ofNat_toNat (x := k)]
  exact hall k.toNat (Nat.lt_succ_of_le hk)

theorem digit_cluster (a : UInt8) : (0x30 + (a.toUInt32 - 0x30)).toUInt8 = a := by
  rw [UInt32.add_comm, UInt32.sub_add_cancel]
  exact UInt8.toUInt8_toUInt32 a

/-- **A name gives its fields back.** -/
theorem parse_getName (fsname target : RawFsname) (large : Bool) (behind : UInt8)
    (hsuffix : NoSuffix suffix) (hcluster : fsname.clusterId.toNat ≤ 9) :
    (parse (some (getName fsname large false).name) behind suffix target).ok ∧
      (parse (some (getName fsname large false).name) behind suffix target).fsname =
        ⟨RawFsname.zero.fileName, fsname.file, fsname.clusterId,
          if large then .large else .small⟩ := by
  have hlen : (encode fsname.file.bytes).length = 16 := by
    rw [encode, length_encodeGroups, length_xorMask, FileBits.length_bytes]
  have hletters : (encode fsname.file.bytes).take 16 = encode fsname.file.bytes :=
    take_of_length_le hlen.le
  have hdecode : decode (encode fsname.file.bytes) = fsname.file.bytes :=
    decode_encode ⟨4, rfl⟩
  rw [name_getName]
  have hlength : ((if large then 0x4c else 0x54) :: (0x30 + fsname.clusterId).toUInt8 ::
      encode fsname.file.bytes : List UInt8).length = 18 := by
    rw [length_cons, length_cons, hlen]
  have htype : checkFileType ((if large then 0x4c else 0x54) :: (0x30 + fsname.clusterId).toUInt8 ::
      encode fsname.file.bytes) = if large then .large else .small := by
    rw [checkFileType, hlength]
    cases large <;> rfl
  have hzero : ((if large then 0x4c else 0x54) :: (0x30 + fsname.clusterId).toUInt8 ::
      encode fsname.file.bytes : List UInt8).headD 0 ≠ 0 := by
    cases large <;> simp
  have hvalid : (if large then FileType.large else FileType.small) ≠ .invalid := by
    cases large <;> simp
  obtain ⟨hok, hfields⟩ := parse_name hlength hsuffix hzero behind target
  rw [htype] at hok hfields
  refine ⟨by rw [hok]; exact decide_eq_true hvalid, (hfields hvalid).trans ?_⟩
  rw [drop_succ_cons, drop_succ_cons, drop_zero, getD_cons_succ, getD_cons_zero]
  rw [hletters, hdecode, FileBits.ofBytes_bytes, cluster_digit hcluster]

/-- The type of a file is in the first letter of its name. -/
theorem head_of_type (htype : checkFileType name ≠ .invalid) :
    (if decide (checkFileType name = .large) then 0x4c else 0x54) = name.getD 0 0 := by
  by_cases hlen : 18 ≤ name.length
  · by_cases hlarge : name.getD 0 0 = 0x4c
    · have hty : checkFileType name = .large := by rw [checkFileType, if_pos hlen, if_pos hlarge]
      rw [hty, hlarge]
      rfl
    · by_cases hsmall : name.getD 0 0 = 0x54
      · have hty : checkFileType name = .small := by
          rw [checkFileType, if_pos hlen, if_neg hlarge, if_pos hsmall]
        rw [hty, hsmall]
        rfl
      · exact absurd (by rw [checkFileType, if_pos hlen, if_neg hlarge, if_neg hsmall]) htype
  · exact absurd (by rw [checkFileType, if_neg hlen]) htype

theorem name_parts (h : 2 ≤ name.length) :
    name.getD 0 0 :: name.getD 1 0 :: name.drop 2 = name := by
  match name, h with
  | _ :: _ :: _, _ => rfl

/-- **The fields give the name back**, if the parser read them. -/
theorem getName_parse (hlen : name.length = 18) (hsuffix : NoSuffix suffix)
    (hzero : name.headD 0 ≠ 0) {behind : UInt8} {target : RawFsname}
    (hok : (parse (some name) behind suffix target).ok) (hall : ∀ c ∈ name.drop 2, c ∈ encTable) :
    (getName (parse (some name) behind suffix target).fsname
      (decide ((parse (some name) behind suffix target).fsname.fileType = .large)) false).name =
      name := by
  obtain ⟨hok', hfields⟩ := parse_name hlen hsuffix hzero behind target
  rw [hok', decide_eq_true_iff] at hok
  have hletters : (name.drop 2).length = 16 := by rw [length_drop, hlen]
  have hbytes : (decode (name.drop 2)).length = 12 := by
    rw [decode, length_xorMask, length_decodeGroups, hletters]
  have hfile : encode (FileBits.ofBytes (decode ((name.drop 2).take 16))).bytes = name.drop 2 := by
    rw [take_of_length_le hletters.le, FileBits.bytes_ofBytes hbytes,
      encode_decode ⟨4, hletters⟩ hall]
  rw [hfields hok, name_getName]
  dsimp only
  rw [hfile, digit_cluster, head_of_type hok]
  exact name_parts (by omega)

/-! ### The theorem -/

/-- **The codec of file names.** What is encoded is decoded; a name that is not simplified gives back
the block, the sequence number, the suffix, the cluster and the type of the file; and a name that does
not begin with a zero byte, and that the parser accepts, is the name of the fields that were read. -/
theorem rawFsname_trip :
    (∀ input : List UInt8, input.length = 12 → decode (encode input) = input) ∧
    (∀ (fsname target : RawFsname) (large : Bool) (behind : UInt8)
      (suffix : Option (Option (List UInt8))), NoSuffix suffix →
      1 ≤ fsname.clusterId.toNat → fsname.clusterId.toNat ≤ 9 →
      (parse (some (getName fsname large false).name) behind suffix target).ok ∧
        (parse (some (getName fsname large false).name) behind suffix target).fsname =
          ⟨RawFsname.zero.fileName, fsname.file, fsname.clusterId,
            if large then .large else .small⟩) ∧
    ∀ (name : List UInt8) (target : RawFsname) (behind : UInt8)
      (suffix : Option (Option (List UInt8))), NoSuffix suffix →
      name.length = 18 → name.head? ≠ some 0 →
      (parse (some name) behind suffix target).ok → (∀ c ∈ name.drop 2, c ∈ encTable) →
      (getName (parse (some name) behind suffix target).fsname
        (decide ((parse (some name) behind suffix target).fsname.fileType = .large)) false).name =
        name := by
  refine ⟨fun input h => decode_encode ⟨4, h⟩, fun fsname target large behind suffix hsuffix _ h =>
    parse_getName fsname target large behind hsuffix h, ?_⟩
  intro name target behind suffix hsuffix hlen hhead hok hall
  refine getName_parse hlen hsuffix ?_ hok hall
  cases name with
  | nil => simp at hlen
  | cons a s => exact fun h => hhead (congrArg some h)

/-- A name that begins with a zero byte is accepted without being read, and the fields that were there
before do not give it. -/
theorem zero_name_unread :
    let name : List UInt8 := 0 :: 0x31 :: List.replicate 16 0x30
    name.length = 18 ∧ (∀ c ∈ name.drop 2, c ∈ encTable) ∧
      ∀ target, (parse (some name) 0 none target).ok ∧
        ∀ large, (getName (parse (some name) 0 none target).fsname large false).name ≠ name := by
  have hmem : ∀ c ∈ (0 :: 0x31 :: List.replicate 16 0x30 : List UInt8).drop 2, c ∈ encTable := by
    intro c hc
    rw [encTable_eq]
    rcases mem_cons.1 hc with rfl | hc
    · decide
    · rw [eq_of_mem_replicate hc]
      decide
  refine ⟨rfl, hmem, fun target => ⟨rfl, fun large => ?_⟩⟩
  rw [name_getName]
  cases large <;> simp

end Hengine.Tfs
