import Hengine.Dubbo.HessianTrip
import Hengine.Dubbo.Request
import Mathlib.Data.List.Induction

/-!
# The Attachments of a Request

The map of key and value pairs that `ngx_dubbo_hessian2_encode_payload_map` writes, as the reader of
Hessian objects finds it. The pairs are put into a `std::map`: one entry for each key, in
the order of the keys, with the value that was put last.
-/

namespace Hengine.Dubbo

open List

open Hessian

/-- The keys are in order, and none is there twice. -/
def InOrder (m : List KeyVal) : Prop := m.Pairwise fun a b => a.key.data < b.key.data

/-- The value of a key. -/
def valueOf (key : List UInt8) (m : List KeyVal) : Option Text :=
  (m.find? fun e => e.key.data = key).map KeyVal.value

variable {kv : KeyVal} {m kvs : List KeyVal}

/-- What is in the map afterwards has the new key or was there. -/
theorem mem_mapPut {e : KeyVal} (h : e ∈ mapPut kv m) :
    e.key.data = kv.key.data ∨ ∃ e' ∈ m, e'.key = e.key := by
  induction m with
  | nil => exact Or.inl (by rw [mem_singleton.1 h])
  | cons a m ih =>
    rw [mapPut] at h
    split_ifs at h
    · obtain rfl | h := mem_cons.1 h
      · exact Or.inr ⟨_, mem_cons_self, rfl⟩
      · exact (ih h).imp_right fun ⟨e', he', heq⟩ => ⟨e', mem_cons_of_mem _ he', heq⟩
    · obtain rfl | h := mem_cons.1 h
      · exact Or.inl rfl
      · exact Or.inr ⟨e, h, rfl⟩
    · obtain rfl | h := mem_cons.1 h
      · exact Or.inr ⟨_, mem_cons_self, rfl⟩
      · exact Or.inr ⟨e, mem_cons_of_mem _ h, rfl⟩

/-- **A pair is put** into its place. -/
theorem InOrder.put (h : InOrder m) : InOrder (mapPut kv m) := by
  induction m with
  | nil => exact pairwise_singleton _ _
  | cons a m ih =>
    obtain ⟨ha, hm⟩ := pairwise_cons.1 h
    rw [mapPut]
    split_ifs with hlt hgt
    · refine pairwise_cons.2 ⟨fun e he => ?_, ih hm⟩
      obtain heq | ⟨e', he', heq⟩ := mem_mapPut he
      · rwa [heq]
      · rw [← heq]
        exact ha e' he'
    · refine pairwise_cons.2 ⟨fun e he => ?_, h⟩
      obtain rfl | he := mem_cons.1 he
      · exact hgt
      · exact List.lt_trans hgt (ha e he)
    · exact pairwise_cons.2 ⟨ha, hm⟩

theorem valueOf_cons (key : List UInt8) (e : KeyVal) (m : List KeyVal) :
    valueOf key (e :: m) = if e.key.data = key then some e.value else valueOf key m := by
  rw [valueOf, find?_cons]
  split_ifs with he <;> simp [he, valueOf]

/-- **The last pair of a key** is found. -/
theorem valueOf_mapPut (key : List UInt8) : ∀ m : List KeyVal, valueOf key (mapPut kv m) =
    if kv.key.data = key then some kv.value else valueOf key m
  | [] => valueOf_cons key kv []
  | a :: m => by
    rw [mapPut]
    by_cases hlt : a.key.data < kv.key.data
    · rw [if_pos hlt, valueOf_cons, valueOf_cons, valueOf_mapPut key m]
      have hne : a.key.data ≠ kv.key.data := fun heq => List.lt_irrefl _ (heq ▸ hlt)
      split_ifs <;> simp_all
    by_cases hgt : kv.key.data < a.key.data
    · rw [if_neg hlt, if_pos hgt, valueOf_cons]
    · have heq : a.key.data = kv.key.data := List.le_antisymm hgt hlt
      rw [if_neg hlt, if_neg hgt, valueOf_cons, valueOf_cons, heq]
      split_ifs <;> rfl

/-- The map of the pairs. -/
def mapOf (kvs : List KeyVal) : List KeyVal := kvs.foldl (fun m kv => mapPut kv m) []

theorem mapOf_concat (kvs : List KeyVal) (kv : KeyVal) :
    mapOf (kvs ++ [kv]) = mapPut kv (mapOf kvs) := foldl_concat _ _ _ _

/-- **The map**: its keys are in order, each has the value that was put last, and no
other entry is there. -/
theorem mapOf_spec (kvs : List KeyVal) : InOrder (mapOf kvs) ∧
    ∀ key, valueOf key (mapOf kvs) = valueOf key kvs.reverse := by
  induction kvs using List.reverseRecOn with
  | nil => exact ⟨Pairwise.nil, fun _ => rfl⟩
  | append_singleton kvs kv ih =>
    rw [mapOf_concat, reverse_concat]
    refine ⟨ih.1.put, fun key => ?_⟩
    rw [valueOf_mapPut, ih.2, valueOf_cons]

/-! ### Reading the map -/

/-- A string that can be written, with nothing behind it: the zero byte that ends a `std::string` is left
out. A string of whole characters is written without a look at what stands behind it. -/
def Text.Plain (s : Text) : Prop := s.behind = [] ∧ ∃ cs : List Char, s.data = Hessian.encode cs ∧ Writable cs

/-- A pair that can be written. -/
def Plain (kv : KeyVal) : Prop :=
  kv.key.Plain ∧ kv.value.behind = [] ∧
    if kv.key.data = bodyKey then kv.value.data ≠ [] ∧ kv.value.data.length < 2 ^ 32
    else kv.value.Plain

/-- A pair that can be written joins others. -/
theorem Plain.put (hkv : Plain kv) : ∀ {m : List KeyVal}, (∀ e ∈ m, Plain e) →
    ∀ e ∈ mapPut kv m, Plain e
  | [], _ => forall_mem_singleton.2 hkv
  | a :: m, h => by
    obtain ⟨ha, hm⟩ := forall_mem_cons.1 h
    rw [mapPut]
    split_ifs with hlt hgt
    · exact forall_mem_cons.2 ⟨ha, hkv.put hm⟩
    · exact forall_mem_cons.2 ⟨hkv, h⟩
    · have heq : a.key.data = kv.key.data := List.le_antisymm hgt hlt
      refine forall_mem_cons.2 ⟨⟨ha.1, hkv.2.1, ?_⟩, hm⟩
      rw [heq]
      exact hkv.2.2

/-- A map of plain pairs is one of plain pairs. -/
theorem plain_mapOf (h : ∀ kv ∈ kvs, Plain kv) : ∀ e ∈ mapOf kvs, Plain e := by
  induction kvs using List.reverseRecOn with
  | nil => exact nofun
  | append_singleton kvs kv ih =>
    obtain ⟨hkvs, hkv⟩ := forall_mem_append.1 h
    rw [mapOf_concat]
    exact (forall_mem_singleton.1 hkv).put (ih hkvs)

/-- Plain pairs are written as texts that can be read. -/
theorem entriesOf_good (h : ∀ e ∈ m, Plain e) : (entriesOf m).Good := by
  induction m with
  | nil => trivial
  | cons kv m ih =>
    obtain ⟨hkv, hm⟩ := forall_mem_cons.1 h
    refine ⟨hkv.1.2, ?_, ih hm⟩
    have hvalue := hkv.2.2
    split_ifs at hvalue ⊢
    · exact hvalue
    · exact hvalue.2

/-- The keys that are written are those of the map. -/
theorem mem_keys_entriesOf {k : Obj} : ∀ {m : List KeyVal}, k ∈ (entriesOf m).keys →
    ∃ e ∈ m, k = .str e.key.data
  | kv :: m, h => by
    obtain rfl | h := mem_cons.1 h
    · exact ⟨kv, mem_cons_self, rfl⟩
    · obtain ⟨e, he, rfl⟩ := mem_keys_entriesOf h
      exact ⟨e, mem_cons_of_mem _ he, rfl⟩

/-- The keys of a map in order differ. -/
theorem entriesOf_differ : ∀ {m : List KeyVal}, InOrder m → (entriesOf m).KeysDiffer
  | [], _ => trivial
  | kv :: m, h => by
    obtain ⟨hkv, hm⟩ := pairwise_cons.1 h
    refine ⟨trivial, by split_ifs <;> trivial, fun k hk => ?_, entriesOf_differ hm⟩
    obtain ⟨e, he, rfl⟩ := mem_keys_entriesOf hk
    exact decide_eq_false fun heq => List.lt_irrefl _ (heq ▸ hkv e he)

/-- The entries have no references. -/
theorem ids_entriesOf : ∀ m : List KeyVal, (entriesOf m).ids = [] ∧
    ∀ refs, (entriesOf m).numbered refs = entriesOf m
  | [] => ⟨rfl, fun _ => rfl⟩
  | kv :: m => by
    obtain ⟨hids, hnumbered⟩ := ids_entriesOf m
    rw [entriesOf]
    refine ⟨?_, fun refs => ?_⟩
    · rw [Entries.ids, hids]
      split_ifs <;> rfl
    · rw [Entries.numbered, hnumbered]
      split_ifs <;> rfl

/-- **The attachments are read back**: from what is written for the pairs, whatever follows it, the
reader takes exactly that, and gives a map with one entry for each key, in the order of the
keys, which has the value that was put last. -/
theorem payloadMap_trip (x : Ext) (kvs : List KeyVal) (h : ∀ kv ∈ kvs, Plain kv) :
    ∃ m : List KeyVal,
    InOrder m ∧ (∀ key, valueOf key m = valueOf key kvs.reverse) ∧
    ∃ fuel, Reads (readObject x fuel 0) (encodePayloadMap kvs) (.map 0 (entriesOf m), 1) := by
  obtain ⟨horder, hvalue⟩ := mapOf_spec kvs
  obtain ⟨hids, hnumbered⟩ := ids_entriesOf (mapOf kvs)
  have hwhole : Whole kvs := fun kv hkv => ⟨(h kv hkv).1.1, (h kv hkv).2.1⟩
  have hread := reads_object x (.map 0 (entriesOf (mapOf kvs))) [] _
    (entriesOf_good (plain_mapOf h)) (entriesOf_differ horder)
    (by rw [Obj.ids, hids]; exact pairwise_singleton _ _) (Nat.lt_succ_self _)
  rw [Obj.numbered, hnumbered, Obj.ids, hids] at hread
  rw [encodePayloadMap_eq hwhole]
  exact ⟨_, horder, hvalue, _, hread⟩

/-- Two pairs with the same key. -/
theorem payloadMap_trip_pair : ∃ m : List KeyVal,
    valueOf [0x61] m = some ⟨[0x63], []⟩ ∧ ∃ fuel,
      Reads (readObject ⟨⟨fun _ => [], fun _ => 0, fun _ => 0, fun _ => 0⟩, fun _ _ => failure⟩ fuel 0)
        (encodePayloadMap [⟨⟨[0x61], []⟩, ⟨[0x62], []⟩⟩, ⟨⟨[0x61], []⟩, ⟨[0x63], []⟩⟩])
        (.map 0 (entriesOf m), 1) := by
  have hplain : ∀ c ∈ ['a', 'b', 'c'], Text.Plain ⟨Hessian.encode [c], []⟩ := by
    intro c hc
    have hwritable : (Hessian.encode [c]).length < 2 ^ 32 ∧ (String.utf8EncodeChar c).length < 4 := by
      obtain rfl | rfl | rfl : c = 'a' ∨ c = 'b' ∨ c = 'c' := by simpa using hc
      all_goals decide
    exact ⟨rfl, [c], rfl, hwritable.1, forall_mem_singleton.2 hwritable.2, by simp⟩
  have hpair : ∀ c ∈ ['b', 'c'], Plain ⟨⟨[0x61], []⟩, ⟨Hessian.encode [c], []⟩⟩ := by
    intro c hc
    refine ⟨hplain 'a' (by simp), rfl, ?_⟩
    have hbytes : Hessian.encode [c] ≠ [] ∧ (Hessian.encode [c]).length < 2 ^ 32 := by
      obtain rfl | rfl : c = 'b' ∨ c = 'c' := by simpa using hc
      all_goals decide
    split_ifs
    · exact hbytes
    · exact hplain c (mem_cons_of_mem _ hc)
  obtain ⟨m, -, hvalue, hread⟩ := payloadMap_trip
    ⟨⟨fun _ => [], fun _ => 0, fun _ => 0, fun _ => 0⟩, fun _ _ => failure⟩
    [⟨⟨[0x61], []⟩, ⟨[0x62], []⟩⟩, ⟨⟨[0x61], []⟩, ⟨[0x63], []⟩⟩]
    (forall_mem_cons.2 ⟨hpair 'b' (by simp), forall_mem_singleton.2 (hpair 'c' (by simp))⟩)
  exact ⟨m, (hvalue _).trans rfl, hread⟩

end Hengine.Dubbo
