import Mathlib.Data.List.Basic

/-!
# Tables

A table is a list that is read at an index. What holds of all its entries is checked in one walk along
the list, where the entry at each index would walk to it anew. A table that is written as a text is the
bytes of its characters.
-/

namespace Hengine

open List

/-- What a check finds at every entry holds at each index. -/
theorem getD_of_all {α : Type*} (xs : List α) {p : α → ℕ → Bool}
    (h : (xs.zipIdx.all fun q => p q.1 q.2) = true) {i : ℕ} (hi : i < xs.length) (d : α) :
    p (xs.getD i d) i = true := by
  have hmem : (xs[i], i) ∈ xs.zipIdx :=
    mk_mem_zipIdx_iff_getElem?.mpr (getElem?_eq_getElem hi)
  rw [getD_eq_getElem?_getD, getElem?_eq_getElem hi]
  exact all_eq_true.mp h _ hmem

/-- What holds of all entries of a table of bytes holds of the entry of each byte. -/
theorem getD_byte_of_all {α : Type*} (xs : List α) {p : α → UInt8 → Bool} (hlen : xs.length = 256)
    (h : (xs.zipIdx.all fun q => p q.1 (.ofNat q.2)) = true) (c : UInt8) (d : α) :
    p (xs.getD c.toNat d) c = true := by
  have hlt : c.toNat < xs.length := by
    rw [hlen]
    exact c.toNat_lt
  have hc := getD_of_all xs (p := fun x i => p x (.ofNat i)) h hlt d
  rwa [UInt8.ofNat_toNat] at hc

/-- The bytes of an array, as a list. -/
theorem toList_loop (b : ByteArray) : ∀ (k i : ℕ) (r : List UInt8), b.size - i = k →
    ByteArray.toList.loop b i r = r.reverse ++ b.data.toList.drop i := by
  intro k
  induction k with
  | zero =>
    intro i r hk
    rw [ByteArray.toList.loop, if_neg (by omega), drop_of_length_le, append_nil]
    exact Nat.le_of_sub_eq_zero hk
  | succ k ih =>
    intro i r hk
    have hlt : i < b.size := by omega
    have hi : i < b.data.toList.length := hlt
    have hget : b.get! i = b.data.toList[i] := by
      show b.data[i]! = _
      simp [getElem!_pos b.data i hlt]
    rw [ByteArray.toList.loop, if_pos hlt, ih _ _ (by omega), hget, drop_eq_getElem_cons hi,
      reverse_cons, append_assoc, singleton_append]

/-- **The bytes of a text** are those of its characters. -/
theorem toUTF8_toList (l : List Char) :
    (String.ofList l).toUTF8.toList = l.flatMap String.utf8EncodeChar := by
  have hlist : (String.ofList l).toUTF8.toList = (String.ofList l).toUTF8.data.toList :=
    toList_loop _ _ 0 [] rfl
  rw [hlist, String.toUTF8_eq_toByteArray]
  simp [List.utf8Encode]

end Hengine
