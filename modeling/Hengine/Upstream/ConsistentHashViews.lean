import Hengine.Upstream.ConsistentHashExact

/-!
# Three Views of the Nodes That Are Out

The balancer keeps in three places which virtual nodes are out: the leaf of the node in the segment
tree, the mark of the node, and the queue. In every state of every run they agree.

The binary search for a hash finds the first node with a hash that is not smaller, or ends early at
some node with the very hash. Two nodes may have one hash, for instance if a server is listed twice,
and then the node that is found need not be the first of them. With more than `2 ^ 31` nodes the
search may not end.
-/

namespace Hengine

open List

/-! ### The leaf of a position -/

namespace SegTree

variable {δ : Type*} {t : SegTree δ} {leaf : ℕ → SegNode δ}

/-- The leaf of a position: the slot to which an insertion and a deletion go down. -/
@[grind =]
def leafAt : ℕ → SegTree δ → ℕ → ℕ → ℕ → ℕ → Option (SegNode δ)
  | 0, _, _, _, _, _ => none
  | fuel + 1, t, index, l, r, pos =>
    if l = r ∧ l = pos then t.get index
    else
      let child := index <<< 1
      let mid := (l + r) >>> 1
      if pos ≤ mid then leafAt fuel t child l mid pos else leafAt fuel t (child + 1) (mid + 1) r pos

/-- It has the node that the position stores. -/
theorem Holds.leafAt {i l r pos fuel : ℕ} (h : Holds t leaf i l r) (h₁ : l ≤ pos) (h₂ : pos ≤ r)
    (hfuel : r < l + fuel) : t.leafAt fuel i l r pos = some (leaf pos) := by
  induction fuel generalizing i l r with
  | zero => omega
  | succ fuel ih =>
    rw [SegTree.leafAt]
    cases h with
    | leaf hv =>
      obtain rfl : l = pos := by omega
      rw [if_pos ⟨rfl, rfl⟩, hv]
    | node hlr hl hr _ _ =>
      rw [if_neg (by omega)]
      simp only [Nat.shiftLeft_eq, Nat.shiftRight_eq_div_pow, pow_one, Nat.mul_comm i 2]
      by_cases hmid : pos ≤ (l + r) / 2
      · rw [if_pos hmid]
        exact ih hl h₁ hmid (by omega)
      · rw [if_neg hmid]
        exact ih hr (by omega) h₂ (by omega)

end SegTree

namespace ConsistentHash

variable {conf : RrPeers} {s s' : ConsistentHash} {hash : UInt32}

/-! ### The views -/

/-- **The views agree** on a node: its leaf has the extreme key, its mark is set, and it is in the
queue, once; or none of this is so. -/
def ViewsAgree (s : ConsistentHash) (i : ℕ) : Prop :=
  ∃ v, s.tree.leafAt (s.number + 1) 1 1 s.number i = some v ∧
    (v.key = s.tree.extreme ↔ s.down i = true) ∧
    (s.down i = true ↔ s.downServers.count i = 1) ∧ s.downServers.count i ≤ 1

/-- **The views of a node agree** while the ring is in order. -/
theorem Ok.viewsAgree (h : s.Ok) {i : ℕ} (h₁ : 1 ≤ i) (h₂ : i ≤ s.number) : s.ViewsAgree i := by
  have hfew := h.few
  obtain ⟨leaf, hsound⟩ := h.sound
  refine ⟨leaf i, hsound.holds.leafAt h₁ h₂ (by omega), ?_, ?_, ?_⟩
  · rw [hsound.extreme]
    by_cases hdown : s.down i = true
    · have hnone : inTree s.down i = none := if_pos hdown
      rw [hsound.deleted i h₁ h₂ hnone]
      simp [hdown]
    · have hsome : inTree s.down i = some ⟨i, none⟩ := if_neg hdown
      rw [hsound.stored i _ h₁ h₂ hsome, segExtreme]
      simp only [hdown, Bool.false_eq_true, iff_false]
      omega
  · have hmem := h.mem i
    constructor
    · intro hdown
      exact count_eq_one_of_mem h.nodup (hmem.mpr ⟨h₁, h₂, hdown⟩)
    · intro hcount
      exact (hmem.mp (count_pos_iff.mp (by omega))).2.2
  · exact nodup_iff_count_le_one.mp h.nodup i

end ConsistentHash

open ConsistentHash in
/-- **The views in every state of every run**, and the node that follows a hash. -/
theorem chash_views {conf : RrPeers} (hconf : ChashConf conf)
    {tr : List (ConsistentHash × ChashEvent)} {s : ConsistentHash}
    (hrun : (chashMachine conf).Run tr s) :
    s.number = (virtualNodes conf).length ∧ (∀ i, 1 ≤ i → i ≤ s.number → s.ViewsAgree i) ∧
      ∀ hash : UInt32, ∃ p, s.getServerIndex hash = some p ∧ 1 ≤ p ∧ p ≤ s.number ∧
        s.Follows hash p := by
  have hinv := inv_of_run hconf hrun
  exact ⟨hinv.servers.length_eq, fun i h₁ h₂ => hinv.ok.viewsAgree h₁ h₂, fun hash =>
    hinv.ok.getServerIndex hash⟩

open ConsistentHash in
/-- The views of a node that goes out with its server, and comes back at second 10. -/
theorem chash_views_back : ∃ tr₁ s₁ tr₂ s₂ i, (chashMachine (twoServers true)).Run tr₁ s₁ ∧
    (chashMachine (twoServers true)).Run (tr₁ ++ tr₂) s₂ ∧ s₁.down i = true ∧ s₁.ViewsAgree i ∧
    s₂.down i = false ∧ s₂.ViewsAgree i ∧ (∃ j, s₁.down j = false ∧ s₁.ViewsAgree j) ∧
    ∃ p, s₂.getServerIndex 12457530 = some p ∧ 1 ≤ p ∧ p ≤ s₂.number ∧ s₂.Follows 12457530 p := by
  obtain ⟨s₀, s₁, i₀, h₀, hget, hinv, hpeers, hout⟩ := twoServers_out
  obtain ⟨t, hrec, hok, hservers, -, hd, -⟩ := hinv.ok.recover 10 fun _ => false
  have hnum := number_congr hservers
  obtain ⟨p, hp, hp₁, hp₂, -, hpeer⟩ := twoServers_primary (hinv.recover hrec)
    (Or.inl rfl)
  rw [peerOf_congr hservers] at hpeer
  rw [hnum] at hp₂
  -- At second 10 the nodes of the first server are due, and the server may be used.
  obtain ⟨hiff, htime⟩ := hout p hp₁ hp₂
  have hdown := hiff.mpr hpeer
  have hnow : (10 : ℤ) ≥ s₁.timeout p := by
    rw [htime hpeer]
  have hfit : t.unfit (fun _ => false) (t.peerOf p) = false := by
    rw [peerOf_congr hservers]
    exact (hinv.ok.usable_iff hrec _).mp ⟨rfl, Or.inr ⟨p, hp₁, hp₂, hdown, hnow, rfl⟩⟩
  have hback : t.down p = false := by
    by_contra hc
    exact ((hd p).mp (by simpa using hc)).2
      ⟨(hinv.ok.mem p).mpr ⟨hp₁, hp₂, hdown⟩, hnow, rfl⟩
  have hstep₁ : (chashMachine (twoServers true)).step s₀
      (.request 0 12457530 (fun _ => false) (.node i₀)) s₁ := hget
  have hstep₂ : (chashMachine (twoServers true)).step s₁
      (.request 10 12457530 (fun _ => false) _) t := getPeer_of_fit hok hrec hp hfit
  have hrun₁ := (Machine.Run.start h₀).snoc hstep₁
  have hrun₂ := hrun₁.snoc hstep₂
  obtain ⟨-, hviews₁, -⟩ := chash_views (twoServers_conf true) hrun₁
  obtain ⟨-, hviews₂, hindex⟩ := chash_views (twoServers_conf true) hrun₂
  obtain ⟨j, hj₁, hj₂, hj⟩ := hinv.exists_node (twoServers_conf true) (p := 1) (by simp [twoServers])
  have hup : s₁.down j = false := by
    by_contra hc
    have := (hout j hj₁ hj₂).1.mp (by simpa using hc)
    omega
  exact ⟨_, s₁, _, t, p, hrun₁, hrun₂, hdown, hviews₁ p hp₁ hp₂, hback,
    hviews₂ p hp₁ (hnum ▸ hp₂), ⟨j, hup, hviews₁ j hj₁ hj₂⟩, hindex 12457530⟩

/-! ### One server, listed many times -/

/-- A configuration that lists a server with the weight 1 `n` times. -/
def listedTimes (n : ℕ) : RrPeers :=
  { number := n
    peer := fun _ => { name := "127.0.0.1:80", weight := 1, maxFails := 1, failTimeout := 10 } }

theorem virtualNodes_listedTimes (n : ℕ) : (virtualNodes (listedTimes n)).length = 160 * n :=
  length_virtualNodes fun _ => rfl

theorem listedTimes_conf {n : ℕ} (hpos : 0 < n) (hfew : 160 * n ≤ 2 ^ 31) :
    ChashConf (listedTimes n) where
  number_pos := hpos
  weight_pos := fun _ _ => by simp [listedTimes]
  few := by
    rw [virtualNodes_listedTimes]
    exact hfew

namespace ConsistentHash

/-- In a sorted list in which every number is found an even number of times, two neighbours with an
even number of others before them are the same. -/
theorem eq_of_even {L : List UInt32} {k : ℕ} (hsorted : L.Pairwise (· ≤ ·))
    (heven : ∀ p : UInt32 → Bool, Even (L.countP p)) (hodd : Odd (k + 1)) (hk : k + 1 < L.length) :
    L[k] = L[k + 1] := by
  by_contra hne
  have hle := pairwise_iff_getElem.mp hsorted
  have hlt : L[k] < L[k + 1] :=
    UInt32.lt_of_le_of_ne (hle k (k + 1) (by omega) hk (Nat.lt_succ_self k)) hne
  -- Those that are not greater than the first of the two are the ones up to it.
  have hcount : L.countP (fun x => decide (x ≤ L[k])) = k + 1 := by
    have hfirst : (L.take (k + 1)).countP (fun x => decide (x ≤ L[k])) = k + 1 := by
      rw [countP_eq_length.mpr fun x hx => ?_, length_take, Nat.min_eq_left (by omega)]
      obtain ⟨j, hj, rfl⟩ := mem_take_iff_getElem.mp hx
      rcases Nat.lt_or_ge j k with hjk | hjk
      · exact decide_eq_true (hle j k (by omega) (by omega) hjk)
      · obtain rfl : j = k := by omega
        exact decide_eq_true (UInt32.le_refl _)
    have hrest : (L.drop (k + 1)).countP (fun x => decide (x ≤ L[k])) = 0 := by
      refine countP_eq_zero.mpr fun x hx => ?_
      obtain ⟨j, hj, rfl⟩ := mem_drop_iff_getElem.mp hx
      have hge : L[k + 1] ≤ L[k + 1 + j] := by
        rcases Nat.eq_zero_or_pos j with rfl | hpos
        · exact UInt32.le_refl _
        · exact hle _ _ hk (by omega) (by omega)
      simpa using UInt32.lt_of_lt_of_le hlt hge
    have happ := @List.countP_append _ (fun x => decide (x ≤ L[k])) (L.take (k + 1)) (L.drop (k + 1))
    rwa [take_append_drop, hfirst, hrest] at happ
  have := heven fun x => decide (x ≤ L[k])
  rw [hcount] at this
  exact Nat.not_even_iff_odd.mpr hodd this

/-- Each virtual node is there twice. -/
theorem even_countP {s : ConsistentHash} (hinv : s.Inv (listedTimes 2)) (p : UInt32 → Bool) :
    Even ((s.servers.map VirtualNode.hash).countP p) := by
  have hnodes : (virtualNodes (listedTimes 2)).map VirtualNode.hash =
      (peerNodes 0 ((listedTimes 2).peer 0)).map VirtualNode.hash ++
        (peerNodes 0 ((listedTimes 2).peer 0)).map VirtualNode.hash := by
    have hone : (peerNodes 1 ((listedTimes 2).peer 1)).map VirtualNode.hash =
        (peerNodes 0 ((listedTimes 2).peer 0)).map VirtualNode.hash := by
      simp [peerNodes, listedTimes]
    simp [virtualNodes, listedTimes, range_succ] at hone ⊢
    exact hone
  rw [(hinv.servers.map VirtualNode.hash).countP_eq, hnodes, countP_append]
  exact ⟨_, rfl⟩

/-- No node of the server has the greatest hash of all. -/
theorem hashOf_listedTimes {n : ℕ} {s : ConsistentHash}
    (hperm : s.servers.Perm (virtualNodes (listedTimes n))) (i : ℕ) : s.hashOf i < 0xffffffff := by
  rw [hashOf]
  cases hserver : s.server i with
  | none => decide
  | some v =>
    have hmem : v ∈ virtualNodes (listedTimes n) := by
      rw [server] at hserver
      split at hserver
      · cases hserver
      · exact hperm.mem_iff.mp (mem_of_getElem? hserver)
    obtain ⟨q, -, hv⟩ := mem_flatMap.mp hmem
    have hall : ∀ w ∈ peerNodes 0 ((listedTimes 1).peer 0), w.hash < 0xffffffff := by decide +kernel
    obtain ⟨j, hj, rfl⟩ := mem_map.mp hv
    have hless := hall _ (mem_map.mpr ⟨j, hj, rfl⟩)
    exact hless

/-- The loop goes on for ever when there are many nodes and all hashes are smaller. -/
theorem searchIndex_endless {s : ConsistentHash} {hash : UInt32} (hless : ∀ i, s.hashOf i < hash)
    {fuel low hight : ℕ} (hlow : low ≤ 2 ^ 31) (hhight : 2 ^ 31 < hight) :
    s.searchIndex hash fuel low hight = none := by
  induction fuel generalizing low with
  | zero => rfl
  | succ fuel ih =>
    rw [searchIndex, if_pos (by omega)]
    simp only [Nat.shiftRight_eq_div_pow, pow_one]
    have hmid := hless ((low + hight) % 2 ^ 32 / 2)
    rw [hashOf] at hmid
    rw [if_neg (UInt32.ne_of_lt hmid), if_pos hmid]
    exact ih (by omega)

end ConsistentHash

open ConsistentHash in
/-- Of two nodes with one hash the second one is found; and with more than `2 ^ 31` nodes a search
does not end. -/
theorem chash_not_first :
    (∃ conf s hash j, ChashConf conf ∧ (chashMachine conf).Run [] s ∧ 1 ≤ j ∧
      s.getServerIndex hash = some (j + 1) ∧ hash ≤ s.hashOf j) ∧
    ∃ conf s, (chashMachine conf).Run [] s ∧ s.number = 2147483680 ∧
      s.getServerIndex 0xffffffff = none := by
  constructor
  · have hconf := listedTimes_conf (n := 2) (by omega) (by omega)
    obtain ⟨s, hs⟩ := exists_init hconf
    have hrun := Machine.Run.start hs
    have hinv := inv_of_run hconf hrun
    have hnum : s.number = 320 := hinv.servers.length_eq.trans (virtualNodes_listedTimes 2)
    have hsorted := hinv.ok.sorted
    have hindex : s.getServerIndex (s.hashOf 160) = some 160 := by
      have hloop : s.searchIndex (s.hashOf 160) (319 + 1) 1 320 = some 160 := by
        rw [searchIndex, if_pos (by omega)]
        exact if_pos rfl
      rw [getServerIndex, hnum, Nat.mod_eq_of_lt (by omega), hloop]
      exact congrArg some (if_neg (by omega))
    have hsame : s.hashOf 159 = s.hashOf 160 := by
      have hmap : (s.servers.map VirtualNode.hash).Pairwise (· ≤ ·) := pairwise_map.mpr hsorted
      have hk : 158 + 1 < (s.servers.map VirtualNode.hash).length := by
        rw [length_map]
        rw [number] at hnum
        omega
      have heq := eq_of_even hmap (even_countP hinv) ⟨79, rfl⟩ hk
      rw [getElem_map, getElem_map] at heq
      rw [length_map] at hk
      simp only [hashOf, server, if_neg (show ¬ 159 = 0 by omega), if_neg (show ¬ 160 = 0 by omega),
        getElem?_eq_getElem (show 158 < s.servers.length by omega),
        getElem?_eq_getElem hk, Option.elim_some]
      exact heq
    exact ⟨_, s, s.hashOf 160, 159, hconf, hrun, by omega, hindex, UInt32.le_of_eq hsame.symm⟩
  · have hlen := virtualNodes_listedTimes 13421773
    obtain ⟨s, hs⟩ : ∃ s, (chashMachine (listedTimes 13421773)).init s :=
      exists_init_of (by omega)
    have hrun := Machine.Run.start hs
    obtain ⟨servers, hperm, -, hinit⟩ := hs
    rw [ConsistentHash.init, Option.map_eq_some_iff] at hinit
    obtain ⟨tree, -, rfl⟩ := hinit
    have hnum : servers.length = 2147483680 := by rw [hperm.length_eq, hlen]
    refine ⟨_, _, hrun, hnum, ?_⟩
    rw [getServerIndex, searchIndex_endless (hashOf_listedTimes hperm) (by omega)]
    · rfl
    · simp only [number, hnum]
      omega

end Hengine
