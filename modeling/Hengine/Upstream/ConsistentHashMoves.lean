import Hengine.Upstream.ConsistentHashViews

/-!
# Which Keys Move

When servers have been taken out, a key whose node is live stays with this node. A key whose node is
dead should go to the next live node on the ring. The search compares that node with the first node
of all that is left, which is the farthest one before the key and not the nearest, and goes to the
first live node of all if that one is as near. It goes round the ring only if it finds no node on one
side.

A peer that fails is taken out when a request comes upon it, so on its way to the next live node the
search takes out the peers that it meets, and the first node of all changes.
-/

namespace Hengine

open List Option

namespace ConsistentHash

variable {conf : RrPeers} {s s₁ t : ConsistentHash} {now : ℤ} {hash : UInt32} {check : ℕ → Bool}
  {p : ℕ}

/-! ### The ring of the live nodes -/

/-- `c` is the next live node after `p`. -/
def NextLive (live : ℕ → Prop) (p c : ℕ) : Prop := p < c ∧ live c ∧ ∀ j, p < j → j < c → ¬ live j

/-- What a key gets whose node is `p`, if only the live nodes are on the ring: this node or the next
live one after it, or if there is none, the first of all. -/
def Reply.Clockwise (live : ℕ → Prop) (p : ℕ) : Reply → Prop
  | .busy => ∀ i, ¬ live i
  | .node c => live c ∧ (p ≤ c ∧ (∀ j, p ≤ j → j < c → ¬ live j) ∨
      c < p ∧ (∀ j, p ≤ j → ¬ live j) ∧ ∀ j, j < c → ¬ live j)

/-- A node that is in the tree when a request looks for a node: it is not out, or it is due. -/
def Kept (s : ConsistentHash) (now : ℤ) (check : ℕ → Bool) (i : ℕ) : Prop :=
  1 ≤ i ∧ i ≤ s.number ∧ (s.down i = true → s.Due now check i)

/-- A live node: it is in the tree, and its peer may be used. -/
def Live (s : ConsistentHash) (now : ℤ) (check : ℕ → Bool) (i : ℕ) : Prop :=
  s.Kept now check i ∧ s.Usable now check (s.peerOf i)

/-- A node before `p` whose peer has no node in the tree from `p` up to `q`: the search does not take
it out on its way from `p` to `q`. -/
def Stray (s : ConsistentHash) (kept : ℕ → Prop) (p q l : ℕ) : Prop :=
  kept l ∧ l < p ∧ ∀ j, p ≤ j → j < q → kept j → s.peerOf j ≠ s.peerOf l

/-- A node that is not out. -/
def Left (s : ConsistentHash) (i : ℕ) : Prop := 1 ≤ i ∧ i ≤ s.number ∧ s.down i = false

/-- A node that is not out and whose peer is fit. -/
def Good (check : ℕ → Bool) (s : ConsistentHash) (i : ℕ) : Prop :=
  s.Left i ∧ s.unfit check (s.peerOf i) = false

/-- Where a node is live, some live node is the first one. -/
theorem exists_after {k : ℕ} (hpk : p < k) (hk : k ≤ s.number) (hd : s.down k = false) :
    ∃ c, s.After p c ∧ c ≤ k := by
  have hex : ∃ c, p < c ∧ s.down c = false := ⟨k, hpk, hd⟩
  obtain ⟨h₁, h₂⟩ := Nat.find_spec hex
  have hle : Nat.find hex ≤ k := Nat.find_min' hex ⟨hpk, hd⟩
  refine ⟨Nat.find hex, ⟨h₁, hle.trans hk, h₂, fun j hj hjc => ?_⟩, hle⟩
  by_contra hjd
  exact Nat.find_min hex hjc ⟨hj, by simpa using hjd⟩

/-- Where some node behind is live, there is a next one. -/
theorem exists_nextLive {live : ℕ → Prop} {k : ℕ} (hpk : p < k) (hk : live k) :
    ∃ c, NextLive live p c ∧ c ≤ k := by
  classical
  have hex : ∃ c, p < c ∧ live c := ⟨k, hpk, hk⟩
  obtain ⟨h₁, h₂⟩ := Nat.find_spec hex
  exact ⟨Nat.find hex, ⟨h₁, h₂, fun j hj hjc hlive => Nat.find_min hex hjc ⟨hj, hlive⟩⟩,
    Nat.find_min' hex ⟨hpk, hk⟩⟩

/-- There is one next live node. -/
theorem NextLive.unique {live : ℕ → Prop} {c q : ℕ} (hc : NextLive live p c)
    (hq : NextLive live p q) : c = q := by
  rcases Nat.lt_trichotomy c q with hlt | heq | hgt
  · exact absurd hc.2.1 (hq.2.2 c hc.1 hlt)
  · exact heq
  · exact absurd hq.2.1 (hc.2.2 q hq.1 hgt)

/-! ### The search -/

/-- Where the search from `p` ends: at the first live node of all, if it lies behind `p` or no stray
node is farther from the key than the next live node `q`, and otherwise at that one. -/
def Reply.Lands (check : ℕ → Bool) (s : ConsistentHash) (hash : UInt32) (p : ℕ) : Reply → Prop
  | .busy => ∀ i, ¬ s.Good check i
  | .node c =>
    NextLive (s.Good check) 0 c ∧ (c < p → ∀ q, NextLive (s.Good check) p q →
        ∀ l, s.Stray s.Left p q l → s.distance hash l ≤ s.distance hash q) ∨
      NextLive (s.Good check) p c ∧
        ∃ l, s.Stray s.Left p c l ∧ s.distance hash c < s.distance hash l

section Delete

/-! A peer that is not fit is taken out. -/

variable {i : ℕ} (hout : Out now check s s₁) (hun : s.unfit check (s.peerOf i) = true)
  (hd : ∀ j, 1 ≤ j → j ≤ s.number → s₁.down j = (s.down j || decide (s.peerOf j = s.peerOf i)))

include hout hd in
/-- What is left after a deletion. -/
theorem left_delete (j : ℕ) : s₁.Left j ↔ s.Left j ∧ s.peerOf j ≠ s.peerOf i := by
  rw [Left, Left, number_congr hout.servers]
  constructor
  · rintro ⟨h₁, h₂, hj⟩
    rw [hd j h₁ h₂, Bool.or_eq_false_iff, decide_eq_false_iff_not] at hj
    exact ⟨⟨h₁, h₂, hj.1⟩, hj.2⟩
  · rintro ⟨⟨h₁, h₂, hj⟩, hne⟩
    exact ⟨h₁, h₂, by rw [hd j h₁ h₂, hj, decide_eq_false hne]; rfl⟩

include hout hun hd in
/-- Deleting nodes changes no peer that is fit. -/
theorem good_delete : s₁.Good check = s.Good check := by
  funext j
  rw [Good, Good, left_delete hout hd, unfit_congr hout.peers, peerOf_congr hout.servers]
  refine propext ⟨fun h => ⟨h.1.1, h.2⟩, fun h => ⟨⟨h.1, fun heq => ?_⟩, h.2⟩⟩
  rw [heq, hun] at h
  cases h.2

include hout hun hd in
/-- Where the search ends does not change when a peer goes out that it meets on its way. -/
theorem Reply.Lands.of_delete {reply : Reply}
    (hi : (∀ q, NextLive (s.Good check) p q → p ≤ i ∧ i < q ∧ s.Left i) ∨
      ∀ j, s.Left j → s.peerOf j ≠ s.peerOf i) (h : reply.Lands check s₁ hash p) :
    reply.Lands check s hash p := by
  have hgood := good_delete hout hun hd
  have hleft := left_delete hout hd
  have hdist : ∀ j, s₁.distance hash j = s.distance hash j := fun j =>
    congrArg (hashDiff · hash) (hashOf_congr hout.servers j)
  have hpeer := peerOf_congr hout.servers
  cases reply with
  | busy =>
    simp only [Reply.Lands, hgood] at h
    exact h
  | node c =>
    simp only [Reply.Lands, Stray, hgood, hleft, hdist, hpeer] at h ⊢
    rcases h with ⟨hc, hnear⟩ | ⟨hc, l, ⟨⟨hl, hne⟩, hlp, hmet⟩, hfar⟩
    · refine Or.inl ⟨hc, fun hcp q hq l hl => hnear hcp q hq l ⟨⟨hl.1, ?_⟩, hl.2.1,
        fun j hj hjq hjl => hl.2.2 j hj hjq hjl.1⟩⟩
      rcases hi with hi | hi
      · obtain ⟨hpi, hiq, hil⟩ := hi q hq
        exact (hl.2.2 i hpi hiq hil).symm
      · exact hi l hl.1
    · refine Or.inr ⟨hc, l, ⟨hl, hlp, fun j hj hjc hjl heq => ?_⟩, hfar⟩
      exact hmet j hj hjc ⟨hjl, heq ▸ hne⟩ heq

end Delete

/-- **The search**, from a node `index` such that all nodes from `p` on up to it are out. The nodes
before `p` come nearer to the key, and those behind it go away from it. -/
theorem Ok.search_lands (now : ℤ) (hash : UInt32) (check : ℕ → Bool) {fuel : ℕ} :
    ∀ {s : ConsistentHash} {p index : ℕ}, s.Ok → 1 ≤ p → p ≤ index → index ≤ s.number →
      (∀ j, p ≤ j → j ≤ index → s.down j = true) →
      (∀ i j, s.Left i → i ≤ j → j < p → s.distance hash j ≤ s.distance hash i) →
      (∀ l i j, s.Left l → l < p → p < i → i ≤ j → j ≤ s.number →
        s.distance hash i ≤ s.distance hash j) → s.alive < fuel →
      ∃ s' reply, ConsistentHash.search now hash check fuel s index = some (s', reply) ∧
        reply.Lands check s hash p := by
  induction fuel with
  | zero =>
    intro s p index _ _ _ _ _ _ _ hfuel
    omega
  | succ fuel ih =>
    intro s p index h hp hpi hin hdown hbefore hbehind hfuel
    have hnot : ∀ j, s.Left j → p ≤ j → index < j := by
      intro j hj hpj
      by_contra hle
      have hjd := hj.2.2
      rw [hdown j hpj (not_lt.mp hle)] at hjd
      cases hjd
    -- What follows when the first node of all is as near as the first one after `index`.
    have hnear : ∀ i, s.After 0 i → i < index →
        (∀ q, s.After index q → s.distance hash i ≤ s.distance hash q) →
        i < p ∧ ∀ q, NextLive (s.Good check) p q → ∀ l, s.Stray s.Left p q l →
          s.distance hash l ≤ s.distance hash q := by
      rintro i ⟨hi₁, hi₂, hid, hfirst⟩ hii hle
      have hileft : s.Left i := ⟨hi₁, hi₂, hid⟩
      have hip : i < p := by
        by_contra hge
        have := hnot i hileft (not_lt.mp hge)
        omega
      refine ⟨hip, fun q hq l hl => ?_⟩
      have hqleft := hq.2.1.1
      obtain ⟨r, hr, hrq⟩ := exists_after (hnot q hqleft hq.1.le) hqleft.2.1 hqleft.2.2
      have hil : i ≤ l := by
        by_contra hlt
        have hld := hl.1.2.2
        rw [hfirst l hl.1.1 (not_le.mp hlt)] at hld
        cases hld
      exact (hbefore i l hileft hil hl.2.1).trans ((hle r hr).trans
        (hbehind i r q hileft hip (lt_of_le_of_lt hpi hr.1) hrq hqleft.2.1))
    rcases h.round (hp.trans hpi) hin (hdown index hpi (Nat.le_refl _)) now hash check fuel with
      ⟨hrun, hall⟩ | ⟨i, htry, ⟨hrun, hfit⟩ | ⟨s₁, hrun, hun, hok₁, hout₁, hless, hd₁⟩⟩
    · refine ⟨s, .busy, hrun, fun i hi => ?_⟩
      have hid := hi.1.2.2
      rw [hall i hi.1.1 hi.1.2.1] at hid
      cases hid
    · refine ⟨s, .node i, hrun, ?_⟩
      rcases htry with ⟨hfirst, hii, hle⟩ | ⟨⟨hi₁, hi₂, hid, hlast⟩, hgt⟩
      · -- The first node of all is fit.
        refine Or.inl ⟨⟨hfirst.1, ⟨⟨hfirst.1, hfirst.2.1, hfirst.2.2.1⟩, hfit⟩,
          fun j hj hji hgood => ?_⟩, fun _ => (hnear i hfirst hii hle).2⟩
        have hjd := hgood.1.2.2
        rw [hfirst.2.2.2 j hj hji] at hjd
        cases hjd
      · -- The next node is fit, and all nodes between `p` and it are out.
        have hgood : s.Good check i := ⟨⟨by omega, hi₂, hid⟩, hfit⟩
        have hbetween : ∀ j, p ≤ j → j < i → ¬ s.Left j := by
          intro j hj hji hleft
          have hjd := hleft.2.2
          rw [hlast j (hnot j hleft hj) hji] at hjd
          cases hjd
        by_cases hsome : ∃ l, s.Left l ∧ l < p
        · obtain ⟨l, hl, hlp⟩ := hsome
          obtain ⟨b, hb, hbl⟩ := exists_after (p := 0) hl.1 hl.2.1 hl.2.2
          refine Or.inr ⟨⟨by omega, hgood, fun j hj hji hg => hbetween j hj.le hji hg.1⟩, b,
            ⟨⟨hb.1, hb.2.1, hb.2.2.1⟩, by omega, fun j hj hji hleft => ?_⟩, hgt b hb (by omega)⟩
          exact absurd hleft (hbetween j hj hji)
        · refine Or.inl ⟨⟨by omega, hgood, fun j _ hji hg => ?_⟩, fun hip => by omega⟩
          rcases Nat.lt_or_ge j p with hjp | hjp
          · exact hsome ⟨j, hg.1, hjp⟩
          · exact hbetween j hjp hji hg.1
    · obtain ⟨hi₁, hi₂, hid⟩ := htry.left
      have hnum := number_congr hout₁.servers
      have hleft := left_delete hout₁ hd₁
      have hgood := good_delete hout₁ hun hd₁
      have hdist : ∀ j, s₁.distance hash j = s.distance hash j := fun j =>
        congrArg (hashDiff · hash) (hashOf_congr hout₁.servers j)
      have hi' : s₁.down i = true := by
        rw [hd₁ i hi₁ hi₂]
        simp
      rcases htry with ⟨hfirst, hii, hle⟩ | ⟨hafter, -⟩
      · -- The first node of all has gone out: nothing is left before it.
        have hnone : ∀ l, s₁.Left l → ¬ l < i := by
          intro l hl hli
          have hld := ((hleft l).mp hl).1.2.2
          rw [hfirst.2.2.2 l hl.1 hli] at hld
          cases hld
        obtain ⟨s', reply, hrun', hlands⟩ := ih hok₁ hi₁ (Nat.le_refl i) (hnum ▸ hi₂)
          (fun j hj hji => by rw [Nat.le_antisymm hji hj]; exact hi')
          (fun a j ha haj hji => absurd (lt_of_le_of_lt haj hji) (hnone a ha))
          (fun l _ _ hl hli => absurd hli (hnone l hl)) (by omega)
        refine ⟨s', reply, hrun.trans hrun', ?_⟩
        cases reply with
        | busy =>
          simp only [Reply.Lands, hgood] at hlands
          exact hlands
        | node c =>
          rcases hlands with ⟨hc, -⟩ | ⟨-, l, hl, -⟩
          · rw [hgood] at hc
            exact Or.inl ⟨hc, fun _ => (hnear i hfirst hii hle).2⟩
          · exact absurd hl.2.1 (hnone l hl.1)
      · -- The next node has gone out, and the search goes on behind it.
        obtain ⟨s', reply, hrun', hlands⟩ := ih (p := p) hok₁ hp (by have := hafter.1; omega)
          (hnum ▸ hi₂) (fun j hj hji => by
            rcases Nat.lt_or_ge index j with hlt | hge
            · rcases Nat.lt_or_eq_of_le hji with hlt' | rfl
              · exact (hout₁.keep j (by omega) (by omega) (hafter.2.2.2 j hlt hlt')).1
              · exact hi'
            · exact (hout₁.keep j (by omega) (by omega) (hdown j hj hge)).1)
          (fun a j ha haj hjp => by
            rw [hdist, hdist]
            exact hbefore a j ((hleft a).mp ha).1 haj hjp)
          (fun l a j hl hlp hpa haj hj => by
            rw [hdist, hdist]
            exact hbehind l a j ((hleft l).mp hl).1 hlp hpa haj (hnum ▸ hj)) (by omega)
        refine ⟨s', reply, hrun.trans hrun', hlands.of_delete hout₁ hun hd₁ (Or.inl fun q hq => ?_)⟩
        refine ⟨hpi.trans hafter.1.le, ?_, ⟨hi₁, hi₂, hid⟩⟩
        have hqleft := hq.2.1.1
        rcases Nat.lt_trichotomy i q with hlt | rfl | hgt
        · exact hlt
        · rw [hq.2.1.2] at hun
          cases hun
        · have hqd := hqleft.2.2
          rw [hafter.2.2.2 q (hnot q hqleft hq.1.le) hgt] at hqd
          cases hqd

/-- The distance of two hashes, without a case distinction. -/
theorem distance_eq (s : ConsistentHash) (hash : UInt32) (i : ℕ) : s.distance hash i =
    ((s.hashOf i).toNat - hash.toNat) + (hash.toNat - (s.hashOf i).toNat) := by
  rw [distance, hashDiff]
  split
  · next h =>
      have := UInt32.lt_iff_toNat_lt.mp h
      omega
  · next h =>
      have := UInt32.le_iff_toNat_le.mp (UInt32.not_lt.mp h)
      omega

/-- **Distances** on both sides of the node that follows a hash. -/
theorem Follows.distances (hsorted : s.SortedNodes) (h : s.Follows hash p) (hp : p ≤ s.number) :
    (∀ i j, 1 ≤ i → i ≤ j → j < p → s.distance hash j ≤ s.distance hash i) ∧
      (1 < p → ∀ i j, p < i → i ≤ j → j ≤ s.number → s.distance hash i ≤ s.distance hash j) := by
  have hle : ∀ {i j}, 1 ≤ i → i ≤ j → j ≤ s.number → (s.hashOf i).toNat ≤ (s.hashOf j).toNat :=
    fun hi hij hj => UInt32.le_iff_toNat_le.mp (hsorted.le hi hij hj)
  simp only [distance_eq]
  rcases h with ⟨hnext, hfirst⟩ | ⟨-, rfl⟩
  · have hnext := UInt32.le_iff_toNat_le.mp hnext
    refine ⟨fun i j hi hij hj => ?_, fun hp₁ i j hi hij hj => ?_⟩
    · have hjle : (s.hashOf j).toNat ≤ hash.toNat := by
        rcases hfirst j (hi.trans hij) hj with hlt | ⟨heq, -⟩
        · exact (UInt32.lt_iff_toNat_lt.mp hlt).le
        · rw [heq]
      have := hle hi hij (by omega)
      omega
    · have h₁ := hle hp₁.le hi.le (by omega)
      have h₂ := hle (by omega) hij hj
      omega
  · exact ⟨fun i j hi hij hj => by omega, fun h1 => by omega⟩

/-! ### A request -/

/-- The nodes that are not out once the queue has been looked through. -/
theorem Ok.left_eq (h : s.Ok) (hrec : s.recover now check = some t) :
    t.Left = s.Kept now check := by
  obtain ⟨t', hrec', -, hservers, -, hd, -⟩ := h.recover now check
  rw [hrec] at hrec'
  cases hrec'
  funext i
  rw [Left, Kept, number_congr hservers]
  refine propext (and_congr_right fun h₁ => and_congr_right fun h₂ => ?_)
  rw [← Bool.not_eq_true, hd, h.mem]
  constructor
  · intro hnot hdown
    by_contra hdue
    exact hnot ⟨hdown, fun hc => hdue hc.2⟩
  · rintro hdue ⟨hdown, hnot⟩
    exact hnot ⟨⟨h₁, h₂, hdown⟩, hdue hdown⟩

theorem Ok.good_eq (h : s.Ok) (hrec : s.recover now check = some t) :
    t.Good check = s.Live now check := by
  funext i
  rw [Good, Live, h.left_eq hrec, h.usable_iff hrec, peerOf_congr (recover_servers hrec).1]

/-- **Where a request ends**: at its own node, if the peer of this node is fit and it is not out, and
where the search from it ends otherwise. -/
theorem Inv.getPeer_lands (h : s.Inv conf) (hrec : s.recover now check = some t) (hash : UInt32) :
    ∃ p s' reply, t.getServerIndex hash = some p ∧ s.getPeer now hash check = some (s', reply) ∧
      1 ≤ p ∧ p ≤ t.number ∧
      (t.unfit check (t.peerOf p) = false ∧ reply = (if t.down p then .busy else .node p) ∨
        t.unfit check (t.peerOf p) = true ∧ reply.Lands check t hash p) := by
  obtain ⟨t', p, hrec', hok, hp, h₁, h₂, hfollows, ⟨hfit, hget⟩ |
    ⟨hunfit, t₁, hget, hok₁, hout₁, halive, hd₁⟩⟩ := h.ok.start now hash check
  · rw [hrec] at hrec'
    cases hrec'
    exact ⟨p, t, _, hp, hget, h₁, h₂, Or.inl ⟨hfit, rfl⟩⟩
  · rw [hrec] at hrec'
    cases hrec'
    have hnum := number_congr hout₁.servers
    have hleft := left_delete hout₁ hd₁
    have hdist : ∀ j, t₁.distance hash j = t.distance hash j := fun j =>
      congrArg (hashDiff · hash) (hashOf_congr hout₁.servers j)
    obtain ⟨hbefore, hbehind⟩ := hfollows.distances hok.sorted h₂
    have hdown : t₁.down p = true := by
      rw [hd₁ p h₁ h₂]
      simp
    obtain ⟨s', reply, hrun, hlands⟩ := hok₁.search_lands now hash check h₁ (Nat.le_refl p)
      (hnum ▸ h₂) (fun j hj hjp => by rw [Nat.le_antisymm hjp hj]; exact hdown)
      (fun i j hi hij hjp => by
        rw [hdist, hdist]
        exact hbefore i j ((hleft i).mp hi).1.1 hij hjp)
      (fun l i j hl hlp hpi hij hj => by
        rw [hdist, hdist]
        exact hbehind (lt_of_le_of_lt ((hleft l).mp hl).1.1 hlp) i j hpi hij (hnum ▸ hj)) halive
    refine ⟨p, s', reply, hp, hget.trans hrun, h₁, h₂, Or.inr ⟨hunfit,
      hlands.of_delete hout₁ hunfit hd₁ ?_⟩⟩
    -- The node of the key is left, or with it all nodes of its peer are out.
    by_cases hpd : t.down p = true
    · refine Or.inr fun j hj heq => ?_
      have hjd := hj.2.2
      rw [((h.recover hrec).uniform j p hj.1 hj.2.1 h₁ h₂ heq).1, hpd] at hjd
      cases hjd
    · exact Or.inl fun q hq => ⟨Nat.le_refl p, hq.1, h₁, h₂, by simpa using hpd⟩

/-- The index of a hash depends on the nodes only. -/
theorem getServerIndex_congr (h : t.servers = s.servers) (hash : UInt32) :
    t.getServerIndex hash = s.getServerIndex hash := by
  have hserver : t.server = s.server := by
    funext i
    rw [server, server, h]
  have hloop : ∀ fuel low hight,
      t.searchIndex hash fuel low hight = s.searchIndex hash fuel low hight := by
    intro fuel
    induction fuel with
    | zero =>
      intro low hight
      rfl
    | succ fuel ih =>
      intro low hight
      simp only [searchIndex, hserver, ih]
  simp only [getServerIndex, number_congr h, hloop, hserver]

/-- **Clockwise or not**, for a key whose node is `p`. -/
theorem Inv.getPeer_clockwise_iff (h : s.Inv conf) (now : ℤ) (hash : UInt32) (check : ℕ → Bool) :
    ∃ p s' reply, s.getServerIndex hash = some p ∧ s.getPeer now hash check = some (s', reply) ∧
      (reply.Clockwise (s.Live now check) p ↔
        s.Live now check p ∨ (∀ i, ¬ s.Live now check i) ∨
          ¬ s.Usable now check (s.peerOf p) ∧ ∀ c q, s.Live now check c → c < p →
            NextLive (s.Live now check) p q → ∃ l, s.Stray (s.Kept now check) p q l ∧
              s.distance hash q < s.distance hash l) := by
  obtain ⟨t, hrec, -⟩ := h.ok.recover now check
  obtain ⟨p, s', reply, hp, hget, h₁, h₂, hcase⟩ := h.getPeer_lands hrec hash
  have hservers := (recover_servers hrec).1
  rw [getServerIndex_congr hservers] at hp
  have hlive := h.ok.good_eq hrec
  have hstray : ∀ q l, t.Stray t.Left p q l ↔ s.Stray (s.Kept now check) p q l := by
    intro q l
    rw [Stray, Stray, h.ok.left_eq hrec]
    simp only [peerOf_congr hservers]
  have hdist : ∀ j, t.distance hash j = s.distance hash j := fun j =>
    congrArg (hashDiff · hash) (hashOf_congr hservers j)
  have husable := h.ok.usable_iff hrec (s.peerOf p)
  rw [peerOf_congr hservers] at hcase
  refine ⟨p, s', reply, hp, hget, ?_⟩
  rcases hcase with ⟨hfit, rfl⟩ | ⟨hunfit, hlands⟩
  · have hyes : s.Usable now check (s.peerOf p) := husable.mpr hfit
    by_cases hdown : t.down p = true
    · have hdead : ¬ s.Live now check p := by
        rw [← hlive]
        intro hc
        have hpd := hc.1.2.2
        rw [hdown] at hpd
        cases hpd
      rw [if_pos hdown]
      constructor
      · exact fun hnone => Or.inr (Or.inl hnone)
      · rintro (hc | hnone | ⟨hno, -⟩)
        · exact absurd hc hdead
        · exact hnone
        · exact absurd hyes hno
    · have hpl : s.Live now check p := by
        rw [← hlive]
        exact ⟨⟨h₁, h₂, by simpa using hdown⟩, by rw [peerOf_congr hservers]; exact hfit⟩
      rw [if_neg hdown]
      exact ⟨fun _ => Or.inl hpl,
        fun _ => ⟨hpl, Or.inl ⟨Nat.le_refl p, fun j hj hjp => absurd hj (not_le.mpr hjp)⟩⟩⟩
  · have hno : ¬ s.Usable now check (s.peerOf p) := by
      rw [husable, hunfit]
      simp
    have hdead : ¬ s.Live now check p := by
      rw [← hlive]
      rintro ⟨-, hfit⟩
      rw [peerOf_congr hservers, hunfit] at hfit
      cases hfit
    cases reply with
    | busy =>
      simp only [Reply.Lands, hlive] at hlands
      exact ⟨fun hnone => Or.inr (Or.inl hnone), fun _ => hlands⟩
    | node c =>
      simp only [Reply.Lands, hlive, hstray, hdist] at hlands
      rcases hlands with ⟨hc, hnear⟩ | ⟨hc, l, hl, hfar⟩
      · constructor
        · rintro ⟨-, ⟨hpc, hfirst⟩ | ⟨hcp, hbehind, -⟩⟩
          · refine Or.inr (Or.inr ⟨hno, fun b q hb hbp _ => ?_⟩)
            exact absurd hb (hc.2.2 b hb.1.1 (lt_of_lt_of_le hbp hpc))
          · exact Or.inr (Or.inr ⟨hno, fun b q _ _ hq => absurd hq.2.1 (hbehind q hq.1.le)⟩)
        · intro hcond
          refine ⟨hc.2.1, ?_⟩
          rcases Nat.lt_trichotomy c p with hcp | rfl | hpc
          · refine Or.inr ⟨hcp, fun k hpk hk => ?_, fun j hjc hj => hc.2.2 j hj.1.1 hjc hj⟩
            -- A live node behind `p` gives a stray node that is farther away.
            obtain ⟨q, hq, -⟩ := exists_nextLive (lt_of_le_of_ne hpk fun heq => hdead (heq ▸ hk)) hk
            rcases hcond with hp | hnone | ⟨-, hright⟩
            · exact hdead hp
            · exact hnone c hc.2.1
            · obtain ⟨l, hl, hfar⟩ := hright c q hc.2.1 hcp hq
              exact absurd (hnear hcp q hq l hl) (not_le.mpr hfar)
          · exact absurd hc.2.1 hdead
          · exact Or.inl ⟨hpc.le, fun j hj hjc => hc.2.2 j (lt_of_lt_of_le h₁ hj) hjc⟩
      · refine ⟨fun _ => Or.inr (Or.inr ⟨hno, fun b q _ _ hq => ?_⟩), fun _ => ⟨hc.2.1, Or.inl
          ⟨hc.1.le, fun j hj hjc => ?_⟩⟩⟩
        · rw [hq.unique hc]
          exact ⟨l, hl, hfar⟩
        · rcases Nat.lt_or_eq_of_le hj with hlt | rfl
          · exact hc.2.2 j hlt hjc
          · exact hdead

end ConsistentHash

open ConsistentHash in
/-- **Which keys move.** In every state of every run, a request gets what the ring of the live nodes
gives it if and only if its own node is live, or no node is, or the server of its node may not be
used, and, whenever there are live nodes on both sides, some stray node is farther from the key than
the next live one. -/
theorem chash_clockwise_iff {conf : RrPeers} (hconf : ChashConf conf)
    {tr : List (ConsistentHash × ChashEvent)} {s : ConsistentHash}
    (hrun : (chashMachine conf).Run tr s) (now : ℤ) (hash : UInt32) (check : ℕ → Bool) :
    ∃ p s' reply, s.getServerIndex hash = some p ∧ s.getPeer now hash check = some (s', reply) ∧
      (reply.Clockwise (s.Live now check) p ↔
        s.Live now check p ∨ (∀ i, ¬ s.Live now check i) ∨
          ¬ s.Usable now check (s.peerOf p) ∧ ∀ c q, s.Live now check c → c < p →
            NextLive (s.Live now check) p q → ∃ l, s.Stray (s.Kept now check) p q l ∧
              s.distance hash q < s.distance hash l) :=
  (inv_of_run hconf hrun).getPeer_clockwise_iff now hash check

namespace ConsistentHash

/-- The first of two servers has failed, and the keys of two of its nodes: live nodes of the second
server are on both sides of them. -/
theorem twoServers_failed : ∃ tr s, (chashMachine (twoServers false)).Run tr s ∧
    s.Inv (twoServers false) ∧ ¬ s.Usable 1 (fun _ => false) 0 ∧
    (∀ i, 1 ≤ i → i ≤ s.number → s.Kept 1 (fun _ => false) i) ∧
    (∀ i, 1 ≤ i → i ≤ s.number → (s.Live 1 (fun _ => false) i ↔ s.peerOf i = 1)) ∧
    ∀ hash p, (hash = 12457530 ∨ hash = 178944043) → s.hashOf p = hash → 1 ≤ p → p ≤ s.number →
      ∃ k₀ k₁, k₀ < p ∧ p < k₁ ∧ s.Live 1 (fun _ => false) k₀ ∧ s.Live 1 (fun _ => false) k₁ ∧
        s.hashOf k₀ = 9392598 ∧ s.hashOf k₁ = 182818196 := by
  obtain ⟨s₀, h₀⟩ := exists_init (twoServers_conf false)
  obtain ⟨hinv₀, -⟩ := init_inv (twoServers_conf false) h₀
  obtain ⟨i, hi₁, hi₂, hi⟩ := hinv₀.exists_node (twoServers_conf false) (p := 0) (by simp [twoServers])
  obtain ⟨tr, s, hrun, -, -, hdown, hfails, hmark, -, -⟩ :=
    failed_twice (twoServers_conf false) h₀ hi₁ hi₂
  have hinv := inv_of_run (twoServers_conf false) hrun
  have hlimit := fun p => (hinv.limits p).1
  have hkept : ∀ i, 1 ≤ i → i ≤ s.number → s.Kept 1 (fun _ => false) i := fun i h₁ h₂ =>
    ⟨h₁, h₂, fun hd => absurd ((hdown i).symm.trans hd) (by simp)⟩
  have hfirst : ¬ s.Usable 1 (fun _ => false) 0 := by
    rintro ⟨-, hfit | ⟨j, -, -, hd, -⟩⟩
    · simp [unfit, hfails, hi, hlimit, twoServers] at hfit
    · exact absurd ((hdown j).symm.trans hd) (by simp)
  have hsecond : s.Usable 1 (fun _ => false) 1 :=
    ⟨rfl, Or.inl (by simp [unfit, hfails, hi, hlimit, hmark, twoServers])⟩
  have hlive : ∀ i, 1 ≤ i → i ≤ s.number → (s.Live 1 (fun _ => false) i ↔ s.peerOf i = 1) := by
    intro i h₁ h₂
    rcases twoServers_nodes hinv h₁ h₂ with hp | ⟨hp, -⟩
    · rw [Live, hp]
      exact ⟨fun hc => absurd hc.2 hfirst, fun hc => by cases hc⟩
    · rw [Live, hp]
      exact ⟨fun _ => rfl, fun _ => ⟨hkept i h₁ h₂, hsecond⟩⟩
  refine ⟨tr, s, hrun, hinv, hfirst, hkept, hlive, fun hash p hkey hp h₁ h₂ => ?_⟩
  have hmem : ∀ v ∈ peerNodes 1 ((twoServers false).peer 1), v ∈ virtualNodes (twoServers false) :=
    fun v hv => mem_flatMap.mpr ⟨1, mem_range.mpr (by simp [twoServers]), hv⟩
  obtain ⟨k₀, hk₀, hk₀', hhash₀, hpeer₀⟩ := hinv.exists_index (hmem _ (second_hashes false).1)
  obtain ⟨k₁, hk₁, hk₁', hhash₁, hpeer₁⟩ := hinv.exists_index (hmem _ (second_hashes false).2.1)
  have hbounds : 9392598 < hash ∧ hash < 182818196 := by
    rcases hkey with rfl | rfl
    · decide
    · decide
  refine ⟨k₀, k₁, ?_, ?_, (hlive k₀ hk₀ hk₀').mpr hpeer₀, (hlive k₁ hk₁ hk₁').mpr hpeer₁, hhash₀,
    hhash₁⟩
  · by_contra hge
    have hle := hinv.ok.sorted.le h₁ (not_lt.mp hge) hk₀'
    rw [hp, hhash₀] at hle
    exact absurd hbounds.1 (UInt32.not_lt.mpr hle)
  · by_contra hge
    have hle := hinv.ok.sorted.le hk₁ (not_lt.mp hge) h₂
    rw [hp, hhash₁] at hle
    exact absurd hbounds.2 (UInt32.not_lt.mpr hle)

end ConsistentHash

open ConsistentHash in
/-- A key that goes to the next live node, although there are live nodes before its own one. -/
theorem chash_clockwise_next : ∃ tr s p s' c, (chashMachine (twoServers false)).Run tr s ∧
    s.getServerIndex 178944043 = some p ∧
    s.getPeer 1 178944043 (fun _ => false) = some (s', .node c) ∧
    NextLive (s.Live 1 fun _ => false) p c ∧ ∃ b < p, s.Live 1 (fun _ => false) b := by
  obtain ⟨tr, s, hrun, hinv, hdead, hkept, hlive, hsides⟩ := twoServers_failed
  obtain ⟨p, hp, hp₁, hp₂, hhash, hpeer⟩ := twoServers_primary hinv (Or.inr rfl)
  obtain ⟨k₀, k₁, hk₀, hk₁, hl₀, hl₁, hh₀, hh₁⟩ := hsides _ p (Or.inr rfl) hhash hp₁ hp₂
  have hpdead : ¬ s.Live 1 (fun _ => false) p := fun hc => hdead (hpeer ▸ hc.2)
  obtain ⟨p', s', reply, hp', hget, hiff⟩ :=
    chash_clockwise_iff (twoServers_conf false) hrun 1 178944043 fun _ => false
  rw [hp] at hp'
  cases hp'
  have hclock := hiff.mpr (Or.inr (Or.inr ⟨hpeer ▸ hdead, fun c q _ _ hq => ?_⟩))
  · cases reply with
    | busy => exact absurd hl₀ (hclock k₀)
    | node c =>
      obtain ⟨hc, ⟨hpc, hfirst⟩ | ⟨-, hnone, -⟩⟩ := hclock
      · exact ⟨tr, s, p, s', c, hrun, hp, hget, ⟨lt_of_le_of_ne hpc fun heq => hpdead (heq ▸ hc), hc,
          fun j hj hjc => hfirst j hj.le hjc⟩, k₀, hk₀, hl₀⟩
      · exact absurd hl₁ (hnone k₁ hk₁.le)
  · -- The first node of the second server is far away, and the next one is near.
    refine ⟨k₀, ⟨hl₀.1, hk₀, fun j hj hjq _ => ?_⟩, ?_⟩
    · have hj₁ : 1 ≤ j := hp₁.trans hj
      have hj₂ : j ≤ s.number := hjq.le.trans hq.2.1.1.2.1
      have hj : ¬ s.Live 1 (fun _ => false) j := by
        rcases Nat.lt_or_eq_of_le hj with hlt | rfl
        · exact hq.2.2 j hlt hjq
        · exact hpdead
      rw [(hlive k₀ hl₀.1.1 hl₀.1.2.1).mp hl₀]
      exact fun heq => hj ((hlive j hj₁ hj₂).mpr heq)
    · have hqk : q ≤ k₁ := not_lt.mp fun hlt => hq.2.2 k₁ hk₁ hlt hl₁
      have h₁ := UInt32.le_iff_toNat_le.mp (hinv.ok.sorted.le hp₁ hq.1.le hq.2.1.1.2.1)
      have h₂ := UInt32.le_iff_toNat_le.mp (hinv.ok.sorted.le hq.2.1.1.1 hqk hl₁.1.2.1)
      rw [hhash] at h₁
      rw [hh₁] at h₂
      rw [distance_eq, distance_eq, hh₀]
      simp only [UInt32.reduceToNat] at h₁ h₂ ⊢
      omega

open ConsistentHash in
/-- **A key that moves backwards.** The first server has failed; the key of one of its nodes does not
get the next live node, a node of the second server, since the first node of all is as near. -/
theorem chash_backwards : ∃ tr s p s' reply, (chashMachine (twoServers false)).Run tr s ∧
    s.getServerIndex 12457530 = some p ∧
    s.getPeer 1 12457530 (fun _ => false) = some (s', reply) ∧
    ¬ reply.Clockwise (s.Live 1 fun _ => false) p := by
  obtain ⟨tr, s, hrun, hinv, hdead, hkept, hlive, hsides⟩ := twoServers_failed
  obtain ⟨p, hp, hp₁, hp₂, hhash, hpeer⟩ := twoServers_primary hinv (Or.inl rfl)
  obtain ⟨k₀, k₁, hk₀, hk₁, hl₀, hl₁, -, -⟩ := hsides _ p (Or.inl rfl) hhash hp₁ hp₂
  obtain ⟨p', s', reply, hp', hget, hiff⟩ := hinv.getPeer_clockwise_iff 1 12457530 fun _ => false
  rw [hp] at hp'
  cases hp'
  refine ⟨tr, s, p, s', reply, hrun, hp, hget, fun hclock => ?_⟩
  rcases hiff.mp hclock with hc | hnone | ⟨-, hright⟩
  · exact hdead (hpeer ▸ hc.2)
  · exact hnone k₀ hl₀
  · obtain ⟨q, hq, -⟩ := exists_nextLive hk₁ hl₁
    obtain ⟨l, ⟨hl, hlp, hstray⟩, hfar⟩ := hright k₀ q hl₀ hk₀ hq
    have hlpeer := hstray p (Nat.le_refl p) hq.1 (hkept p hp₁ hp₂)
    rw [hpeer] at hlpeer
    -- Stray nodes belong to the second server and are nearer than the next one of its nodes.
    have hqpeer := (hlive q hq.2.1.1.1 hq.2.1.1.2.1).mp hq.2.1
    have h₁ := UInt32.le_iff_toNat_le.mp (hinv.ok.sorted.le hl.1 hlp.le hp₂)
    have h₂ := hinv.ok.sorted.le hp₁ hq.1.le hq.2.1.1.2.1
    rw [hhash] at h₁ h₂
    rcases twoServers_nodes hinv hl.1 hl.2.1 with hzero | ⟨-, hge, -⟩
    · exact hlpeer hzero.symm
    · rcases twoServers_nodes hinv hq.2.1.1.1 hq.2.1.1.2.1 with hzero | ⟨-, -, hne, -, hgt⟩
      · omega
      · have h₃ := UInt32.le_iff_toNat_le.mp (hgt (UInt32.lt_of_le_of_ne h₂ (Ne.symm hne)))
        have h₄ := UInt32.le_iff_toNat_le.mp hge
        rw [distance_eq, distance_eq] at hfar
        simp only [UInt32.reduceToNat] at h₁ h₃ h₄ hfar
        omega

end Hengine
