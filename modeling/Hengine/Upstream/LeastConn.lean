import Hengine.Upstream.Retry
import Mathlib.Algebra.Order.Field.Basic

/-!
# The Least-Connections Balancer

`ngx_http_upstream_get_least_conn_peer`. A first loop finds an eligible peer whose number
of connections relative to its weight is least, and whether another one ties with it; a
second loop, from that peer on, runs the round-robin credit over the ties.

The ratios are compared by cross-multiplication on `ngx_uint_t`, so a product wraps at
`2 ^ 64`. Below that bound the comparison is the comparison of the quotients.
-/

namespace Hengine

open List Function

/-- `a * w` of an `ngx_uint_t` and an `ngx_int_t`: an unsigned product. -/
def uintMul (a : ℕ) (w : ℤ) : ℤ :=
  (a * w) % 2 ^ 64

/-- `peer->conns * best->weight` for peer `i` and best `b`. -/
def crossConns (peer : ℕ → RrPeer) (i b : ℕ) : ℤ :=
  uintMul (peer i).conns (peer b).weight

/-- The variables of the first loop. -/
structure LcScan where
  best : Option ℕ
  many : Bool

/-- One turn of the first loop. -/
def LcScan.turn (skip : ℕ → RrPeer → Bool) (peer : ℕ → RrPeer) (s : LcScan) (i : ℕ) :
    LcScan :=
  if skip i (peer i) then s
  else
    match s.best with
    | none => { best := some i, many := false }
    | some b =>
      if crossConns peer i b < crossConns peer b i then { best := some i, many := false }
      else if crossConns peer i b = crossConns peer b i then { s with many := true }
      else s

/-- The first loop over the peers `l`. -/
def lcScan (skip : ℕ → RrPeer → Bool) (peer : ℕ → RrPeer) (l : List ℕ) : LcScan :=
  l.foldl (LcScan.turn skip peer) { best := none, many := false }

/-- One turn of the second loop: peers that do not tie with the best one so far are passed
over, the others take part in the round robin. -/
def RrScan.turnTie (skip : ℕ → RrPeer → Bool) (s : RrScan) (i : ℕ) : RrScan :=
  match s.best with
  | none => s
  | some b =>
    if skip i (s.peer i) || crossConns s.peer i b != crossConns s.peer b i then s
    else s.visit RrPeer.bump i

/-- The second loop over the peers `l`, from the best one of the first loop. -/
def lcTies (skip : ℕ → RrPeer → Bool) (peer : ℕ → RrPeer) (p : ℕ) (l : List ℕ) : RrScan :=
  l.foldl (RrScan.turnTie skip) { peer := peer, total := 0, best := some p }

variable {δ : Type} {env : RrEnv}

/-- Picking from the current group by least connections. -/
def lcPick (env : RrEnv) (s : GetState δ) : Bool × GetState δ :=
  let ps := s.up.peers s.rrp.group
  if ps.single then rrPick env s
  else
    let skip := peerSkip env s.rrp.tried
    let first := lcScan skip ps.peer (List.range ps.number)
    match first.best with
    | none => (false, s)
    | some p =>
      let ties := if first.many
        then lcTies skip ps.peer p ((List.range ps.number).drop p)
        else { peer := ps.peer, total := 0, best := some p }
      let best := ties.best.getD p
      (true, s.grant
        { ps with
          peer := update ties.peer best
            ((ties.peer best).win ties.total env.now) } best)

/-- `ngx_http_upstream_get_least_conn_peer`. -/
def upstreamGetLeastConnPeer (env : RrEnv) (s : GetState δ) : Rc × GetState δ :=
  if (s.up.peers s.rrp.group).single then upstreamGetRoundRobinPeer env s
  else getWithBackup (lcPick env) s

/-- The least-connections balancer, which keeps no data of its own. -/
def leastConn : Balancer Unit Unit where
  start := id
  get := upstreamGetLeastConnPeer

/-! ### The second loop -/

/-- What the second loop leaves: the peers of some set `A` of eligible ones were credited,
and every best peer on the way has `P`, if ties pass `P` on. -/
structure TieSpec (skip : ℕ → RrPeer → Bool) (peer : ℕ → RrPeer) (P : ℕ → Prop) (l : List ℕ)
    (A : Finset ℕ) (s : RrScan) : Prop where
  sub : ∀ i ∈ A, i ∈ l ∧ skip i (peer i) = false
  peer_eq : ∀ i, s.peer i = if i ∈ A then (peer i).bump else peer i
  total_eq : s.total = ∑ i ∈ A, (peer i).effectiveWeight
  best : ∃ b, s.best = some b ∧ P b

variable {skip : ℕ → RrPeer → Bool} {peer : ℕ → RrPeer} {P : ℕ → Prop} {s : GetState δ}

/-- Comparing connections does not concern a tie. -/
theorem TieSpec.cross {l : List ℕ} {A : Finset ℕ} {s : RrScan} (h : TieSpec skip peer P l A s)
    (i b : ℕ) : crossConns s.peer i b = crossConns peer i b := by
  have hsame : ∀ j, (s.peer j).conns = (peer j).conns ∧ (s.peer j).weight = (peer j).weight := by
    intro j
    rw [h.peer_eq j]
    split_ifs <;> exact ⟨rfl, rfl⟩
  rw [crossConns, crossConns, (hsame i).1, (hsame b).2]

/-- One turn of the second loop at a new index. -/
theorem TieSpec.turn {l : List ℕ} {A : Finset ℕ} {s : RrScan} {a : ℕ}
    (h : TieSpec skip peer P l A s) (ha : a ∉ l)
    (hP : ∀ b, P b → skip a (peer a) = false → crossConns peer a b = crossConns peer b a → P a) :
    ∃ A', TieSpec skip peer P (l ++ [a]) A' (s.turnTie skip a) := by
  obtain ⟨b, hbest, hPb⟩ := h.best
  have haA : a ∉ A := fun hc => ha (h.sub a hc).1
  have hpa : s.peer a = peer a := by
    rw [h.peer_eq a, if_neg haA]
  have hgrow : ∀ i ∈ A, i ∈ l ++ [a] ∧ skip i (peer i) = false :=
    fun i hi => ⟨mem_append_left _ (h.sub i hi).1, (h.sub i hi).2⟩
  by_cases hc : (skip a (s.peer a) || crossConns s.peer a b != crossConns s.peer b a) = true
  · refine ⟨A, ?_⟩
    have hturn : s.turnTie skip a = s := by
      simp only [RrScan.turnTie, hbest]
      rw [if_pos hc]
    rw [hturn]
    exact ⟨hgrow, h.peer_eq, h.total_eq, h.best⟩
  · have hturn : s.turnTie skip a = s.visit RrPeer.bump a := by
      simp only [RrScan.turnTie, hbest]
      rw [if_neg hc]
    rw [hturn]
    rw [Bool.not_eq_true, Bool.or_eq_false_iff, bne_eq_false_iff_eq, h.cross, h.cross, hpa] at hc
    refine ⟨insert a A, ?_, ?_, ?_, ?_⟩
    · intro i hi
      rcases Finset.mem_insert.mp hi with rfl | hi
      · exact ⟨by simp, hc.1⟩
      · exact hgrow i hi
    · intro i
      by_cases hia : i = a
      · subst hia
        simp [RrScan.visit, hpa]
      · simp [RrScan.visit, hia, h.peer_eq i]
    · rw [Finset.sum_insert haA, ← h.total_eq]
      simp only [RrScan.visit, hpa]
      ring
    · simp only [RrScan.visit, hbest]
      split_ifs
      · exact ⟨a, rfl, hP b hPb hc.1 hc.2⟩
      · exact ⟨b, rfl, hPb⟩

/-- **The second loop.** -/
theorem lcTies_spec (skip : ℕ → RrPeer → Bool) (peer : ℕ → RrPeer) {p : ℕ} (hp : P p) {l : List ℕ}
    (hnd : l.Nodup)
    (hP : ∀ a ∈ l, ∀ b, P b → skip a (peer a) = false → crossConns peer a b = crossConns peer b a →
      P a) :
    ∃ A, TieSpec skip peer P l A (lcTies skip peer p l) := by
  induction l using List.reverseRecOn with
  | nil => exact ⟨∅, by simp, by simp [lcTies], by simp [lcTies], p, rfl, hp⟩
  | append_singleton l a ih =>
    have hnd' := nodup_append.mp hnd
    have ha : a ∉ l := fun hal => (hnd'.2.2 a hal a (by simp)) rfl
    have hscan : lcTies skip peer p (l ++ [a]) = (lcTies skip peer p l).turnTie skip a := by
      simp [lcTies]
    rw [hscan]
    obtain ⟨A, hA⟩ := ih hnd'.1 fun a ha => hP a (mem_append_left _ ha)
    exact hA.turn ha (hP a (by simp))

/-! ### Ratios -/

/-- Connections relative to weight. -/
def RrPeer.ratio (p : RrPeer) : ℚ :=
  (p.conns : ℚ) / (p.weight : ℚ)

/-- No product of the comparison of two eligible peers of `l` wraps. -/
def CrossFits (skip : ℕ → RrPeer → Bool) (peer : ℕ → RrPeer) (l : List ℕ) : Prop :=
  ∀ i ∈ l, ∀ j ∈ l, skip i (peer i) = false → skip j (peer j) = false →
    ((peer i).conns : ℤ) * (peer j).weight < 2 ^ 64

/-- The weights of the peers of `l` are positive. -/
def WeightsPos (peer : ℕ → RrPeer) (l : List ℕ) : Prop :=
  ∀ i ∈ l, 0 < (peer i).weight

section Cross

variable {skip : ℕ → RrPeer → Bool} {peer : ℕ → RrPeer} {l : List ℕ} {i j : ℕ}
  (hpos : WeightsPos peer l) (hfit : CrossFits skip peer l) (hi : i ∈ l) (hj : j ∈ l)
  (hsi : skip i (peer i) = false) (hsj : skip j (peer j) = false)

include hpos hfit hi hj hsi hsj

theorem crossConns_eq : crossConns peer i j = (peer i).conns * (peer j).weight := by
  rw [crossConns, uintMul]
  exact Int.emod_eq_of_lt (mul_nonneg (by omega) (hpos j hj).le) (hfit i hi j hj hsi hsj)

/-- Cross products compare as the quotients do. -/
theorem crossConns_lt_iff :
    crossConns peer i j < crossConns peer j i ↔ (peer i).ratio < (peer j).ratio := by
  rw [crossConns_eq hpos hfit hi hj hsi hsj, crossConns_eq hpos hfit hj hi hsj hsi]
  have hwi : (0 : ℚ) < (peer i).weight := by exact_mod_cast hpos i hi
  have hwj : (0 : ℚ) < (peer j).weight := by exact_mod_cast hpos j hj
  rw [RrPeer.ratio, RrPeer.ratio, div_lt_div_iff₀ hwi hwj]
  exact_mod_cast Iff.rfl

/-- Likewise where they are equal. -/
theorem crossConns_eq_iff :
    crossConns peer i j = crossConns peer j i ↔ (peer i).ratio = (peer j).ratio := by
  rw [crossConns_eq hpos hfit hi hj hsi hsj, crossConns_eq hpos hfit hj hi hsj hsi]
  have hwi : (0 : ℚ) < (peer i).weight := by exact_mod_cast hpos i hi
  have hwj : (0 : ℚ) < (peer j).weight := by exact_mod_cast hpos j hj
  rw [RrPeer.ratio, RrPeer.ratio, div_eq_div_iff hwi.ne' hwj.ne']
  exact_mod_cast Iff.rfl

end Cross

/-! ### The first loop -/

/-- What the first loop over `l` leaves, among the peers of `m`: the best one is eligible
and, if no product over `m` wraps, of least ratio. -/
structure LcSpec (skip : ℕ → RrPeer → Bool) (peer : ℕ → RrPeer) (m l : List ℕ) (s : LcScan) :
    Prop where
  best_none : s.best = none → ∀ i ∈ l, skip i (peer i) = true
  best_some : ∀ b, s.best = some b → b ∈ l ∧ skip b (peer b) = false ∧
    (WeightsPos peer m → CrossFits skip peer m → ∀ i ∈ l, skip i (peer i) = false →
      (peer b).ratio ≤ (peer i).ratio)

/-- One turn of the first loop. -/
theorem LcSpec.turn {m l : List ℕ} {s : LcScan} {a : ℕ} (h : LcSpec skip peer m l s)
    (hl : ∀ i ∈ l ++ [a], i ∈ m) : LcSpec skip peer m (l ++ [a]) (s.turn skip peer a) := by
  have hmem : ∀ i, i ∈ l ++ [a] ↔ i ∈ l ∨ i = a := by
    intro i
    simp
  have ham : a ∈ m := hl a (by simp)
  cases hskip : skip a (peer a) with
  | true =>
    have hturn : s.turn skip peer a = s := by
      simp [LcScan.turn, hskip]
    rw [hturn]
    refine ⟨?_, ?_⟩
    · intro hb i hi
      rcases (hmem i).mp hi with hi | rfl
      · exact h.best_none hb i hi
      · exact hskip
    · intro b hb
      obtain ⟨hbl, hbs, hmin⟩ := h.best_some b hb
      refine ⟨(hmem b).mpr (Or.inl hbl), hbs, ?_⟩
      intro hpos hfit i hi his
      rcases (hmem i).mp hi with hi | rfl
      · exact hmin hpos hfit i hi his
      · simp [hskip] at his
  | false =>
    cases hbest : s.best with
    | none =>
      have hturn : s.turn skip peer a = { best := some a, many := false } := by
        simp [LcScan.turn, hskip, hbest]
      rw [hturn]
      refine ⟨by simp, ?_⟩
      intro b hb
      obtain rfl := Option.some.inj hb
      refine ⟨by simp, hskip, ?_⟩
      intro hpos hfit i hi his
      rcases (hmem i).mp hi with hi | rfl
      · simp [h.best_none hbest i hi] at his
      · exact le_refl _
    | some c =>
      obtain ⟨hcl, hcs, hmin⟩ := h.best_some c hbest
      have hcm : c ∈ m := hl c ((hmem c).mpr (Or.inl hcl))
      by_cases hlt : crossConns peer a c < crossConns peer c a
      · have hturn : s.turn skip peer a = { best := some a, many := false } := by
          simp [LcScan.turn, hskip, hbest, hlt]
        rw [hturn]
        refine ⟨by simp, ?_⟩
        intro b hb
        obtain rfl := Option.some.inj hb
        refine ⟨by simp, hskip, ?_⟩
        intro hpos hfit i hi his
        rcases (hmem i).mp hi with hi | rfl
        · have hratio := (crossConns_lt_iff hpos hfit ham hcm hskip hcs).mp hlt
          exact hratio.le.trans (hmin hpos hfit i hi his)
        · exact le_refl _
      · have hturn : (s.turn skip peer a).best = some c := by
          simp only [LcScan.turn, hskip, hbest, if_neg hlt]
          split_ifs <;> simp_all
        refine ⟨by simp [hturn], ?_⟩
        intro b hb
        rw [hturn, Option.some.injEq] at hb
        subst hb
        refine ⟨(hmem c).mpr (Or.inl hcl), hcs, ?_⟩
        intro hpos hfit i hi his
        rcases (hmem i).mp hi with hi | rfl
        · exact hmin hpos hfit i hi his
        · rw [crossConns_lt_iff hpos hfit ham hcm hskip hcs] at hlt
          exact not_lt.mp hlt

/-- **The first loop.** -/
theorem lcScan_spec (skip : ℕ → RrPeer → Bool) (peer : ℕ → RrPeer) {m l : List ℕ}
    (hl : ∀ i ∈ l, i ∈ m) : LcSpec skip peer m l (lcScan skip peer l) := by
  induction l using List.reverseRecOn with
  | nil => exact ⟨by simp, by simp [lcScan]⟩
  | append_singleton l a ih =>
    have hscan : lcScan skip peer (l ++ [a]) = (lcScan skip peer l).turn skip peer a := by
      simp [lcScan]
    rw [hscan]
    exact (ih fun i hi => hl i (mem_append_left _ hi)).turn hl

/-! ### Picking -/

/-- The peer is not to be skipped and, unless a product of the comparisons wraps, has the
least ratio among the peers that are not to be skipped. -/
def LeastEligible (env : RrEnv) (ps : RrPeers) (tried : List Word) (i : ℕ) : Prop :=
  Eligible env ps tried i ∧
    (WeightsPos ps.peer (List.range ps.number) →
      CrossFits (peerSkip env tried) ps.peer (List.range ps.number) →
      ∀ j < ps.number, Eligible env ps tried j → (ps.peer i).ratio ≤ (ps.peer j).ratio)

/-- What least connections does in a group that is not a single peer. -/
theorem lcPick_cases (env : RrEnv) (hs : (s.up.peers s.rrp.group).single = false) :
    (∃ p ps A, lcPick env s = (true, s.grant ps p) ∧
      SwrrPick (s.up.peers s.rrp.group) ps A p env.now ∧
      LeastEligible env (s.up.peers s.rrp.group) s.rrp.tried p) ∨
    (lcPick env s = (false, s) ∧ ∀ i < (s.up.peers s.rrp.group).number,
      peerSkip env s.rrp.tried i ((s.up.peers s.rrp.group).peer i) = true) := by
  set ps := s.up.peers s.rrp.group with hps
  set skip := peerSkip env s.rrp.tried with hskip
  have hfirst := lcScan_spec skip ps.peer (m := List.range ps.number) (l := List.range ps.number)
    fun i hi => hi
  cases hbest : (lcScan skip ps.peer (List.range ps.number)).best with
  | none =>
    refine Or.inr ⟨?_, fun i hi => hfirst.best_none hbest i (mem_range.mpr hi)⟩
    simp only [lcPick, ← hps, ← hskip, hs, hbest]
    simp
  | some p =>
    obtain ⟨hpl, hpskip, hmin⟩ := hfirst.best_some p hbest
    -- the bests of the second loop stay eligible and, without wraps, of the same ratio
    let P : ℕ → Prop := fun b => b ∈ List.range ps.number ∧ skip b (ps.peer b) = false ∧
      (WeightsPos ps.peer (List.range ps.number) →
        CrossFits skip ps.peer (List.range ps.number) → (ps.peer b).ratio = (ps.peer p).ratio)
    have hPp : P p := ⟨hpl, hpskip, fun _ _ => rfl⟩
    have hties : ∃ A, TieSpec skip ps.peer P (List.range ps.number) A
        (if (lcScan skip ps.peer (List.range ps.number)).many
          then lcTies skip ps.peer p ((List.range ps.number).drop p)
          else { peer := ps.peer, total := 0, best := some p }) := by
      split_ifs
      · obtain ⟨A, hA⟩ := lcTies_spec skip ps.peer hPp
          (nodup_range.sublist (drop_sublist p (List.range ps.number))) (by
            rintro a ha b ⟨hbl, hbs, hbr⟩ has htie
            have hal : a ∈ List.range ps.number := mem_of_mem_drop ha
            refine ⟨hal, has, fun hpos hfit => ?_⟩
            rw [← hbr hpos hfit]
            exact (crossConns_eq_iff hpos hfit hal hbl has hbs).mp htie)
        exact ⟨A, fun i hi => ⟨mem_of_mem_drop (hA.sub i hi).1, (hA.sub i hi).2⟩,
          hA.peer_eq, hA.total_eq, hA.best⟩
      · exact ⟨∅, by simp, by simp, by simp, p, rfl, hPp⟩
    obtain ⟨A, hA⟩ := hties
    set ties := if (lcScan skip ps.peer (List.range ps.number)).many
      then lcTies skip ps.peer p ((List.range ps.number).drop p)
      else { peer := ps.peer, total := 0, best := some p } with hdef
    obtain ⟨b, hb, hbl, hbs, hbr⟩ := hA.best
    refine Or.inl ⟨b, { ps with
      peer := update ties.peer b ((ties.peer b).win ties.total env.now) }, A, ?_,
      ⟨mem_range.mp hbl, ?_, rfl, ?_⟩, hbs, ?_⟩
    · simp only [lcPick, ← hps, ← hskip, hs, hbest, ← hdef, hb, Option.getD_some]
      simp
    · exact fun i hi => mem_range.mp (hA.sub i hi).1
    · intro i
      by_cases hib : i = b
      · subst hib
        simp [hA.peer_eq i, hA.total_eq]
      · simp only [update_of_ne hib, hA.peer_eq i, if_neg hib]
    · intro hpos hfit i hi his
      rw [hbr hpos hfit]
      exact hmin hpos hfit i (mem_range.mpr hi) his

/-- **The choice is eligible**, and there is one if any peer is. -/
theorem lcPick_select (hs : (s.up.peers s.rrp.group).single = false) :
    PickSelect (LeastEligible env) s (lcPick env s) ∧
      PickComplete env s (lcPick env s) := by
  rcases lcPick_cases env hs with ⟨p, ps, A, hres, hpick, hp⟩ | ⟨hres, hskip⟩
  · rw [hres]
    exact ⟨grant_select hpick hp, by simp [PickComplete]⟩
  · rw [hres]
    exact ⟨⟨rfl, fun _ _ => rfl, rfl, fun _ => rfl, by simp⟩, fun _ => hskip⟩

/-- **Selection** of the least-connections `get`. -/
theorem upstreamGetLeastConnPeer_select {up : Upstream} (env : RrEnv) (hup : FreshUpstream up)
    (hconf : s.up.conf = up.conf) (hs : (up.peers .primary).single = false) :
    GetSelect (LeastEligible env) s (upstreamGetLeastConnPeer env s) := by
  rw [upstreamGetLeastConnPeer, if_neg (by rw [hup.not_single hs hconf]; simp)]
  exact getWithBackup_select fun _ ht => (lcPick_select (hup.not_single hs (ht.trans hconf) _)).1

end Hengine
