import Hengine.Http.LimitReq

/-!
# The Leaky Bucket of a Key

What the excess of one node has to do with the requests it was charged for, over every run of
requests of one zone in which no clock goes back. A request charges its node in the lookup itself
when the limit is the last of its location; otherwise the lookup keeps the node and the charge
comes after the other limits have been asked, or never when one of them refuses.

Each charge adds a thousand and takes off what has leaked since the last one, rounded down and not
below zero. So what was charged is what is left plus what leaked, and what leaked is at most what
the rate allows in the time between the first charge and the last.
-/

namespace Hengine.LimitReq

open List Option

/-- How a request meets the limit of this zone. -/
inductive Kind
  /-- It is the last limit of the location: the lookup charges. -/
  | last
  /-- Other limits follow, and all let the request pass: the kept node is charged. -/
  | passed
  /-- Other limits follow, and one refuses: the kept node is given back. -/
  | refused
  deriving DecidableEq

/-- A request as the limit of this zone sees it; `alloc` is what the slab allocator returns. -/
structure Request where
  key : List UInt8
  now : UInt64
  kind : Kind
  alloc : Option ℕ × Option ℕ

namespace Zone

/-- What becomes of a request after its lookup: whether it is charged, and the zone after it. -/
def settle (rate : UInt64) (q : Request) (l : Lookup) : Bool × Zone :=
  match l.node with
  | none => (l.rc == .ok, l.zone)
  | some addr =>
    match q.kind with
    | .refused => (false, l.zone.unlock addr)
    | _ => (true, l.zone.account rate q.now addr)

/-- One request served from its lookup to its charge. -/
def serve (rate burst : UInt64) (z : Zone) (q : Request) : Bool × Zone :=
  settle rate q (z.lookup rate burst q.now q.key (q.kind == .last) q.alloc)

/-- **One life of the node of a key**: from a request that makes it, through requests for this key
and for others at times that do not go back, as long as the key has a node. The list are the times
at which requests for the key were charged, oldest first, and the number is the last time. -/
inductive Life (rate burst : UInt64) (key : List UInt8) : List UInt64 → UInt64 → Zone → Prop
  | born {z : Zone} {q : Request} : z.Ok → z.find key = none → z.Fresh rate q.now q.alloc →
      q.key = key → (z.serve rate burst q).2.find key ≠ none →
      Life rate burst key (if (z.serve rate burst q).1 then [q.now] else []) q.now
        (z.serve rate burst q).2
  | serve {ts : List UInt64} {now : UInt64} {z : Zone} {q : Request} :
      Life rate burst key ts now z → now ≤ q.now → z.Fresh rate q.now q.alloc →
      (z.serve rate burst q).2.find key ≠ none →
      Life rate burst key
        (if q.key = key ∧ (z.serve rate burst q).1 = true then ts ++ [q.now] else ts) q.now
        (z.serve rate burst q).2

end Zone

/-! ### What one request does to the node of a key -/

namespace Zone

variable {z : Zone} {lr lr' : Node} {key : List UInt8} {rate burst : UInt64} {q : Request}

/-- Settling a lookup keeps the zone in order. -/
theorem settle_ok {l : Lookup} (h : l.zone.Ok) : (settle rate q l).2.Ok := by
  rw [settle]
  cases l.node with
  | none => exact h
  | some addr =>
    cases q.kind with
    | last => exact h.account addr
    | passed => exact h.account addr
    | refused => exact h.unlock addr

theorem Ok.serve (hz : z.Ok) (hfresh : z.Fresh rate q.now q.alloc) :
    (z.serve rate burst q).2.Ok :=
  settle_ok (hz.lookup burst q.key (q.kind == .last) hfresh)

/-- A kept node of the request's key is charged, or given back as it was; the other keys keep their
nodes. -/
theorem settle_kept {z' : Zone} (hz : z'.Ok) (rate excess : UInt64)
    (hfind : z'.find q.key = some lr) :
    let r := settle rate q ⟨.again, excess, some lr.addr, z'⟩
    (r.1 = true ∧ r.2.find q.key = some (lr.charged rate q.now).released ∨
        r.1 = false ∧ r.2.find q.key = some lr.released) ∧
      ∀ key, q.key ≠ key → r.2.find key = z'.find key := by
  have hmem := mem_of_find hfind
  have hkey : lr.key = q.key := key_of_find hfind
  simp only [settle]
  cases q.kind with
  | last =>
    refine ⟨Or.inl ⟨rfl, find_update_self (fun _ => rfl) hfind⟩, fun key hne => ?_⟩
    exact hz.find_update_ne (fun _ => rfl) hmem (hkey ▸ hne)
  | passed =>
    refine ⟨Or.inl ⟨rfl, find_update_self (fun _ => rfl) hfind⟩, fun key hne => ?_⟩
    exact hz.find_update_ne (fun _ => rfl) hmem (hkey ▸ hne)
  | refused =>
    refine ⟨Or.inr ⟨rfl, find_update_self (fun _ => rfl) hfind⟩, fun key hne => ?_⟩
    exact hz.find_update_ne (fun _ => rfl) hmem (hkey ▸ hne)

/-- **A request for a known key** is charged within the burst, or leaves the excess and the time of
the node as they were. -/
theorem Ok.serve_known (hz : z.Ok) (burst : UInt64) (hfresh : z.Fresh rate q.now q.alloc)
    (hfind : z.find q.key = some lr) :
    ∃ lr', (z.serve rate burst q).2.find q.key = some lr' ∧
      ((z.serve rate burst q).1 = true ∧ lr.excessAt rate q.now ≤ burst ∧
          lr'.excess = lr.excessAt rate q.now ∧
          lr'.last = (if elapsed q.now lr.last = 0 then lr.last else q.now) ∨
        (z.serve rate burst q).1 = false ∧ lr'.excess = lr.excess ∧ lr'.last = lr.last) := by
  have hmem := mem_of_find hfind
  have hkey : lr.key = q.key := key_of_find hfind
  rcases lookup_cases burst q.key (q.kind == .last) hfresh with
    ⟨other, hother, hcase⟩ | ⟨hnone, -⟩
  · obtain rfl : lr = other := Option.some.inj (hfind.symm.trans hother)
    rcases hcase with ⟨-, h⟩ | ⟨hle, -, h⟩ | ⟨hle, -, h⟩
    · refine ⟨lr, ?_, Or.inr ⟨?_, rfl, rfl⟩⟩
      · rw [Zone.serve, h]
        exact (hz.find_bump hmem _ rfl rfl q.key).trans (if_pos hkey)
      · rw [Zone.serve, h]
        rfl
    · refine ⟨lr.charged rate q.now, ?_, Or.inl ⟨?_, hle, Node.excess_charged, Node.last_charged⟩⟩
      · rw [Zone.serve, h]
        exact (hz.find_bump hmem (lr.charged rate q.now) rfl rfl q.key).trans (if_pos hkey)
      · rw [Zone.serve, h]
        rfl
    · rw [Zone.serve, h]
      have hbump : (z.bump lr.kept).find q.key = some lr.kept :=
        (hz.find_bump hmem lr.kept rfl rfl q.key).trans (if_pos hkey)
      obtain ⟨hcase | hcase, -⟩ :=
        settle_kept (hz.bump hmem lr.kept rfl rfl) rate (lr.excessAt rate q.now) hbump
      · exact ⟨_, hcase.2, Or.inl ⟨hcase.1, hle, by simp, rfl⟩⟩
      · exact ⟨_, hcase.2, Or.inr ⟨hcase.1, rfl, rfl⟩⟩
  · rw [hfind] at hnone
    cases hnone

/-- **A request for an unknown key** whose node is made: it starts with no excess at the time of the
request, or at the time zero and is then charged or not. -/
theorem Ok.serve_unknown (hz : z.Ok) (hfresh : z.Fresh rate q.now q.alloc)
    (hfind : z.find q.key = none) (hlr : (z.serve rate burst q).2.find q.key = some lr) :
    (z.serve rate burst q).1 = true ∧ lr.excess = 0 ∧ lr.last = q.now ∨
      (z.serve rate burst q).1 = true ∧ lr.excess = charge rate 0 (elapsed q.now 0) ∧
        lr.last = (if elapsed q.now 0 = 0 then 0 else q.now) ∨
      (z.serve rate burst q).1 = false ∧ lr.excess = 0 ∧ lr.last = 0 := by
  rcases lookup_cases burst q.key (q.kind == .last) hfresh with
    ⟨other, hother, -⟩ | ⟨-, z', hshrunk, hcase⟩
  · rw [hfind] at hother
    cases hother
  have hnone := hshrunk.find_none hfind
  rcases hcase with ⟨addr, haddr, h⟩ | h
  · have hok := (hz.shrunk hshrunk).insert q.now (q.kind == .last) hnone haddr
    rw [Zone.serve, h] at hlr ⊢
    rw [Zone.insert] at hlr hok ⊢
    by_cases hlast : (q.kind == .last) = true
    · rw [if_pos hlast] at hlr ⊢
      refine Or.inl ⟨rfl, ?_⟩
      have hnew : lr = ⟨addr, q.key, q.now, 0, 0⟩ := by
        have hhead := find_cons ⟨addr, q.key, q.now, 0, 0⟩ z' q.key
        rw [if_pos rfl] at hhead
        exact Option.some.inj (hlr.symm.trans hhead)
      rw [hnew]
      exact ⟨rfl, rfl⟩
    · rw [if_neg hlast] at hlr hok ⊢
      have hhead := find_cons ⟨addr, q.key, 0, 0, 1⟩ z' q.key
      rw [if_pos rfl] at hhead
      obtain ⟨hcase | hcase, -⟩ := settle_kept hok rate 0 hhead
      · have hnew := Option.some.inj (hlr.symm.trans hcase.2)
        rw [hnew]
        refine Or.inr (Or.inl ⟨hcase.1, ?_, by simp⟩)
        rw [Node.excess_released, Node.excess_charged, Node.excessAt]
      · have hnew := Option.some.inj (hlr.symm.trans hcase.2)
        rw [hnew]
        exact Or.inr (Or.inr ⟨hcase.1, rfl, rfl⟩)
  · rw [Zone.serve, h] at hlr
    exact absurd (hnone.symm.trans hlr) (by simp)

/-- **A request for another key** leaves the node of a key as it was, or frees it. -/
theorem Ok.serve_other (hz : z.Ok) (hfresh : z.Fresh rate q.now q.alloc) (hne : q.key ≠ key)
    (hlr : (z.serve rate burst q).2.find key = some lr) : z.find key = some lr := by
  rcases lookup_cases burst q.key (q.kind == .last) hfresh with
    ⟨other, hother, hcase⟩ | ⟨hnone, z', hshrunk, hcase⟩
  · have hmem := mem_of_find hother
    have hkey : other.key = q.key := key_of_find hother
    have hne' : other.key ≠ key := hkey ▸ hne
    rcases hcase with ⟨-, h⟩ | ⟨-, -, h⟩ | ⟨-, -, h⟩
    · rw [Zone.serve, h] at hlr
      exact ((hz.find_bump hmem other rfl rfl key).trans (if_neg hne')).symm.trans hlr
    · rw [Zone.serve, h] at hlr
      exact ((hz.find_bump hmem (other.charged rate q.now) rfl rfl key).trans
        (if_neg hne')).symm.trans hlr
    · rw [Zone.serve, h] at hlr
      have hbump : (z.bump other.kept).find q.key = some other.kept :=
        (hz.find_bump hmem other.kept rfl rfl q.key).trans (if_pos hkey)
      obtain ⟨-, hrest⟩ := settle_kept (hz.bump hmem other.kept rfl rfl) rate
        (other.excessAt rate q.now) hbump
      rw [Node.addr_kept] at hrest
      rw [hrest key hne] at hlr
      exact ((hz.find_bump hmem other.kept rfl rfl key).trans (if_neg hne')).symm.trans hlr
  · rcases hcase with ⟨addr, haddr, h⟩ | h
    · have hfind' := hshrunk.find_none hnone
      have hok := (hz.shrunk hshrunk).insert q.now (q.kind == .last) hfind' haddr
      rw [Zone.serve, h] at hlr
      rw [Zone.insert] at hlr hok
      refine hshrunk.find ?_
      by_cases hlast : (q.kind == .last) = true
      · rw [if_pos hlast] at hlr
        have hhead := find_cons ⟨addr, q.key, q.now, 0, 0⟩ z' key
        exact (hhead.trans (if_neg hne)).symm.trans hlr
      · rw [if_neg hlast] at hlr hok
        have hself := find_cons ⟨addr, q.key, 0, 0, 1⟩ z' q.key
        rw [if_pos rfl] at hself
        obtain ⟨-, hrest⟩ := settle_kept hok rate 0 hself
        rw [hrest key hne] at hlr
        have hhead := find_cons ⟨addr, q.key, 0, 0, 1⟩ z' key
        exact (hhead.trans (if_neg hne)).symm.trans hlr
    · rw [Zone.serve, h] at hlr
      exact hshrunk.find hlr

theorem Life.find_ne {ts : List UInt64} {now : UInt64} (h : Life rate burst key ts now z) :
    z.find key ≠ none := by
  cases h with
  | born _ _ _ _ hlive => exact hlive
  | serve _ _ _ hlive => exact hlive

end Zone

/-! ### What was charged and what leaked -/

/-- The state of a node that was charged at the times `ts`. What was charged after the first time is
what is left plus what leaked; and together with what may leak later it fits the rate. -/
structure Bucket (rate burst : UInt64) (ts : List UInt64) (lr : Node) : Prop where
  fresh : ts = [] → lr.excess = 0 ∧ lr.last = 0
  bound : lr.excess ≤ burst ∨
    ∃ t, ts = [t] ∧ lr.excess.toNat + (leak rate (elapsed t 0)).toNat = 1000
  leaked : ∀ t₁ ∈ ts.head?, ∀ tn ∈ ts.getLast?, t₁ ≤ tn ∧
    ∃ total, 1000 * (ts.length - 1) ≤ lr.excess.toNat + total ∧
      ∀ t, tn ≤ t → 1000 * total + rate.toNat * (elapsed t lr.last).toNat ≤
        rate.toNat * (t.toNat - t₁.toNat)

variable {rate burst now : UInt64} {ts : List UInt64} {lr lr' : Node}

/-- Only the excess and the time of a node matter. -/
theorem Bucket.congr (h : Bucket rate burst ts lr) (hexcess : lr'.excess = lr.excess)
    (hlast : lr'.last = lr.last) : Bucket rate burst ts lr' where
  fresh hnil := by rw [hexcess, hlast]; exact h.fresh hnil
  bound := by rw [hexcess]; exact h.bound
  leaked := by rw [hexcess, hlast]; exact h.leaked

theorem Bucket.small (h : Bucket rate burst ts lr) (hburst : burst.toNat + 1000 < 2 ^ 63) :
    lr.excess.toNat + 1000 < 2 ^ 63 := by
  rcases h.bound with hle | ⟨t, -, hle⟩
  · have := UInt64.le_iff_toNat_le.mp hle
    omega
  · omega

/-- A node that was never charged has the time zero; a clock that has counted nothing since then
counts no more than passes from now on. -/
theorem elapsed_zero {t t' : UInt64} (hzero : elapsed t 0 = 0) (h : t ≤ t') :
    (elapsed t' 0).toNat ≤ t'.toNat - t.toNat := by
  have hsub : ∀ x : UInt64, x - 0 = x := fun x => UInt64.sub_zero x
  have hle := UInt64.le_iff_toNat_le.mp h
  have hsix : (-60000 : UInt64).toNat = 2 ^ 64 - 60000 := rfl
  simp only [elapsed, hsub] at hzero ⊢
  by_cases hneg : negative t = true
  · have hneg' : negative t' = true := by
      rw [negative_iff] at hneg ⊢
      omega
    have hlast : ¬ t < -60000 := by
      intro hlt
      simp [hneg, hlt] at hzero
    have hlast' : ¬ t' < -60000 := by
      rw [UInt64.lt_iff_toNat_lt] at hlast ⊢
      omega
    simp [hneg', hlast']
  · have hpos : t = 0 := by simpa [hneg] using hzero
    subst hpos
    have hpassed : (elapsed t' 0).toNat ≤ t'.toNat - (0 : UInt64).toNat := elapsed_le h
    simpa [elapsed, hsub] using hpassed

theorem elapsed_first {t t' : UInt64} (h : t ≤ t') :
    (elapsed t' (if elapsed t 0 = 0 then 0 else t)).toNat ≤ t'.toNat - t.toNat := by
  by_cases hzero : elapsed t 0 = 0
  · rw [if_pos hzero]
    exact elapsed_zero hzero h
  · rw [if_neg hzero]
    exact elapsed_le h

/-- A charge at the time `t` on an account whose `total` leaked before: what leaks now is added, and
nothing more leaks later than the rate allows from then on. -/
theorem leaked_charge {t t₁ last : UInt64} {total : ℕ} (h₁ : t₁ ≤ t)
    (htotal : 1000 * total + rate.toNat * (elapsed t last).toNat ≤
      rate.toNat * (t.toNat - t₁.toNat))
    (hlast : ∀ t', t ≤ t' → 1000 * total + rate.toNat * (elapsed t' last).toNat ≤
      rate.toNat * (t'.toNat - t₁.toNat)) {t' : UInt64} (h : t ≤ t') :
    1000 * (total + (leak rate (elapsed t last)).toNat) +
        rate.toNat * (elapsed t' (if elapsed t last = 0 then last else t)).toNat ≤
      rate.toNat * (t'.toNat - t₁.toNat) := by
  have hleak := leak_le rate (elapsed t last)
  by_cases hzero : elapsed t last = 0
  · have hnone : (elapsed t last).toNat = 0 := by rw [hzero]; rfl
    rw [hnone] at hleak
    rw [if_pos hzero]
    have := hlast t' h
    omega
  · rw [if_neg hzero]
    have hle := UInt64.le_iff_toNat_le.mp h
    have hle₁ := UInt64.le_iff_toNat_le.mp h₁
    have hnext := Nat.mul_le_mul_left rate.toNat (elapsed_le h)
    have hsum : rate.toNat * (t.toNat - t₁.toNat) + rate.toNat * (t'.toNat - t.toNat) =
        rate.toNat * (t'.toNat - t₁.toNat) := by
      rw [← Nat.mul_add]
      congr 1
      omega
    omega

/-- A node that no request has used is empty. -/
theorem Bucket.unused (hexcess : lr.excess = 0) (hlast : lr.last = 0) : Bucket rate burst [] lr where
  fresh _ := ⟨hexcess, hlast⟩
  bound := Or.inl (by rw [hexcess]; exact UInt64.zero_le)
  leaked := by
    intro t₁ h₁
    cases h₁

/-- A node is new with its first request. -/
theorem Bucket.first {t : UInt64} (hexcess : lr.excess = 0) (hlast : lr.last = t) :
    Bucket rate burst [t] lr where
  fresh h := by cases h
  bound := Or.inl (by rw [hexcess]; exact UInt64.zero_le)
  leaked := by
    intro t₁ h₁ tn hn
    cases h₁
    cases hn
    refine ⟨UInt64.le_refl t, 0, by simp, fun t' h => ?_⟩
    rw [hlast, Nat.mul_zero, Nat.zero_add]
    exact Nat.mul_le_mul_left _ (elapsed_le h)

/-- A node made by the request it is charged for, after the other limits. -/
theorem Bucket.first_kept {t : UInt64} (hexcess : lr.excess = charge rate 0 (elapsed t 0))
    (hlast : lr.last = if elapsed t 0 = 0 then 0 else t) : Bucket rate burst [t] lr where
  fresh h := by cases h
  bound := by
    have hsmall : (0 : UInt64).toNat + 1000 < 2 ^ 63 := by decide
    have hval := charge_toNat rate (elapsed t 0) hsmall
    rw [← hexcess] at hval
    have hzero : (0 : UInt64).toNat = 0 := rfl
    by_cases hle : (leak rate (elapsed t 0)).toNat ≤ 1000
    · exact Or.inr ⟨t, rfl, by omega⟩
    · refine Or.inl (UInt64.le_iff_toNat_le.mpr ?_)
      omega
  leaked := by
    intro t₁ h₁ tn hn
    cases h₁
    cases hn
    refine ⟨UInt64.le_refl t, 0, by simp, fun t' h => ?_⟩
    rw [hlast, Nat.mul_zero, Nat.zero_add]
    exact Nat.mul_le_mul_left _ (elapsed_first h)

/-- **One more charge.** -/
theorem Bucket.charged {t : UInt64} (h : Bucket rate burst ts lr)
    (hburst : burst.toNat + 1000 < 2 ^ 63) (ht : ∀ tn ∈ ts.getLast?, tn ≤ t)
    (hle : lr.excessAt rate t ≤ burst) (hexcess : lr'.excess = lr.excessAt rate t)
    (hlast : lr'.last = if elapsed t lr.last = 0 then lr.last else t) :
    Bucket rate burst (ts ++ [t]) lr' where
  fresh hnil := absurd hnil (by simp)
  bound := Or.inl (by rw [hexcess]; exact hle)
  leaked := by
    intro t₁ h₁ tn hn
    have htn : tn = t := by simpa using hn.symm
    subst htn
    have hval := charge_toNat rate (elapsed tn lr.last) (h.small hburst)
    have hstored : lr'.excess.toNat =
        lr.excess.toNat + 1000 - (leak rate (elapsed tn lr.last)).toNat := by
      rw [hexcess]
      exact hval
    rcases eq_nil_or_concat' ts with rfl | ⟨ts', tm, rfl⟩
    · obtain ⟨-, hzero⟩ := h.fresh rfl
      have hone : t₁ = tn := by simpa using h₁.symm
      subst hone
      rw [hzero] at hlast
      refine ⟨UInt64.le_refl t₁, 0, by simp, fun t' h => ?_⟩
      rw [hlast, Nat.mul_zero, Nat.zero_add]
      exact Nat.mul_le_mul_left _ (elapsed_first h)
    · have hhead : (ts' ++ [tm]).head? = some t₁ := by
        have hassoc : (ts' ++ [tm] ++ [tn]).head? = (ts' ++ [tm]).head? := by
          cases ts' <;> rfl
        rw [← hassoc]
        exact h₁
      have hlastm : (ts' ++ [tm]).getLast? = some tm := by simp
      obtain ⟨hfirst, total, hsum, htotal⟩ := h.leaked t₁ hhead tm hlastm
      have htm := ht tm hlastm
      have hle₁ := UInt64.le_trans hfirst htm
      refine ⟨hle₁, total + (leak rate (elapsed tn lr.last)).toNat, ?_, fun t' h' => ?_⟩
      · simp only [length_append, length_singleton] at hsum ⊢
        omega
      · rw [hlast]
        exact leaked_charge hle₁ (htotal tn htm) (fun t' h => htotal t' (UInt64.le_trans htm h)) h'

/-! ### The bound over a life -/

/-- What holds at every moment of the life of a node. -/
structure Alive (rate burst : UInt64) (key : List UInt8) (ts : List UInt64) (now : UInt64) (z : Zone) :
    Prop where
  ok : z.Ok
  time : ∀ tn ∈ ts.getLast?, tn ≤ now
  bucket : ∀ lr, z.find key = some lr → Bucket rate burst ts lr

variable {key : List UInt8} {z : Zone}

/-- **A life keeps its bucket.** -/
theorem Zone.Life.alive (h : Life rate burst key ts now z) (hburst : burst.toNat + 1000 < 2 ^ 63) :
    Alive rate burst key ts now z := by
  induction h with
  | @born z q hz hnone hfresh hkey hlive =>
    subst hkey
    refine ⟨hz.serve hfresh, ?_, fun lr hlr => ?_⟩
    · intro tn htn
      split_ifs at htn with hc
      · cases htn
        exact UInt64.le_refl _
      · cases htn
    · rcases hz.serve_unknown hfresh hnone hlr with
        ⟨hc, hexcess, hlast⟩ | ⟨hc, hexcess, hlast⟩ | ⟨hc, hexcess, hlast⟩
      · rw [if_pos hc]
        exact Bucket.first hexcess hlast
      · rw [if_pos hc]
        exact Bucket.first_kept hexcess hlast
      · rw [hc]
        exact Bucket.unused hexcess hlast
  | @serve ts now z q hlife hnow hfresh hlive ih =>
    have htime : ∀ tn ∈ ts.getLast?, tn ≤ q.now := fun tn htn =>
      UInt64.le_trans (ih.time tn htn) hnow
    refine ⟨ih.ok.serve hfresh, ?_, fun lr' hlr' => ?_⟩
    · intro tn htn
      split_ifs at htn with hc
      · have heq : tn = q.now := by simpa using htn.symm
        rw [heq]
        exact UInt64.le_refl _
      · exact htime tn htn
    · by_cases hkey : q.key = key
      · subst hkey
        cases hfind : z.find q.key with
        | none => exact absurd hfind hlife.find_ne
        | some lr =>
          obtain ⟨lr'', hlr'', hcase⟩ := ih.ok.serve_known burst hfresh hfind
          obtain rfl : lr' = lr'' := Option.some.inj (hlr'.symm.trans hlr'')
          have hbucket := ih.bucket lr hfind
          rcases hcase with ⟨hc, hle, hexcess, hlast⟩ | ⟨hc, hexcess, hlast⟩
          · rw [if_pos ⟨rfl, hc⟩]
            exact hbucket.charged hburst htime hle hexcess hlast
          · rw [if_neg (by simp [hc])]
            exact hbucket.congr hexcess hlast
      · rw [if_neg fun hc => hkey hc.1]
        exact ih.bucket lr' (ih.ok.serve_other hfresh hkey hlr')

/-- **The bound of the leaky bucket.** When requests of a key are served one after another, `n` of
them charged to one life of its node, then a thousand for each after the first is no more than the
burst and what the rate allows between the first charge and the last. The excess the node stores is
within the burst; only the charge of the request that made the node, where other limits come after
this one, may store more, and then what it stores is what the time since zero leaves of one
request. -/
theorem leaky_bucket (hburst : burst.toNat + 1000 < 2 ^ 63) (hlife : Zone.Life rate burst key ts now z)
    {lr : Node} (hlr : z.find key = some lr) :
    (∀ t₁ ∈ ts.head?, ∀ tn ∈ ts.getLast?, 1000 * (ts.length - 1) ≤
        burst.toNat + rate.toNat * (tn.toNat - t₁.toNat) / 1000) ∧
      (lr.excess ≤ burst ∨
        ∃ t, ts = [t] ∧ lr.excess.toNat + (leak rate (elapsed t 0)).toNat = 1000) := by
  have hbucket := (hlife.alive hburst).bucket lr hlr
  refine ⟨fun t₁ h₁ tn hn => ?_, hbucket.bound⟩
  rcases hbucket.bound with hle | ⟨t, rfl, -⟩
  · obtain ⟨-, total, hsum, htotal⟩ := hbucket.leaked t₁ h₁ tn hn
    have hleak : total ≤ rate.toNat * (tn.toNat - t₁.toNat) / 1000 := by
      refine (Nat.le_div_iff_mul_le (by omega)).mpr ?_
      have := htotal tn (UInt64.le_refl tn)
      omega
    have hle' := UInt64.le_iff_toNat_le.mp hle
    omega
  · simp

/-- A request of the key `a` at a time. -/
def requestAt (now : UInt64) (kind : Kind) (addr : Option ℕ) : Request :=
  ⟨[97], now, kind, (addr, none)⟩

/-- The zone after a first request of the key `a`. -/
def firstZone (rate burst now : UInt64) (kind : Kind) : Zone :=
  (Zone.serve rate burst [] (requestAt now kind (some 1))).2

theorem firstZone_life (rate burst now : UInt64) :
    Zone.Life rate burst [97] [now] now (firstZone rate burst now .last) :=
  Zone.Life.born (q := requestAt now .last (some 1)) Zone.ok_nil rfl (Zone.fresh_nil _ _) rfl
    (some_ne_none (⟨1, [97], now, 0, 0⟩ : Node))

/-- The bound for two requests of one key, half a second apart, at one request a second and a burst
of two. -/
theorem leaky_bucket_two :
    ∃ lr, ((firstZone 1000 2000 5000000 .last).serve 1000 2000
        (requestAt 5000500 .passed none)).2.find [97] = some lr ∧
      1000 * (2 - 1) ≤ 2000 + 1000 * (5000500 - 5000000) / 1000 ∧ lr.excess ≤ 2000 := by
  have hlife := firstZone_life 1000 2000 5000000
  have hserve : ((firstZone 1000 2000 5000000 .last).serve 1000 2000
      (requestAt 5000500 .passed none)).2.find [97] = some ⟨1, [97], 5000500, 500, 0⟩ := by
    decide
  have hcharged : ((firstZone 1000 2000 5000000 .last).serve 1000 2000
      (requestAt 5000500 .passed none)).1 = true := by
    decide
  have hnext := hlife.serve (q := requestAt 5000500 .passed none) (by decide)
    (Zone.fresh_none _ _) (by rw [hserve]; exact some_ne_none _)
  rw [if_pos ⟨rfl, hcharged⟩] at hnext
  obtain ⟨hbound, hexcess⟩ := leaky_bucket (by decide) hnext hserve
  refine ⟨_, hserve, hbound 5000000 rfl 5000500 rfl, ?_⟩
  rcases hexcess with hle | ⟨t, ht, -⟩
  · exact hle
  · cases ht

/-- A last limit that lets the request pass charges it. -/
theorem Zone.serve_last {z : Zone} {q : Request} (hfind : z.find q.key = some lr)
    (hkind : q.kind = .last) (hle : lr.excessAt rate q.now ≤ burst) :
    z.serve rate burst q = (true, z.bump (lr.charged rate q.now)) := by
  have hlookup : z.lookup rate burst q.now q.key true q.alloc =
      ⟨.ok, lr.excessAt rate q.now, none, z.bump (lr.charged rate q.now)⟩ := by
    simp [lookup, hfind, lookupKnown, if_neg (UInt64.not_lt.mpr hle)]
  rw [serve, hkind]
  exact congrArg (settle rate q) hlookup

theorem charge_lt (rate excess ms : UInt64) : (charge rate excess ms).toNat < 2 ^ 63 := by
  simp only [charge]
  split_ifs with hneg
  · decide
  · rw [negative_iff] at hneg
    omega

/-- With a burst out of the range of the signed numbers every request is charged: no excess is above
it. -/
theorem overflow_life (n : ℕ) :
    ∃ z, Zone.Life 1000 0xfffffffffffffc18 [97] (List.replicate (n + 1) 0) 0 z := by
  induction n with
  | zero => exact ⟨_, firstZone_life 1000 0xfffffffffffffc18 0⟩
  | succ n ih =>
    obtain ⟨z, hlife⟩ := ih
    obtain ⟨lr, hfind⟩ := ne_none_iff_exists'.mp hlife.find_ne
    have hle : lr.excessAt 1000 0 ≤ 0xfffffffffffffc18 := by
      rw [UInt64.le_iff_toNat_le, Node.excessAt]
      have hlt := charge_lt 1000 lr.excess (elapsed 0 lr.last)
      have hval : (0xfffffffffffffc18 : UInt64).toNat = 0xfffffffffffffc18 := rfl
      omega
    have hserve := Zone.serve_last (q := requestAt 0 .last none) hfind rfl hle
    have hlive : (z.serve 1000 0xfffffffffffffc18 (requestAt 0 .last none)).2.find [97] ≠ none := by
      have hkey : lr.key = [97] := Zone.key_of_find hfind
      rw [hserve]
      change Zone.find (lr.charged 1000 0 :: _) [97] ≠ none
      rw [Zone.find_cons]
      exact (if_pos hkey).trans_ne (some_ne_none _)
    have hnext := hlife.serve (q := requestAt 0 .last none) (UInt64.le_refl 0)
      (Zone.fresh_none _ _) hlive
    rw [if_pos ⟨rfl, by rw [hserve]⟩] at hnext
    rw [replicate_succ']
    exact ⟨_, hnext⟩

/-- **Where the bound fails.** Two requests that look the key up before either is charged are both
let through without a burst, and leave an excess above it. With a burst of `2 ^ 64 - 1000`, which is
what `burst=9223372036854775807` is stored as, any number of requests passes in one millisecond. And
ten milliseconds after the clock has started, a node that is charged after its lookup stores an
excess above the burst. -/
theorem leaky_bucket_exceeded :
    (∃ l₁ l₂ : Lookup, ∃ z : Zone, ∃ lr : Node,
      l₁ = Zone.lookup 1000 0 5000000 [97] false (some 1, none) [] ∧ l₁.node = some 1 ∧
      l₂ = Zone.lookup 1000 0 5000000 [97] false (none, none) l₁.zone ∧ l₂.node = some 1 ∧
      z = (l₂.zone.account 1000 5000000 1).account 1000 5000000 1 ∧ z.find [97] = some lr ∧
      0 < lr.excess ∧ ¬ 1000 * (2 - 1) ≤ 0 + 1000 * (5000000 - 5000000) / 1000) ∧
    (∃ ts z, Zone.Life 1000 0xfffffffffffffc18 [97] ts 0 z ∧ (∀ t ∈ ts, t = 0) ∧
      ¬ 1000 * (ts.length - 1) ≤ (0xfffffffffffffc18 : UInt64).toNat + 1000 * (0 - 0) / 1000) ∧
    ∃ z lr, Zone.Life 1000 0 [97] [10] 10 z ∧ z.find [97] = some lr ∧ 0 < lr.excess := by
  refine ⟨?_, ?_, ?_⟩
  · exact ⟨_, _, _, ⟨1, [97], 5000000, 1000, 0⟩, rfl, rfl, rfl, by decide, rfl,
      by decide, by decide, by decide⟩
  · obtain ⟨z, hlife⟩ := overflow_life (2 ^ 64)
    refine ⟨_, z, hlife, fun t ht => eq_of_mem_replicate ht, ?_⟩
    rw [length_replicate]
    have hval : (0xfffffffffffffc18 : UInt64).toNat = 0xfffffffffffffc18 := rfl
    omega
  · have hfind : (firstZone 1000 0 10 .passed).find [97] = some ⟨1, [97], 10, 990, 0⟩ := by
      decide
    have hlife : Zone.Life 1000 0 [97] [10] 10 (firstZone 1000 0 10 .passed) :=
      Zone.Life.born (q := requestAt 10 .passed (some 1)) Zone.ok_nil rfl (Zone.fresh_nil _ _) rfl
        (ne_of_eq_of_ne hfind (some_ne_none _))
    exact ⟨_, _, hlife, hfind, by decide⟩

end Hengine.LimitReq
