import Hengine.Upstream.Dyups

/-!
# What the Commands Do to the Live Upstreams

A table shows its **live** upstreams, one for a name; `Table.Wf` says that no two live entries have
the same name. Where in the array an upstream stands, and which entries are waiting to be used
again, does not show.
-/

namespace Hengine.Dyups

open List Function Option

/-! ### Names -/

/-- The loop of `ngx_strncasecmp` compares the folded bytes up to a null byte. -/
theorem strncaseEq_iff (as bs : List UInt8) (h : as.length = bs.length) :
    strncaseEq as.length as bs = true ↔
      (as.map tolower).takeWhile (· ≠ 0) = (bs.map tolower).takeWhile (· ≠ 0) := by
  induction as generalizing bs with
  | nil =>
    obtain rfl : bs = [] := length_eq_zero_iff.mp h.symm
    simp [strncaseEq]
  | cons a as ih =>
    cases bs with
    | nil => exact absurd h (by simp)
    | cons b bs =>
      have hlen : as.length = bs.length := by simpa using h
      simp only [length_cons, strncaseEq, map_cons]
      by_cases hab : tolower a = tolower b
      · by_cases hzero : tolower a = 0
        · simp [hab, hab ▸ hzero]
        · rw [if_pos hab, if_pos hzero, ih bs hlen, takeWhile_cons_of_pos (by simpa using hzero),
            takeWhile_cons_of_pos (by simpa using hab ▸ hzero), hab, List.cons.injEq]
          simp
      · rw [if_neg hab]
        by_cases hzero : tolower a = 0
        · have hb : tolower b ≠ 0 := fun hb => hab (hzero.trans hb.symm)
          simp [hzero, hb]
        · by_cases hb : tolower b = 0
          · simp [hzero, hb]
          · simp [hzero, hb, hab]

/-- **A host is the name** exactly when the keys are the same. -/
theorem sameHost_iff (host name : List UInt8) :
    sameHost host name = true ↔ hostKey host = hostKey name := by
  rw [sameHost, hostKey, hostKey, Prod.mk.injEq, Bool.and_eq_true, decide_eq_true_iff]
  exact and_congr_right fun h => strncaseEq_iff host name h

/-! ### What shows of a table -/

/-- What shows of an entry. -/
def SrvConf.shows (d : SrvConf) : Bool × Upstream := (d.live, d.upstream)

/-- No two live entries have the same name. -/
def Distinct (ds : List SrvConf) : Prop :=
  ∀ (i j : ℕ) (d e : SrvConf), ds[i]? = some d → ds[j]? = some e → d.live = true →
    e.live = true → hostKey d.upstream.host = hostKey e.upstream.host → i = j

/-- The live upstream of a name among the entries. -/
def liveIn (ds : List SrvConf) (key : ℕ × List UInt8) : Option Upstream :=
  (ds.find? fun d => d.live && hostKey d.upstream.host = key).map SrvConf.upstream

/-- The invariant of a table. -/
def Table.Wf (t : Table) : Prop := Distinct t.dyUpstreams

theorem Table.live_eq (t : Table) : t.live = liveIn t.dyUpstreams := rfl

variable {ds es : List SrvConf} {key : ℕ × List UInt8}

/-- What is live depends on what the entries show. -/
theorem liveIn_congr (h : ds.map SrvConf.shows = es.map SrvConf.shows) : liveIn ds = liveIn es := by
  have hmap : ∀ cs : List SrvConf, liveIn cs = fun key => ((cs.map SrvConf.shows).find?
      fun s => s.1 && hostKey s.2.host = key).map Prod.snd := by
    intro cs
    funext key
    rw [List.find?_map, Option.map_map]
    rfl
  rw [hmap, hmap, h]

/-- So does the invariant. -/
theorem Distinct.congr (hds : Distinct ds) (h : ds.map SrvConf.shows = es.map SrvConf.shows) :
    Distinct es := by
  have hget : ∀ (i : ℕ) (e : SrvConf), es[i]? = some e → ∃ d : SrvConf, ds[i]? = some d ∧
      d.live = e.live ∧ d.upstream = e.upstream := by
    intro i e he
    have hi := congrArg (fun l => l[i]?) h
    simp only [getElem?_map, he, map_some] at hi
    obtain ⟨d, hd, hshow⟩ := map_eq_some_iff.mp hi
    exact ⟨d, hd, congrArg Prod.fst hshow, congrArg Prod.snd hshow⟩
  intro i j d e hd he hdl hel hkey
  obtain ⟨d', hd', hlive, hup⟩ := hget i d hd
  obtain ⟨e', he', hlive', hup'⟩ := hget j e he
  exact hds i j d' e' hd' he' (hlive.trans hdl) (hlive'.trans hel) (by rw [hup, hup', hkey])

/-- The live upstream of a name is that of the one live entry of the name. -/
theorem Distinct.liveIn_eq_some (h : Distinct ds) {u : Upstream} :
    liveIn ds key = some u ↔
      ∃ (i : ℕ) (d : SrvConf), ds[i]? = some d ∧ d.live = true ∧
        hostKey d.upstream.host = key ∧ d.upstream = u := by
  rw [liveIn, map_eq_some_iff]
  constructor
  · rintro ⟨d, hd, rfl⟩
    have hp := find?_some hd
    rw [Bool.and_eq_true, decide_eq_true_iff] at hp
    obtain ⟨i, hi⟩ := mem_iff_getElem?.mp (mem_of_find?_eq_some hd)
    exact ⟨i, d, hi, hp.1, hp.2, rfl⟩
  · rintro ⟨i, d, hd, hlive, hkey, rfl⟩
    cases hfind : ds.find? fun d => d.live && hostKey d.upstream.host = key with
    | none =>
      have hnone := find?_eq_none.mp hfind d (mem_of_getElem? hd)
      exact absurd (by simp [hlive, hkey]) hnone
    | some e =>
      have hp := find?_some hfind
      rw [Bool.and_eq_true, decide_eq_true_iff] at hp
      obtain ⟨j, hj⟩ := mem_iff_getElem?.mp (mem_of_find?_eq_some hfind)
      obtain rfl := h i j d e hd hj hlive hp.1 (hkey.trans hp.2.symm)
      exact ⟨d, by rw [← hj, hd], rfl⟩

theorem liveIn_eq_none :
    liveIn ds key = none ↔ ∀ d ∈ ds, d.live = true → hostKey d.upstream.host ≠ key := by
  rw [liveIn, map_eq_none_iff, find?_eq_none]
  simp

variable {i : ℕ} {d : SrvConf}

/-- **One entry changes.** The new entry shows, the old one does not any more. -/
theorem Distinct.set (h : Distinct ds) (hi : ds[i]? = some d) (d' : SrvConf)
    (hfresh : d'.live = true → ∀ (j : ℕ) (e : SrvConf), ds[j]? = some e → e.live = true →
      hostKey e.upstream.host = hostKey d'.upstream.host → j = i) :
    Distinct (ds.set i d') ∧ ∀ key, liveIn (ds.set i d') key =
      if d'.live = true ∧ hostKey d'.upstream.host = key then some d'.upstream
      else if d.live = true ∧ hostKey d.upstream.host = key then none else liveIn ds key := by
  have hlt : i < ds.length := (List.getElem?_eq_some_iff.mp hi).1
  have hget : ∀ (j : ℕ) (e : SrvConf), (ds.set i d')[j]? = some e ↔
      (j = i ∧ e = d') ∨ (j ≠ i ∧ ds[j]? = some e) := by
    intro j e
    rcases eq_or_ne j i with rfl | hne
    · rw [getElem?_set_self hlt]
      simp [eq_comm]
    · rw [getElem?_set_ne hne.symm]
      simp [hne]
  have hdistinct : Distinct (ds.set i d') := by
    intro j k e f he hf hel hfl hkey
    rcases (hget j e).mp he with ⟨rfl, rfl⟩ | ⟨hji, he'⟩ <;>
      rcases (hget k f).mp hf with ⟨rfl, rfl⟩ | ⟨hki, hf'⟩
    · rfl
    · exact absurd (hfresh hel k f hf' hfl hkey.symm) hki
    · exact absurd (hfresh hfl j e he' hel hkey) hji
    · exact h j k e f he' hf' hel hfl hkey
  refine ⟨hdistinct, fun key => ?_⟩
  by_cases hnew : d'.live = true ∧ hostKey d'.upstream.host = key
  · rw [if_pos hnew]
    exact hdistinct.liveIn_eq_some.mpr ⟨i, d', (hget i d').mpr (Or.inl ⟨rfl, rfl⟩), hnew.1, hnew.2, rfl⟩
  · rw [if_neg hnew]
    refine Option.ext fun u => ?_
    rw [hdistinct.liveIn_eq_some]
    by_cases hold : d.live = true ∧ hostKey d.upstream.host = key
    · rw [if_pos hold]
      constructor
      · rintro ⟨j, e, he, hel, hkey, rfl⟩
        rcases (hget j e).mp he with ⟨rfl, rfl⟩ | ⟨hji, he⟩
        · exact absurd ⟨hel, hkey⟩ hnew
        · exact absurd (h j i e d he hi hel hold.1 (hkey.trans hold.2.symm)) hji
      · intro hu
        cases hu
    · rw [if_neg hold, h.liveIn_eq_some]
      constructor
      · rintro ⟨j, e, he, hel, hkey, hu⟩
        rcases (hget j e).mp he with ⟨rfl, rfl⟩ | ⟨-, he⟩
        · exact absurd ⟨hel, hkey⟩ hnew
        · exact ⟨j, e, he, hel, hkey, hu⟩
      · rintro ⟨j, e, he, hel, hkey, hu⟩
        rcases eq_or_ne j i with rfl | hji
        · obtain rfl := Option.some.inj (hi.symm.trans he)
          exact absurd ⟨hel, hkey⟩ hold
        · exact ⟨j, e, (hget j e).mpr (Or.inr ⟨hji, he⟩), hel, hkey, hu⟩

/-- An entry that does not show is added. -/
theorem Distinct.concat (h : Distinct ds) (hd : d.live = false) :
    Distinct (ds ++ [d]) ∧ liveIn (ds ++ [d]) = liveIn ds := by
  constructor
  · have hget : ∀ (j : ℕ) (e : SrvConf), (ds ++ [d])[j]? = some e → e.live = true →
        ds[j]? = some e := by
      intro j e he hel
      rcases Nat.lt_or_ge j ds.length with hj | hj
      · rwa [getElem?_append_left hj] at he
      · rw [getElem?_append_right hj] at he
        have hmem := mem_of_getElem? he
        rw [mem_singleton.mp hmem, hd] at hel
        cases hel
    intro j k e f he hf hel hfl hkey
    exact h j k e f (hget j e he hel) (hget k f hf hfl) hel hfl hkey
  · funext key
    rw [liveIn, find?_append]
    simp [hd, liveIn]

/-! ### Searching -/

@[simp] theorem SrvConf.shows_release (d : SrvConf) : d.release.shows = d.shows := by
  unfold SrvConf.release
  split
  · rename_i h
    simp [SrvConf.shows, SrvConf.live, h.1]
  · rfl

/-- What `ngx_dyups_find_upstream` has found. -/
inductive Found (ds : List SrvConf) (key : ℕ × List UInt8) : Option ℕ → Prop
  | live {i : ℕ} {d : SrvConf} : ds[i]? = some d → d.live = true →
      hostKey d.upstream.host = key → Found ds key (some i)
  | reuse {i : ℕ} {d : SrvConf} : ds[i]? = some d → d.deleted = .deleted →
      liveIn ds key = none → Found ds key (some i)
  | absent : liveIn ds key = none → Found ds key none

theorem liveIn_cons_dead (hd : d.live = false) : liveIn (d :: ds) key = liveIn ds key := by
  rw [liveIn, find?_cons_of_neg (by simp [hd])]
  rfl

theorem liveIn_cons_ne (hd : hostKey d.upstream.host ≠ key) :
    liveIn (d :: ds) key = liveIn ds key := by
  rw [liveIn, find?_cons_of_neg (by simp [hd])]
  rfl

/-- **The loop of the search**: it finds the live entry, or there is none, and then the last deleted
entry is returned, which is one of these or `del`. -/
theorem findLoop_spec (name : List UInt8) (ds : List SrvConf) (i : ℕ) (del : Option ℕ) :
    (findLoop name ds i del).1.map SrvConf.shows = ds.map SrvConf.shows ∧
    ((∃ (j : ℕ) (d : SrvConf), (findLoop name ds i del).2 = some (i + j) ∧
        (findLoop name ds i del).1[j]? = some d ∧ d.live = true ∧
        hostKey d.upstream.host = hostKey name) ∨
      (liveIn (findLoop name ds i del).1 (hostKey name) = none ∧
        ((findLoop name ds i del).2 = del ∨ ∃ (j : ℕ) (d : SrvConf),
          (findLoop name ds i del).2 = some (i + j) ∧
          (findLoop name ds i del).1[j]? = some d ∧ d.deleted = .deleted))) := by
  induction ds generalizing i del with
  | nil => exact ⟨rfl, Or.inr ⟨rfl, Or.inl rfl⟩⟩
  | cons d ds ih =>
    -- an entry `d'` that is passed over, and what the rest of the loop gives
    have hpass : ∀ (d' : SrvConf) (del' : Option ℕ), d'.shows = d.shows →
        liveIn (d' :: (findLoop name ds (i + 1) del').1) (hostKey name)
          = liveIn (findLoop name ds (i + 1) del').1 (hostKey name) →
        (del' = del ∨ del' = some i ∧ d'.deleted = .deleted) →
        let r := findLoop name ds (i + 1) del'
        (d' :: r.1).map SrvConf.shows = (d :: ds).map SrvConf.shows ∧
        ((∃ (j : ℕ) (e : SrvConf), r.2 = some (i + j) ∧ (d' :: r.1)[j]? = some e ∧
            e.live = true ∧ hostKey e.upstream.host = hostKey name) ∨
          (liveIn (d' :: r.1) (hostKey name) = none ∧ (r.2 = del ∨
            ∃ (j : ℕ) (e : SrvConf), r.2 = some (i + j) ∧ (d' :: r.1)[j]? = some e ∧
              e.deleted = .deleted))) := by
      intro d' del' hshow hlive hdel
      obtain ⟨hmap, hrest⟩ := ih (i + 1) del'
      refine ⟨by rw [map_cons, map_cons, hshow, hmap], ?_⟩
      rcases hrest with ⟨j, e, hr, he, hel, hkey⟩ | ⟨hnone, hr⟩
      · exact Or.inl ⟨j + 1, e, by rw [hr]; congr 1; omega, he, hel, hkey⟩
      · refine Or.inr ⟨hlive.trans hnone, ?_⟩
        rcases hr with hr | ⟨j, e, hr, he, hed⟩
        · rcases hdel with rfl | ⟨rfl, hdd⟩
          · exact Or.inl hr
          · exact Or.inr ⟨0, d', hr, rfl, hdd⟩
        · exact Or.inr ⟨j + 1, e, by rw [hr]; congr 1; omega, he, hed⟩
    have hlive : d.release.live = d.live := congrArg Prod.fst d.shows_release
    have hup : d.release.upstream = d.upstream := congrArg Prod.snd d.shows_release
    simp only [findLoop]
    cases hdyn : d.dynamic with
    | false =>
      have hdead : d.live = false := by simp [SrvConf.live, hdyn]
      exact hpass d del rfl (liveIn_cons_dead hdead) (Or.inl rfl)
    | true =>
      cases hdel : d.release.deleted with
      | deleting =>
        have hdead : d.release.live = false := by simp [SrvConf.live, hdel]
        exact hpass _ del d.shows_release (liveIn_cons_dead hdead) (Or.inl rfl)
      | deleted =>
        have hdead : d.release.live = false := by simp [SrvConf.live, hdel]
        exact hpass _ (some i) d.shows_release (liveIn_cons_dead hdead)
          (Or.inr ⟨rfl, hdel⟩)
      | no =>
        cases hsame : sameHost d.upstream.host name with
        | true =>
          have hd : d.release = d := by
            unfold SrvConf.release
            rw [if_neg]
            rintro ⟨hd, href⟩
            simp [SrvConf.release, hd, href] at hdel
          have hdl : d.live = true := by
            rw [← hd]
            rw [← hd] at hdyn
            simp [SrvConf.live, hdel, hdyn]
          exact ⟨by simp, Or.inl ⟨0, d, rfl, by simp [hd], hdl, (sameHost_iff _ _).mp hsame⟩⟩
        | false =>
          refine hpass _ del d.shows_release (liveIn_cons_ne ?_) (Or.inl rfl)
          rw [hup, Ne, ← sameHost_iff, hsame]
          exact Bool.false_ne_true

/-- **A search** changes nothing that shows. -/
theorem findUpstream_spec (t : Table) (name : List UInt8) :
    (t.findUpstream name).1.dyUpstreams.map SrvConf.shows = t.dyUpstreams.map SrvConf.shows ∧
      Found (t.findUpstream name).1.dyUpstreams (hostKey name) (t.findUpstream name).2 := by
  obtain ⟨hmap, hfound⟩ := findLoop_spec name t.dyUpstreams 0 none
  refine ⟨hmap, ?_⟩
  rcases hfound with ⟨j, d, hr, hd, hlive, hkey⟩ | ⟨hnone, hr | ⟨j, d, hr, hd, hdel⟩⟩
  · rw [Table.findUpstream, hr, Nat.zero_add]
    exact .live hd hlive hkey
  · rw [Table.findUpstream, hr]
    exact .absent hnone
  · rw [Table.findUpstream, hr, Nat.zero_add]
    exact .reuse hd hdel hnone

variable {t t' : Table} {name body : List UInt8} {luck : Luck}

theorem live_findUpstream (t : Table) (name : List UInt8) :
    (t.findUpstream name).1.live = t.live :=
  liveIn_congr (findUpstream_spec t name).1

theorem Table.Wf.findUpstream (h : t.Wf) (name : List UInt8) : (t.findUpstream name).1.Wf :=
  Distinct.congr h (findUpstream_spec t name).1.symm

theorem entry_eq {i : ℕ} {d : SrvConf} (hd : t.dyUpstreams[i]? = some d) : t.entry i = d := by
  rw [Table.entry, getD_eq_getElem?_getD, hd]
  rfl

/-! ### Deleting -/

/-- **Marking** a live upstream removes it. -/
theorem markUpstreamDelete_spec (h : t.Wf) {i : ℕ} {d : SrvConf}
    (hd : t.dyUpstreams[i]? = some d) (hlive : d.live = true)
    (hkey : hostKey d.upstream.host = key) (hmark : t.markUpstreamDelete i = some t') :
    t'.Wf ∧ t'.live = update t.live key none := by
  rw [Table.markUpstreamDelete, entry_eq hd] at hmark
  obtain ⟨us, -, rfl⟩ := map_eq_some_iff.mp hmark
  obtain ⟨hwf, hset⟩ := Distinct.set h hd { d with
      upstream := { d.upstream with servers := some (us.map fun u => { u with down := true }) }
      deleted := .deleting } (by simp [SrvConf.live])
  refine ⟨hwf, funext fun k => ?_⟩
  rw [Table.live_eq, hset, if_neg (by simp [SrvConf.live])]
  by_cases hk : k = key
  · rw [if_pos ⟨hlive, hkey.trans hk.symm⟩, hk, update_self]
  · rw [if_neg fun hc => hk (hc.2.symm.trans hkey), update_of_ne hk]
    rfl

/-- The old upstream of the name is gone before a new one is made, and the entry to use, if there is
one, does not show. -/
theorem deleteFirst_spec (h : t.Wf) {r : Option ℕ} (hr : Found t.dyUpstreams (hostKey name) r)
    {r' : Option ℕ} (hdel : t.deleteFirst name r = some (t', r')) :
    t'.Wf ∧ t'.live = update t.live (hostKey name) none ∧
      ∀ i, r' = some i → ∃ d, t'.dyUpstreams[i]? = some d ∧ d.deleted = .deleted := by
  have hsame : ∀ {t : Table}, t.live (hostKey name) = none →
      t.live = update t.live (hostKey name) none := fun hnone =>
    (update_eq_self_iff.mpr hnone.symm).symm
  cases hr with
  | live hd hlive hkey =>
    rename_i i d
    have hno : d.deleted = .no := by
      simp only [SrvConf.live, Bool.and_eq_true, decide_eq_true_eq] at hlive
      exact hlive.2
    simp only [Table.deleteFirst, entry_eq hd, hno, if_true] at hdel
    obtain ⟨marked, hmark, hfind⟩ := map_eq_some_iff.mp hdel
    obtain ⟨hwf, hmarked⟩ := markUpstreamDelete_spec h hd hlive hkey hmark
    have ht : (marked.findUpstream name).1 = t' := congrArg Prod.fst hfind
    have hr : (marked.findUpstream name).2 = r' := congrArg Prod.snd hfind
    have hnone : marked.live (hostKey name) = none := by rw [hmarked, update_self]
    refine ⟨ht ▸ hwf.findUpstream name, by rw [← ht, live_findUpstream, hmarked], fun j hj => ?_⟩
    have hfound := (findUpstream_spec marked name).2
    rw [hr, hj] at hfound
    cases hfound with
    | live he hel hek =>
      have hsome := (Distinct.liveIn_eq_some (hwf.findUpstream name)).mpr ⟨j, _, he, hel, hek, rfl⟩
      rw [← Table.live_eq, live_findUpstream, hnone] at hsome
      cases hsome
    | reuse he hed _ => exact ⟨_, ht ▸ he, hed⟩
  | reuse hd hdeleted hnone =>
    rename_i i d
    simp only [Table.deleteFirst, entry_eq hd, hdeleted, reduceCtorEq, if_false] at hdel
    obtain ⟨rfl, rfl⟩ := Prod.mk.inj (Option.some.inj hdel)
    refine ⟨h, hsame hnone, fun j hj => ?_⟩
    obtain rfl := Option.some.inj hj
    exact ⟨d, hd, hdeleted⟩
  | absent hnone =>
    obtain ⟨rfl, rfl⟩ := Prod.mk.inj (Option.some.inj hdel)
    exact ⟨h, hsame hnone, fun j hj => by cases hj⟩

/-- **`ngx_dyups_do_delete`** removes the live upstream of the name, or there is none. -/
theorem doDelete_spec (h : t.Wf) {r : Reply} (hdel : t.doDelete name = some (t', r)) :
    t'.Wf ∧ t'.live = update t.live (hostKey name) none ∧
      r.status = (if t.live (hostKey name) = none then .notFound else .ok) := by
  obtain ⟨hshow, hfound⟩ := findUpstream_spec t name
  have hwf := h.findUpstream name
  have hlive := live_findUpstream t name
  have hmiss : (t.findUpstream name).1 = t' → r = ⟨.notFound, "not found uptream"⟩ →
      t.live (hostKey name) = none → t'.Wf ∧ t'.live = update t.live (hostKey name) none ∧
      r.status = (if t.live (hostKey name) = none then .notFound else .ok) := by
    rintro rfl rfl hnone
    exact ⟨hwf, by rw [hlive, update_eq_self_iff.mpr hnone.symm], by rw [if_pos hnone]⟩
  rw [Table.doDelete] at hdel
  generalize (t.findUpstream name).2 = found at hfound hdel
  cases hfound with
  | live hd hl hkey =>
    rename_i i d
    have hno : d.deleted = .no := by
      simp only [SrvConf.live, Bool.and_eq_true, decide_eq_true_eq] at hl
      exact hl.2
    simp only [entry_eq hd, hno, ne_eq, not_true_eq_false, if_false] at hdel
    obtain ⟨marked, hmark, hpair⟩ := map_eq_some_iff.mp hdel
    obtain ⟨rfl, rfl⟩ := Prod.mk.inj hpair
    obtain ⟨hwf', hmarked⟩ := markUpstreamDelete_spec hwf hd hl hkey hmark
    have hsome := (Distinct.liveIn_eq_some hwf).mpr ⟨i, d, hd, hl, hkey, rfl⟩
    rw [← Table.live_eq, hlive] at hsome
    exact ⟨hwf', by rw [hmarked, hlive], by rw [hsome]; rfl⟩
  | reuse hd hdeleted hnone =>
    simp only [entry_eq hd, hdeleted, ne_eq, reduceCtorEq, not_false_eq_true, if_true] at hdel
    obtain ⟨ht, hr⟩ := Prod.mk.inj (Option.some.inj hdel)
    exact hmiss ht hr.symm (by rw [← hlive]; exact hnone)
  | absent hnone =>
    obtain ⟨ht, hr⟩ := Prod.mk.inj (Option.some.inj hdel)
    exact hmiss ht hr.symm (by rw [← hlive]; exact hnone)

/-! ### Updating -/

/-- All that an update needs is there. -/
structure Luck.Fine (luck : Luck) : Prop where
  dyPush : luck.dyPush = true
  upPush : luck.upPush = true
  init : luck.init = .done
  servers : luck.servers = true
  args : luck.args = true

/-- The arrays grow both or not at all, or what the new entry held before is no live upstream. -/
def Luck.Whole (luck : Luck) : Prop :=
  luck.upPush = true ∨ luck.dyPush = false ∨ luck.garbage.live = false

/-- What an update leaves under its name: on success the servers of the body, and else nothing or an
upstream of that name. If the memory suffices, the servers are there whatever the body is, and the
rest of the update fails with the body or the balancer only. -/
structure Luck.Leaves (luck : Luck) (name body : List UInt8) (left : Option Upstream)
    (status : Status) : Prop where
  ok : status = .ok → left = some ⟨name, some (luck.parse body).1⟩
  error : status ≠ .ok → status = .error ∧ (left = none ∨ ∃ servers, left = some ⟨name, servers⟩)
  fine : luck.Fine → left = some ⟨name, some (luck.parse body).1⟩ ∧
    (status = .ok ↔ (luck.parse body).2 = true ∧ luck.peers (luck.parse body).1 = true)

theorem Luck.leaves_error {left : Option Upstream} (hfine : ¬ luck.Fine)
    (hleft : left = none ∨ ∃ servers, left = some ⟨name, servers⟩) :
    luck.Leaves name body left .error where
  ok h := by cases h
  error _ := ⟨rfl, hleft⟩
  fine h := absurd h hfine

/-- **`ngx_dyups_add_server`** on a new upstream. -/
theorem addServer_spec (luck : Luck) (name body : List UInt8) (d : SrvConf)
    (hd : d.upstream = ⟨name, none⟩) :
    (d.addServer luck body).1.live = d.live ∧
      luck.Leaves name body (some (d.addServer luck body).1.upstream)
        (if (d.addServer luck body).2 then .ok else .error) ∧
      (d.addServer luck body).1.upstream.host = name := by
  unfold SrvConf.addServer
  rw [hd]
  cases hservers : luck.servers with
  | false =>
    refine ⟨rfl, Luck.leaves_error (fun h => ?_) (Or.inr ⟨none, congrArg some hd⟩),
      congrArg Upstream.host hd⟩
    rw [h.servers] at hservers
    cases hservers
  | true =>
    cases hargs : luck.args with
    | false =>
      refine ⟨rfl, Luck.leaves_error (fun h => ?_) (Or.inr ⟨some [], rfl⟩), rfl⟩
      rw [h.args] at hargs
      cases hargs
    | true =>
      refine ⟨rfl, ⟨fun _ => rfl, fun hne => ⟨?_, Or.inr ⟨_, rfl⟩⟩, fun _ => ⟨rfl, ?_⟩⟩, rfl⟩
      · revert hne
        simp
      · simp

/-- A new upstream in an entry, before it gets its servers. -/
def SrvConf.fresh (idx : ℕ) (name : List UInt8) : SrvConf :=
  ⟨idx, 0, .no, true, true, ⟨name, none⟩⟩

/-- An upstream that can be initialised. -/
theorem renew_of_done (t : Table) (i idx : ℕ) (name body : List UInt8) (hinit : luck.init = .done) :
    t.renew luck i idx name body =
      (⟨t.dyUpstreams.set i ((SrvConf.fresh idx name).addServer luck body).1,
          t.upstreams.set idx (some name)⟩,
        if ((SrvConf.fresh idx name).addServer luck body).2 then ⟨.ok, "success"⟩
        else ⟨.error, "add server failed"⟩) := by
  unfold Table.renew
  rw [hinit]
  rfl

/-- **The end of an update**: the upstream of the name, which did not show, is what is left. -/
theorem renew_spec (luck : Luck) (name body : List UInt8) (h : t.Wf) {i : ℕ} {d : SrvConf}
    (hd : t.dyUpstreams[i]? = some d) (hdead : d.live = false) (hnone : t.live (hostKey name) =
      none) (idx : ℕ) :
    (t.renew luck i idx name body).1.Wf ∧ ∃ left,
      (t.renew luck i idx name body).1.live = update t.live (hostKey name) left ∧
      luck.Leaves name body left (t.renew luck i idx name body).2.status := by
  -- the entry `e` that the end of the update puts in the place of `d`
  have hput : ∀ (e : SrvConf) (upstreams : List (Option (List UInt8))),
      (e.live = true → e.upstream.host = name) →
      Table.Wf ⟨t.dyUpstreams.set i e, upstreams⟩ ∧
        Table.live ⟨t.dyUpstreams.set i e, upstreams⟩
          = update t.live (hostKey name) (if e.live then some e.upstream else none) := by
    intro e upstreams hhost
    have hfree := liveIn_eq_none.mp hnone
    obtain ⟨hwf, hset⟩ := Distinct.set h hd e fun hel j f hf hfl hkey =>
      absurd (hkey.trans (congrArg hostKey (hhost hel))) (hfree f (mem_of_getElem? hf) hfl)
    refine ⟨hwf, funext fun key => ?_⟩
    rw [Table.live_eq, hset, if_neg (c := d.live = true ∧ _) (by simp [hdead])]
    cases hel : e.live with
    | false =>
      rw [if_neg (by simp), if_neg (by simp), update_eq_self_iff.mpr hnone.symm]
      rfl
    | true =>
      rw [hhost hel, if_pos rfl]
      by_cases hkey : hostKey name = key
      · rw [if_pos ⟨rfl, hkey⟩, ← hkey, update_self]
      · rw [if_neg fun hc => hkey hc.2, update_of_ne (Ne.symm hkey)]
        rfl
  cases hinit : luck.init with
  | pool =>
    have hnot : ¬ luck.Fine := fun hf => by
      rw [hf.init] at hinit
      cases hinit
    unfold Table.renew
    rw [entry_eq hd, hinit]
    obtain ⟨hwf, hlive⟩ := hput { d with idx := idx, pool := false } t.upstreams
      fun hl => absurd (hl.symm.trans hdead) Bool.noConfusion
    refine ⟨hwf, _, hlive, Luck.leaves_error hnot (Or.inl (if_neg ?_))⟩
    exact fun hl => absurd (hl.symm.trans hdead) Bool.noConfusion
  | host =>
    have hnot : ¬ luck.Fine := fun hf => by
      rw [hf.init] at hinit
      cases hinit
    unfold Table.renew
    rw [entry_eq hd, hinit]
    obtain ⟨hwf, hlive⟩ := hput { d with idx := idx, pool := true } t.upstreams
      fun hl => absurd (hl.symm.trans hdead) Bool.noConfusion
    refine ⟨hwf, _, hlive, Luck.leaves_error hnot (Or.inl (if_neg ?_))⟩
    exact fun hl => absurd (hl.symm.trans hdead) Bool.noConfusion
  | conf =>
    have hnot : ¬ luck.Fine := fun hf => by
      rw [hf.init] at hinit
      cases hinit
    unfold Table.renew
    rw [entry_eq hd, hinit]
    obtain ⟨hwf, hlive⟩ := hput
      { d with idx := idx, pool := true, dynamic := true, upstream := ⟨name, none⟩ }
      (t.upstreams.set idx (some name)) fun _ => rfl
    refine ⟨hwf, _, hlive, Luck.leaves_error hnot ?_⟩
    split
    · exact Or.inr ⟨none, rfl⟩
    · exact Or.inl rfl
  | done =>
    obtain ⟨hadd, hleaves, hhost⟩ := addServer_spec luck name body (SrvConf.fresh idx name) rfl
    obtain ⟨hwf, hlive⟩ := hput _ (t.upstreams.set idx (some name)) fun _ => hhost
    rw [renew_of_done t i idx name body hinit]
    refine ⟨hwf, _, hlive, ?_⟩
    have hshown : _ = true := hadd.trans rfl
    rw [if_pos hshown]
    split
    · rename_i hok
      rwa [if_pos hok] at hleaves
    · rename_i hok
      rwa [if_neg hok] at hleaves

/-- **`ngx_dyups_do_update`** changes the upstream of its name only. -/
theorem doUpdate_spec (h : t.Wf) (hwhole : luck.Whole) {r : Reply}
    (hup : t.doUpdate luck name body = some (t', r)) :
    t'.Wf ∧ ∃ left, t'.live = update t.live (hostKey name) left ∧
      luck.Leaves name body left r.status := by
  rw [Table.doUpdate] at hup
  obtain ⟨⟨t₁, found⟩, hfirst, hrest⟩ := map_eq_some_iff.mp hup
  obtain ⟨hwf, hlive, hreuse⟩ := deleteFirst_spec (h.findUpstream name)
    (findUpstream_spec t name).2 hfirst
  rw [live_findUpstream] at hlive
  have hnone : t₁.live (hostKey name) = none := by rw [hlive, update_self]
  have hover : ∀ left, update t₁.live (hostKey name) left
      = update t.live (hostKey name) left := fun left => by
    rw [hlive, update_idem]
  cases found with
  | some i =>
    obtain ⟨d, hd, hdel⟩ := hreuse i rfl
    have hdead : d.live = false := by simp [SrvConf.live, hdel]
    obtain ⟨hwf', left, hleft, hleaves⟩ := renew_spec luck name body hwf hd hdead hnone i
    simp only at hrest
    rw [hrest] at hwf' hleft hleaves
    exact ⟨hwf', left, by rw [← hover, hleft], hleaves⟩
  | none =>
    simp only at hrest
    cases hpush : luck.dyPush with
    | false =>
      simp only [hpush, Bool.not_false, if_true] at hrest
      obtain ⟨rfl, rfl⟩ := Prod.mk.inj hrest
      refine ⟨hwf, none, hlive, Luck.leaves_error (fun hf => ?_) (Or.inl rfl)⟩
      rw [hf.dyPush] at hpush
      cases hpush
    | true =>
      cases hpush' : luck.upPush with
      | false =>
        have hgarbage : luck.garbage.live = false := by
          rcases hwhole with hw | hw | hw
          · rw [hw] at hpush'
            cases hpush'
          · rw [hw] at hpush
            cases hpush
          · exact hw
        simp only [hpush, hpush', Bool.not_true, Bool.not_false, Bool.false_eq_true, if_true,
          if_false] at hrest
        obtain ⟨rfl, rfl⟩ := Prod.mk.inj hrest
        obtain ⟨hwf', hsame⟩ := Distinct.concat hwf hgarbage
        refine ⟨hwf', none, hsame.trans hlive, Luck.leaves_error (fun hf => ?_) (Or.inl rfl)⟩
        rw [hf.upPush] at hpush'
        cases hpush'
      | true =>
        simp only [hpush, hpush', Bool.not_true, Bool.false_eq_true, if_false] at hrest
        obtain ⟨hwf', hsame⟩ := Distinct.concat (d := SrvConf.zero) hwf rfl
        obtain ⟨hwf'', left, hleft, hleaves⟩ := renew_spec luck name body
          (t := ⟨t₁.dyUpstreams ++ [SrvConf.zero], t₁.upstreams ++ [none]⟩)
          (i := t₁.dyUpstreams.length) (d := SrvConf.zero) hwf' (by simp) rfl
          ((congrFun hsame _).trans hnone) t₁.upstreams.length
        rw [hrest] at hwf'' hleft hleaves
        refine ⟨hwf'', left, ?_, hleaves⟩
        rw [hleft, ← hover]
        exact congrArg (fun f => update f (hostKey name) left) hsame

end Hengine.Dyups
