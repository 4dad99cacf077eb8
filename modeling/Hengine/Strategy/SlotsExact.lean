import Hengine.Strategy.Slots
import Mathlib.Data.List.TakeWhile

/-!
# What the current slot holds

A failed update leaves the current slot as it is, and a slot that is returned was built completely. That it
holds the latest version when no update is thought to be needed takes more: the check looks at the version of
the reserved slot only, so the two slots have to go together.
-/

namespace Hengine.Strategy

open List

/-! ### Versions -/

section

variable {pub failed accepted failed' accepted' l : List UInt64} {res v w : UInt64} {cur : Option UInt64}

/-- A version that was not rejected. -/
def notRejected (failed accepted : List UInt64) (v : UInt64) : Bool := v ∉ failed ∨ v ∈ accepted

/-- **The versions of the two slots**, where `cur` is that of the current slot if it is valid, and `res` that
of the reserved one: where `res` is published and was not overtaken by `cur`, the latest version up to it that
was not rejected is `cur`. -/
structure Held (pub failed accepted : List UInt64) (cur : Option UInt64) (res : UInt64) : Prop where
  nodup : pub.Nodup
  known : ∀ v ∈ accepted, v ∈ pub
  resKnown : res = 0 ∨ res ∈ pub
  none : cur = none → accepted = [] ∧ res = 0
  some : ∀ v ∈ cur, v ∈ accepted ∧ (∀ w ∈ pub.takeWhile (· ≠ v), w ∉ accepted) ∧
    (res ≠ 0 → v ∈ pub.dropWhile (· ≠ res) →
      (pub.dropWhile (· ≠ res)).find? (notRejected failed accepted) = some v)

/-- What is found by a weaker test is found by a stronger one that it meets. -/
theorem find_of_imp {p q : UInt64 → Bool} (hpq : ∀ w, q w = true → p w = true) (hv : q v = true)
    (h : l.find? p = some v) : l.find? q = some v := by
  obtain ⟨-, pre, rest, rfl, hpre⟩ := find?_eq_some_iff_append.mp h
  refine find?_eq_some_iff_append.mpr ⟨hv, pre, rest, rfl, fun w hw => ?_⟩
  have hpw := hpre w hw
  cases hqw : q w with
  | false => rfl
  | true => simp [hpq w hqw] at hpw

/-- The search for a member ends at it. -/
theorem dropWhile_ne (hv : v ∈ l) : ∃ rest, l.dropWhile (· ≠ v) = v :: rest := by
  induction l with
  | nil => exact absurd hv (not_mem_nil)
  | cons w l ih =>
    by_cases hw : w = v
    · subst hw
      exact ⟨l, dropWhile_cons_of_neg (by simp)⟩
    · rw [dropWhile_cons_of_pos (by simpa using hw)]
      exact ih ((mem_cons.mp hv).resolve_left fun heq => hw heq.symm)

namespace Held

/-- A new version. -/
theorem publish (h : Held pub failed accepted cur res) (hnew : v ∉ pub) (hv : v ≠ 0) :
    Held (v :: pub) failed accepted cur res := by
  have hres : v ≠ res := by
    rintro rfl
    exact h.resKnown.elim hv hnew
  refine ⟨nodup_cons.mpr ⟨hnew, h.nodup⟩, fun w hw => mem_cons_of_mem v (h.known w hw),
    h.resKnown.imp_right (mem_cons_of_mem v), h.none, fun w hw => ?_⟩
  obtain ⟨haccepted, hnewer, hfind⟩ := h.some w hw
  have hvw : v ≠ w := fun heq => hnew (heq ▸ h.known w haccepted)
  rw [takeWhile_cons_of_pos (by simpa using hvw),
    dropWhile_cons_of_pos (by simpa using hres)]
  refine ⟨haccepted, fun u hu => ?_, hfind⟩
  rcases mem_cons.mp hu with rfl | hu
  · exact fun hmem => hnew (h.known u hmem)
  · exact hnewer u hu

/-- An update that fails is remembered. -/
theorem fail (h : Held pub failed accepted cur res) : Held pub (v :: failed) accepted cur res := by
  refine ⟨h.nodup, h.known, h.resKnown, h.none, fun w hw => ?_⟩
  obtain ⟨haccepted, hnewer, hfind⟩ := h.some w hw
  refine ⟨haccepted, hnewer, fun hres hmem => ?_⟩
  refine find_of_imp (fun u hu => ?_) (by simp [notRejected, haccepted]) (hfind hres hmem)
  simp only [notRejected, mem_cons, not_or, decide_eq_true_eq] at hu ⊢
  tauto

/-- A build of the last version that becomes the current slot: the reserved one is then the old current
one. -/
theorem load (h : Held (v :: pub) failed accepted cur res) (hw : w = 0 ∨ w ∈ v :: pub) :
    Held (v :: pub) failed (v :: accepted) (Option.some v) w := by
  refine ⟨h.nodup, fun u hu => ?_, hw, nofun, fun u hu => ?_⟩
  · rcases mem_cons.mp hu with rfl | hu
    · exact mem_cons_self
    · exact h.known u hu
  · cases hu
    rw [takeWhile_cons_of_neg (by simp)]
    refine ⟨mem_cons_self, by simp, fun _ hmem => ?_⟩
    by_cases hvw : v = w
    · subst hvw
      rw [dropWhile_cons_of_neg (by simp)]
      exact find?_cons_of_pos (by simp [notRejected])
    · rw [dropWhile_cons_of_pos (by simpa using hvw)] at hmem
      exact absurd ((dropWhile_suffix _).subset hmem) (nodup_cons.mp h.nodup).1

theorem second (h : Held (v :: pub) failed accepted (Option.some v) res) :
    Held (v :: pub) failed (v :: accepted) (Option.some v) v :=
  h.load (Or.inr mem_cons_self)

/-- A build of the last version that fails in the reserved slot. -/
theorem reject (h : Held (v :: pub) failed accepted (Option.some w) res)
    (htried : ∀ u ∈ (v :: pub).takeWhile (· ≠ w), u ≠ v → u ∈ failed) :
    Held (v :: pub) (v :: failed) accepted (Option.some w) v := by
  refine ⟨h.nodup, h.known, Or.inr mem_cons_self, nofun, fun u hu => ?_⟩
  obtain ⟨haccepted, hnewer, -⟩ := h.some u hu
  cases hu
  refine ⟨haccepted, hnewer, fun _ _ => ?_⟩
  rw [dropWhile_cons_of_neg (by simp)]
  obtain ⟨rest, hrest⟩ := dropWhile_ne (h.known w haccepted)
  rw [← takeWhile_append_dropWhile (p := (· ≠ w)) (l := v :: pub), hrest]
  refine find?_eq_some_iff_append.mpr ⟨by simp [notRejected, haccepted], _, rest, rfl,
    fun x hx => ?_⟩
  -- what was published after the current version was tried, and not accepted
  have hnot := hnewer x hx
  have hfailed : x ∈ v :: failed := by
    by_cases hxv : x = v
    · exact hxv ▸ mem_cons_self
    · exact mem_cons_of_mem v (htried x hx hxv)
  simp [notRejected, hnot, hfailed]

/-- **What the check relies on**: the reserved slot has the last version. -/
theorem latest (h : Held (v :: pub) failed accepted cur v) (hv : v ≠ 0) :
    ∃ w, cur = Option.some w ∧ w ∈ v :: pub ∧
      (v :: pub).find? (notRejected failed accepted) = Option.some w := by
  cases cur with
  | none => exact absurd (h.none rfl).2 hv
  | some w =>
    obtain ⟨haccepted, -, hfind⟩ := h.some w rfl
    have hmem := h.known w haccepted
    have hfind := hfind hv
    rw [dropWhile_cons_of_neg (by simp)] at hfind
    exact ⟨w, rfl, hmem, hfind hmem⟩

end Held

end

/-! ### One update -/

section

variable {C D : Type*}

namespace SlotShm

variable {s : SlotShm D} {update : D → D × Bool}

/-- The first slot becomes the current one. -/
theorem cur_initSlot_zero (update : D → D × Bool) (h : s.current = 0) :
    (s.initSlot 0 update).cur = ⟨(update s.cur.data).1, (update s.cur.data).2⟩ ∧
      (s.initSlot 0 update).reserved = s.reserved := by
  simp [initSlot, cur, reserved, h]

theorem cur_initSlot_one (update : D → D × Bool) (h : s.current = 0) :
    (s.initSlot 1 update).cur = s.cur ∧
      (s.initSlot 1 update).reserved.data = (update s.reserved.data).1 := by
  simp [initSlot, cur, reserved, h]

theorem add_one_ne : ∀ i : Fin 2, i ≠ i + 1 := by decide

theorem add_one_add_one : ∀ i : Fin 2, i + 1 + 1 = i := by decide

/-- A callback that succeeds exchanges the two slots. -/
theorem callbackUpdate_ok (h : (update s.reserved.data).2 = true) :
    (s.callbackUpdate update).cur = ⟨(update s.reserved.data).1, true⟩ ∧
      (s.callbackUpdate update).reserved = s.cur := by
  rw [callbackUpdate, if_pos h]
  refine ⟨Function.update_self .., ?_⟩
  rw [reserved, add_one_add_one]
  exact Function.update_of_ne (add_one_ne _) ..

/-- A callback that fails leaves the current slot. -/
theorem callbackUpdate_failed (h : (update s.reserved.data).2 = false) :
    (s.callbackUpdate update).cur = s.cur ∧
      (s.callbackUpdate update).reserved = ⟨(update s.reserved.data).1, s.reserved.valid⟩ := by
  rw [callbackUpdate, if_neg (by simp [h])]
  exact ⟨Function.update_of_ne (add_one_ne _) .., Function.update_self ..⟩

end SlotShm

variable {s s' : State C} {o : Outcome}

/-- What an update does: it ends before the build, or the build becomes the current slot, or is the second
one, or fails in the first slot, or in the reserved one. -/
inductive Updated (s s' : State C) (o : Outcome) : Prop
  | skipped : s.build o = none → s'.shm.cur = s.shm.cur → s'.shm.reserved.data = s.shm.reserved.data →
      s'.accepted = s.accepted → s'.failed = s.failed ∨ s'.failed = s.last.version :: s.failed →
      Updated s s' o
  | loaded : s.build o = some true → s'.shm.cur = ⟨⟨s.last.version, some s.last.config⟩, true⟩ →
      s'.shm.reserved.data = s.shm.reserved.data ∨ s'.shm.reserved.data = s.shm.cur.data →
      s'.accepted = s.last.version :: s.accepted → s'.failed = s.failed → Updated s s' o
  | second : s.build o = some true → s.phase = .init 1 → s'.shm.cur = s.shm.cur →
      s'.shm.reserved.data.version = s.last.version →
      s'.accepted = s.last.version :: s.accepted → s'.failed = s.failed → Updated s s' o
  | first : s.build o = some false → s'.shm.cur.valid = false →
      s'.shm.cur.data.version = s.last.version → s'.shm.reserved = s.shm.reserved →
      s'.accepted = s.accepted → s'.failed = s.last.version :: s.failed →
      s.phase = .init 0 → Updated s s' o
  | rejected : s.build o = some false → s.phase ≠ .init 0 → s'.shm.cur = s.shm.cur →
      s'.shm.reserved.data.version = s.last.version →
      s'.accepted = s.accepted → s'.failed = s.last.version :: s.failed → Updated s s' o

/-- What holds in every state: an update comes before the first callback, and a current slot that is valid was
completely built from a published configuration. -/
structure Sound (s : State C) : Prop where
  init : ∀ i, s.phase = .init i → s.shm.current = 0
  start : s.phase = .init 0 → s.shm.cur.valid = false
  complete : s.shm.cur.valid = true →
    ∃ p ∈ s.published, s.shm.cur.data = ⟨p.version, some p.config⟩

/-- The history after an update. -/
theorem record_cases (s : State C) (o : Outcome) :
    (s.record o).last = s.last ∧ (s.record o).older = s.older ∧ match s.build o with
      | none => (s.record o).accepted = s.accepted ∧
          ((s.record o).failed = s.failed ∨ (s.record o).failed = s.last.version :: s.failed)
      | some true => (s.record o).accepted = s.last.version :: s.accepted ∧
          (s.record o).failed = s.failed
      | some false => (s.record o).accepted = s.accepted ∧
          (s.record o).failed = s.last.version :: s.failed := by
  cases o with
  | refused => exact ⟨rfl, rfl, rfl, Or.inl rfl⟩
  | unreadable => exact ⟨rfl, rfl, rfl, Or.inr rfl⟩
  | built ok =>
    simp only [State.record]
    cases s.build (.built ok) with
    | none => exact ⟨rfl, rfl, rfl, Or.inr rfl⟩
    | some b => cases b <;> exact ⟨rfl, rfl, rfl, rfl⟩

/-- **An update**, case by case. -/
theorem update_cases (hs : Sound s) (h : s.step (.update o) = some s') :
    s'.published = s.published ∧ (s'.phase = .idle ∨ s'.phase = .init 1 ∧ s'.shm.current = 0) ∧
      Updated s s' o := by
  obtain ⟨hlast, holder, hrecord⟩ := record_cases s o
  have hpublished : (s.record o).published = s.published := by
    rw [State.published, State.published, hlast, holder]
  rw [State.step] at h
  cases hphase : s.phase with
  | idle =>
    rw [hphase] at h
    cases h
  | init i =>
    rw [hphase] at h
    cases h
    have hcurrent := hs.init i hphase
    obtain rfl | rfl : i = 0 ∨ i = 1 := by omega
    · obtain ⟨hcur, hres⟩ := SlotShm.cur_initSlot_zero (ingressUpdate s.last o) hcurrent
      have htarget : s.target = s.shm.cur := by
        rw [State.target, hphase, SlotShm.cur, hcurrent]
      refine ⟨hpublished, Or.inr ⟨rfl, hcurrent⟩, ?_⟩
      rw [ingressUpdate, ← htarget, ← State.build, htarget] at hcur
      cases hbuild : s.build o with
      | none =>
        rw [hbuild] at hrecord hcur
        refine .skipped hbuild (hcur.trans ?_) (congrArg Slot.data hres) hrecord.1 hrecord.2
        rw [← hs.start hphase]
      | some ok =>
        rw [hbuild] at hrecord hcur
        cases ok with
        | true => exact .loaded hbuild hcur (Or.inl (congrArg Slot.data hres)) hrecord.1 hrecord.2
        | false =>
          exact .first hbuild (congrArg Slot.valid hcur)
            (congrArg (fun d => (Slot.data d).version) hcur) hres hrecord.1 hrecord.2 hphase
    · obtain ⟨hcur, hres⟩ := SlotShm.cur_initSlot_one (ingressUpdate s.last o) hcurrent
      have htarget : s.target = s.shm.reserved := by
        rw [State.target, hphase, SlotShm.reserved, hcurrent]
        rfl
      refine ⟨hpublished, Or.inl rfl, ?_⟩
      rw [ingressUpdate, ← htarget, ← State.build, htarget] at hres
      cases hbuild : s.build o with
      | none =>
        rw [hbuild] at hrecord hres
        exact .skipped hbuild hcur hres hrecord.1 hrecord.2
      | some ok =>
        rw [hbuild] at hrecord hres
        have hversion := congrArg Ingress.version hres
        cases ok with
        | true => exact .second hbuild hphase hcur hversion hrecord.1 hrecord.2
        | false =>
          exact .rejected hbuild (by rw [hphase]; decide) hcur hversion hrecord.1 hrecord.2
  | updating =>
    rw [hphase] at h
    cases h
    have htarget : s.target = s.shm.reserved := by rw [State.target, hphase]
    have hupdate : ingressUpdate s.last o s.shm.reserved.data = (s.build o).elim
        (s.shm.reserved.data, false)
        fun ok => (⟨s.last.version, if ok then some s.last.config else none⟩, ok) := by
      rw [State.build, htarget, ingressUpdate]
      cases buildOf s.last s.shm.reserved.data o <;> rfl
    refine ⟨hpublished, Or.inl rfl, ?_⟩
    cases hbuild : s.build o with
    | none =>
      rw [hbuild] at hrecord hupdate
      obtain ⟨hcur, hres⟩ := SlotShm.callbackUpdate_failed (s := s.shm) (congrArg Prod.snd hupdate)
      rw [hupdate] at hres
      exact .skipped hbuild hcur (congrArg Slot.data hres) hrecord.1 hrecord.2
    | some ok =>
      rw [hbuild] at hrecord hupdate
      cases ok with
      | true =>
        obtain ⟨hcur, hres⟩ := SlotShm.callbackUpdate_ok (s := s.shm) (congrArg Prod.snd hupdate)
        rw [hupdate] at hcur
        exact .loaded hbuild hcur (Or.inr (congrArg Slot.data hres)) hrecord.1 hrecord.2
      | false =>
        obtain ⟨hcur, hres⟩ :=
          SlotShm.callbackUpdate_failed (s := s.shm) (congrArg Prod.snd hupdate)
        rw [hupdate] at hres
        exact .rejected hbuild (by rw [hphase]; decide) hcur
          (congrArg (fun d => (Slot.data d).version) hres) hrecord.1 hrecord.2

/-! ### Every state of every run -/

/-- A check leaves everything but the phase. -/
theorem check_cases {readable : Bool} (h : s.step (.check readable) = some s') :
    s.phase = .idle ∧ s' = { s with
      phase := if s.shm.needUpdate (some (ingressCheckUpdate s.last readable)) then .updating
        else .idle } := by
  rw [State.step] at h
  cases hphase : s.phase with
  | idle =>
    rw [hphase] at h
    exact ⟨rfl, (Option.some.inj h).symm⟩
  | init i =>
    rw [hphase] at h
    exact nomatch h
  | updating =>
    rw [hphase] at h
    exact nomatch h

/-- The initial slots are sound. -/
theorem Sound.initial (h : s.Initial) : Sound s := by
  obtain ⟨-, hshm, -⟩ := h
  have hvalid : s.shm.cur.valid = false := by rw [hshm]; rfl
  exact ⟨fun _ _ => by rw [hshm], fun _ => hvalid, fun h => absurd (hvalid.symm.trans h) nofun⟩

/-- **What holds in every state** is kept by every step. -/
theorem Sound.step {e : Event C} (hs : Sound s) (h : s.step e = some s') : Sound s' := by
  cases e with
  | publish p =>
    cases h
    refine ⟨hs.init, hs.start, fun hvalid => ?_⟩
    obtain ⟨q, hq, hdata⟩ := hs.complete hvalid
    exact ⟨q, mem_cons_of_mem p hq, hdata⟩
  | check readable =>
    obtain ⟨hphase, rfl⟩ := check_cases h
    have hne : ∀ i, (if s.shm.needUpdate (some (ingressCheckUpdate s.last readable)) then
        Phase.updating else Phase.idle) ≠ .init i := fun i => by split_ifs <;> exact nofun
    exact ⟨fun i hi => absurd hi (hne i), fun hi => absurd hi (hne 0), hs.complete⟩
  | update o =>
    obtain ⟨hpublished, hphase, hupdated⟩ := update_cases hs h
    have hstart : s'.phase ≠ .init 0 := by
      rcases hphase with hphase | ⟨hphase, -⟩ <;> rw [hphase] <;> decide
    refine ⟨fun i hi => ?_, fun h0 => absurd h0 hstart, fun hvalid => ?_⟩
    · rcases hphase with hphase | ⟨-, hcurrent⟩
      · exact nomatch hphase.symm.trans hi
      · exact hcurrent
    · rw [hpublished]
      cases hupdated with
      | skipped _ hcur | second _ _ hcur | rejected _ _ hcur =>
        rw [hcur] at hvalid ⊢
        exact hs.complete hvalid
      | loaded _ hcur =>
        rw [hcur]
        exact ⟨s.last, mem_cons_self, rfl⟩
      | first _ hcur => exact absurd (hcur.symm.trans hvalid) nofun

/-- **A failed update** leaves the slot that is returned. -/
theorem Sound.getCurrentSlot (hs : Sound s) (h : s.step (.update o) = some s')
    (hfailed : s.build o ≠ some true) : s'.shm.getCurrentSlot = s.shm.getCurrentSlot := by
  obtain ⟨-, -, hupdated⟩ := update_cases hs h
  rw [SlotShm.getCurrentSlot, SlotShm.getCurrentSlot]
  cases hupdated with
  | skipped _ hcur | rejected _ _ hcur => rw [hcur]
  | loaded hbuild | second hbuild => exact absurd hbuild hfailed
  | first _ hcur _ _ _ _ hphase => rw [hcur, hs.start hphase]; rfl

/-- The version of the current slot, if it is valid. -/
def curVersion (s : State C) : Option UInt64 :=
  if s.shm.cur.valid then some s.shm.cur.data.version else none

/-- The versions of the two slots are right, and that of the current one is known even if it is not valid. -/
structure Right (s : State C) : Prop where
  held : Held (s.published.map Published.version) s.failed s.accepted (curVersion s)
    s.shm.reserved.data.version
  curKnown : s.shm.cur.data.version = 0 ∨
    s.shm.cur.data.version ∈ s.published.map Published.version

/-- Before the first update all is right. -/
theorem Right.initial (h : s.Initial) : Right s := by
  obtain ⟨-, hshm, holder, hfailed, haccepted⟩ := h
  have hcur : curVersion s = none := by rw [curVersion, hshm]; rfl
  have hres : s.shm.reserved.data.version = 0 := by rw [hshm]; rfl
  refine ⟨⟨?_, by simp [haccepted], Or.inl hres, fun _ => ⟨haccepted, hres⟩, ?_⟩,
    Or.inl (by rw [hshm]; rfl)⟩
  · simp [State.published, holder]
  · rw [hcur]
    exact nofun

/-- **A safe step** keeps the versions right. -/
theorem Right.step {e : Event C} (hs : Sound s) (hr : Right s) (he : e.Safe s)
    (h : s.step e = some s') : Right s' := by
  cases e with
  | publish p =>
    cases h
    have hnew : p.version ∉ s.published.map Published.version := fun hmem => by
      obtain ⟨q, hq, heq⟩ := mem_map.mp hmem
      exact he.2 q hq heq
    exact ⟨hr.held.publish hnew he.1, hr.curKnown.imp_right (mem_cons_of_mem _)⟩
  | check readable =>
    obtain ⟨-, rfl⟩ := check_cases h
    exact ⟨hr.held, hr.curKnown⟩
  | update o =>
    obtain ⟨hpublished, -, hupdated⟩ := update_cases hs h
    have hlast : s.last.version ∈ s.published.map Published.version := mem_cons_self
    cases hupdated with
    | skipped _ hcur hres haccepted hfailed =>
      refine ⟨?_, by rw [hpublished, hcur]; exact hr.curKnown⟩
      rw [hpublished, curVersion, hcur, hres, haccepted]
      rcases hfailed with hfailed | hfailed
      · rw [hfailed]
        exact hr.held
      · rw [hfailed]
        exact hr.held.fail
    | loaded _ hcur hres haccepted hfailed =>
      refine ⟨?_, by rw [hpublished, hcur]; exact Or.inr hlast⟩
      rw [hpublished, curVersion, hcur, haccepted, hfailed]
      refine hr.held.load ?_
      rcases hres with hres | hres
      · rw [hres]
        exact hr.held.resKnown
      · rw [hres]
        exact hr.curKnown
    | second hbuild hphase hcur hres haccepted hfailed =>
      obtain ⟨hvalid, hversion⟩ := he.1 hbuild hphase
      have hheld := hr.held
      refine ⟨?_, by rw [hpublished, hcur]; exact hr.curKnown⟩
      rw [curVersion, if_pos hvalid, hversion] at hheld
      rw [hpublished, curVersion, hcur, if_pos hvalid, hres, hversion, haccepted, hfailed]
      exact hheld.second
    | first _ hcur hversion hres haccepted hfailed hphase =>
      have hheld := hr.held
      refine ⟨?_, by rw [hpublished, hversion]; exact Or.inr hlast⟩
      rw [curVersion, hs.start hphase] at hheld
      rw [hpublished, curVersion, hcur, hres, haccepted, hfailed]
      exact hheld.fail
    | rejected hbuild hphase hcur hres haccepted hfailed =>
      obtain ⟨hvalid, htried⟩ := he.2 hbuild hphase
      have hheld := hr.held
      refine ⟨?_, by rw [hpublished, hcur]; exact hr.curKnown⟩
      rw [curVersion, if_pos hvalid] at hheld
      rw [hpublished, curVersion, hcur, if_pos hvalid, hres, haccepted, hfailed]
      exact hheld.reject htried

variable {tr : List (State C × Event C)}

theorem slotMachine_sound (h : (slotMachine C).Run tr s) : Sound s :=
  h.invariant (fun _ => Sound.initial) fun _ _ _ hs hstep => hs.step hstep

/-- **The slots** are right after every run of safe steps. -/
theorem slotMachine_right (h : (slotMachine C).Run tr s) (hsafe : ∀ p ∈ tr, p.2.Safe p.1) :
    Right s := by
  refine (h.invariant_of_steps (P := fun s => Sound s ∧ Right s) (C := fun s e => e.Safe s)
    (fun s hinit => ⟨Sound.initial hinit, Right.initial hinit⟩) ?_ hsafe).2.2
  exact fun s e s' ⟨hs, hr⟩ he hstep => ⟨hs.step hstep, hr.step hs he hstep⟩

/-- A check that is not needed changes nothing. -/
theorem check_idle {readable : Bool} (he : (Event.check (C := C) readable).Safe s)
    (h : s.step (.check readable) = some s') (hidle : s'.phase = .idle) :
    s.shm.reserved.data.version = s.last.version := by
  obtain ⟨-, rfl⟩ := check_cases h
  by_contra hne
  have hneed : s.shm.needUpdate (some (ingressCheckUpdate s.last readable)) = true := by
    simp [SlotShm.needUpdate, ingressCheckUpdate, he.1, hne]
  rw [if_pos hneed] at hidle
  exact nomatch hidle

/-- **The slots are right.** In every run a failed update leaves the slot that is returned, and a slot that is
returned was completely built from a published configuration. In a run of safe steps, where a check finds no
need for an update, the current slot is returned and holds the latest published configuration that was not
rejected. -/
theorem slots_right (h : (slotMachine C).Run tr s) :
    (∀ o s', s.step (.update o) = some s' → (ingressUpdate s.last o s.target.data).2 = false →
      s'.shm.getCurrentSlot = s.shm.getCurrentSlot) ∧
    (∀ d, s.shm.getCurrentSlot = some d → ∃ p ∈ s.published, d = ⟨p.version, some p.config⟩) ∧
    ((∀ p ∈ tr, p.2.Safe p.1) → ∀ readable s', (Event.check (C := C) readable).Safe s →
      s.step (.check readable) = some s' → s'.phase = .idle →
      ∃ p, s.latest = some p ∧ s.shm.getCurrentSlot = some ⟨p.version, some p.config⟩) := by
  have hs := slotMachine_sound h
  refine ⟨fun o s' hstep hfailed => hs.getCurrentSlot hstep fun hbuild => ?_, fun d hd => ?_,
    fun hsafe readable s' he hstep hidle => ?_⟩
  · rw [State.build] at hbuild
    rw [ingressUpdate, hbuild] at hfailed
    exact nomatch hfailed
  · rw [SlotShm.getCurrentSlot] at hd
    split_ifs at hd with hvalid
    cases hd
    exact hs.complete hvalid
  · have hr := slotMachine_right h hsafe
    have hheld := hr.held
    rw [check_idle he hstep hidle] at hheld
    obtain ⟨v, hcur, -, hfind⟩ := hheld.latest he.2
    have hvalid : s.shm.cur.valid = true := by
      by_contra hinvalid
      rw [curVersion, if_neg hinvalid] at hcur
      exact nomatch hcur
    rw [curVersion, if_pos hvalid, Option.some.injEq] at hcur
    obtain ⟨p, hp, hdata⟩ := hs.complete hvalid
    have hpv : p.version = v := by rw [← hcur, hdata]
    -- versions are published once, so the one that is found is the one that was built
    have hfind' : (s.latest).map Published.version = some v := by
      rw [← hfind]
      exact (find?_map (f := Published.version) (l := s.published)
        (p := notRejected s.failed s.accepted)).symm
    obtain ⟨q, hq, hqv⟩ := Option.map_eq_some_iff.mp hfind'
    have hqp : q = p := inj_on_of_nodup_map hr.held.nodup (mem_of_find?_eq_some hq) hp
      (hqv.trans hpv.symm)
    exact ⟨q, hq, by rw [SlotShm.getCurrentSlot, if_pos hvalid, hdata, hqp]⟩

end

/-! ### Only the second slot -/

/-- The start, with a configuration of version 1. -/
def firstVersion : State Unit :=
  ⟨⟨⟨0, Nat.two_pos⟩, fun _ => ⟨⟨0, none⟩, false⟩⟩, .init ⟨0, Nat.two_pos⟩, ⟨1, (), 1⟩, [], [], []⟩

theorem firstVersion_initial : firstVersion.Initial := ⟨rfl, rfl, rfl, rfl, rfl⟩

/-- Both slots are built: the first one is returned when a check finds no need for an update. -/
theorem slots_right_both : ∃ s tr, (slotMachine Unit).Run tr s ∧
    ∃ p, s.latest = some p ∧ s.shm.getCurrentSlot = some ⟨p.version, some p.config⟩ := by
  have hrun : (slotMachine Unit).Run _ _ := Machine.run_of_replay
    [.update (.built true), .update (.built true)] firstVersion_initial rfl
  refine ⟨_, _, hrun, (slots_right hrun).2.2 (fun p hp => ?_) true _ ⟨rfl, by decide⟩ rfl (by decide)⟩
  rcases mem_cons.mp hp with rfl | hp
  · exact ⟨fun _ h => absurd h (by decide), fun h => absurd h (by decide)⟩
  · obtain rfl := mem_singleton.mp hp
    exact ⟨fun _ _ => ⟨by decide, by decide⟩, fun h => absurd h (by decide)⟩

/-- **Only the second slot** is built at the start, because the first one met a lock: the check finds no need
for an update, and no slot is returned. -/
theorem second_slot_only : ∃ tr s, (slotMachine Unit).Run tr s ∧
    (∃ s', s.step (.check true) = some s' ∧ s'.phase = .idle) ∧
    s.latest = some ⟨1, (), 1⟩ ∧ s.shm.getCurrentSlot = none := by
  have hrun : (slotMachine Unit).Run _ _ := Machine.run_of_replay
    [.update .refused, .update (.built true)] firstVersion_initial rfl
  exact ⟨_, _, hrun, ⟨_, rfl, by decide⟩, by decide, by decide⟩

end Hengine.Strategy
