import Hengine.Upstream.DyupsTable

/-!
# Failed Calls of the Dyups Interface

An update is tried on a sandbox name first, so that a body that cannot be used does no harm. What
fails after that, while the upstream itself is made or the other workers are told, is reported with
the status 500 as well, and the upstream of the call is then not what it was.
-/

namespace Hengine.Dyups

open Option Function

variable {t t' : Table} {name body : List UInt8} {luck : Luck}

/-- **The trial** leaves no live upstream under the sandbox name, and the others as they were. -/
theorem sandboxUpdate_spec (h : t.Wf) (hwhole : luck.Whole) {r : Reply}
    (htrial : t.sandboxUpdate luck body = some (t', r)) :
    t'.Wf ∧ t'.live = update t.live (hostKey sandbox) none ∧
      (r.status = .ok ∨ r.status = .error) ∧
      (luck.Fine → (r.status = .ok ↔
        (luck.parse body).2 = true ∧ luck.peers (luck.parse body).1 = true)) := by
  obtain ⟨⟨t₁, r₁⟩, hup, hrest⟩ := bind_eq_some_iff.mp htrial
  obtain ⟨⟨t₂, r₂⟩, hdel, hpair⟩ := map_eq_some_iff.mp hrest
  obtain ⟨rfl, rfl⟩ := Prod.mk.inj hpair
  obtain ⟨hwf, left, hlive, hleaves⟩ := doUpdate_spec h hwhole hup
  obtain ⟨hwf', hlive', -⟩ := doDelete_spec hwf hdel
  refine ⟨hwf', by rw [hlive', hlive, update_idem], ?_, fun hf => (hleaves.fine hf).2⟩
  by_cases hok : r₁.status = .ok
  · exact Or.inl hok
  · exact Or.inr (hleaves.error hok).1

/-- A message that is carried out keeps the table in order. -/
theorem Table.Wf.syncCmd {cmd : Cmd} (h : t.Wf) (hwhole : luck.Whole)
    (hsync : syncCmd luck t cmd = some t') : t'.Wf := by
  unfold Dyups.syncCmd at hsync
  cases hflag : cmd.flag with
  | delete =>
    rw [hflag] at hsync
    obtain ⟨⟨t₁, r⟩, hdel, rfl⟩ := map_eq_some_iff.mp hsync
    exact (doDelete_spec h hdel).1
  | add =>
    rw [hflag] at hsync
    obtain ⟨⟨t₁, r⟩, hup, rfl⟩ := map_eq_some_iff.mp hsync
    exact (doUpdate_spec h hwhole hup).1

/-- So do the messages that are read. -/
theorem Table.Wf.readLoop {lucks : ℕ → Luck} (hwhole : ∀ s, (lucks s).Whole) {full pid : ℕ}
    {msgs kept : List Msg} (h : t.Wf) (hread : readLoop full pid lucks msgs t = some (kept, t')) :
    t'.Wf := by
  induction msgs generalizing t kept with
  | nil =>
    obtain ⟨-, rfl⟩ := Prod.mk.inj (Option.some.inj hread)
    exact h
  | cons m msgs ih =>
    unfold Dyups.readLoop at hread
    split at hread
    · exact ih h hread
    · split at hread
      · obtain ⟨⟨kept', t₁⟩, hrest, hpair⟩ := map_eq_some_iff.mp hread
        obtain ⟨-, rfl⟩ := Prod.mk.inj hpair
        exact ih h hrest
      · obtain ⟨t₁, hsync, hmore⟩ := bind_eq_some_iff.mp hread
        obtain ⟨⟨kept', t₂⟩, hrest, hpair⟩ := map_eq_some_iff.mp hmore
        obtain ⟨-, rfl⟩ := Prod.mk.inj hpair
        exact ih (h.syncCmd (hwhole _) hsync) hrest

/-- Nothing in the call is cut short between the growth of the two arrays. -/
structure Chance.Whole (chance : Chance) : Prop where
  sync : ∀ s, (chance.sync s).Whole
  trial : chance.trial.Whole
  real : chance.real.Whole

variable {caller : Caller} {chance : Chance} {sh sh' : Shctx}

/-- Reading the messages keeps the invariant. -/
theorem Table.Wf.drain (hwhole : chance.Whole) (h : t.Wf)
    (hdrain : caller.drain chance sh t = some (sh', t')) : t'.Wf := by
  unfold Caller.drain readMsgLocked at hdrain
  cases hpool : chance.pool with
  | false =>
    simp only [hpool, Bool.not_false, if_true] at hdrain
    obtain ⟨-, rfl⟩ := Prod.mk.inj (Option.some.inj hdrain)
    exact h
  | true =>
    simp only [hpool, Bool.not_true, Bool.false_eq_true, if_false] at hdrain
    obtain ⟨⟨kept, t₁⟩, hread, hpair⟩ := map_eq_some_iff.mp hdrain
    obtain ⟨-, rfl⟩ := Prod.mk.inj hpair
    exact h.readLoop hwhole.sync hread

/-- What an error leaves, compared with the table `t₁` after the messages of the others. A deletion
has found nothing, or it is done and the others do not know. An update has failed in the trial and
changed nothing, or else it has removed the upstream or put a new one in its place. -/
def Call.Left (chance : Chance) (t₁ t' : Table) (status : Status) : Call → Prop
  | .delete name =>
    (status = .notFound ∧ t'.live = t₁.live) ∨
      (status = .error ∧ t'.live = Function.update t₁.live (hostKey name) none)
  | .update name body =>
    status = .error ∧ ∃ t₂ r₂, t₁.sandboxUpdate chance.trial body = some (t₂, r₂) ∧
      (r₂.status ≠ .ok → t'.live = t₁.live) ∧
      (r₂.status = .ok → ∃ left, t'.live = Function.update t₁.live (hostKey name) left ∧
        (left = none ∨ ∃ servers, left = some ⟨name, servers⟩))

/-- A failed deletion. -/
theorem deleteLocked_error {r : Reply} (h : t.Wf)
    (hrun : deleteLocked caller chance sh t name = some (sh', t', r)) (herr : r.status ≠ .ok) :
    t'.Wf ∧ (Call.delete name).Left chance t t' r.status := by
  unfold deleteLocked at hrun
  obtain ⟨⟨t₁, r₁⟩, hdel, hrest⟩ := map_eq_some_iff.mp hrun
  obtain ⟨hwf, hlive, hstatus⟩ := doDelete_spec h hdel
  by_cases hok : r₁.status = .ok
  · simp only [hok, if_true] at hrest
    obtain ⟨-, rfl, hr⟩ : _ ∧ t₁ = t' ∧ _ = r := by simpa using hrest
    refine ⟨hwf, Or.inr ⟨?_, hlive⟩⟩
    split at hr
    · exact absurd (hr ▸ hok) herr
    · rw [← hr]
  · simp only [hok, if_false] at hrest
    obtain ⟨-, rfl, rfl⟩ : _ ∧ t₁ = t' ∧ r₁ = r := by simpa using hrest
    have hnone : t.live (hostKey name) = none := by
      by_contra hsome
      rw [if_neg hsome] at hstatus
      exact hok hstatus
    rw [if_pos hnone] at hstatus
    exact ⟨hwf, Or.inl ⟨hstatus, by rw [hlive, Function.update_eq_self_iff.mpr hnone.symm]⟩⟩

/-- A failed update. -/
theorem updateLocked_error (hwhole : chance.Whole) {r : Reply} (h : t.Wf)
    (hsandbox : t.live (hostKey sandbox) = none)
    (hrun : updateLocked caller chance sh t name body = some (sh', t', r))
    (herr : r.status ≠ .ok) : t'.Wf ∧ (Call.update name body).Left chance t t' r.status := by
  unfold updateLocked at hrun
  obtain ⟨⟨t₂, r₂⟩, htrial, hrest⟩ := bind_eq_some_iff.mp hrun
  obtain ⟨hwf, hlive, hstatus, -⟩ := sandboxUpdate_spec h hwhole.trial htrial
  rw [update_eq_self_iff.mpr hsandbox.symm] at hlive
  by_cases hok : r₂.status = .ok
  · simp only [hok, ne_eq, not_true_eq_false, if_false] at hrest
    obtain ⟨⟨t₃, r₃⟩, hup, hpair⟩ := map_eq_some_iff.mp hrest
    obtain ⟨hwf', left, hlive', hleaves⟩ := doUpdate_spec hwf hwhole.real hup
    rw [hlive] at hlive'
    by_cases hok' : r₃.status = .ok
    · simp only [hok', if_true] at hpair
      obtain ⟨-, rfl, hr⟩ : _ ∧ t₃ = t' ∧ _ = r := by simpa using hpair
      have herror : r.status = .error := by
        split at hr
        · exact absurd (hr ▸ hok') herr
        · rw [← hr]
      exact ⟨hwf', herror, t₂, r₂, htrial, fun hne => absurd hok hne,
        fun _ => ⟨left, hlive', Or.inr ⟨_, hleaves.ok hok'⟩⟩⟩
    · simp only [hok', if_false] at hpair
      obtain ⟨-, rfl, rfl⟩ : _ ∧ t₃ = t' ∧ r₃ = r := by simpa using hpair
      obtain ⟨herror, hleft⟩ := hleaves.error hok'
      exact ⟨hwf', herror, t₂, r₂, htrial, fun hne => absurd hok hne, fun _ => ⟨left, hlive', hleft⟩⟩
  · simp only [hok, ne_eq, not_false_eq_true, if_true] at hrest
    obtain ⟨-, rfl, rfl⟩ : _ ∧ t₂ = t' ∧ r₂ = r := by simpa using hrest
    exact ⟨hwf, hstatus.resolve_left hok, t₂, r₂, htrial, fun _ => hlive, fun h => absurd h hok⟩

/-! ### A worker with one upstream -/

/-- A server with the usual parameters. -/
def serverOf (name : String) : Server := ⟨str name, 1, 0, 1, 10, false, false⟩

/-- Enough memory; the balancer wants a server. -/
def luckOf (parse : List UInt8 → List Server × Bool) : Luck :=
  ⟨true, true, SrvConf.zero, .done, true, true, parse, fun us => !us.isEmpty⟩

/-- A worker of two. -/
def someCaller : Caller := ⟨2, 7, 0, true, false⟩

/-- The body gives the server `b`; the second time the name may not be resolved, and the shared
memory may be full. -/
def someChance (again memory : Bool) : Chance where
  pool := true
  sync _ := luckOf fun _ => ([serverOf "b"], true)
  trial := luckOf fun _ => ([serverOf "b"], true)
  real := luckOf fun _ => if again then ([serverOf "b"], true) else ([], false)
  memory := memory

/-- No messages yet. -/
def noMessages : Shctx := ⟨[], 0, [⟨0, 0⟩, ⟨0, 0⟩], 0⟩

/-- One upstream, `a`. -/
def oneUpstream : Table :=
  ⟨[⟨0, 0, .no, true, false, ⟨str "a", some [serverOf "a"]⟩⟩], [some (str "a")]⟩

/-- One upstream is well formed. -/
theorem oneUpstream_wf : oneUpstream.Wf := by
  have hzero : ∀ (i : ℕ) (d : SrvConf), oneUpstream.dyUpstreams[i]? = some d → i = 0 := by
    intro i d hd
    have hlt := (List.getElem?_eq_some_iff.mp hd).1
    have hlen : oneUpstream.dyUpstreams.length = 1 := rfl
    omega
  intro i j d e hd he _ _ _
  rw [hzero i d hd, hzero j e he]

/-- The table after the update of `a`. -/
def updatedTable : Table :=
  ⟨[⟨0, 0, .deleted, true, false, ⟨str "a", some [{ serverOf "a" with down := true }]⟩⟩,
    ⟨1, 0, .no, true, true, ⟨str "a", some [serverOf "b"]⟩⟩], [none, some (str "a")]⟩

/-! ### Errors -/

/-- **Failed calls.** A call that is refused changes nothing. Any other error leaves, after the
messages of the other workers, the live upstreams as they were but for the one of the call; that one
is kept too unless the status is 500 and a deletion was done or a trial passed. -/
theorem error_atomic {caller : Caller} {chance : Chance} {sh sh' : Shctx} {r : Reply} (call : Call)
    (h : t.Wf) (hwhole : chance.Whole)
    (hsandbox : ∀ sh₁ t₁, caller.drain chance sh t = some (sh₁, t₁) →
      t₁.live (hostKey sandbox) = none)
    (hrun : call.run caller chance sh t = some (sh', t', r)) (herr : r.status ≠ .ok) :
    t'.Wf ∧ ((sh' = sh ∧ t' = t ∧ (r.status = .notAllowed ∨ r.status = .conflict)) ∨
      ∃ sh₁ t₁, caller.drain chance sh t = some (sh₁, t₁) ∧ call.Left chance t₁ t' r.status) := by
  cases call with
  | update name body =>
    change updateUpstream caller chance sh t name body = _ at hrun
    unfold updateUpstream at hrun
    split at hrun
    · obtain ⟨rfl, rfl, rfl⟩ : sh = sh' ∧ t = t' ∧ _ = r := by simpa using hrun
      exact ⟨h, Or.inl ⟨rfl, rfl, Or.inl rfl⟩⟩
    · split at hrun
      · obtain ⟨rfl, rfl, rfl⟩ : sh = sh' ∧ t = t' ∧ _ = r := by simpa using hrun
        exact ⟨h, Or.inl ⟨rfl, rfl, Or.inr rfl⟩⟩
      · obtain ⟨⟨sh₁, t₁⟩, hdrain, hlocked⟩ := bind_eq_some_iff.mp hrun
        obtain ⟨hwf, hleft⟩ := updateLocked_error hwhole (h.drain hwhole hdrain)
          (hsandbox sh₁ t₁ hdrain) hlocked herr
        exact ⟨hwf, Or.inr ⟨sh₁, t₁, hdrain, hleft⟩⟩
  | delete name =>
    change deleteUpstream caller chance sh t name = _ at hrun
    unfold deleteUpstream at hrun
    split at hrun
    · obtain ⟨rfl, rfl, rfl⟩ : sh = sh' ∧ t = t' ∧ _ = r := by simpa using hrun
      exact ⟨h, Or.inl ⟨rfl, rfl, Or.inl rfl⟩⟩
    · split at hrun
      · obtain ⟨rfl, rfl, rfl⟩ : sh = sh' ∧ t = t' ∧ _ = r := by simpa using hrun
        exact ⟨h, Or.inl ⟨rfl, rfl, Or.inr rfl⟩⟩
      · obtain ⟨⟨sh₁, t₁⟩, hdrain, hlocked⟩ := bind_eq_some_iff.mp hrun
        obtain ⟨hwf, hleft⟩ := deleteLocked_error (h.drain hwhole hdrain) hlocked herr
        exact ⟨hwf, Or.inr ⟨sh₁, t₁, hdrain, hleft⟩⟩

/-- The update of `a` that the shared memory has no room for. -/
theorem error_atomic_full :
    updatedTable.Wf ∧ (({ noMessages with status := [⟨7, 0⟩, ⟨0, 0⟩] } = noMessages ∧
        updatedTable = oneUpstream ∧ (Status.error = .notAllowed ∨ Status.error = .conflict)) ∨
      ∃ sh₁ t₁, someCaller.drain (someChance true false) noMessages oneUpstream = some (sh₁, t₁) ∧
        (Call.update (str "a") []).Left (someChance true false) t₁ updatedTable .error) := by
  refine error_atomic (r := ⟨.error, "alert: update success but not sync to other process"⟩)
    (.update (str "a") []) oneUpstream_wf
    ⟨fun _ => Or.inl rfl, Or.inl rfl, Or.inl rfl⟩ ?_ (by decide) (by decide)
  intro sh₁ t₁ hdrain
  have hsome : (someCaller.drain (someChance true false) noMessages oneUpstream).map
      (fun o => o.2.live (hostKey sandbox)) = some none := by decide
  rw [hdrain] at hsome
  exact Option.some.inj hsome

/-! ### Errors that change something -/

/-- The call as an atomic one: after an error the live upstreams are those after the messages of the
others. -/
def Call.Atomic (caller : Caller) (chance : Chance) (sh : Shctx) (t : Table) (call : Call) : Prop :=
  ∀ sh' t' r, call.run caller chance sh t = some (sh', t', r) → r.status ≠ .ok →
    t'.live = t.live ∨ ∃ sh₁ t₁, caller.drain chance sh t = some (sh₁, t₁) ∧ t'.live = t₁.live

/-- An atomic call that fails shows under each name what was there. -/
theorem Call.Atomic.live_eq {sh : Shctx} {call : Call} (h : call.Atomic caller chance sh t)
    (key : ℕ × List UInt8)
    (herr : (call.run caller chance sh t).map (fun o => o.2.2.status) = some .error) :
    (call.run caller chance sh t).map (fun o => o.2.1.live key) = some (t.live key) ∨
      (call.run caller chance sh t).map (fun o => o.2.1.live key)
        = (caller.drain chance sh t).map fun o => o.2.live key := by
  obtain ⟨⟨sh', t', r⟩, hrun, hstatus⟩ := map_eq_some_iff.mp herr
  have hne : r.status ≠ .ok := by
    intro hok
    cases hok.symm.trans hstatus
  rcases h sh' t' r hrun hne with hlive | ⟨sh₁, t₁, hdrain, hlive⟩
  · exact Or.inl (by rw [hrun, map_some, hlive])
  · exact Or.inr (by rw [hrun, hdrain, map_some, map_some, hlive])

/-- **Errors that change the table.** An update and a deletion of `a` that the shared memory has no
room for, and an update of which a server is not resolved after the trial. -/
theorem error_not_atomic :
    ¬ (Call.update (str "a") []).Atomic someCaller (someChance true false) noMessages oneUpstream ∧
    ¬ (Call.delete (str "a")).Atomic someCaller (someChance true false) noMessages oneUpstream ∧
    ¬ (Call.update (str "a") []).Atomic someCaller (someChance false true) noMessages oneUpstream := by
  refine ⟨fun h => ?_, fun h => ?_, fun h => ?_⟩
  · have hlive := h.live_eq (hostKey (str "a")) (by decide)
    revert hlive
    decide
  · have hlive := h.live_eq (hostKey (str "a")) (by decide)
    revert hlive
    decide
  · have hlive := h.live_eq (hostKey (str "a")) (by decide)
    revert hlive
    decide

end Hengine.Dyups
