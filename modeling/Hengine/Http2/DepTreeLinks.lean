import Hengine.Http2.DepTree

/-!
# Links and Ranks of the Dependency Tree

What the operations on the nodes do to the links between them and to the ranks. A tree is
**linked** when the queues of children agree with the parents; each operation keeps that. The
ranks are right again after `nodeChildrenUpdate` if they were right everywhere but below the
node it is called for.
-/

namespace Hengine

open List Function Option

namespace DepTree

variable {t t' : DepTree} {x y z p : ℕ} {q : Ref ℕ}

/-- The queues and the parents agree. -/
structure Linked (t : DepTree) : Prop where
  nodup : t.ids.Nodup
  parent_mem : ∀ x p, x ∈ t.ids → t.parent x = .node p → p ∈ t.ids
  mem_children : ∀ q x, x ∈ t.children q ↔ x ∈ t.ids ∧ t.parent x = q ∧ q ≠ .null
  children_nodup : ∀ q, (t.children q).Nodup

/-- All nodes lead to the root. -/
def Rooted (t : DepTree) : Prop := ∀ x ∈ t.ids, ∃ n, Depth t.parent x n

/-- All ranks are right. -/
def Ranked (t : DepTree) : Prop := ∀ x ∈ t.ids, RankOk t.parent t.rank x

theorem parent_ne_null_of_rankOk (h : RankOk t.parent t.rank x) : t.parent x ≠ .null := by
  intro hnull
  simp [RankOk, hnull] at h

theorem Linked.depth (h : t.Linked) (hr : t.Ranked) (hx : x ∈ t.ids) :
    Depth t.parent x (t.rank x) :=
  depth_of_ranks h.parent_mem hr x hx

theorem rankOk_iff (hx : t.parent x ≠ .null) :
    RankOk t.parent t.rank x ↔ t.rank x = t.rankUnder (t.parent x) := by
  cases hup : t.parent x with
  | null => exact absurd hup hx
  | root => simp only [RankOk, hup, rankUnder]
  | node p => simp only [RankOk, hup, rankUnder]

/-! ### Renumbering -/

section

variable (h : t.Linked)
include h

/-- What is below a node is its child or below one. -/
theorem Linked.under_parent (hy : Under (fun a => t.children (.node a)) x y) :
    ∃ a, t.parent y = .node a ∧ (a = x ∨ Under (fun a => t.children (.node a)) x a) := by
  rcases Relation.TransGen.tail'_iff.mp hy with ⟨a, ha, hay⟩
  refine ⟨a, ((h.mem_children _ _).mp hay).2.1, ?_⟩
  rcases Relation.reflTransGen_iff_eq_or_transGen.mp ha with heq | htrans
  · exact Or.inl heq
  · exact Or.inr htrans

/-- A node whose parent lies below another does so too. -/
theorem Linked.under_of_parent (hy : y ∈ t.ids) {a : ℕ} (ha : t.parent y = .node a)
    (hx : a = x ∨ Under (fun a => t.children (.node a)) x a) :
    Under (fun a => t.children (.node a)) x y := by
  have hmem : y ∈ t.children (.node a) := (h.mem_children _ _).mpr ⟨hy, ha, by simp⟩
  rcases hx with rfl | hx
  · exact .single hmem
  · exact hx.tail hmem

/-- **`ngx_http_v2_node_children_update` ends**, and with all ranks right, if they were right
for all nodes but the children of the one it starts from. -/
theorem nodeChildrenUpdate_spec (hroot : t.Rooted) (hx : x ∈ t.ids)
    (hok : ∀ y ∈ t.ids, t.parent y ≠ .node x → RankOk t.parent t.rank y) :
    ∃ r, t.nodeChildrenUpdate x = some { t with rank := r } ∧
      ∀ y ∈ t.ids, RankOk t.parent r y := by
  classical
  -- The depths, for which the links account.
  choose! d hd using hroot
  have hdok : ∀ y ∈ t.ids, RankOk t.parent d y := fun y hy =>
    rankOk_of_depth (fun p hp => hd p (h.parent_mem y p hy hp)) (hd y hy)
  have hstep : ∀ a b, b ∈ t.children (.node a) → d b = d a + 1 := by
    intro a b hb
    obtain ⟨hb, hpb, -⟩ := (h.mem_children _ _).mp hb
    exact (hdok b hb).node hpb
  have hbound : ∀ a b, b ∈ t.children (.node a) → d b ≤ t.ids.length := by
    intro a b hb
    exact rank_le_length h.parent_mem hdok ((h.mem_children _ _).mp hb).1
  obtain ⟨r, hrun, hin, hout⟩ :=
    relabel_spec _ hstep hbound t.rank x (show t.ids.length < d x + (t.ids.length + 1) by omega)
      (Nat.succ_pos _)
  refine ⟨r, by rw [nodeChildrenUpdate, hrun]; rfl, ?_⟩
  intro y hy
  have hxx : r x = t.rank x := hout x fun hu => Nat.lt_irrefl _ (hu.depth_lt hstep)
  by_cases hu : Under (fun a => t.children (.node a)) x y
  · obtain ⟨a, ha, hax⟩ := h.under_parent hu
    have hda := (hdok y hy).node ha
    have hra : r a = t.rank x + (d a - d x) ∧ d x ≤ d a := by
      rcases hax with rfl | hax
      · exact ⟨by omega, Nat.le_refl _⟩
      · exact ⟨hin a hax, (hax.depth_lt hstep).le⟩
    have hry := hin y hu
    simp only [RankOk, ha]
    omega
  · have hpar : t.parent y ≠ .node x := fun hp => hu (h.under_of_parent hy hp (Or.inl rfl))
    refine (hok y hy hpar).congr rfl (hout y hu) fun p hp => hout p fun hup => ?_
    exact hu (h.under_of_parent hy hp (Or.inr hup))

/-! ### Moving a node -/

/-- A node without a parent is in no queue. -/
theorem Linked.queueRemove_of_null (hx : t.parent x = .null) : t.queueRemove x = t := by
  have herase : ∀ q, (t.children q).erase x = t.children q := by
    intro q
    refine erase_of_not_mem fun hmem => ?_
    obtain ⟨-, hq, hne⟩ := (h.mem_children q x).mp hmem
    exact hne (hq.symm.trans hx)
  simp only [queueRemove, herase]

/-- Moving a node takes it out of one queue and puts it into another. -/
theorem Linked.moveUnder_eq (x : ℕ) (q : Ref ℕ) :
    t.moveUnder x q = { t with
      children := update (fun q' => (t.children q').erase x) q
        ((t.children q).erase x ++ [x])
      parent := update t.parent x q } := by
  by_cases hx : t.parent x = .null
  · have heq := congrArg DepTree.children (h.queueRemove_of_null hx)
    simp only [queueRemove] at heq
    simp only [moveUnder, if_pos hx, heq, congrFun heq q]
  · simp only [moveUnder, if_neg hx, queueRemove]

/-- A moved node is in the queue of its new parent. -/
theorem Linked.moveUnder (hx : x ∈ t.ids) (hq : q ≠ .null) (hmem : ∀ p, q = .node p → p ∈ t.ids) :
    (t.moveUnder x q).Linked := by
  have herase : ∀ q' y, y ∈ (t.children q').erase x ↔ y ≠ x ∧ y ∈ t.children q' :=
    fun q' y => (h.children_nodup q').mem_erase_iff
  rw [h.moveUnder_eq x q]
  refine ⟨h.nodup, ?_, ?_, ?_⟩
  · intro y p hy hp
    dsimp only at hy hp ⊢
    by_cases hyx : y = x
    · rw [hyx, update_self] at hp
      exact hmem p hp
    · rw [update_of_ne hyx] at hp
      exact h.parent_mem y p hy hp
  · intro q' y
    dsimp only
    by_cases hyx : y = x
    · subst hyx
      rw [update_self]
      by_cases hqq : q' = q
      · subst hqq
        simp [hx, hq]
      · rw [update_of_ne hqq, herase]
        simp [Ne.symm hqq]
    · rw [update_of_ne hyx]
      by_cases hqq : q' = q
      · subst hqq
        rw [update_self, mem_append, herase, h.mem_children]
        simp [hyx]
      · rw [update_of_ne hqq, herase, h.mem_children]
        simp [hyx]
  · intro q'
    dsimp only
    by_cases hqq : q' = q
    · subst hqq
      rw [update_self]
      refine nodup_append.mpr ⟨(h.children_nodup q').erase x, nodup_singleton x, ?_⟩
      intro a ha b hb
      rw [mem_singleton.mp hb]
      exact ((herase q' a).mp ha).1
    · rw [update_of_ne hqq]
      exact (h.children_nodup q').erase x

/-- Adopted children are in the queue of their new parent. -/
theorem Linked.adopt (hx : x ∈ t.ids) (hqx : q ≠ .node x) : (t.adopt x q).Linked := by
  refine ⟨h.nodup, ?_, ?_, ?_⟩
  · intro y p hy hp
    simp only [DepTree.adopt] at hp
    by_cases hyq : y ∈ t.children q
    · rw [if_pos hyq] at hp
      cases hp
      exact hx
    · rw [if_neg hyq] at hp
      exact h.parent_mem y p hy hp
  · intro q' y
    simp only [DepTree.adopt]
    by_cases hyq : y ∈ t.children q
    · obtain ⟨hy, hpy, hne⟩ := (h.mem_children q y).mp hyq
      rw [if_pos hyq]
      by_cases hqq : q' = q
      · subst hqq
        simp [Ne.symm hqx]
      · rw [update_of_ne hqq]
        by_cases hqn : q' = .node x
        · subst hqn
          simp [hyq, hy]
        · rw [update_of_ne hqn, h.mem_children, hpy]
          simp [Ne.symm hqq, Ne.symm hqn]
    · rw [if_neg hyq]
      by_cases hqq : q' = q
      · subst hqq
        rw [update_self, ← h.mem_children]
        simp [hyq]
      · rw [update_of_ne hqq]
        by_cases hqn : q' = .node x
        · subst hqn
          rw [update_self, mem_append, h.mem_children]
          simp [hyq]
        · rw [update_of_ne hqn, h.mem_children]
  · intro q'
    simp only [DepTree.adopt]
    by_cases hqq : q' = q
    · subst hqq
      rw [update_self]
      exact nodup_nil
    · rw [update_of_ne hqq]
      by_cases hqn : q' = .node x
      · subst hqn
        rw [update_self]
        refine nodup_append.mpr ⟨h.children_nodup _, h.children_nodup q, ?_⟩
        rintro a ha b hb rfl
        have hpa := ((h.mem_children _ _).mp ha).2.1
        have hpb := ((h.mem_children _ _).mp hb).2.1
        exact hqx (hpb.symm.trans hpa)
      · rw [update_of_ne hqn]
        exact h.children_nodup q'

end

/-! ### The end of `ngx_http_v2_set_dependency` -/

/-- The links once `x` is under `q`. -/
def attachParent (t : DepTree) (x : ℕ) (q : Ref ℕ) (exclusive : Bool) : ℕ → Ref ℕ :=
  fun y => if y = x then q
    else if exclusive ∧ y ∈ t.children q then .node x else t.parent y

/-- The tree before the last renumbering. -/
def attached (t : DepTree) (x : ℕ) (q : Ref ℕ) (exclusive : Bool) : DepTree :=
  (if exclusive then t.adopt x q else t).moveUnder x q

/-- What the last moves change: the links and the queues. -/
theorem attached_eq (h : t.Linked) (hx : x ∈ t.ids) (hqx : q ≠ .node x) (exclusive : Bool) :
    ∃ cs, t.attached x q exclusive =
      { t with children := cs, parent := t.attachParent x q exclusive } := by
  have hparent : update (if exclusive then t.adopt x q else t).parent x q =
      t.attachParent x q exclusive := by
    funext y
    by_cases hyx : y = x
    · rw [hyx, update_self, attachParent, if_pos rfl]
    · rw [update_of_ne hyx, attachParent, if_neg hyx]
      cases exclusive with
      | false => simp
      | true => simp [adopt]
  rw [← hparent]
  cases exclusive with
  | false => exact ⟨_, h.moveUnder_eq x q⟩
  | true => exact ⟨_, (h.adopt hx hqx).moveUnder_eq x q⟩

/-- **Attaching a node** to a queue keeps the links. -/
theorem Linked.attached (h : t.Linked) (hx : x ∈ t.ids) (hqx : q ≠ .node x) (hq : q ≠ .null)
    (hmem : ∀ p, q = .node p → p ∈ t.ids) (exclusive : Bool) :
    (t.attached x q exclusive).Linked := by
  cases exclusive with
  | false => exact h.moveUnder hx hq hmem
  | true => exact (h.adopt hx hqx).moveUnder hx hq hmem

/-- **No cycle arises** when a node goes under one that it is not above. -/
theorem rooted_attachParent (h : t.Linked) (hqx : q ≠ .node x) (hq : q ≠ .null)
    (hroot : ∀ y ∈ t.ids, y ≠ x → ∃ n, Depth t.parent y n)
    (hmem : ∀ p, q = .node p → p ∈ t.ids ∧ ¬ Above t.parent p x) (exclusive : Bool) :
    ∀ y ∈ t.ids, ∃ n, Depth (t.attachParent x q exclusive) y n := by
  have hself : t.attachParent x q exclusive x = q := if_pos rfl
  -- The way up from the new parent is as before.
  have hx : ∃ n, Depth (t.attachParent x q exclusive) x n := by
    cases q with
    | null => exact absurd rfl hq
    | root => exact ⟨1, .top hself⟩
    | node p =>
      obtain ⟨hp, hab⟩ := hmem p rfl
      obtain ⟨n, hn⟩ := hroot p hp fun heq => hqx (heq ▸ rfl)
      refine ⟨n + 1, .child hself (hn.congr fun y hy => ?_)⟩
      have hyx : y ≠ x := fun heq => hab (heq ▸ hy)
      have hch : y ∉ t.children (.node p) := fun hc =>
        hn.not_above_child hy ((h.mem_children _ _).mp hc).2.1
      rw [attachParent, if_neg hyx, if_neg fun hc => hch hc.2]
  -- The children that were adopted lead to `x`, and all others have kept their links.
  have hkeep : ∀ y, t.attachParent x q exclusive y = t.parent y ∨
      ∃ n, Depth (t.attachParent x q exclusive) y n := by
    intro y
    by_cases hyx : y = x
    · exact Or.inr (hyx ▸ hx)
    · by_cases hc : exclusive ∧ y ∈ t.children q
      · obtain ⟨n, hn⟩ := hx
        exact Or.inr ⟨n + 1, .child (by rw [attachParent, if_neg hyx, if_pos hc]) hn⟩
      · exact Or.inl (by rw [attachParent, if_neg hyx, if_neg hc])
  intro y hy
  by_cases hyx : y = x
  · exact hyx ▸ hx
  · obtain ⟨n, hn⟩ := hroot y hy hyx
    exact hn.rebuild hkeep

/-- **A node in its place.** The ranks may be wrong before for `x`, for its children and for
those it adopts. -/
theorem attach_spec (h : t.Linked) (hx : x ∈ t.ids) (hqx : q ≠ .node x) (hq : q ≠ .null)
    (hroot : ∀ y ∈ t.ids, y ≠ x → ∃ n, Depth t.parent y n)
    (hmem : ∀ p, q = .node p → p ∈ t.ids ∧ ¬ Above t.parent p x) (exclusive : Bool)
    (hrank : t.rank x = t.rankUnder q)
    (hok : ∀ y ∈ t.ids, y ≠ x → t.parent y ≠ .node x → (exclusive → t.parent y ≠ q) →
      RankOk t.parent t.rank y) :
    ∃ t', t.attach x q exclusive = some t' ∧ t'.Linked ∧ t'.Ranked ∧ t'.ids = t.ids ∧
      t'.weight = t.weight ∧ t'.stream = t.stream ∧ t'.closed = t.closed ∧
      t'.closedNodes = t.closedNodes := by
  have hlinked := h.attached hx hqx hq (fun p hp => (hmem p hp).1) exclusive
  obtain ⟨cs, heq⟩ := attached_eq h hx hqx exclusive
  have hrooted := rooted_attachParent h hqx hq hroot hmem exclusive
  have hattach : t.attach x q exclusive = (t.attached x q exclusive).nodeChildrenUpdate x := rfl
  rw [hattach, heq]
  rw [heq] at hlinked
  obtain ⟨r, hrun, hr⟩ := nodeChildrenUpdate_spec hlinked hrooted hx (by
    intro y hy hpy
    dsimp only at hy hpy ⊢
    by_cases hyx : y = x
    · subst hyx
      have hself : t.attachParent y q exclusive y = q := if_pos rfl
      cases q with
      | null => exact absurd rfl hq
      | root => simpa only [RankOk, hself, rankUnder] using hrank
      | node p => simpa only [RankOk, hself, rankUnder] using hrank
    · rw [attachParent, if_neg hyx] at hpy
      by_cases hc : exclusive ∧ y ∈ t.children q
      · exact absurd (if_pos hc) hpy
      · rw [if_neg hc] at hpy
        refine (hok y hy hyx hpy fun hex hpq => hc ⟨hex, ?_⟩).congr ?_ rfl fun _ _ => rfl
        · exact (h.mem_children q y).mpr ⟨hy, hpq, hq⟩
        · rw [attachParent, if_neg hyx, if_neg hc])
  rw [hrun]
  refine ⟨_, rfl, ?_, hr, rfl, rfl, rfl, rfl, rfl⟩
  exact ⟨hlinked.nodup, hlinked.parent_mem, hlinked.mem_children, hlinked.children_nodup⟩

/-! ### A parent that is below the node -/

end DepTree

/-- What is in a queue after an insertion. -/
theorem mem_insertAfter {x p y : ℕ} {l : List ℕ} :
    y ∈ insertAfter x p l ↔ y ∈ l ∨ (y = p ∧ x ∈ l) := by
  induction l with
  | nil => simp [insertAfter]
  | cons z l ih =>
    rw [insertAfter]
    by_cases hz : z = x
    · rw [if_pos hz]
      simp only [mem_cons, hz, true_or, and_true]
      tauto
    · rw [if_neg hz]
      simp only [mem_cons, ih, Ne.symm hz, false_or]
      tauto

/-- An insertion puts nothing in twice. -/
theorem nodup_insertAfter {x p : ℕ} {l : List ℕ} (hl : l.Nodup) (hp : p ∉ l) :
    (insertAfter x p l).Nodup := by
  induction l with
  | nil => exact hl
  | cons z l ih =>
    obtain ⟨hz, hl⟩ := nodup_cons.mp hl
    obtain ⟨hpz, hpl⟩ := not_or.mp (mt mem_cons.mpr hp)
    rw [insertAfter]
    split
    · refine nodup_cons.mpr ⟨?_, nodup_cons.mpr ⟨hpl, hl⟩⟩
      intro hmem
      rcases mem_cons.mp hmem with heq | hmem
      · exact hpz heq.symm
      · exact hz hmem
    · refine nodup_cons.mpr ⟨?_, ih hl hpl⟩
      intro hmem
      rcases mem_insertAfter.mp hmem with hmem | ⟨heq, -⟩
      · exact hz hmem
      · exact hpz heq.symm

namespace DepTree

variable {t t' : DepTree} {x y z p : ℕ} {q : Ref ℕ}

/-- The tree once `p` is beside `x`, before its children are renumbered. -/
def raised (t : DepTree) (x p : ℕ) : DepTree :=
  { t with
    children := fun q => insertAfter x p ((t.children q).erase p)
    parent := update t.parent p (t.parent x)
    rank := update t.rank p (t.rankUnder (t.parent x)) }

/-- It is still linked. -/
theorem Linked.raised (h : t.Linked) (hx : x ∈ t.ids) (hp : p ∈ t.ids) (hpx : p ≠ x) :
    (t.raised x p).Linked := by
  have herase : ∀ q' y, y ∈ (t.children q').erase p ↔ y ≠ p ∧ y ∈ t.children q' :=
    fun q' y => (h.children_nodup q').mem_erase_iff
  refine ⟨h.nodup, ?_, ?_, ?_⟩
  · intro y g hy hg
    simp only [DepTree.raised] at hy hg ⊢
    by_cases hyp : y = p
    · rw [hyp, update_self] at hg
      exact h.parent_mem x g hx hg
    · rw [update_of_ne hyp] at hg
      exact h.parent_mem y g hy hg
  · intro q' y
    simp only [DepTree.raised]
    rw [mem_insertAfter, herase, herase, h.mem_children, h.mem_children]
    by_cases hyp : y = p
    · subst hyp
      rw [update_self]
      simp [hp, hx, Ne.symm hpx]
    · rw [update_of_ne hyp]
      simp [hyp]
  · intro q'
    refine nodup_insertAfter ((h.children_nodup q').erase p) fun hmem => ?_
    exact ((herase q' p).mp hmem).1 rfl

/-- **`p` beside `x`**, where `x` was above it: all nodes still lead to the root, and `x` is
above `p` no more. -/
theorem rooted_raised (h : t.Linked) (hr : t.Ranked) (hx : x ∈ t.ids) (hp : p ∈ t.ids)
    (hpx : p ≠ x) (hab : Above t.parent p x) :
    (t.raised x p).Rooted ∧ ¬ Above (t.raised x p).parent p x := by
  have hself : (t.raised x p).parent p = t.parent x := update_self ..
  have hother : ∀ y, y ≠ p → (t.raised x p).parent y = t.parent y := fun y hy =>
    update_of_ne hy ..
  -- What is above `x` has a smaller rank than `p`.
  have hlt : t.rank x < t.rank p := by
    rcases (hab.rank_le h.parent_mem hr hp).2 with hlt | heq
    · exact hlt
    · exact absurd heq.symm hpx
  have hdx : Depth (t.raised x p).parent x (t.rank x) := by
    refine (h.depth hr hx).congr fun y hy => hother y ?_
    rintro rfl
    rcases (hy.rank_le h.parent_mem hr hx).2 with hlt' | heq
    · omega
    · exact hpx heq
  have hdp : Depth (t.raised x p).parent p (t.rank x) :=
    hdx.sibling (hself.trans (hother x (Ne.symm hpx)).symm)
  constructor
  · intro y hy
    refine (h.depth hr hy).rebuild fun y => ?_
    by_cases hyp : y = p
    · subst hyp
      exact Or.inr ⟨_, hdp⟩
    · exact Or.inl (hother y hyp)
  · intro habove
    rcases hdp.above habove with heq | ⟨m, hm, hdm⟩
    · exact hpx heq.symm
    · have := hdm.unique hdx
      omega

/-- The ranks are right but below `p`. -/
theorem ranked_raised (hr : t.Ranked) (hx : x ∈ t.ids) (hy : y ∈ t.ids)
    (hyp : (t.raised x p).parent y ≠ .node p) :
    RankOk (t.raised x p).parent (t.raised x p).rank y := by
  by_cases heq : y = p
  · subst heq
    have hself : (t.raised x y).parent y = t.parent x := update_self ..
    have hrank : (t.raised x y).rank y = t.rankUnder (t.parent x) := update_self ..
    rw [hself] at hyp
    cases hup : t.parent x with
    | null => exact absurd hup (parent_ne_null_of_rankOk (hr x hx))
    | root => simp only [RankOk, hself, hup, hrank, rankUnder]
    | node g =>
      have hg : g ≠ y := fun heq => hyp (heq ▸ hup)
      have hrg : (t.raised x y).rank g = t.rank g := update_of_ne hg ..
      simp only [RankOk, hself, hup, hrank, rankUnder, hrg]
  · have hother : (t.raised x p).parent y = t.parent y := update_of_ne heq ..
    rw [hother] at hyp
    refine (hr y hy).congr hother (update_of_ne heq ..) fun g hg => ?_
    refine update_of_ne ?_ ..
    rintro rfl
    exact hyp hg

/-! ### `ngx_http_v2_set_dependency` -/

/-- All is well with the nodes other than `x`; and `x` has its place, or is new and has neither
a parent nor children. -/
structure Pending (t : DepTree) (x : ℕ) : Prop where
  linked : t.Linked
  mem : x ∈ t.ids
  ranks : ∀ y ∈ t.ids, y ≠ x → RankOk t.parent t.rank y
  self : RankOk t.parent t.rank x ∨ (t.parent x = .null ∧ ∀ y ∈ t.ids, t.parent y ≠ .node x)

/-- What the ancestor loop and the moves leave alone. -/
def SameBook (t t' : DepTree) : Prop :=
  t'.ids = t.ids ∧ t'.weight = t.weight ∧ t'.stream = t.stream ∧ t'.closedNodes = t.closedNodes

/-- A pending node with a parent has its rank. -/
theorem Pending.ranked (h : t.Pending x) (hx : t.parent x ≠ .null) : t.Ranked := by
  have hself : RankOk t.parent t.rank x := by
    rcases h.self with hok | ⟨hnull, -⟩
    · exact hok
    · exact absurd hnull hx
  intro y hy
  by_cases hyx : y = x
  · exact hyx ▸ hself
  · exact h.ranks y hy hyx

/-- The other nodes lead to the root while one is not linked. -/
theorem Pending.depth (h : t.Pending x) (hy : y ∈ t.ids) (hyx : y ≠ x) :
    ∃ n, Depth t.parent y n := by
  rcases h.self with hok | ⟨-, hnone⟩
  · exact ⟨_, h.linked.depth (h.ranked (parent_ne_null_of_rankOk hok)) hy⟩
  · refine ⟨t.rank y, depth_of_ranks (s := fun y => y ∈ t.ids ∧ y ≠ x) ?_ ?_ y ⟨hy, hyx⟩⟩
    · rintro y p ⟨hy, -⟩ hp
      refine ⟨h.linked.parent_mem y p hy hp, ?_⟩
      rintro rfl
      exact hnone y hy hp
    · rintro y ⟨hy, hyx⟩
      exact h.ranks y hy hyx

/-- A new node is above no other. -/
theorem Pending.not_above (h : t.Pending x) (hnull : t.parent x = .null) (hp : p ∈ t.ids)
    (hpx : p ≠ x) : ¬ Above t.parent p x := by
  rcases h.self with hok | ⟨-, hnone⟩
  · exact absurd hnull (parent_ne_null_of_rankOk hok)
  · intro hab
    have hin : ∀ {y}, Above t.parent p y → y ∈ t.ids := by
      intro y hy
      induction hy with
      | refl => exact hp
      | tail _ hbc ih => exact h.linked.parent_mem _ _ ih hbc
    rcases Relation.ReflTransGen.cases_tail hab with heq | ⟨b, hb, hbx⟩
    · exact hpx heq.symm
    · exact hnone b (hin hb) hbx

/-- The tree when the loop is done: `x` is not above its parent `p`. Below `p` the ranks may be
wrong if `x` is about to take the children of `p`. -/
structure Lifted (t : DepTree) (x p : ℕ) (exclusive : Bool) : Prop where
  linked : t.Linked
  deep : ∀ y ∈ t.ids, y ≠ x → ∃ n, Depth t.parent y n
  not_above : ¬ Above t.parent p x
  ranks : ∀ y ∈ t.ids, y ≠ x → (exclusive → t.parent y ≠ .node p) → RankOk t.parent t.rank y

/-- **What the climb finds**: whether `x` is above its new parent. -/
theorem climbTo_parent (h : t.Linked) (hr : t.Ranked) (hp : p ∈ t.ids) (hpx : p ≠ x) :
    (climbTo t.parent t.rank x (t.ids.length + 1) (t.parent p) = some true ∧ Above t.parent p x) ∨
      (climbTo t.parent t.rank x (t.ids.length + 1) (t.parent p) = some false ∧
        ¬ Above t.parent p x) := by
  have habove : ∀ g, t.parent p = .node g → (Above t.parent p x ↔ Above t.parent g x) := by
    intro g hg
    constructor
    · intro hab
      rcases Relation.ReflTransGen.cases_head hab with heq | ⟨c, hc, hrest⟩
      · exact absurd heq hpx
      · rw [hg] at hc
        cases hc
        exact hrest
    · exact fun hab => Relation.ReflTransGen.head hg hab
  cases hup : t.parent p with
  | null => exact absurd hup (parent_ne_null_of_rankOk (hr p hp))
  | root =>
    refine Or.inr ⟨rfl, fun hab => ?_⟩
    rcases Relation.ReflTransGen.cases_head hab with heq | ⟨c, hc, -⟩
    · exact hpx heq
    · rw [hup] at hc
      cases hc
  | node g =>
    have hg := h.parent_mem p g hp hup
    have hle := rank_le_length h.parent_mem hr hg
    rw [habove g hup]
    exact climbTo_spec h.parent_mem hr x hg (by omega)

/-- **The ancestor loop** ends, and after it no cycle can arise. -/
theorem raiseBelow_spec (h : t.Pending x) (hp : p ∈ t.ids) (hpx : p ≠ x) (exclusive : Bool) :
    ∃ t', t.raiseBelow x p exclusive = some t' ∧ t'.Lifted x p exclusive ∧ SameBook t t' ∧
      t'.closed = t.closed := by
  by_cases hnull : t.parent x = .null
  · refine ⟨t, by rw [raiseBelow, if_pos hnull], ?_, ⟨rfl, rfl, rfl, rfl⟩, rfl⟩
    exact ⟨h.linked, fun y hy hyx => h.depth hy hyx, h.not_above hnull hp hpx,
      fun y hy hyx _ => h.ranks y hy hyx⟩
  · have hr := h.ranked hnull
    rw [raiseBelow, if_neg hnull]
    rcases climbTo_parent h.linked hr hp hpx with ⟨hrun, hab⟩ | ⟨hrun, hab⟩
    · have hlinked := h.linked.raised h.mem hp hpx
      obtain ⟨hroot, hnot⟩ := rooted_raised h.linked hr h.mem hp hpx hab
      have hranks : ∀ y ∈ t.ids, (t.raised x p).parent y ≠ .node p →
          RankOk (t.raised x p).parent (t.raised x p).rank y :=
        fun y hy hyp => ranked_raised hr h.mem hy hyp
      simp only [hrun, bind_eq_bind, bind_some, if_true]
      have hraise : t.raiseParent x p exclusive =
          if exclusive then some (t.raised x p) else (t.raised x p).nodeChildrenUpdate p := rfl
      rw [hraise]
      cases exclusive with
      | true =>
        refine ⟨_, rfl, ?_, ⟨rfl, rfl, rfl, rfl⟩, rfl⟩
        exact ⟨hlinked, fun y hy _ => hroot y hy, hnot, fun y hy _ hyp => hranks y hy (hyp rfl)⟩
      | false =>
        obtain ⟨r, hupd, hok⟩ := nodeChildrenUpdate_spec hlinked hroot hp hranks
        refine ⟨_, hupd, ?_, ⟨rfl, rfl, rfl, rfl⟩, rfl⟩
        refine ⟨?_, fun y hy _ => hroot y hy, hnot, fun y hy _ _ => hok y hy⟩
        exact ⟨hlinked.nodup, hlinked.parent_mem, hlinked.mem_children, hlinked.children_nodup⟩
    · simp only [hrun, bind_eq_bind, bind_some]
      refine ⟨t, rfl, ?_, ⟨rfl, rfl, rfl, rfl⟩, rfl⟩
      exact ⟨h.linked, fun y hy hyx => h.depth hy hyx, hab, fun y hy hyx _ => h.ranks y hy hyx⟩

/-- Keeping the parent reorders the closed nodes at most. -/
theorem keepParent_spec (hp : t.stream p = false → p ∈ t.closed) :
    ∃ l, l.Perm t.closed ∧ t.keepParent p = { t with closed := l } := by
  rw [keepParent]
  split
  · exact ⟨t.closed, .refl _, rfl⟩
  · next hs =>
      refine ⟨_, ?_, rfl⟩
      have hmem := hp (by simpa using hs)
      exact (perm_append_singleton p _).trans (perm_cons_erase hmem).symm

/-- **`ngx_http_v2_set_dependency`** ends, and with a tree that is linked and whose ranks are
right; the queue for reuse has the same nodes. -/
theorem setDependency_spec (h : t.Pending x) {depend : ℕ} (hdx : depend ≠ x) (exclusive : Bool)
    (hclosed : ∀ y ∈ t.ids, t.stream y = false → y ∈ t.closed) :
    ∃ t', t.setDependency x depend exclusive = some t' ∧ t'.Linked ∧ t'.Ranked ∧
      SameBook t t' ∧ t'.closed.Perm t.closed := by
  rw [setDependency]
  by_cases hfound : depend ≠ 0 ∧ depend ∈ t.ids
  · rw [if_pos hfound]
    obtain ⟨t₁, hrun, hlift, ⟨hids, hweight, hstream, hnodes⟩, hcl⟩ :=
      raiseBelow_spec h hfound.2 hdx exclusive
    rw [hrun]
    simp only [bind_eq_bind, bind_some]
    obtain ⟨l, hperm, hkeep⟩ := keepParent_spec
      (t := { t₁ with rank := update t₁.rank x (t₁.rank depend + 1) }) (p := depend) (by
        intro hs
        dsimp only at hs ⊢
        rw [hstream] at hs
        exact hcl ▸ hclosed depend hfound.2 hs)
    rw [hkeep]
    have hL := hlift.linked
    have hdepend : (Ref.node depend : Ref ℕ) ≠ .node x := fun heq => hdx (Ref.node.inj heq)
    obtain ⟨t', hatt, hlinked, hranked, hids', hw', hs', hc', hn'⟩ := attach_spec
      (t := { t₁ with rank := update t₁.rank x (t₁.rank depend + 1), closed := l })
      (x := x) (q := .node depend) ⟨hL.nodup, hL.parent_mem, hL.mem_children, hL.children_nodup⟩
      (hids ▸ h.mem) hdepend (by simp) hlift.deep
      (by
        intro p hp
        cases hp
        exact ⟨hids ▸ hfound.2, hlift.not_above⟩) exclusive
      (by simp [rankUnder, hdx])
      (by
        intro y hy hyx hpx hpq
        exact (hlift.ranks y hy hyx hpq).update_rank hyx hpx)
    refine ⟨t', hatt, hlinked, hranked, ⟨hids'.trans hids, hw'.trans hweight, hs'.trans hstream,
      hn'.trans hnodes⟩, ?_⟩
    rw [hc', ← hcl]
    exact hperm
  · rw [if_neg hfound]
    have hL := h.linked
    obtain ⟨t', hatt, hlinked, hranked, hids', hw', hs', hc', hn'⟩ := attach_spec
      (t := { t with rank := update t.rank x 1 }) (x := x) (q := .root)
      ⟨hL.nodup, hL.parent_mem, hL.mem_children, hL.children_nodup⟩ h.mem (by simp) (by simp)
      (fun y hy hyx => h.depth hy hyx) (by intro p hp; cases hp)
      (if depend ≠ 0 then false else exclusive) (by simp [rankUnder])
      (by
        intro y hy hyx hpx _
        exact (h.ranks y hy hyx).update_rank hyx hpx)
    exact ⟨t', hatt, hlinked, hranked, ⟨hids', hw', hs', hn'⟩, hc' ▸ .refl _⟩

/-! ### `ngx_http_v2_get_closed_node` -/

/-- The links once `z` is taken out: its children hang on its parent. -/
def parentWithout (t : DepTree) (z : ℕ) : ℕ → Ref ℕ :=
  update (fun c => if c ∈ t.children (.node z) then t.parent z else t.parent c) z .null

/-- The queues once `z` is taken out. -/
def childrenWithout (t : DepTree) (z : ℕ) : Ref ℕ → List ℕ :=
  update (update (fun q => (t.children q).erase z) (t.parent z)
    ((t.children (t.parent z)).erase z ++ t.children (.node z))) (.node z) []

theorem parentWithout_kid (hy : y ∈ t.children (.node z)) (hyz : y ≠ z) :
    t.parentWithout z y = t.parent z := by
  rw [parentWithout, update_of_ne hyz, if_pos hy]

theorem parentWithout_other (hy : y ∉ t.children (.node z)) (hyz : y ≠ z) :
    t.parentWithout z y = t.parent y := by
  rw [parentWithout, update_of_ne hyz, if_neg hy]

/-- The tree is linked without `z`. -/
theorem Linked.without (h : t.Linked) (hz : z ∈ t.ids) (hzz : t.parent z ≠ .node z)
    (hnull : t.parent z ≠ .null) (r w : ℕ → ℕ) (l : List ℕ) (n : ℕ) :
    Linked { t with
      ids := t.ids.erase z, parent := t.parentWithout z, children := t.childrenWithout z,
      rank := r, weight := w, closed := l, closedNodes := n } := by
  have herase : ∀ q y, y ∈ (t.children q).erase z ↔ y ≠ z ∧ y ∈ t.children q :=
    fun q y => (h.children_nodup q).mem_erase_iff
  have hids : ∀ y, y ∈ t.ids.erase z ↔ y ≠ z ∧ y ∈ t.ids := fun y => h.nodup.mem_erase_iff
  have hkid : ∀ y, y ∈ t.children (.node z) ↔ y ∈ t.ids ∧ t.parent y = .node z := by
    intro y
    rw [h.mem_children]
    simp
  refine ⟨h.nodup.erase z, ?_, ?_, ?_⟩
  · intro y p hy hp
    dsimp only at hy hp ⊢
    obtain ⟨hyz, hy⟩ := (hids y).mp hy
    rw [hids]
    by_cases hk : y ∈ t.children (.node z)
    · rw [parentWithout_kid hk hyz] at hp
      exact ⟨fun heq => hzz (heq ▸ hp), h.parent_mem z p hz hp⟩
    · rw [parentWithout_other hk hyz] at hp
      exact ⟨fun heq => hk ((hkid y).mpr ⟨hy, heq ▸ hp⟩), h.parent_mem y p hy hp⟩
  · intro q y
    dsimp only
    rw [hids]
    by_cases hyz : y = z
    · subst hyz
      have hk : y ∉ t.children (.node y) := fun hk => hzz ((hkid y).mp hk).2
      simp only [ne_eq, not_true, false_and, iff_false]
      simp only [childrenWithout, update_apply]
      split
      · simp
      · split
        · rw [mem_append, herase]
          simp [hk]
        · rw [herase]
          simp
    · by_cases hk : y ∈ t.children (.node z)
      · have hp := ((hkid y).mp hk).2
        have hy := ((hkid y).mp hk).1
        rw [parentWithout_kid hk hyz]
        simp only [childrenWithout, update_apply]
        split
        · next hq =>
            subst hq
            simp [hzz]
        · next hq =>
            split
            · next hq' => simp [hk, hyz, hy, hq', hnull]
            · next hq' =>
                rw [herase, h.mem_children, hp]
                simp [Ne.symm hq, Ne.symm hq']
      · rw [parentWithout_other hk hyz]
        simp only [childrenWithout, update_apply]
        split
        · next hq =>
            subst hq
            have hnot : ¬ (y ∈ t.ids ∧ t.parent y = .node z) := mt (hkid y).mpr hk
            simp only [not_mem_nil, false_iff]
            tauto
        · split
          · next hq =>
              subst hq
              rw [mem_append, herase, h.mem_children]
              simp only [hk, or_false]
              tauto
          · rw [herase, h.mem_children]
            tauto
  · intro q
    simp only [childrenWithout, update_apply]
    split
    · exact nodup_nil
    · split
      · refine nodup_append.mpr ⟨(h.children_nodup _).erase z, h.children_nodup _, ?_⟩
        rintro a ha b hb rfl
        have hpa := ((h.mem_children _ _).mp ((herase _ _).mp ha).2).2.1
        exact hzz (hpa.symm.trans ((hkid a).mp hb).2)
      · exact (h.children_nodup q).erase z

/-- **A node out of the tree.** Its children hang on its parent, and what was under it has one
rank less. -/
theorem getClosedNode_spec (h : t.Linked) (hr : t.Ranked) {l : List ℕ} (hcl : t.closed = z :: l)
    (hz : z ∈ t.ids) :
    ∃ t', t.getClosedNode = some t' ∧ t'.Linked ∧ t'.Ranked ∧ t'.ids = t.ids.erase z ∧
      t'.stream = t.stream ∧ t'.closed = l ∧ t'.closedNodes = (t.closedNodes + 255) % 256 ∧
      ∀ y, 1 ≤ t.weight y → 1 ≤ t'.weight y := by
  have hkid : ∀ a y, y ∈ t.children (.node a) ↔ y ∈ t.ids ∧ t.parent y = .node a := by
    intro a y
    rw [h.mem_children]
    simp
  have hstep : ∀ a b, b ∈ t.children (.node a) → t.rank b = t.rank a + 1 := fun a b hb =>
    (hr b ((hkid a b).mp hb).1).node ((hkid a b).mp hb).2
  have hnull := parent_ne_null_of_rankOk (hr z hz)
  have hzz : t.parent z ≠ .node z := by
    intro hp
    have := (hr z hz).node hp
    omega
  have hzk : z ∉ t.children (.node z) := fun hk => hzz ((hkid z z).mp hk).2
  have hkz : (t.children (.node z)).erase z = t.children (.node z) := erase_of_not_mem hzk
  -- The renumbering follows the queues as they are without `z`, where the depths are the ranks.
  obtain ⟨r, hrun, hin, hout⟩ := relabel_spec (fun a => (t.children (.node a)).erase z)
    (d := t.rank) (k := t.ids.length)
    (fun a b hb => hstep a b (mem_of_mem_erase hb))
    (fun a b hb => rank_le_length h.parent_mem hr ((hkid a b).mp (mem_of_mem_erase hb)).1)
    (update t.rank z (t.rank z - 1)) z
    (show t.ids.length < t.rank z + (t.ids.length + 1) by omega) (Nat.succ_pos _)
  rw [update_self] at hin
  have hpos : 0 < t.rank z := (h.depth hr hz).pos
  have hunder : ∀ y, Under (fun a => (t.children (.node a)).erase z) z y →
      r y = t.rank y - 1 ∧ t.rank z < t.rank y := by
    intro y hy
    have hlt := hy.depth_lt fun a b hb => hstep a b (mem_of_mem_erase hb)
    exact ⟨by rw [hin y hy]; omega, hlt⟩
  have hother : ∀ y, y ≠ z → ¬ Under (fun a => (t.children (.node a)).erase z) z y →
      r y = t.rank y := fun y hyz hy => (hout y hy).trans (update_of_ne hyz ..)
  have hrank : t.rankUnder (t.parent z) = t.rank z := ((rankOk_iff hnull).mp (hr z hz)).symm
  refine ⟨{ t with
    ids := t.ids.erase z, parent := t.parentWithout z, children := t.childrenWithout z, rank := r,
    weight := fun c => if c ∈ t.children (.node z) then
        if t.weight z * t.weight c / ((t.children (.node z)).map t.weight).sum = 0 then 1
        else t.weight z * t.weight c / ((t.children (.node z)).map t.weight).sum
      else t.weight c,
    closed := l, closedNodes := (t.closedNodes + 255) % 256 }, ?_,
    h.without hz hzz hnull _ _ _ _, ?_, rfl, rfl, rfl, rfl, ?_⟩
  · have hunfold : ∀ p c w l n, rankUnder { t with
        parent := p, children := c, weight := w, closed := l, closedNodes := n } (t.parent z) =
          t.rank z := by
      intro p c w l n
      rw [← hrank]
      cases t.parent z with
      | null => rfl
      | root => rfl
      | node g => rfl
    simp only [getClosedNode, hcl, decClosed, queueRemove, orphan, nodeChildrenUpdate, dropNode,
      hkz, ite_self, hunfold, hrun, map_some]
    rfl
  · intro y hy
    obtain ⟨hyz, hy⟩ := h.nodup.mem_erase_iff.mp hy
    dsimp only
    by_cases hk : y ∈ t.children (.node z)
    · -- A child of `z` takes its place, and its rank.
      have hry := (hunder y (.single ((h.children_nodup _).mem_erase_iff.mpr ⟨hyz, hk⟩))).1
      have hrk := hstep z y hk
      have hpar : ∀ g, t.parent z = .node g → r g = t.rank g := by
        intro g hg
        have hlt := (hr z hz).node hg
        refine hother g (fun heq => ?_) fun hu => ?_
        · rw [heq] at hlt
          omega
        · have := (hunder g hu).2
          omega
      cases hup : t.parent z with
      | null => exact absurd hup hnull
      | root =>
        have := (hr z hz).root hup
        simp only [RankOk, parentWithout_kid hk hyz, hup]
        omega
      | node g =>
        have := (hr z hz).node hup
        have := hpar g hup
        simp only [RankOk, parentWithout_kid hk hyz, hup]
        omega
    · have hpar := parentWithout_other hk hyz
      by_cases hu : Under (fun a => (t.children (.node a)).erase z) z y
      · obtain ⟨a, ha, hay⟩ := Relation.TransGen.tail'_iff.mp hu
        have hmem : y ∈ t.children (.node a) := mem_of_mem_erase hay
        have hra := hstep a y hmem
        have haz : a ≠ z := fun heq => hk (heq ▸ hmem)
        have hau : Under (fun a => (t.children (.node a)).erase z) z a := by
          rcases Relation.reflTransGen_iff_eq_or_transGen.mp ha with heq | htrans
          · exact absurd heq haz
          · exact htrans
        have := hunder a hau
        have := hunder y hu
        simp only [RankOk, hpar, ((hkid a y).mp hmem).2]
        omega
      · refine (hr y hy).congr hpar (hother y hyz hu) fun a ha => ?_
        have hay := (hkid a y).mpr ⟨hy, ha⟩
        refine hother a (fun heq => hk (heq ▸ hay)) fun hau => hu (hau.tail ?_)
        exact (h.children_nodup _).mem_erase_iff.mpr ⟨hyz, hay⟩
  · intro y hy
    dsimp only
    split
    · split
      · exact Nat.le_refl 1
      · next hne => exact Nat.one_le_iff_ne_zero.mpr hne
    · exact hy

end DepTree

end Hengine
