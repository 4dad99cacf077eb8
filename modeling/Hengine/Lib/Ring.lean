import Mathlib.Data.List.Nodup

/-!
# Circular Doubly Linked Lists

A ring is a list of nodes threaded through two partial link functions, from a head that
stands for the whole ring and back to it. Only `next` is kept in the head, so nothing is
said about `prev` there: code that unlinks the last node may write it, and nobody reads
it.

Every edit of a ring is stated pointwise: the new link functions are given by what they
are at the nodes of the ring. An implementation may then write the links in any order,
and may write anywhere else.
-/

namespace Hengine

open List

section Links

variable {P : Type*} {next prev next' prev' : P → Option P} {a h x y z : P}
  {l l₁ l₂ : List P}

/-- `Links next prev a l z`: following `next` from `a` visits `l` and then `z`, and
`prev` leads back along it to `a`. -/
def Links (next prev : P → Option P) : P → List P → P → Prop
  | a, [], z => next a = some z
  | a, x :: l, z => next a = some x ∧ prev x = some a ∧ Links next prev x l z

/-- The nodes of `l`, in order, hang on the head `h`. -/
structure Ring (next prev : P → Option P) (h : P) (l : List P) : Prop where
  links : Links next prev h l h
  nodup : (h :: l).Nodup

/-- A chain of links, split at one of its nodes. -/
theorem links_append : ∀ {a : P} {l₁ : List P},
    Links next prev a (l₁ ++ x :: l₂) z ↔
      Links next prev a l₁ x ∧ prev x = some (l₁.getLastD a) ∧ Links next prev x l₂ z := by
  intro a l₁
  induction l₁ generalizing a with
  | nil => simp [Links]
  | cons y l₁ ih =>
    rw [cons_append, Links, Links, ih, getLastD_cons]
    tauto

theorem Links.next_eq (h : Links next prev a l z) : next a = some (l.headD z) := by
  cases l with
  | nil => exact h
  | cons x l => exact h.1

/-- Links only depend on `next` of all nodes and `prev` of the inner ones. -/
theorem Links.congr (hl : Links next prev a l z)
    (hnext : ∀ q ∈ a :: l, next' q = next q) (hprev : ∀ q ∈ l, prev' q = prev q) :
    Links next' prev' a l z := by
  induction l generalizing a with
  | nil =>
    rw [Links, hnext a mem_cons_self]
    exact hl
  | cons x l ih =>
    obtain ⟨hax, hxa, hrest⟩ := hl
    refine ⟨?_, ?_, ih hrest ?_ ?_⟩
    · rw [hnext a mem_cons_self, hax]
    · rw [hprev x mem_cons_self, hxa]
    · exact fun q hq => hnext q (mem_cons_of_mem _ hq)
    · exact fun q hq => hprev q (mem_cons_of_mem _ hq)

/-- Links to another end: only the last node is rewritten. -/
theorem Links.retarget (hl : Links next prev a l x) (hnodup : (a :: l).Nodup)
    (hlast : next' (l.getLastD a) = some z)
    (hnext : ∀ q ∈ a :: l, q ≠ l.getLastD a → next' q = next q)
    (hprev : ∀ q ∈ l, prev' q = prev q) : Links next' prev' a l z := by
  induction l generalizing a with
  | nil => exact hlast
  | cons y l ih =>
    obtain ⟨hay, hya, hrest⟩ := hl
    rw [getLastD_cons] at hlast hnext
    have ha : a ≠ l.getLastD y := by
      intro heq
      have hmem : l.getLastD y ∈ y :: l := getLastD_mem_cons
      exact (nodup_cons.mp hnodup).1 (heq ▸ hmem)
    refine ⟨?_, ?_, ih hrest (nodup_cons.mp hnodup).2 hlast ?_ ?_⟩
    · rw [hnext a mem_cons_self ha, hay]
    · rw [hprev y mem_cons_self, hya]
    · exact fun q hq => hnext q (mem_cons_of_mem _ hq)
    · exact fun q hq => hprev q (mem_cons_of_mem _ hq)

/-! ### Rings -/

namespace Ring

theorem congr (R : Ring next prev h l) (hnext : ∀ q ∈ h :: l, next' q = next q)
    (hprev : ∀ q ∈ l, prev' q = prev q) : Ring next' prev' h l :=
  ⟨R.links.congr hnext hprev, R.nodup⟩

/-- The neighbours of a node are in the ring, and are not the node itself. -/
theorem mem_links (R : Ring next prev h (l₁ ++ x :: l₂)) :
    prev x = some (l₁.getLastD h) ∧ next x = some (l₂.headD h) ∧
      l₁.getLastD h ∈ h :: l₁ ∧ l₂.headD h ∈ h :: l₂ ∧
      l₁.getLastD h ≠ x ∧ l₂.headD h ≠ x := by
  obtain ⟨-, hprev, hrest⟩ := links_append.mp R.links
  have hlast : l₁.getLastD h ∈ h :: l₁ := getLastD_mem_cons
  have hhead : l₂.headD h ∈ h :: l₂ := by
    cases l₂ with
    | nil => exact mem_cons_self
    | cons y l₂ => exact mem_cons_of_mem _ mem_cons_self
  have hnodup := R.nodup
  simp only [nodup_cons, nodup_append, mem_append, mem_cons] at hnodup
  refine ⟨hprev, hrest.next_eq, hlast, hhead, ?_, ?_⟩
  · intro heq
    rcases mem_cons.mp (heq ▸ hlast) with rfl | hmem
    · exact hnodup.1 (Or.inr (Or.inl rfl))
    · exact hnodup.2.2.2 x hmem x (Or.inl rfl) rfl
  · intro heq
    rcases mem_cons.mp (heq ▸ hhead) with rfl | hmem
    · exact hnodup.1 (Or.inr (Or.inl rfl))
    · exact hnodup.2.2.1.1 hmem

/-- The nodes that remain when one leaves. -/
theorem nodup_of_split (R : Ring next prev h (l₁ ++ x :: l₂)) :
    (h :: (l₁ ++ l₂)).Nodup ∧ x ∉ h :: (l₁ ++ l₂) := by
  have hnodup := R.nodup
  simp only [nodup_cons, nodup_append, mem_append, mem_cons] at hnodup ⊢
  obtain ⟨hh, h₁, ⟨hx, h₂⟩, hdisj⟩ := hnodup
  refine ⟨⟨fun hmem => ?_, h₁, h₂, fun p hp q hq => hdisj p hp q (Or.inr hq)⟩, ?_⟩
  · rcases hmem with hmem | hmem
    · exact hh (Or.inl hmem)
    · exact hh (Or.inr (Or.inr hmem))
  · rintro (rfl | hmem | hmem)
    · exact hh (Or.inr (Or.inl rfl))
    · exact hdisj x hmem x (Or.inl rfl) rfl
    · exact hx hmem

/-- The neighbours of a node that leaves: the last of `l₁` is not in `l₂`, and the first
of `l₂` not in `l₁`. -/
theorem apart (hnodup : (h :: (l₁ ++ l₂)).Nodup) :
    (∀ q ∈ l₂, q ≠ l₁.getLastD h) ∧ ∀ q ∈ l₁, q ≠ l₂.headD h := by
  simp only [nodup_cons, nodup_append, mem_append] at hnodup
  constructor
  · rintro q hq rfl
    rcases mem_cons.mp (getLastD_mem_cons (l := l₁) (a := h)) with heq | hmem
    · rw [heq] at hq
      exact hnodup.1 (Or.inr hq)
    · exact hnodup.2.2.2 _ hmem _ hq rfl
  · rintro q hq rfl
    cases l₂ with
    | nil => exact hnodup.1 (Or.inl hq)
    | cons w l₂ => exact hnodup.2.2.2 _ hq _ mem_cons_self rfl

/-- **Replace a node.** The neighbours of `x` are linked to `y`, which was not in the
ring. -/
theorem replace (R : Ring next prev h (l₁ ++ x :: l₂)) (hy : y ∉ h :: (l₁ ++ l₂))
    (hlast : next' (l₁.getLastD h) = some y) (hhead : next' y = some (l₂.headD h))
    (hnext : ∀ q ∈ h :: (l₁ ++ l₂), q ≠ l₁.getLastD h → next' q = next q)
    (hback : prev' y = some (l₁.getLastD h))
    (hfirst : ∀ q ∈ l₂, q = l₂.headD h → prev' q = some y)
    (hprev : ∀ q ∈ l₁ ++ l₂, q ≠ l₂.headD h → prev' q = prev q) :
    Ring next' prev' h (l₁ ++ y :: l₂) := by
  obtain ⟨hnodup, -⟩ := R.nodup_of_split
  obtain ⟨hl₁, -, hl₂⟩ := links_append.mp R.links
  obtain ⟨hlast₂, hhead₁⟩ := apart hnodup
  have hnd := hnodup
  simp only [nodup_cons, nodup_append, mem_append] at hnd
  constructor
  · refine links_append.mpr ⟨hl₁.retarget ?_ hlast ?_ ?_, hback, ?_⟩
    · exact nodup_cons.mpr ⟨fun hmem => hnd.1 (Or.inl hmem), hnd.2.1⟩
    · intro q hq hne
      refine hnext q ?_ hne
      simp only [mem_cons, mem_append] at hq ⊢
      exact hq.imp_right Or.inl
    · exact fun q hq => hprev q (mem_append_left _ hq) (hhead₁ q hq)
    · cases l₂ with
      | nil => exact hhead
      | cons w l₂ =>
        obtain ⟨hxw, -, hrest⟩ := hl₂
        refine ⟨hhead, hfirst w mem_cons_self rfl, hrest.congr ?_ ?_⟩
        · intro q hq
          refine hnext q ?_ (hlast₂ q hq)
          exact mem_cons_of_mem _ (mem_append_right _ hq)
        · intro q hq
          refine hprev q (mem_append_right _ (mem_cons_of_mem _ hq)) ?_
          rintro rfl
          exact (nodup_cons.mp hnd.2.2.1).1 hq
  · simp only [nodup_cons, nodup_append, mem_append, mem_cons] at hy ⊢
    refine ⟨?_, hnd.2.1, ⟨fun hmem => hy (Or.inr (Or.inr hmem)), hnd.2.2.1⟩, ?_⟩
    · rintro (hmem | rfl | hmem)
      · exact hnd.1 (Or.inl hmem)
      · exact hy (Or.inl rfl)
      · exact hnd.1 (Or.inr hmem)
    · rintro p hp q (rfl | hq)
      · rintro rfl
        exact hy (Or.inr (Or.inl hp))
      · exact hnd.2.2.2 p hp q hq

/-- **Unlink a node.** Its neighbours are linked to each other. -/
theorem unlink (R : Ring next prev h (l₁ ++ x :: l₂))
    (hlast : next' (l₁.getLastD h) = some (l₂.headD h))
    (hnext : ∀ q ∈ h :: (l₁ ++ l₂), q ≠ l₁.getLastD h → next' q = next q)
    (hfirst : ∀ q ∈ l₂, q = l₂.headD h → prev' q = some (l₁.getLastD h))
    (hprev : ∀ q ∈ l₁ ++ l₂, q ≠ l₂.headD h → prev' q = prev q) :
    Ring next' prev' h (l₁ ++ l₂) := by
  obtain ⟨hnodup, -⟩ := R.nodup_of_split
  obtain ⟨hl₁, -, hl₂⟩ := links_append.mp R.links
  obtain ⟨hlast₂, hhead₁⟩ := apart hnodup
  have hnd := hnodup
  simp only [nodup_cons, nodup_append, mem_append] at hnd
  have hstart : ∀ z, next' (l₁.getLastD h) = some z → Links next' prev' h l₁ z := by
    intro z hz
    refine hl₁.retarget ?_ hz ?_ ?_
    · exact nodup_cons.mpr ⟨fun hmem => hnd.1 (Or.inl hmem), hnd.2.1⟩
    · intro q hq hne
      refine hnext q ?_ hne
      simp only [mem_cons, mem_append] at hq ⊢
      exact hq.imp_right Or.inl
    · exact fun q hq => hprev q (mem_append_left _ hq) (hhead₁ q hq)
  refine ⟨?_, hnodup⟩
  cases l₂ with
  | nil =>
    rw [append_nil]
    exact hstart h hlast
  | cons w l₂ =>
    obtain ⟨-, -, hrest⟩ := hl₂
    refine links_append.mpr ⟨hstart w hlast, hfirst w mem_cons_self rfl,
      hrest.congr ?_ ?_⟩
    · intro q hq
      refine hnext q ?_ (hlast₂ q hq)
      exact mem_cons_of_mem _ (mem_append_right _ hq)
    · intro q hq
      refine hprev q (mem_append_right _ (mem_cons_of_mem _ hq)) ?_
      rintro rfl
      exact (nodup_cons.mp hnd.2.2.1).1 hq

/-- **Insert a node** behind the head. -/
theorem push (R : Ring next prev h l) (hx : x ∉ h :: l)
    (hhead : next' h = some x) (hnode : next' x = some (l.headD h))
    (hnext : ∀ q ∈ l, next' q = next q) (hback : prev' x = some h)
    (hfirst : ∀ q ∈ l, q = l.headD h → prev' q = some x)
    (hprev : ∀ q ∈ l, q ≠ l.headD h → prev' q = prev q) :
    Ring next' prev' h (x :: l) := by
  have hnd := R.nodup
  constructor
  · refine ⟨hhead, hback, ?_⟩
    cases l with
    | nil => exact hnode
    | cons w l =>
      obtain ⟨-, -, hrest⟩ := R.links
      refine ⟨hnode, hfirst w mem_cons_self rfl, hrest.congr hnext ?_⟩
      intro q hq
      refine hprev q (mem_cons_of_mem _ hq) ?_
      rintro rfl
      exact (nodup_cons.mp (nodup_cons.mp hnd).2).1 hq
  · simp only [nodup_cons, mem_cons] at hnd hx ⊢
    refine ⟨?_, fun hmem => hx (Or.inr hmem), hnd.2⟩
    rintro (rfl | hmem)
    · exact hx (Or.inl rfl)
    · exact hnd.1 hmem

end Ring

end Links

end Hengine
