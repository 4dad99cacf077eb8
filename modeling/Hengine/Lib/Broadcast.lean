import Mathlib.Algebra.Order.Ring.Nat
import Mathlib.Data.List.Nodup
import Mathlib.Data.List.Perm.Subperm

/-!
# A Broadcast Board

A **board** is a queue of posts that every worker of a fixed group is to read once, in the order in
which they were posted. Each post carries the list of those that have read it. A worker that reads
walks over the board from the oldest post on: it takes down a post that as many have read as there
are workers, passes one that it has read, and signs and receives every other one. A worker posts
only after it has read, and signs its own post.

Nobody counts what a worker has read so far. The invariant `Fair` says that there is such a count
all the same: the signatures under a post are exactly those of the workers whose count is beyond it,
and the posts on the board are a final part of all that were ever posted.
-/

namespace Hengine.Broadcast

open List Function

/-- A post: its number, those who have read it, and what it says. -/
structure Post (α : Type*) where
  serial : ℕ
  readers : List ℕ
  body : α
deriving DecidableEq, Repr

variable {α : Type*}

/-- The post with one more signature, unless it is there already. -/
def Post.sign (p : ℕ) (m : Post α) : Post α :=
  if p ∈ m.readers then m else { m with readers := m.readers ++ [p] }

@[simp] theorem Post.sign_serial (p : ℕ) (m : Post α) : (m.sign p).serial = m.serial := by
  unfold Post.sign
  split <;> rfl

@[simp] theorem Post.sign_body (p : ℕ) (m : Post α) : (m.sign p).body = m.body := by
  unfold Post.sign
  split <;> rfl

theorem Post.mem_sign {p q : ℕ} {m : Post α} : q ∈ (m.sign p).readers ↔ q ∈ m.readers ∨ q = p := by
  unfold Post.sign
  split
  · rename_i h
    exact ⟨Or.inl, fun hq => hq.elim id fun hqp => hqp ▸ h⟩
  · simp

variable {p : ℕ} {old new : ℕ}

/-- Nobody signs twice. -/
theorem Post.nodup_sign {m : Post α} (h : m.readers.Nodup) : (m.sign p).readers.Nodup := by
  unfold Post.sign
  split
  · exact h
  · rename_i hp
    refine nodup_append.mpr ⟨h, nodup_singleton p, ?_⟩
    rintro a ha b hb rfl
    exact hp (mem_singleton.mp hb ▸ ha)

/-- The post with one signature changed into another. -/
def Post.rename (old new : ℕ) (m : Post α) : Post α :=
  { m with readers := m.readers.map fun p => if p = old then new else p }

/-- A worker reads the board: what stays on it, and what the worker receives. -/
@[grind =]
def scan (full p : ℕ) : List (Post α) → List (Post α) × List (Post α)
  | [] => ([], [])
  | m :: ms =>
    let r := scan full p ms
    if m.readers.length = full then r
    else if p ∈ m.readers then (m :: r.1, r.2)
    else (m.sign p :: r.1, m :: r.2)

/-- What stays in the queue after a scan. -/
theorem scan_fst (full p : ℕ) (ms : List (Post α)) :
    (scan full p ms).1 = (ms.filter fun m => m.readers.length ≠ full).map (Post.sign p) := by
  induction ms with
  | nil => rfl
  | cons m ms ih =>
    simp only [scan]
    by_cases hfull : m.readers.length = full
    · simp [hfull, ih]
    · by_cases hp : p ∈ m.readers
      · simp [hfull, hp, ih, Post.sign]
      · simp [hfull, hp, ih]

/-- The posts that a scan leaves: those neither read by all nor by this worker. -/
theorem scan_snd (full p : ℕ) (ms : List (Post α)) :
    (scan full p ms).2 = ms.filter fun m => m.readers.length ≠ full ∧ p ∉ m.readers := by
  induction ms with
  | nil => rfl
  | cons m ms ih =>
    simp only [scan]
    by_cases hfull : m.readers.length = full
    · simp [hfull, ih]
    · by_cases hp : p ∈ m.readers
      · simp [hfull, hp, ih]
      · simp [hfull, hp, ih]

/-! ### The invariant -/

/-- `known p` is how many posts the worker `p` has read, its own included. The posts on the board are
those of the numbers from some `low` on, and the readers of a post are the workers that know it. -/
structure Fair (workers : List ℕ) (known : ℕ → ℕ) (log : List α) (posts : List (Post α)) : Prop where
  nodup : workers.Nodup
  known_le : ∀ p ∈ workers, known p ≤ log.length
  window : ∃ low, posts.map Post.serial = List.range' low (log.length - low) ∧ low ≤ log.length ∧
    ∀ p ∈ workers, low ≤ known p
  body : ∀ m ∈ posts, log[m.serial]? = some m.body
  readers_nodup : ∀ m ∈ posts, m.readers.Nodup
  readers : ∀ m ∈ posts, ∀ p, p ∈ m.readers ↔ p ∈ workers ∧ m.serial < known p

variable {workers : List ℕ} {known : ℕ → ℕ} {log : List α} {posts : List (Post α)}

/-- Without posts, all is fair. -/
theorem fair_nil (h : workers.Nodup) : Fair workers (fun _ => 0) ([] : List α) [] where
  nodup := h
  known_le _ _ := le_rfl
  window := ⟨0, rfl, le_rfl, fun _ _ => le_rfl⟩
  body := by simp
  readers_nodup := by simp
  readers := by simp

/-- Among consecutive numbers, those with an upward closed property are again consecutive. -/
theorem filter_range' {P : ℕ → Bool} (hup : ∀ a b, a ≤ b → P a = true → P b = true) (low n : ℕ) :
    ∃ k ≤ n, (List.range' low n).filter P = List.range' (low + k) (n - k) ∧
      ∀ a, low ≤ a → a < low + k → P a = false := by
  induction n generalizing low with
  | zero => exact ⟨0, le_rfl, rfl, fun a h₁ h₂ => by omega⟩
  | succ n ih =>
    cases hlow : P low with
    | true =>
      refine ⟨0, by omega, ?_, fun a h₁ h₂ => by omega⟩
      rw [filter_eq_self.mpr]
      · simp
      · intro a ha
        exact hup low a (mem_range'_1.mp ha).1 hlow
    | false =>
      obtain ⟨k, hk, hfilter, hbelow⟩ := ih (low + 1)
      refine ⟨k + 1, by omega, ?_, ?_⟩
      · rw [range'_succ, filter_cons, hlow, if_neg (by simp), hfilter]
        congr 1 <;> omega
      · intro a h₁ h₂
        rcases Nat.eq_or_lt_of_le h₁ with rfl | h₁
        · exact hlow
        · exact hbelow a h₁ (by omega)

/-- A list of posts of consecutive numbers up to the last one says what was posted there. -/
theorem map_body_eq {k : ℕ} {ms : List (Post α)} (hserial : ms.map Post.serial
      = List.range' k (log.length - k)) (hbody : ∀ m ∈ ms, log[m.serial]? = some m.body) :
    ms.map Post.body = log.drop k := by
  have hlen : ms.length = log.length - k := by simpa using congrArg List.length hserial
  refine ext_getElem? fun i => ?_
  rw [getElem?_map, getElem?_drop]
  cases hm : ms[i]? with
  | none =>
    have hi : log.length - k ≤ i := hlen ▸ getElem?_eq_none_iff.mp hm
    exact (getElem?_eq_none (by omega)).symm
  | some m =>
    have hi : i < log.length - k := hlen ▸ (List.getElem?_eq_some_iff.mp hm).1
    have hs : m.serial = k + i := by
      have h := congrArg (fun l => l[i]?) hserial
      simp only [getElem?_map, hm, Option.map_some, getElem?_range' hi] at h
      simpa using h
    rw [Option.map_some, ← hs, hbody m (mem_of_getElem? hm)]

section

variable (h : Fair workers known log posts)
include h

/-- **A message has all signatures** when everybody knows it. -/
theorem Fair.full_iff {m : Post α} (hm : m ∈ posts) :
    m.readers.length = workers.length ↔ ∀ p ∈ workers, m.serial < known p := by
  have hsub : m.readers ⊆ workers := fun p hp => ((h.readers m hm p).mp hp).1
  have hsubperm := (h.readers_nodup m hm).subperm hsub
  constructor
  · intro hlen p hp
    have hperm := hsubperm.perm_of_length_le hlen.ge
    exact ((h.readers m hm p).mp (hperm.mem_iff.mpr hp)).2
  · intro hall
    have hsup : workers ⊆ m.readers := fun p hp => (h.readers m hm p).mpr ⟨hp, hall p hp⟩
    exact le_antisymm hsubperm.length_le (h.nodup.subperm hsup).length_le

/-! ### Reading and posting -/

/-- Posts are left as long as some worker has not seen them. -/
theorem Fair.filter_not_full {ms : List (Post α)} (hms : ∀ m ∈ ms, m ∈ posts) :
    (ms.filter fun m => m.readers.length ≠ workers.length)
      = ms.filter fun m => workers.any fun p => known p ≤ m.serial := by
  refine filter_congr fun m hm => ?_
  rw [Bool.eq_iff_iff, decide_eq_true_iff, Ne, h.full_iff (hms m hm)]
  simp

/-- The messages that one has not read. -/
theorem Fair.filter_unread (hp : p ∈ workers) :
    (posts.filter fun m => m.readers.length ≠ workers.length ∧ p ∉ m.readers)
      = posts.filter fun m => known p ≤ m.serial := by
  refine filter_congr fun m hm => ?_
  rw [Bool.eq_iff_iff, decide_eq_true_iff, decide_eq_true_iff, Ne, h.full_iff hm, h.readers m hm]
  constructor
  · rintro ⟨-, hread⟩
    exact Nat.le_of_not_lt fun hlt => hread ⟨hp, hlt⟩
  · intro hle
    exact ⟨fun hall => absurd (hall p hp) (Nat.not_lt.mpr hle), fun hread => by omega⟩

/-- The posts on the board that a worker does not know are all those it does not know. -/
theorem Fair.unknown (hp : p ∈ workers) :
    (posts.filter fun m => known p ≤ m.serial).map Post.serial
      = List.range' (known p) (log.length - known p) := by
  obtain ⟨low, hwindow, hle, hlow⟩ := h.window
  have hmap : (posts.filter fun m => decide (known p ≤ m.serial)).map Post.serial
      = (List.range' low (log.length - low)).filter fun s => decide (known p ≤ s) := by
    rw [← hwindow, filter_map]
    rfl
  have hbounds := And.intro (hlow p hp) (h.known_le p hp)
  have hsplit : List.range' low (log.length - low) = List.range' low (known p - low)
      ++ List.range' (known p) (log.length - known p) := by
    conv_rhs => rw [show known p = low + (known p - low) by omega]
    rw [show low + (known p - low) - low = known p - low by omega, range'_append_1]
    congr 1
    omega
  rw [hmap, hsplit, filter_append, filter_eq_nil_iff.mpr, filter_eq_self.mpr,
    nil_append]
  · intro s hs
    exact decide_eq_true (mem_range'_1.mp hs).1
  · intro s hs
    have hlt := (mem_range'_1.mp hs).2
    simp only [decide_eq_true_eq]
    omega

/-- How many they are. -/
theorem Fair.length_unread (hp : p ∈ workers) :
    (posts.filter fun m => p ∉ m.readers).length = log.length - known p := by
  have hfilter : (posts.filter fun m => p ∉ m.readers)
      = posts.filter fun m => known p ≤ m.serial := by
    refine filter_congr fun m hm => ?_
    rw [Bool.eq_iff_iff, decide_eq_true_iff, decide_eq_true_iff, h.readers m hm]
    exact ⟨fun hread => Nat.le_of_not_lt fun hlt => hread ⟨hp, hlt⟩, fun hle hread => by omega⟩
  rw [hfilter]
  simpa using congrArg List.length (h.unknown hp)

/-- **A scan delivers** the rest of the log, in its order. -/
theorem Fair.delivered (hp : p ∈ workers) :
    (scan workers.length p posts).2.map Post.serial
        = List.range' (known p) (log.length - known p) ∧
      (scan workers.length p posts).2.map Post.body = log.drop (known p) := by
  have hserial : (scan workers.length p posts).2.map Post.serial
      = List.range' (known p) (log.length - known p) := by
    rw [scan_snd, h.filter_unread hp, h.unknown hp]
  refine ⟨hserial, map_body_eq hserial fun m hm => ?_⟩
  rw [scan_snd] at hm
  exact h.body m (mem_filter.mp hm).1

/-- **Reading the first posts only.** The worker then knows those, and nobody else more. -/
theorem Fair.scan_take {low : ℕ}
    (hwindow : posts.map Post.serial = List.range' low (log.length - low)) (hle : low ≤ log.length)
    (hlow : ∀ p ∈ workers, low ≤ known p) (hp : p ∈ workers) (j : ℕ) :
    Fair workers (update known p (max (known p) (low + min j posts.length))) log
      ((scan workers.length p (posts.take j)).1 ++ posts.drop j) := by
  have hlen : posts.length = log.length - low := by simpa using congrArg List.length hwindow
  have htake : (posts.take j).map Post.serial = List.range' low (min j posts.length) := by
    rw [map_take, hwindow, hlen]
    rcases Nat.le_total j (log.length - low) with hj | hj
    · rw [take_range'_of_length_ge hj, Nat.min_eq_left hj]
    · rw [take_range'_of_length_le hj, Nat.min_eq_right hj]
  have hdrop : (posts.drop j).map Post.serial = List.range' (low + j) (posts.length - j) := by
    rw [map_drop, hwindow, drop_range', mul_one, hlen]
  have hsplit : ∀ m ∈ (scan workers.length p (posts.take j)).1 ++ posts.drop j, ∃ n ∈ posts,
      (m = n.sign p ∧ n.serial < low + min j posts.length) ∨
        (m = n ∧ low + min j posts.length ≤ n.serial) := by
    intro m hm
    rcases mem_append.mp hm with hm | hm
    · rw [scan_fst] at hm
      obtain ⟨n, hn, rfl⟩ := mem_map.mp hm
      have hmem := (mem_filter.mp hn).1
      have hserial := htake ▸ mem_map_of_mem (f := Post.serial) hmem
      exact ⟨n, mem_of_mem_take hmem, Or.inl ⟨rfl, (mem_range'_1.mp hserial).2⟩⟩
    · have hserial := hdrop ▸ mem_map_of_mem (f := Post.serial) hm
      have hge := (mem_range'_1.mp hserial).1
      exact ⟨m, mem_of_mem_drop hm, Or.inr ⟨rfl, by omega⟩⟩
  refine ⟨h.nodup, ?_, ?_, ?_, ?_, ?_⟩
  · intro q hq
    rcases eq_or_ne q p with rfl | hne
    · rw [update_self]
      have := h.known_le q hq
      omega
    · rw [update_of_ne hne]
      exact h.known_le q hq
  · obtain ⟨k, hk, hfilter, hbelow⟩ := filter_range' (P := fun s => workers.any fun p => known p ≤ s)
      (fun a b hab ha => by
        obtain ⟨q, hq, hqa⟩ := any_eq_true.mp ha
        exact any_eq_true.mpr ⟨q, hq, decide_eq_true ((of_decide_eq_true hqa).trans hab)⟩)
      low (min j posts.length)
    refine ⟨low + k, ?_, by omega, fun q hq => ?_⟩
    · have hkept : (scan workers.length p (posts.take j)).1.map Post.serial
          = List.range' (low + k) (min j posts.length - k) := by
        have hsign : Post.serial ∘ Post.sign p = (Post.serial : Post α → ℕ) :=
          funext fun m => m.sign_serial p
        rw [scan_fst, map_map, hsign, h.filter_not_full fun m hm => mem_of_mem_take hm,
          ← hfilter, ← htake, filter_map]
        rfl
      rw [map_append, hkept, hdrop]
      rcases Nat.le_total j posts.length with hj | hj
      · rw [Nat.min_eq_left hj, show low + j = low + k + (j - k) by omega,
          range'_append_1, show j - k + (posts.length - j) = log.length - (low + k) by omega]
      · rw [Nat.min_eq_right hj, Nat.sub_eq_zero_of_le hj, range'_zero, append_nil,
          show posts.length - k = log.length - (low + k) by omega]
    · rcases eq_or_ne q p with rfl | hne
      · rw [update_self]
        omega
      · rw [update_of_ne hne]
        refine Nat.le_of_not_lt fun hlt => ?_
        have hany := hbelow (known q) (hlow q hq) hlt
        rw [any_eq_false] at hany
        exact hany q hq (by simp)
  · intro m hm
    obtain ⟨n, hn, ⟨rfl, -⟩ | ⟨rfl, -⟩⟩ := hsplit m hm
    · rw [n.sign_serial, n.sign_body]
      exact h.body n hn
    · exact h.body m hn
  · intro m hm
    obtain ⟨n, hn, ⟨rfl, -⟩ | ⟨rfl, -⟩⟩ := hsplit m hm
    · exact Post.nodup_sign (h.readers_nodup n hn)
    · exact h.readers_nodup m hn
  · intro m hm q
    obtain ⟨n, hn, ⟨rfl, hlt⟩ | ⟨rfl, hge⟩⟩ := hsplit m hm
    · rw [Post.mem_sign, n.sign_serial, h.readers n hn]
      rcases eq_or_ne q p with rfl | hne
      · rw [update_self]
        exact ⟨fun _ => ⟨hp, by omega⟩, fun _ => Or.inr rfl⟩
      · rw [update_of_ne hne]
        exact ⟨fun hor => hor.elim id fun heq => absurd heq hne, Or.inl⟩
    · rw [h.readers m hn]
      rcases eq_or_ne q p with rfl | hne
      · rw [update_self]
        exact ⟨fun hq => ⟨hq.1, by omega⟩, fun hq => ⟨hq.1, by omega⟩⟩
      · rw [update_of_ne hne]

/-- **Reading.** What stays on the board is fair again, with a worker that knows everything. -/
theorem Fair.scan (hp : p ∈ workers) :
    Fair workers (update known p log.length) log (scan workers.length p posts).1 := by
  obtain ⟨low, hwindow, hle, hlow⟩ := h.window
  have hlen : posts.length = log.length - low := by simpa using congrArg List.length hwindow
  have htake := h.scan_take hwindow hle hlow hp posts.length
  have hknown := h.known_le p hp
  rwa [take_length, drop_length, append_nil,
    show max (known p) (low + min posts.length posts.length) = log.length by omega] at htake

/-- **Posting**, by a worker that knows everything. -/
theorem Fair.publish (hp : p ∈ workers) (hknown : known p = log.length) (a : α) :
    Fair workers (update known p (log.length + 1)) (log ++ [a])
      (posts ++ [⟨log.length, [p], a⟩]) where
  nodup := h.nodup
  known_le q hq := by
    rw [length_append, length_singleton]
    rcases eq_or_ne q p with rfl | hne
    · simp
    · rw [update_of_ne hne]
      exact (h.known_le q hq).trans (Nat.le_succ _)
  window := by
    obtain ⟨low, hwindow, hle, hlow⟩ := h.window
    refine ⟨low, ?_, ?_, fun q hq => ?_⟩
    · rw [map_append, hwindow, length_append, length_singleton,
        Nat.sub_add_comm hle, range'_concat]
      simp only [map_cons, map_nil, one_mul]
      congr 2
      omega
    · rw [length_append]
      omega
    · rcases eq_or_ne q p with rfl | hne
      · rw [update_self]
        omega
      · rw [update_of_ne hne]
        exact hlow q hq
  body m hm := by
    rcases List.mem_append.mp hm with hm | hm
    · have hlt := (List.getElem?_eq_some_iff.mp (h.body m hm)).1
      rw [List.getElem?_append_left hlt]
      exact h.body m hm
    · rw [mem_singleton.mp hm]
      simp
  readers_nodup m hm := by
    rcases mem_append.mp hm with hm | hm
    · exact h.readers_nodup m hm
    · rw [mem_singleton.mp hm]
      exact nodup_singleton p
  readers m hm q := by
    rcases List.mem_append.mp hm with hm | hm
    · have hlt := (List.getElem?_eq_some_iff.mp (h.body m hm)).1
      rw [h.readers m hm]
      rcases eq_or_ne q p with rfl | hne
      · rw [update_self, hknown]
        exact ⟨fun hq => ⟨hq.1, by omega⟩, fun hq => ⟨hq.1, hlt⟩⟩
      · rw [update_of_ne hne]
    · rw [mem_singleton.mp hm]
      constructor
      · intro hq
        rw [mem_singleton.mp hq, update_self]
        exact ⟨hp, Nat.lt_succ_self _⟩
      · rintro ⟨hq, hlt⟩
        refine mem_singleton.mpr (by_contra fun hne => ?_)
        rw [update_of_ne hne] at hlt
        exact absurd (h.known_le q hq) (Nat.not_le.mpr hlt)

end

/-- A renamed worker knows what it knew. -/
theorem update_rename (hnew : new ∉ workers) (hp : p ∈ workers) :
    update known new (known old) (if p = old then new else p) = known p := by
  by_cases hpo : p = old
  · rw [if_pos hpo, update_self, hpo]
  · have hpn : p ≠ new := by
      rintro rfl
      exact hnew hp
    rw [if_neg hpo, update_of_ne hpn]

/-- A new name keeps names apart. -/
theorem rename_injOn (hnew : new ∉ workers) {p q : ℕ} (hp : p ∈ workers) (hq : q ∈ workers)
    (h : (if p = old then new else p) = if q = old then new else q) : p = q := by
  by_cases hpo : p = old
  · by_cases hqo : q = old
    · rw [hpo, hqo]
    · rw [if_pos hpo, if_neg hqo] at h
      exact absurd (h ▸ hq) hnew
  · by_cases hqo : q = old
    · rw [if_neg hpo, if_pos hqo] at h
      exact absurd (h ▸ hp) hnew
    · rwa [if_neg hpo, if_neg hqo] at h

/-- **Replacing.** A new worker gets the place, the signatures and so the count of an old one. -/
theorem Fair.rename (h : Fair workers known log posts) (hnew : new ∉ workers) :
    Fair (workers.map fun p => if p = old then new else p) (update known new (known old))
      log (posts.map (Post.rename old new)) where
  nodup := h.nodup.map_on fun p hp q hq hpq => rename_injOn hnew hp hq hpq
  known_le q hq := by
    obtain ⟨p, hp, rfl⟩ := mem_map.mp hq
    rw [update_rename hnew hp]
    exact h.known_le p hp
  window := by
    obtain ⟨low, hwindow, hle, hlow⟩ := h.window
    refine ⟨low, ?_, hle, fun q hq => ?_⟩
    · rw [map_map, ← hwindow]
      rfl
    · obtain ⟨p, hp, rfl⟩ := mem_map.mp hq
      rw [update_rename hnew hp]
      exact hlow p hp
  body m hm := by
    obtain ⟨n, hn, rfl⟩ := mem_map.mp hm
    exact h.body n hn
  readers_nodup m hm := by
    obtain ⟨n, hn, rfl⟩ := mem_map.mp hm
    refine (h.readers_nodup n hn).map_on fun p hp q hq hpq => ?_
    exact rename_injOn hnew ((h.readers n hn p).mp hp).1 ((h.readers n hn q).mp hq).1 hpq
  readers m hm q := by
    obtain ⟨n, hn, rfl⟩ := mem_map.mp hm
    constructor
    · intro hq
      obtain ⟨p, hp, rfl⟩ := mem_map.mp hq
      obtain ⟨hmem, hlt⟩ := (h.readers n hn p).mp hp
      exact ⟨mem_map_of_mem hmem, by rwa [update_rename hnew hmem]⟩
    · rintro ⟨hq, hlt⟩
      obtain ⟨p, hp, rfl⟩ := mem_map.mp hq
      rw [update_rename hnew hp] at hlt
      exact mem_map_of_mem ((h.readers n hn p).mpr ⟨hp, hlt⟩)

/-- **Nothing unread, nothing unknown.** -/
theorem Fair.not_unread (h : Fair workers known log posts) (hp : p ∈ workers)
    (hread : ∀ m ∈ posts, p ∈ m.readers) : known p = log.length := by
  obtain ⟨low, hwindow, hle, hlow⟩ := h.window
  refine le_antisymm (h.known_le p hp) (Nat.le_of_not_lt fun hlt => ?_)
  have hmem : known p ∈ posts.map Post.serial := by
    rw [hwindow]
    exact mem_range'_1.mpr ⟨hlow p hp, by omega⟩
  obtain ⟨m, hm, hserial⟩ := mem_map.mp hmem
  exact absurd ((h.readers m hm p).mp (hread m hm)).2 (by omega)

/-- **What is gone was read by everyone.** -/
theorem Fair.gone (h : Fair workers known log posts) {s : ℕ} (hs : s < log.length)
    (hgone : s ∉ posts.map Post.serial) (hp : p ∈ workers) : s < known p := by
  obtain ⟨low, hwindow, hle, hlow⟩ := h.window
  refine lt_of_lt_of_le (Nat.lt_of_not_le fun hls => hgone ?_) (hlow p hp)
  rw [hwindow]
  exact mem_range'_1.mpr ⟨hls, by omega⟩

end Hengine.Broadcast
