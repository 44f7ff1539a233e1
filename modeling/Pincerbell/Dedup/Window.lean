import Mathlib.Data.List.DropRight
import Pincerbell.Dedup

/-!
# What the cache remembers

While the clock does not go back, the two fields of the cache agree, and what they hold is a window
on the recordings that the cache accepted: those that are among the last `maxEntries` of them and
younger than the TTL.

* `accepted` — the recordings of a run that opened a window.
* `Consistent` — `order` lists `seen`.
* `Window` — what the cache holds, in terms of the accepted recordings.
* `isDuplicateAt_after_iff` — the answer of the cache, in terms of the accepted recordings.
-/

namespace List

variable {α : Type} {l s : List α} {n : ℕ}

/-- A short suffix is part of the last `n` elements. -/
theorem IsSuffix.subset_rtake (h : s <:+ l) (hn : s.length ≤ n) : s ⊆ l.rtake n := by
  obtain ⟨r, rfl⟩ := h
  intro a ha
  have hle : (r ++ s).length - n ≤ r.length := by
    rw [length_append]
    omega
  rw [rtake, drop_append_of_le_length hle]
  exact mem_append_right _ ha

/-- A long suffix has the same last `n` elements. -/
theorem IsSuffix.rtake_eq (h : s <:+ l) (hn : n ≤ s.length) : s.rtake n = l.rtake n := by
  obtain ⟨r, rfl⟩ := h
  have hlen : (r ++ s).length - n = r.length + (s.length - n) := by
    rw [length_append]
    omega
  rw [rtake, rtake, hlen, drop_append, drop_eq_nil_of_le (Nat.le_add_right _ _), nil_append,
    Nat.add_sub_cancel_left]

/-- The last `n` elements of a longer list are those of the list, or new. -/
theorem mem_rtake_of_mem_rtake_concat {a b : α} (h : a ∈ (l ++ [b]).rtake n) :
    a ∈ l.rtake n ∨ a = b := by
  rw [rtake, length_append, length_singleton, drop_append] at h
  rcases mem_append.mp h with h | h
  · left
    have hsub : l.drop (l.length + 1 - n) ⊆ l.drop (l.length - n) := by
      have heq : l.length + 1 - n = (l.length - n) + (l.length + 1 - n - (l.length - n)) := by
        omega
      rw [heq, ← drop_drop]
      exact drop_subset _ _
    exact hsub h
  · exact Or.inr (mem_singleton.mp (mem_of_mem_drop h))

end List

namespace Pincerbell.DedupCache

variable (c : DedupCache)

/-- The recordings that are accepted, from a given state: those of no duplicate. -/
def acceptedFrom (inner : Inner) : List (Instant × Key) → List (Instant × Key)
  | [] => []
  | r :: rs =>
    ([r].filter fun r => !c.isDuplicateAt r.1 r.2 inner) ++
      acceptedFrom (c.recordAt r.1 r.2 inner) rs

/-- The recordings of a run that are accepted. -/
def accepted (rs : List (Instant × Key)) : List (Instant × Key) := c.acceptedFrom {} rs

theorem accepted_concat (rs : List (Instant × Key)) (r : Instant × Key) :
    c.accepted (rs ++ [r]) =
      c.accepted rs ++ [r].filter fun r => !c.isDuplicateAt r.1 r.2 (c.after rs) := by
  have hfrom : ∀ inner, c.acceptedFrom inner (rs ++ [r]) =
      c.acceptedFrom inner rs ++ [r].filter fun r =>
        !c.isDuplicateAt r.1 r.2 (rs.foldl (fun inner r => c.recordAt r.1 r.2 inner) inner) := by
    intro inner
    induction rs generalizing inner with
    | nil => simp [acceptedFrom]
    | cons r' rs ih => simp [acceptedFrom, ih]
  exact hfrom {}

/-- What is accepted was recorded. -/
theorem accepted_sublist (rs : List (Instant × Key)) : (c.accepted rs).Sublist rs := by
  induction rs using List.reverseRecOn with
  | nil => exact List.Sublist.refl _
  | append_singleton rs r ih =>
    rw [accepted_concat]
    exact ih.append List.filter_sublist

/-! ### The two fields agree -/

/-- `order` lists what `seen` holds. -/
structure Consistent (inner : Inner) : Prop where
  nodup : (inner.order.map Prod.snd).Nodup
  lookup_iff : ∀ {k t}, inner.seen.lookup k = some t ↔ (t, k) ∈ inner.order
  len : inner.seen.len = inner.order.length

variable {c} {seen : HashMap Key Instant} {order : List (Instant × Key)} {now t : Instant}
  {key k : Key}

/-- Removing the front of `order` with its key. -/
theorem Consistent.tail (h : Consistent ⟨seen, (t, key) :: order⟩) :
    Consistent ⟨forget seen t key, order⟩ := by
  have hl : seen.lookup key = some t := h.lookup_iff.mpr List.mem_cons_self
  have hnodup := h.nodup
  rw [List.map_cons, List.nodup_cons] at hnodup
  constructor
  case nodup => exact hnodup.2
  case lookup_iff =>
    intro k t'
    rw [lookup_forget]
    by_cases hk : k = key
    · -- the key is not listed again behind the front
      subst hk
      simp only [hl, and_self, if_true]
      refine iff_of_false (by simp) fun hmem => ?_
      exact hnodup.1 (List.mem_map.mpr ⟨_, hmem, rfl⟩)
    · rw [if_neg fun hand => hk hand.1]
      refine (h.lookup_iff (k := k)).trans ?_
      simp [hk]
  case len =>
    have hlen := HashMap.len_erase_of_lookup hl
    have hwhole := h.len
    simp only [List.length_cons] at hwhole
    rw [forget, if_pos hl]
    show HashMap.len (AList.erase key seen) = order.length
    omega

/-- The first loop drops the expired front. -/
theorem Consistent.expire (h : Consistent ⟨seen, order⟩) :
    Consistent (c.expire now order seen) ∧
      (c.expire now order seen).order =
        order.dropWhile fun r => !decide (now - r.1 < c.ttl) := by
  induction order generalizing seen with
  | nil => exact ⟨h, rfl⟩
  | cons r order ih =>
    obtain ⟨t, key⟩ := r
    rw [DedupCache.expire]
    by_cases hlive : now - t < c.ttl
    · rw [if_pos hlive, List.dropWhile_cons_of_neg (by simp [hlive])]
      exact ⟨h, rfl⟩
    · rw [if_neg hlive, List.dropWhile_cons_of_pos (by simp [hlive])]
      exact ih h.tail

/-- The second loop keeps the last `maxEntries`. -/
theorem Consistent.evict (h : Consistent ⟨seen, order⟩) (c : DedupCache) :
    Consistent (c.evict order seen) ∧ (c.evict order seen).order = order.rtake c.maxEntries := by
  induction order generalizing seen with
  | nil => exact ⟨h, by simp [DedupCache.evict]⟩
  | cons r order ih =>
    obtain ⟨t, key⟩ := r
    have hlen : seen.len = order.length + 1 := h.len
    rw [DedupCache.evict]
    by_cases hfull : c.maxEntries < seen.len
    · -- one more to keep than to list, so the front goes
      obtain ⟨hcons, horder⟩ := ih h.tail
      have hdrop : (order.length + 1) - c.maxEntries = (order.length - c.maxEntries) + 1 := by omega
      rw [if_pos hfull]
      refine ⟨hcons, horder.trans ?_⟩
      rw [List.rtake, List.rtake, List.length_cons, hdrop, List.drop_succ_cons]
    · have hzero : ((t, key) :: order).length - c.maxEntries = 0 := by
        rw [List.length_cons]
        omega
      rw [if_neg hfull, List.rtake, hzero]
      exact ⟨h, rfl⟩

/-- Recording a new key at the end. -/
theorem Consistent.concat (h : Consistent ⟨seen, order⟩) (now : Instant)
    (hnew : seen.lookup key = none) :
    Consistent ⟨seen.insert key now, order ++ [(now, key)]⟩ := by
  constructor
  case nodup =>
    rw [List.map_append, List.nodup_append]
    refine ⟨h.nodup, by simp, ?_⟩
    intro k hk k' hk' heq
    obtain ⟨⟨t, k⟩, hmem, rfl⟩ := List.mem_map.mp hk
    obtain rfl : k' = key := by simpa using hk'
    -- a listed key has a record, and the new one has none
    have hl : seen.lookup k = some t := h.lookup_iff.mpr hmem
    rw [show k = k' from heq, hnew] at hl
    cases hl
  case lookup_iff =>
    intro k t
    rw [HashMap.lookup_insert]
    by_cases hk : k = key
    · subst hk
      have hnot : (t, k) ∉ order := fun hmem => by
        rw [h.lookup_iff.mpr hmem] at hnew
        cases hnew
      simp [hnot, eq_comm]
    · rw [if_neg hk]
      refine (h.lookup_iff (k := k)).trans ?_
      simp [hk]
  case len =>
    show HashMap.len (AList.insert key now seen) = _
    rw [HashMap.len_insert_of_lookup_none now hnew, List.length_append, List.length_singleton]
    exact congrArg (· + 1) h.len

/-! ### The window -/

/-- Recordings in the order of the clock. -/
def Sorted (rs : List (Instant × Key)) : Prop := rs.Pairwise fun r r' => r.1 ≤ r'.1

variable (c) in
/-- The cache holds the end of what it accepted, and of the last `maxEntries` at least what is
still young at a time after the run. -/
structure Window (rs : List (Instant × Key)) : Prop where
  consistent : Consistent (c.after rs)
  suffix : (c.after rs).order <:+ c.accepted rs
  bound : (c.after rs).order.length ≤ c.maxEntries
  complete : ∀ now, (∀ r ∈ rs, r.1 ≤ now) → ∀ r ∈ (c.accepted rs).rtake c.maxEntries,
    now - r.1 < c.ttl → r ∈ (c.after rs).order

/-- What the first loop leaves, when `order` is in the order of the clock: what is young. -/
theorem mem_dropWhile_iff {now : Instant} {order : List (Instant × Key)} (h : Sorted order)
    {r : Instant × Key} :
    r ∈ order.dropWhile (fun r => !decide (now - r.1 < c.ttl)) ↔
      r ∈ order ∧ now - r.1 < c.ttl := by
  induction order with
  | nil => simp
  | cons r' order ih =>
    obtain ⟨hle, hsorted⟩ := List.pairwise_cons.mp h
    by_cases hlive : now - r'.1 < c.ttl
    · -- the first entry is young, and so are all the later ones
      rw [List.dropWhile_cons_of_neg (by simp [hlive])]
      refine ⟨fun hmem => ⟨hmem, ?_⟩, And.left⟩
      rcases List.mem_cons.mp hmem with rfl | hmem
      · exact hlive
      · exact Nat.lt_of_le_of_lt (Nat.sub_le_sub_left (hle r hmem) now) hlive
    · rw [List.dropWhile_cons_of_pos (by simp [hlive]), ih hsorted]
      refine ⟨fun hr => ⟨List.mem_cons_of_mem _ hr.1, hr.2⟩, ?_⟩
      rintro ⟨hmem, hr⟩
      rcases List.mem_cons.mp hmem with rfl | hmem
      · exact absurd hr hlive
      · exact ⟨hmem, hr⟩

variable (c) in
/-- What the first loop of a recording at `now` leaves of the cache: exactly the open windows. -/
structure Expired (rs : List (Instant × Key)) (now : Instant) (inner : Inner) : Prop where
  consistent : Consistent inner
  suffix : inner.order <:+ c.accepted rs
  bound : inner.order.length ≤ c.maxEntries
  mem_iff : ∀ r, r ∈ inner.order ↔ r ∈ (c.after rs).order ∧ now - r.1 < c.ttl
  young : ∀ now', now ≤ now' → ∀ r ∈ (c.accepted rs).rtake c.maxEntries, now' - r.1 < c.ttl →
    r ∈ inner.order

/-- The first loop leaves the open windows, when the clock has not gone back. -/
theorem Window.expired {rs : List (Instant × Key)} (h : c.Window rs)
    (hsorted : Sorted rs) (hpast : ∀ r ∈ rs, r.1 ≤ now) :
    c.Expired rs now (c.expire now (c.after rs).order (c.after rs).seen) := by
  -- the log is in the order of the clock, so the loop ends at the first young entry
  have horder : Sorted (c.after rs).order :=
    hsorted.sublist (h.suffix.sublist.trans (c.accepted_sublist rs))
  have hconsistent : Consistent ⟨(c.after rs).seen, (c.after rs).order⟩ := h.consistent
  obtain ⟨hcons, hdrop⟩ :
      Consistent (c.expire now (c.after rs).order (c.after rs).seen) ∧ _ := hconsistent.expire
  have hsuffix : (c.expire now (c.after rs).order (c.after rs).seen).order <:+
      (c.after rs).order := by
    rw [hdrop]
    exact List.dropWhile_suffix _
  have hmem : ∀ r, r ∈ (c.expire now (c.after rs).order (c.after rs).seen).order ↔
      r ∈ (c.after rs).order ∧ now - r.1 < c.ttl := by
    intro r
    rw [hdrop]
    exact mem_dropWhile_iff horder
  constructor
  case consistent => exact hcons
  case suffix => exact hsuffix.trans h.suffix
  case bound => exact Nat.le_trans hsuffix.length_le h.bound
  case mem_iff => exact hmem
  case young =>
    intro now' hle r hr hlive
    have hlive' : now - r.1 < c.ttl := Nat.lt_of_le_of_lt (Nat.sub_le_sub_right hle _) hlive
    exact (hmem r).mpr ⟨h.complete now hpast r hr hlive', hlive'⟩

/-- A recording is a duplicate when its key has an open window. -/
theorem Expired.any_lookup_eq {rs : List (Instant × Key)} {inner : Inner}
    (h : c.Expired rs now inner) (hwindow : c.Window rs) (key : Key) :
    (inner.seen.lookup key).any (fun t => decide (now - t < c.ttl)) =
      c.isDuplicateAt now key (c.after rs) := by
  rw [Bool.eq_iff_iff, isDuplicateAt_iff, Option.any_eq_true]
  apply exists_congr
  intro t
  rw [h.consistent.lookup_iff, h.mem_iff, hwindow.consistent.lookup_iff, decide_eq_true_eq]
  exact ⟨fun h => ⟨h.1.1, h.2⟩, fun h => ⟨⟨h.1, h.2⟩, h.2⟩⟩

/-- A duplicate changes nothing more, and is not accepted. -/
theorem Expired.window_of_duplicate {rs : List (Instant × Key)} {inner : Inner}
    (h : c.Expired rs now inner) (hafter : c.after (rs ++ [(now, key)]) = inner)
    (hdup : c.isDuplicateAt now key (c.after rs) = true) : c.Window (rs ++ [(now, key)]) := by
  have haccepted : c.accepted (rs ++ [(now, key)]) = c.accepted rs := by
    simp [accepted_concat, hdup]
  constructor
  case consistent => exact hafter ▸ h.consistent
  case suffix =>
    rw [hafter, haccepted]
    exact h.suffix
  case bound =>
    rw [hafter]
    exact h.bound
  case complete =>
    intro now' hnow'
    rw [hafter, haccepted]
    exact h.young now' (hnow' (now, key) (by simp))

/-- Any other recording is accepted, and is the youngest. -/
theorem Expired.window_of_new {rs : List (Instant × Key)} {inner : Inner}
    (h : c.Expired rs now inner) (hwindow : c.Window rs)
    (hafter : c.after (rs ++ [(now, key)]) =
      c.evict (inner.order ++ [(now, key)]) (inner.seen.insert key now))
    (hdup : c.isDuplicateAt now key (c.after rs) = false) : c.Window (rs ++ [(now, key)]) := by
  have hnew : inner.seen.lookup key = none := by
    by_contra hsome
    obtain ⟨t, hl⟩ := Option.ne_none_iff_exists'.mp hsome
    have hany := h.any_lookup_eq hwindow key
    rw [hl, hdup] at hany
    simp [((h.mem_iff _).mp (h.consistent.lookup_iff.mp hl)).2] at hany
  obtain ⟨hcons, hevict⟩ := (h.consistent.concat now hnew).evict c
  have haccepted : c.accepted (rs ++ [(now, key)]) = c.accepted rs ++ [(now, key)] := by
    simp [accepted_concat, hdup]
  have hsuffix : inner.order ++ [(now, key)] <:+ c.accepted rs ++ [(now, key)] := by
    obtain ⟨l, hl⟩ := h.suffix
    exact ⟨l, by rw [← List.append_assoc, hl]⟩
  constructor
  case consistent => exact hafter ▸ hcons
  case suffix =>
    rw [hafter, haccepted, hevict]
    exact (List.drop_suffix _ _).trans hsuffix
  case bound =>
    rw [hafter, hevict, List.rtake, List.length_drop]
    omega
  case complete =>
    intro now' hnow' r hr hlive
    rw [hafter, hevict]
    rw [haccepted] at hr
    rcases Nat.lt_or_ge (inner.order ++ [(now, key)]).length c.maxEntries with hlt | hge
    · -- nothing is evicted
      apply List.IsSuffix.subset_rtake (List.suffix_refl _) (Nat.le_of_lt hlt)
      rcases List.mem_rtake_of_mem_rtake_concat hr with hr | rfl
      · exact List.mem_append_left _ (h.young now' (hnow' (now, key) (by simp)) r hr hlive)
      · exact List.mem_append_right _ (List.mem_singleton.mpr rfl)
    · -- what is left are the last accepted ones
      rw [hsuffix.rtake_eq hge]
      exact hr

/-- One recording, later than the others, keeps the window. -/
theorem Window.concat {rs : List (Instant × Key)} {r : Instant × Key} (httl : c.ttl ≠ 0)
    (h : c.Window rs) (hsorted : Sorted (rs ++ [r])) : c.Window (rs ++ [r]) := by
  obtain ⟨now, key⟩ := r
  obtain ⟨hrs, -, hlast⟩ := List.pairwise_append.mp hsorted
  have hexpired := h.expired hrs fun r hr => hlast r hr _ (List.mem_singleton.mpr rfl)
  have hdup := hexpired.any_lookup_eq h key
  cases hduplicate : c.isDuplicateAt now key (c.after rs) with
  | true =>
    apply hexpired.window_of_duplicate _ hduplicate
    rw [after_concat, recordAt, if_neg httl]
    simp only [hdup, hduplicate, if_true]
  | false =>
    apply hexpired.window_of_new h _ hduplicate
    rw [after_concat, recordAt, if_neg httl]
    simp only [hdup, hduplicate]
    rfl

/-- The cache is a window on what it accepted, while the clock does not go back. -/
theorem window_of_sorted (httl : c.ttl ≠ 0) {rs : List (Instant × Key)} (h : Sorted rs) :
    c.Window rs := by
  induction rs using List.reverseRecOn with
  | nil =>
    constructor
    case consistent => constructor <;> simp [after, HashMap.len]
    case suffix => exact List.suffix_refl _
    case bound => exact Nat.zero_le _
    case complete => simp [accepted, acceptedFrom]
  | append_singleton rs r ih => exact (ih (List.pairwise_append.mp h).1).concat httl h

/-- The cache reports a duplicate exactly for the keys of the last `maxEntries` accepted recordings
that are younger than the TTL. -/
theorem isDuplicateAt_after_iff (httl : c.ttl ≠ 0) {rs : List (Instant × Key)} (h : Sorted rs)
    (hnow : ∀ r ∈ rs, r.1 ≤ now) :
    c.isDuplicateAt now key (c.after rs) = true ↔
      ∃ t, (t, key) ∈ (c.accepted rs).rtake c.maxEntries ∧ now - t < c.ttl := by
  have hwindow := window_of_sorted httl h
  rw [isDuplicateAt_iff]
  constructor
  · rintro ⟨t, hl, hlive⟩
    have hmem := hwindow.consistent.lookup_iff.mp hl
    exact ⟨t, hwindow.suffix.subset_rtake hwindow.bound hmem, hlive⟩
  · rintro ⟨t, hmem, hlive⟩
    exact ⟨t, hwindow.consistent.lookup_iff.mpr (hwindow.complete now hnow _ hmem hlive), hlive⟩

end Pincerbell.DedupCache
