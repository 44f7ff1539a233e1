import Pincerbell.Dedup
import Pincerbell.Support.Occurrences

/-!
# The cache under any order of clock values

A caller reads the clock before it takes the lock, so that the recordings may come in with times
in any order. The log is not sorted then, expiry stops at the first entry that is still young, and
a key that was recorded again behind it has stale entries. What ties the log to the map is that the
entries of one key are in order all the same, at least a TTL apart, and that the last of them is the
one that the map holds.

* `Agrees` — that tie. `Agrees.tail` says that it survives the removal of the front entry, and
  `Agrees.concat` that it survives a recording.
* `expire_pops`, `evict_pops` — both loops of `recordAt` remove entries from the front, one by one.
* `KeepsFresh` — no removal of a stale entry changes the map.
* `agrees_after` — every state of a run.
-/

namespace Pincerbell.DedupCache

open Log

variable {c : DedupCache} {seen : HashMap Key Instant} {order popped rest : List (Instant × Key)}
  {now t : Instant} {key k : Key}

/-- A positive time that has passed since `t` has passed without saturation. -/
theorem add_le_of_not_sub_lt {d t now : ℕ} (hd : 0 < d) (h : ¬ now - t < d) : t + d ≤ now := by
  omega

/-- The map holds the last entry of each key in the log, and the entries of a key are at least a TTL
apart. -/
structure Agrees (c : DedupCache) (seen : HashMap Key Instant) (order : List (Instant × Key)) :
    Prop where
  last : ∀ k, seen.lookup k = (occurrences order k).getLast?
  spaced : ∀ k, Spaced c.ttl (occurrences order k)

/-- The empty cache. -/
theorem Agrees.empty : c.Agrees ∅ [] where
  last := by simp
  spaced := by simp [Spaced]

/-- A key is listed exactly when the map holds it. -/
theorem Agrees.mem_iff (h : c.Agrees seen order) :
    (∃ t, (t, k) ∈ order) ↔ ∃ t, seen.lookup k = some t := by
  have hnil : occurrences order k = [] ↔ seen.lookup k = none := by
    rw [h.last, List.getLast?_eq_none_iff]
  rw [← Option.ne_none_iff_exists', ne_eq, ← hnil, occurrences_eq_nil_iff]
  simp

/-- No entry is listed twice. -/
theorem Agrees.nodup (httl : 0 < c.ttl) (h : c.Agrees seen order) : order.Nodup :=
  nodup_of_occurrences fun k => (h.spaced k).nodup httl

/-- A cache without a log is empty. -/
theorem Agrees.len_eq_zero (h : c.Agrees seen []) : seen.len = 0 := by
  rw [HashMap.len, List.length_eq_zero_iff, List.eq_nil_iff_forall_not_mem]
  rintro ⟨k, t⟩ hmem
  have hl : seen.lookup k = some t := AList.mem_lookup_iff.mpr hmem
  rw [h.last, occurrences_nil] at hl
  cases hl

/-! ### Removing the front -/

/-- Removing an entry whose key was recorded again later does not touch the map. -/
theorem Agrees.forget_of_mem (httl : 0 < c.ttl) (h : c.Agrees seen ((t, key) :: order))
    {t' : Instant} (hmem : (t', key) ∈ order) : forget seen t key = seen := by
  have hlast := h.last key
  have hspaced := h.spaced key
  rw [occurrences_cons_self] at hlast hspaced
  -- the map holds a later time of the key, which is at least a TTL away
  have hne : occurrences order key ≠ [] := List.ne_nil_of_mem (mem_occurrences.mpr hmem)
  rw [List.getLast?_cons, List.getLast?_eq_some_getLast hne, Option.getD_some] at hlast
  have hle : t + c.ttl ≤ (occurrences order key).getLast hne :=
    (List.pairwise_cons.mp hspaced).1 _ (List.getLast_mem hne)
  have hother : ¬ seen.lookup key = some t := by
    rw [hlast, Option.some_inj]
    exact Nat.ne_of_gt (Nat.lt_of_lt_of_le (Nat.lt_add_of_pos_right httl) hle)
  rw [forget, if_neg hother]

/-- Removing the front entry, and its key if the map holds this very entry. -/
theorem Agrees.tail (httl : 0 < c.ttl) (h : c.Agrees seen ((t, key) :: order)) :
    c.Agrees (forget seen t key) order := by
  constructor
  case last =>
    intro k
    by_cases hk : key = k
    · subst hk
      by_cases hnil : occurrences order key = []
      · -- the only entry of the key, so the map forgets it
        have hlast := h.last key
        rw [occurrences_cons_self, hnil] at hlast
        have hl : seen.lookup key = some t := hlast
        rw [lookup_forget, if_pos ⟨rfl, hl⟩, hnil, List.getLast?_nil]
      · have hlast := h.last key
        obtain ⟨t', hmem⟩ := List.exists_mem_of_ne_nil _ hnil
        rw [h.forget_of_mem httl (mem_occurrences.mp hmem), hlast, occurrences_cons_self,
          List.getLast?_cons, List.getLast?_eq_some_getLast hnil, Option.getD_some]
    · have hlast := h.last k
      rw [occurrences_cons_ne hk] at hlast
      rw [lookup_forget, if_neg fun hand => hk hand.1.symm, hlast]
  case spaced =>
    intro k
    have hspaced := h.spaced k
    by_cases hk : key = k
    · subst hk
      rw [occurrences_cons_self] at hspaced
      exact (List.pairwise_cons.mp hspaced).2
    · rwa [occurrences_cons_ne hk] at hspaced

/-- The map after entries have been removed from the front of the log. -/
def popAll (seen : HashMap Key Instant) (popped : List (Instant × Key)) : HashMap Key Instant :=
  popped.foldl (fun seen r => forget seen r.1 r.2) seen

/-- Removing any number of entries from the front. -/
theorem Agrees.popAll (httl : 0 < c.ttl) (h : c.Agrees seen (popped ++ rest)) :
    c.Agrees (DedupCache.popAll seen popped) rest := by
  induction popped generalizing seen with
  | nil => exact h
  | cons r popped ih => exact ih (h.tail httl)

/-! ### The loops -/

/-- A loop that removes entries from the front leaves the map alone when the entry is stale, which
is when a later entry of its key is still listed. -/
def KeepsFresh (seen : HashMap Key Instant) (order : List (Instant × Key)) (result : Inner) :
    Prop :=
  ∃ popped, order = popped ++ result.order ∧ result.seen = popAll seen popped ∧
    ∀ pre t k post, popped = pre ++ (t, k) :: post →
      (∃ t', (t', k) ∈ post ++ result.order) → forget (popAll seen pre) t k = popAll seen pre

/-- Removals that keep the log and the map in step keep what is fresh. -/
theorem Agrees.keepsFresh (httl : 0 < c.ttl) (h : c.Agrees seen (popped ++ rest)) :
    KeepsFresh seen (popped ++ rest) ⟨DedupCache.popAll seen popped, rest⟩ := by
  refine ⟨popped, rfl, rfl, ?_⟩
  rintro pre t k post rfl ⟨t', hmem⟩
  rw [List.append_assoc, List.cons_append] at h
  have hpre : c.Agrees (DedupCache.popAll seen pre) ((t, k) :: (post ++ rest)) := h.popAll httl
  exact hpre.forget_of_mem httl hmem

/-- The first loop removes entries from the front, until it finds one that is still young. -/
theorem expire_pops (now : Instant) (order : List (Instant × Key))
    (seen : HashMap Key Instant) :
    ∃ popped rest, order = popped ++ rest ∧
      c.expire now order seen = ⟨popAll seen popped, rest⟩ ∧
      ∀ r ∈ rest.head?, now - r.1 < c.ttl := by
  induction order generalizing seen with
  | nil => exact ⟨[], [], rfl, rfl, by simp⟩
  | cons r order ih =>
    obtain ⟨t, key⟩ := r
    rw [expire]
    split
    next hlive => exact ⟨[], (t, key) :: order, rfl, rfl, by simpa using hlive⟩
    next =>
      obtain ⟨popped, rest, rfl, heq, hhead⟩ := ih (forget seen t key)
      exact ⟨(t, key) :: popped, rest, rfl, heq, hhead⟩

/-- The second loop removes entries from the front. -/
theorem evict_pops (order : List (Instant × Key)) (seen : HashMap Key Instant) :
    ∃ popped rest, order = popped ++ rest ∧ c.evict order seen = ⟨popAll seen popped, rest⟩ := by
  induction order generalizing seen with
  | nil => exact ⟨[], [], rfl, rfl⟩
  | cons r order ih =>
    obtain ⟨t, key⟩ := r
    rw [evict]
    split
    next =>
      obtain ⟨popped, rest, rfl, heq⟩ := ih (forget seen t key)
      exact ⟨(t, key) :: popped, rest, rfl, heq⟩
    next => exact ⟨[], (t, key) :: order, rfl, rfl⟩

/-- Whether the second loop finds the log empty while there are still too many keys. -/
def evictRunsOut (c : DedupCache) : List (Instant × Key) → HashMap Key Instant → Bool
  | [], seen => c.maxEntries < seen.len
  | (t, key) :: order, seen =>
    if c.maxEntries < seen.len then evictRunsOut c order (forget seen t key) else false

/-- The second loop ends with the cap. -/
theorem Agrees.evict (httl : 0 < c.ttl) (h : c.Agrees seen order) :
    c.evictRunsOut order seen = false ∧ (c.evict order seen).seen.len ≤ c.maxEntries := by
  induction order generalizing seen with
  | nil =>
    -- an empty log means an empty map, which is within any cap
    have hzero := h.len_eq_zero
    simp [evictRunsOut, DedupCache.evict, hzero]
  | cons r order ih =>
    obtain ⟨t, key⟩ := r
    rw [evictRunsOut, DedupCache.evict]
    by_cases hfull : c.maxEntries < seen.len
    · rw [if_pos hfull, if_pos hfull]
      exact ih (h.tail httl)
    · rw [if_neg hfull, if_neg hfull]
      exact ⟨rfl, Nat.le_of_not_lt hfull⟩

/-! ### A recording -/

/-- Recording a key whose window has closed, or that has none. -/
theorem Agrees.concat (httl : 0 < c.ttl) (h : c.Agrees seen order)
    (hclosed : ¬ (seen.lookup key).any (fun t => decide (now - t < c.ttl)) = true) :
    c.Agrees (seen.insert key now) (order ++ [(now, key)]) := by
  constructor
  case last =>
    intro k
    rw [HashMap.lookup_insert, occurrences_append]
    by_cases hk : key = k
    · subst hk
      rw [if_pos rfl, occurrences_cons_self, occurrences_nil, List.getLast?_concat]
    · rw [if_neg (Ne.symm hk), occurrences_cons_ne hk, occurrences_nil, List.append_nil, h.last]
  case spaced =>
    intro k
    rw [occurrences_append]
    by_cases hk : key = k
    · subst hk
      rw [occurrences_cons_self, occurrences_nil, Spaced, List.pairwise_append]
      refine ⟨h.spaced key, by simp, fun t ht t' ht' => ?_⟩
      obtain rfl := List.mem_singleton.mp ht'
      -- the last time of the key is a TTL ago, and the others are before it
      obtain ⟨u, hu⟩ : ∃ u, seen.lookup key = some u :=
        h.mem_iff.mp ⟨t, mem_occurrences.mp ht⟩
      have hle : t ≤ u := (h.spaced key).le_getLast? ((h.last key).symm.trans hu) ht
      have hold : ¬ t' - u < c.ttl := by simpa [hu] using hclosed
      calc t + c.ttl ≤ u + c.ttl := Nat.add_le_add_right hle c.ttl
        _ ≤ t' := add_le_of_not_sub_lt httl hold
    · rw [occurrences_cons_ne hk, occurrences_nil, List.append_nil]
      exact h.spaced k

variable {inner : Inner}

/-- The first loop keeps the log and the map in step. -/
theorem Agrees.expire (httl : 0 < c.ttl) (h : c.Agrees seen order) (now : Instant) :
    c.Agrees (c.expire now order seen).seen (c.expire now order seen).order := by
  obtain ⟨popped, rest, rfl, heq, -⟩ := c.expire_pops now order seen
  rw [heq]
  exact h.popAll httl

/-- A recording keeps the log and the map in step. -/
theorem Agrees.recordAt (httl : 0 < c.ttl) (h : c.Agrees inner.seen inner.order) :
    c.Agrees (c.recordAt now key inner).seen (c.recordAt now key inner).order := by
  have hexpire := h.expire httl now
  rw [DedupCache.recordAt, if_neg (Nat.ne_of_gt httl)]
  dsimp only
  split
  next => exact hexpire
  next hclosed =>
    have hconcat := hexpire.concat httl hclosed
    obtain ⟨popped, rest, horder, heq⟩ := c.evict_pops
      ((c.expire now inner.order inner.seen).order ++ [(now, key)])
      ((c.expire now inner.order inner.seen).seen.insert key now)
    rw [horder] at hconcat
    rw [heq]
    exact hconcat.popAll httl

/-- A recording leaves the map within the cap. -/
theorem Agrees.len_recordAt_le (httl : 0 < c.ttl) (h : c.Agrees inner.seen inner.order)
    (hlen : inner.seen.len ≤ c.maxEntries) :
    (c.recordAt now key inner).seen.len ≤ c.maxEntries := by
  rw [DedupCache.recordAt, if_neg (Nat.ne_of_gt httl)]
  dsimp only
  split
  next => exact Nat.le_trans (c.len_expire_le inner.order inner.seen) hlen
  next hclosed => exact (((h.expire httl now).concat httl hclosed).evict httl).2

/-! ### Runs -/

/-- The log and the map are in step after any recordings. -/
theorem agrees_after (httl : 0 < c.ttl) (rs : List (Instant × Key)) :
    c.Agrees (c.after rs).seen (c.after rs).order := by
  induction rs using List.reverseRecOn with
  | nil => exact Agrees.empty
  | append_singleton rs r ih =>
    rw [after_concat]
    exact ih.recordAt httl

/-- The map is within the cap after any recordings. -/
theorem len_seen_after_le (httl : 0 < c.ttl) (rs : List (Instant × Key)) :
    (c.after rs).seen.len ≤ c.maxEntries := by
  induction rs using List.reverseRecOn with
  | nil => exact Nat.zero_le _
  | append_singleton rs r ih =>
    rw [after_concat]
    exact (agrees_after httl rs).len_recordAt_le httl ih

/-- What holds of the cache between two calls. -/
structure Represents (c : DedupCache) (inner : Inner) : Prop where
  len_le : inner.seen.len ≤ c.maxEntries
  listed_iff : ∀ k, (∃ t, (t, k) ∈ inner.order) ↔ ∃ t, inner.seen.lookup k = some t
  last : ∀ k t, inner.seen.lookup k = some t → (occurrences inner.order k).getLast? = some t
  spaced : ∀ k, (occurrences inner.order k).Pairwise fun t t' => t + c.ttl ≤ t'
  nodup : inner.order.Nodup

/-- After any recordings, at any times, the map is within its cap, it holds the last entry of each
listed key, and the entries of a key are at least a TTL apart. Whatever recording comes next,
neither loop lets go of a key that was recorded again later, and the second ends before the log
does. -/
theorem recordings_agree (httl : 0 < c.ttl) (rs : List (Instant × Key)) :
    c.Represents (c.after rs) ∧
    ∀ now key,
      let expired := c.expire now (c.after rs).order (c.after rs).seen
      KeepsFresh (c.after rs).seen (c.after rs).order expired ∧
      (¬ (expired.seen.lookup key).any (fun t => decide (now - t < c.ttl)) = true →
        let order := expired.order ++ [(now, key)]
        let seen := expired.seen.insert key now
        c.evictRunsOut order seen = false ∧ KeepsFresh seen order (c.evict order seen)) := by
  have hagrees := agrees_after httl rs
  constructor
  · exact {
      len_le := len_seen_after_le httl rs
      listed_iff := fun k => hagrees.mem_iff
      last := fun k t hl => (hagrees.last k).symm.trans hl
      spaced := hagrees.spaced
      nodup := hagrees.nodup httl }
  · intro now key expired
    have hexpired : c.Agrees expired.seen expired.order := hagrees.expire httl now
    constructor
    · -- the first loop pops the front of the log
      obtain ⟨popped, rest, horder, heq, -⟩ :=
        c.expire_pops now (c.after rs).order (c.after rs).seen
      rw [horder] at hagrees
      show KeepsFresh _ _ (c.expire now _ _)
      rw [heq, horder]
      exact hagrees.keepsFresh httl
    · intro hclosed order seen
      -- the second loop starts from a log that agrees with the map again
      have hconcat : c.Agrees seen order := hexpired.concat httl hclosed
      refine ⟨(hconcat.evict httl).1, ?_⟩
      obtain ⟨popped, rest, horder, heq⟩ := c.evict_pops order seen
      rw [horder] at hconcat
      rw [heq, horder]
      exact hconcat.keepsFresh httl

/-- A recording that reads the clock late: the second call has an earlier time than the first, and
the key of the second is recorded again behind a young front entry. -/
theorem recordings_agree_out_of_order :
    let c : DedupCache := ⟨3, 5⟩
    let rs : List (Instant × Key) := [(9, ("e", "a", "k")), (2, ("f", "a", "k")),
      (8, ("f", "a", "k"))]
    0 < c.ttl ∧ c.Represents (c.after rs) ∧
      (c.after rs).order = [(9, ("e", "a", "k")), (2, ("f", "a", "k")), (8, ("f", "a", "k"))] := by
  refine ⟨by decide, (recordings_agree (by decide) _).1, by decide⟩

end Pincerbell.DedupCache
