import Pincerbell.Queue
import Mathlib.Data.List.Induction

/-!
# Duplicate suppression

The cache of `dedup.rs`: recent deliveries by `(event_id, app_id, pushkey)`, bounded by age and by
number. `order` is a log of the recordings that drives expiry and eviction; `seen` is
authoritative.

* `isDuplicateAt`, `recordAt` — the two operations. `expire` and `evict` are the loops of the
  second.
* `lookup_recordAt` — what one recording can do to a stored time, in any order of clock values.
* `lookup_recordAt_of_live` — it leaves a live window alone while the cache is below its cap.
* `lookup_recordAt_self` — it opens a window for a key that has none.
* `NoEviction`, `exists_lookup_after` — the windows of a run that evicts nothing.
-/

namespace Pincerbell

/-- `(event_id, app_id, pushkey)`. -/
abbrev Key := String × String × String

/-- The immutable part of the cache. -/
structure DedupCache where
  ttl : Duration
  maxEntries : ℕ
  deriving DecidableEq, Repr

namespace DedupCache

/-- The part of the cache behind its lock. -/
structure Inner where
  /-- Delivery time per key. -/
  seen : HashMap Key Instant := ∅
  /-- Insertion order for expiry and eviction. -/
  order : List (Instant × Key) := []

variable (c : DedupCache)

/-- Whether a delivery at `now` repeats one recorded less than the TTL ago. -/
def isDuplicateAt (now : Instant) (key : Key) (inner : Inner) : Bool :=
  -- a TTL of zero switches the suppression off
  if c.ttl = 0 then false
  else
    match inner.seen.lookup key with
    | some t => now - t < c.ttl
    | none => false

/-- Remove a key of the order log, unless it was recorded again later. -/
def forget (seen : HashMap Key Instant) (t : Instant) (key : Key) : HashMap Key Instant :=
  if seen.lookup key = some t then seen.erase key else seen

/-- The first loop of `recordAt`: expire from the front. -/
def expire (now : Instant) : List (Instant × Key) → HashMap Key Instant → Inner
  | [], seen => ⟨seen, []⟩
  | (t, key) :: order, seen =>
    if now - t < c.ttl then ⟨seen, (t, key) :: order⟩ else expire now order (forget seen t key)

/-- The second loop of `recordAt`: evict the oldest while there are too many. -/
def evict : List (Instant × Key) → HashMap Key Instant → Inner
  | [], seen => ⟨seen, []⟩
  | (t, key) :: order, seen =>
    if c.maxEntries < seen.len then evict order (forget seen t key)
    else ⟨seen, (t, key) :: order⟩

/-- Record a successful delivery. A key whose window is still open keeps it as it is. -/
def recordAt (now : Instant) (key : Key) (inner : Inner) : Inner :=
  if c.ttl = 0 then inner
  else
    let inner := c.expire now inner.order inner.seen
    -- a repeat does not extend the window
    if (inner.seen.lookup key).any fun t => now - t < c.ttl then inner
    else c.evict (inner.order ++ [(now, key)]) (inner.seen.insert key now)

/-! ### What one recording does -/

variable {c} {inner : Inner} {now t : Instant} {key k : Key}

/-- A key is a duplicate exactly while its window is open. -/
theorem isDuplicateAt_iff :
    c.isDuplicateAt now key inner = true ↔
      ∃ t, inner.seen.lookup key = some t ∧ now - t < c.ttl := by
  unfold isDuplicateAt
  by_cases hzero : c.ttl = 0
  · simp [hzero]
  · cases inner.seen.lookup key <;> simp [hzero]

theorem lookup_forget (seen : HashMap Key Instant) (t : Instant) (key k : Key) :
    (forget seen t key).lookup k =
      if k = key ∧ seen.lookup key = some t then none else seen.lookup k := by
  unfold forget
  by_cases h : seen.lookup key = some t
  · rw [if_pos h, HashMap.lookup_erase]
    simp [h]
  · simp [h]

/-- The first loop removes expired windows only. -/
theorem lookup_expire (order : List (Instant × Key)) (seen : HashMap Key Instant) (k : Key) :
    (c.expire now order seen).seen.lookup k = seen.lookup k ∨
      (c.expire now order seen).seen.lookup k = none ∧
        ∃ t, seen.lookup k = some t ∧ c.ttl ≤ now - t := by
  induction order generalizing seen with
  | nil => exact Or.inl rfl
  | cons x order ih =>
    obtain ⟨t, key⟩ := x
    rw [expire]
    split
    next => exact Or.inl rfl
    next hold =>
      have hstep := lookup_forget seen t key k
      split at hstep
      next h =>
        -- the key is gone, and the rest of the loop does not bring it back
        obtain ⟨rfl, hl⟩ := h
        right
        refine ⟨?_, t, hl, Nat.le_of_not_lt hold⟩
        rcases ih (forget seen t k) with h | ⟨h, -⟩
        · rw [h, hstep]
        · exact h
      next => rw [← hstep]; exact ih _

/-- The second loop removes windows only. -/
theorem lookup_evict (order : List (Instant × Key)) (seen : HashMap Key Instant) (k : Key) :
    (c.evict order seen).seen.lookup k = seen.lookup k ∨
      (c.evict order seen).seen.lookup k = none := by
  induction order generalizing seen with
  | nil => exact Or.inl rfl
  | cons x order ih =>
    obtain ⟨t, key⟩ := x
    rw [evict]
    split
    next =>
      -- the loop goes on, and has forgotten the oldest entry
      have hstep := lookup_forget seen t key k
      split at hstep
      next =>
        right
        rcases ih (forget seen t key) with h | h
        · rw [h, hstep]
        · exact h
      next => rw [← hstep]; exact ih _
    next => exact Or.inl rfl

/-- The second loop does nothing below the cap. -/
theorem evict_eq_of_len_le {order : List (Instant × Key)} {seen : HashMap Key Instant}
    (h : seen.len ≤ c.maxEntries) : c.evict order seen = ⟨seen, order⟩ := by
  cases order with
  | nil => rfl
  | cons x order => rw [evict, if_neg (Nat.not_lt_of_le h)]

/-- Every stored time is that of a recording. -/
theorem lookup_recordAt (h : (c.recordAt now key inner).seen.lookup k = some t) :
    inner.seen.lookup k = some t ∨ k = key ∧ t = now := by
  have hexpire : (c.expire now inner.order inner.seen).seen.lookup k = some t →
      inner.seen.lookup k = some t := by
    intro h
    rcases c.lookup_expire inner.order inner.seen k with heq | ⟨heq, -⟩
    · rw [← heq, h]
    · rw [heq] at h
      cases h
  unfold recordAt at h
  split at h
  next => exact Or.inl h
  next =>
    simp only at h
    split at h
    next => exact Or.inl (hexpire h)
    next =>
      -- a new window for `key`, and the second loop removes windows only
      rcases c.lookup_evict _ _ k with heq | heq
      · rw [heq, HashMap.lookup_insert] at h
        split at h
        next hk => exact Or.inr ⟨hk, (Option.some_inj.mp h).symm⟩
        next => exact Or.inl (hexpire h)
      · rw [heq] at h
        cases h

theorem len_forget_le (seen : HashMap Key Instant) : (forget seen t key).len ≤ seen.len := by
  unfold forget
  split
  next => exact HashMap.len_erase_le seen key
  next => exact Nat.le_refl _

/-- The first loop makes the cache no larger. -/
theorem len_expire_le (order : List (Instant × Key)) (seen : HashMap Key Instant) :
    (c.expire now order seen).seen.len ≤ seen.len := by
  induction order generalizing seen with
  | nil => exact Nat.le_refl _
  | cons x order ih =>
    obtain ⟨t, key⟩ := x
    rw [expire]
    split
    next => exact Nat.le_refl _
    next => exact Nat.le_trans (ih _) (len_forget_le seen)

/-- The second loop makes the cache no larger. -/
theorem len_evict_le (order : List (Instant × Key)) (seen : HashMap Key Instant) :
    (c.evict order seen).seen.len ≤ seen.len := by
  induction order generalizing seen with
  | nil => exact Nat.le_refl _
  | cons x order ih =>
    obtain ⟨t, key⟩ := x
    rw [evict]
    split
    next => exact Nat.le_trans (ih _) (len_forget_le seen)
    next => exact Nat.le_refl _

variable (c) in
/-- Whether a recording enters the second loop. -/
def evicts (now : Instant) (key : Key) (inner : Inner) : Bool :=
  let inner := c.expire now inner.order inner.seen
  !(inner.seen.lookup key).any (fun t => now - t < c.ttl) &&
    c.maxEntries < HashMap.len (inner.seen.insert key now)

/-- Below the cap, the second loop stops at once. -/
theorem evicts_eq_false_of_len_lt (hlen : inner.seen.len < c.maxEntries) :
    c.evicts now key inner = false := by
  have hle : HashMap.len ((c.expire now inner.order inner.seen).seen.insert key now) ≤
      c.maxEntries := by
    refine Nat.le_trans (HashMap.len_insert_le _ _ _) ?_
    exact Nat.lt_of_le_of_lt (c.len_expire_le inner.order inner.seen) hlen
  simp [evicts, hle]

/-- What a recording does that evicts nothing: it expires, and opens a window unless there is
one. -/
theorem recordAt_eq_of_not_evicts (httl : c.ttl ≠ 0) (hkeep : c.evicts now key inner = false) :
    c.recordAt now key inner =
      let inner := c.expire now inner.order inner.seen
      if (inner.seen.lookup key).any fun t => now - t < c.ttl then inner
      else ⟨inner.seen.insert key now, inner.order ++ [(now, key)]⟩ := by
  rw [recordAt, if_neg httl]
  simp only
  split
  next => rfl
  next hclosed =>
    have hle : HashMap.len ((c.expire now inner.order inner.seen).seen.insert key now) ≤
        c.maxEntries := by
      simpa [evicts, hclosed] using hkeep
    exact evict_eq_of_len_le hle

/-- A recording that evicts nothing leaves an open window as it is. -/
theorem lookup_recordAt_of_not_evicts (hl : inner.seen.lookup k = some t)
    (hlive : now - t < c.ttl) (hkeep : c.evicts now key inner = false) :
    (c.recordAt now key inner).seen.lookup k = some t := by
  have httl : c.ttl ≠ 0 := Nat.ne_of_gt (Nat.lt_of_le_of_lt (Nat.zero_le _) hlive)
  have hexpire : (c.expire now inner.order inner.seen).seen.lookup k = some t := by
    rcases c.lookup_expire inner.order inner.seen k with heq | ⟨-, t', hl', hold⟩
    · rw [heq, hl]
    · rw [hl] at hl'
      cases hl'
      exact absurd hlive (Nat.not_lt_of_le hold)
  rw [recordAt_eq_of_not_evicts httl hkeep]
  simp only
  split
  next => exact hexpire
  next hopen =>
    rw [HashMap.lookup_insert]
    split
    next hk =>
      -- the key itself is recorded again, and its window is open
      subst hk
      exact absurd (by simp [hexpire, hlive]) hopen
    next => exact hexpire

/-- Below the cap, an open window stays as it is. -/
theorem lookup_recordAt_of_live (hl : inner.seen.lookup k = some t) (hlive : now - t < c.ttl)
    (hlen : inner.seen.len < c.maxEntries) :
    (c.recordAt now key inner).seen.lookup k = some t :=
  lookup_recordAt_of_not_evicts hl hlive (evicts_eq_false_of_len_lt hlen)

/-- A recording that evicts nothing opens a window for a key without one. -/
theorem lookup_recordAt_self_of_not_evicts (httl : c.ttl ≠ 0)
    (hnew : c.isDuplicateAt now key inner = false) (hkeep : c.evicts now key inner = false) :
    (c.recordAt now key inner).seen.lookup key = some now := by
  -- the first loop opens no window
  have hclosed : ¬ ((c.expire now inner.order inner.seen).seen.lookup key).any
      (fun t => decide (now - t < c.ttl)) = true := by
    rw [Option.any_eq_true]
    rintro ⟨t, hl, hlive⟩
    have hdup : c.isDuplicateAt now key inner = true := by
      rw [isDuplicateAt_iff]
      refine ⟨t, ?_, of_decide_eq_true hlive⟩
      rcases c.lookup_expire inner.order inner.seen key with heq | ⟨heq, -⟩
      · rw [← heq, hl]
      · rw [heq] at hl
        cases hl
    rw [hdup] at hnew
    cases hnew
  rw [recordAt_eq_of_not_evicts httl hkeep]
  simp only
  rw [if_neg hclosed, HashMap.lookup_insert, if_pos rfl]

/-- Below the cap, a key without an open window gets one. -/
theorem lookup_recordAt_self (httl : c.ttl ≠ 0) (hnew : c.isDuplicateAt now key inner = false)
    (hlen : inner.seen.len < c.maxEntries) :
    (c.recordAt now key inner).seen.lookup key = some now :=
  lookup_recordAt_self_of_not_evicts httl hnew (evicts_eq_false_of_len_lt hlen)

/-! ### Runs -/

/-- The cache after a list of recordings. -/
def after (c : DedupCache) (rs : List (Instant × Key)) : Inner :=
  rs.foldl (fun inner r => c.recordAt r.1 r.2 inner) {}

theorem after_concat (c : DedupCache) (rs : List (Instant × Key)) (r : Instant × Key) :
    c.after (rs ++ [r]) = c.recordAt r.1 r.2 (c.after rs) := by
  simp [after]

/-- Every stored time is that of a recording of the run. -/
theorem mem_of_lookup_after {rs : List (Instant × Key)}
    (h : (c.after rs).seen.lookup k = some t) : (t, k) ∈ rs := by
  induction rs using List.reverseRecOn with
  | nil => simp [after] at h
  | append_singleton rs r ih =>
    rw [after_concat] at h
    rcases c.lookup_recordAt h with h | ⟨rfl, rfl⟩
    · exact List.mem_append_left _ (ih h)
    · exact List.mem_append_right _ (List.mem_singleton.mpr rfl)

/-- The cache holds no more keys than were recorded. -/
theorem len_after_le (rs : List (Instant × Key)) : (c.after rs).seen.len ≤ rs.length := by
  induction rs using List.reverseRecOn with
  | nil => exact Nat.le_refl _
  | append_singleton rs r ih =>
    rw [after_concat, List.length_append, List.length_singleton, recordAt]
    split
    next => exact Nat.le_succ_of_le ih
    next =>
      have hexpire : (c.expire r.1 (c.after rs).order (c.after rs).seen).seen.len ≤ rs.length :=
        Nat.le_trans (c.len_expire_le _ _) ih
      dsimp only
      split
      next => exact Nat.le_succ_of_le hexpire
      next =>
        refine Nat.le_trans (c.len_evict_le _ _) (Nat.le_trans (HashMap.len_insert_le _ _ _) ?_)
        exact Nat.succ_le_succ hexpire

/-- The cache is below its cap all along. -/
def BelowCap (c : DedupCache) (rs : List (Instant × Key)) : Prop :=
  ∀ pre, pre <+: rs → (c.after pre).seen.len < c.maxEntries

/-- A run shorter than the cap stays below it. -/
theorem belowCap_of_length_lt {rs : List (Instant × Key)} (h : rs.length < c.maxEntries) :
    c.BelowCap rs := fun pre hpre =>
  Nat.lt_of_le_of_lt (Nat.le_trans (len_after_le pre) hpre.length_le) h

/-- A window that is open at the end of a run has been so since it was opened. -/
theorem lookup_after_append {rs rs' : List (Instant × Key)} (hcap : c.BelowCap (rs ++ rs'))
    (hl : (c.after rs).seen.lookup k = some t) (htime : ∀ r ∈ rs', r.1 - t < c.ttl) :
    (c.after (rs ++ rs')).seen.lookup k = some t := by
  induction rs' using List.reverseRecOn with
  | nil => simpa using hl
  | append_singleton rs' r ih =>
    rw [← List.append_assoc, after_concat]
    have hpre' : rs ++ rs' <+: rs ++ (rs' ++ [r]) := ⟨[r], by simp⟩
    refine c.lookup_recordAt_of_live ?_ (htime r (by simp)) (hcap _ hpre')
    refine ih (fun pre hpre => hcap pre (hpre.trans hpre')) fun r' hr' => ?_
    exact htime r' (List.mem_append_left _ hr')

/-- A stored time that the later recordings do not explain was stored before them. -/
theorem lookup_after_of_append {rs rs' : List (Instant × Key)}
    (hl : (c.after (rs ++ rs')).seen.lookup k = some t) (hnot : ∀ r ∈ rs', r.2 ≠ k) :
    (c.after rs).seen.lookup k = some t := by
  induction rs' using List.reverseRecOn with
  | nil => simpa using hl
  | append_singleton rs' r ih =>
    rw [← List.append_assoc, after_concat] at hl
    rcases lookup_recordAt hl with hl | ⟨rfl, -⟩
    · exact ih hl fun r' hr' => hnot r' (List.mem_append_left _ hr')
    · exact absurd rfl (hnot r (by simp))

/-- None of the recordings `rs'` that follow `rs` evicts anything. -/
def NoEviction (c : DedupCache) (rs rs' : List (Instant × Key)) : Prop :=
  ∀ pre r, pre ++ [r] <+: rs' → c.evicts r.1 r.2 (c.after (rs ++ pre)) = false

/-- A run shorter than the cap evicts nothing. -/
theorem noEviction_of_length_lt {rs rs' : List (Instant × Key)}
    (h : (rs ++ rs').length < c.maxEntries) : c.NoEviction rs rs' := by
  intro pre r hpre
  refine evicts_eq_false_of_len_lt (Nat.lt_of_le_of_lt (len_after_le _) (Nat.lt_of_le_of_lt ?_ h))
  have hle := hpre.length_le
  simp only [List.length_append, List.length_singleton] at hle ⊢
  omega

/-- A key without a record that is recorded while nothing is evicted has an open window, as long as
no time is a window away from its recordings. -/
theorem exists_lookup_after {rs rs' : List (Instant × Key)} (hkeep : c.NoEviction rs rs')
    (hnone : (c.after rs).seen.lookup k = none)
    (htime : ∀ t r, (t, k) ∈ rs' → r ∈ rs' → r.1 - t < c.ttl) (hmem : (t, k) ∈ rs') :
    ∃ t, (c.after (rs ++ rs')).seen.lookup k = some t ∧ (t, k) ∈ rs' := by
  induction rs' using List.reverseRecOn generalizing t with
  | nil => cases hmem
  | append_singleton rs' r ih =>
    have hkeep' : c.evicts r.1 r.2 (c.after (rs ++ rs')) = false := hkeep rs' r List.prefix_rfl
    have hrest : ∀ t, (t, k) ∈ rs' →
        ∃ t, (c.after (rs ++ rs')).seen.lookup k = some t ∧ (t, k) ∈ rs' := fun t₀ ht₀ =>
      ih (fun pre r' hpre => hkeep pre r' (hpre.trans (List.prefix_append _ _)))
        (fun t r' ht hr' => htime t r' (List.mem_append_left _ ht) (List.mem_append_left _ hr')) ht₀
    rw [← List.append_assoc, after_concat]
    by_cases hold : ∃ t, (t, k) ∈ rs'
    · -- the window is open before the last recording, which leaves it alone
      obtain ⟨t₀, ht₀⟩ := hold
      obtain ⟨t₁, hl, ht₁⟩ := hrest t₀ ht₀
      refine ⟨t₁, ?_, List.mem_append_left _ ht₁⟩
      exact lookup_recordAt_of_not_evicts hl (htime t₁ r (List.mem_append_left _ ht₁) (by simp))
        hkeep'
    · -- the last recording is the first one of the key
      have hself : (t, k) = r := by
        rcases List.mem_append.mp hmem with hmem | hmem
        · exact absurd ⟨t, hmem⟩ hold
        · exact List.mem_singleton.mp hmem
      subst hself
      have httl : c.ttl ≠ 0 :=
        Nat.ne_of_gt (Nat.lt_of_le_of_lt (Nat.zero_le _) (htime t _ hmem hmem))
      have hnew : c.isDuplicateAt t k (c.after (rs ++ rs')) = false := by
        rw [Bool.eq_false_iff]
        intro hdup
        obtain ⟨t', hl, -⟩ := isDuplicateAt_iff.mp hdup
        have hbefore : (c.after rs).seen.lookup k = some t' :=
          lookup_after_of_append hl fun r hr hk => hold ⟨r.1, hk ▸ hr⟩
        rw [hnone] at hbefore
        cases hbefore
      exact ⟨t, lookup_recordAt_self_of_not_evicts httl hnew hkeep', hmem⟩

end DedupCache

end Pincerbell
