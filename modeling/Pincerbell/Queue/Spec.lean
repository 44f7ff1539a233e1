import Pincerbell.Queue
import Pincerbell.Support.Sift

/-!
# What one queue operation does

Closed forms of the loops of `NotificationQueue`, on states where every entry is stored once.

The module introduces:

* `Inner.WF` — no id occurs twice, each lease is stored under its entry's id, and every stored id
  is below `nextId`.
* `deliverable` — an entry that a poll may hand out: live, and younger than the entry TTL.
* `requeued` — the entries that a poll puts back in front of `pending`, in ascending id order.
* `scan` — the walk of a poll over what it put back and what was pending.

`enqueueAt_eq` and `takeAt_eq` state the whole effect of the two operations, and `ackOne` is its
own closed form. Every other module of the queue argues from these.
-/

namespace Pincerbell

/-! ### The count index -/

/-- Forget the mappings that some of `es` own. -/
def forgetAll (countIndex : HashMap CountKey ℕ) (es : List Entry) : HashMap CountKey ℕ :=
  es.foldl forgetCountKey countIndex

variable {countIndex : HashMap CountKey ℕ} {e e' : Entry} {es : List Entry}

/-- An entry is live when it has no coalescing key or owns the mapping of its key. -/
theorem isLive_iff :
    isLive countIndex e = true ↔ ∀ k, e.countKey = some k → countIndex.lookup k = some e.id := by
  unfold isLive
  cases e.countKey with
  | none => simp
  | some k => simp

/-- An entry forgets the mapping of its key if it owns it, and no other mapping. -/
theorem lookup_forgetCountKey (k : CountKey) :
    (forgetCountKey countIndex e).lookup k =
      if e.countKey = some k ∧ countIndex.lookup k = some e.id then none
      else countIndex.lookup k := by
  unfold forgetCountKey
  cases hkey : e.countKey with
  | none => simp
  | some k' =>
    by_cases h : k' = k
    · subst h
      by_cases hown : countIndex.lookup k' = some e.id <;> simp [hown]
    · have h' : k ≠ k' := fun heq => h heq.symm
      by_cases hown : countIndex.lookup k' = some e.id <;>
        simp [hown, h, AList.lookup_erase_ne h']

/-- A stale entry owns no mapping. -/
theorem forgetCountKey_of_not_isLive (h : isLive countIndex e = false) :
    forgetCountKey countIndex e = countIndex := by
  unfold isLive at h
  unfold forgetCountKey
  cases hkey : e.countKey with
  | none => rfl
  | some k =>
    rw [hkey] at h
    have hne : ¬ countIndex.lookup k = some e.id := by simpa using h
    simp [hne]

/-- Forgetting one entry does not change whether another one is live. -/
theorem isLive_forgetCountKey_of_ne (hne : e'.id ≠ e.id) :
    isLive (forgetCountKey countIndex e) e' = isLive countIndex e' := by
  rw [Bool.eq_iff_iff, isLive_iff, isLive_iff]
  refine forall_congr' fun k => forall_congr' fun _ => ?_
  rw [lookup_forgetCountKey]
  split
  next h =>
    have : ¬ countIndex.lookup k = some e'.id := by
      rw [h.2]
      simpa using hne.symm
    simp [this]
  next => rfl

/-- Forgetting entries keeps the mappings that none of them own. -/
theorem lookup_forgetAll (k : CountKey) :
    (forgetAll countIndex es).lookup k =
      if ∃ e ∈ es, e.countKey = some k ∧ countIndex.lookup k = some e.id then none
      else countIndex.lookup k := by
  induction es generalizing countIndex with
  | nil => simp [forgetAll]
  | cons e es ih =>
    rw [forgetAll, List.foldl_cons, ← forgetAll, ih, lookup_forgetCountKey]
    by_cases h : e.countKey = some k ∧ countIndex.lookup k = some e.id
    · simp [h]
    · simp [h]

/-- An entry that has been forgotten has nothing left to forget. -/
theorem lookup_forgetCountKey_forgetAll (he : e ∈ es) (k : CountKey) :
    (forgetCountKey (forgetAll countIndex es) e).lookup k = (forgetAll countIndex es).lookup k := by
  rw [lookup_forgetCountKey, if_neg]
  rintro ⟨hkey, hown⟩
  rw [lookup_forgetAll] at hown
  split at hown
  next => cases hown
  next hno => exact hno ⟨e, he, hkey, hown⟩

/-- Forgetting entries does not change whether another one is live. -/
theorem isLive_forgetAll_of_notMem (hid : e'.id ∉ es.map Entry.id) :
    isLive (forgetAll countIndex es) e' = isLive countIndex e' := by
  induction es generalizing countIndex with
  | nil => rfl
  | cons e es ih =>
    simp only [List.map_cons, List.mem_cons, not_or] at hid
    rw [forgetAll, List.foldl_cons, ← forgetAll, ih hid.2, isLive_forgetCountKey_of_ne hid.1]

theorem forgetAll_cons :
    forgetAll countIndex (e :: es) = forgetAll (forgetCountKey countIndex e) es := rfl

theorem forgetAll_append (es es' : List Entry) :
    forgetAll countIndex (es ++ es') = forgetAll (forgetAll countIndex es) es' := by
  simp [forgetAll]

/-! ### Well-formed states -/

/-- Every entry is stored once: in `pending`, or leased under its own id. -/
structure Inner.WF (inner : Inner) : Prop where
  pending_nodup : (inner.pending.map Entry.id).Nodup
  own : ∀ {id d e}, inner.leased.lookup id = some (d, e) → e.id = id
  disjoint : ∀ {e}, e ∈ inner.pending → inner.leased.lookup e.id = none
  pending_lt : ∀ {e}, e ∈ inner.pending → e.id < inner.nextId
  leased_lt : ∀ {id l}, inner.leased.lookup id = some l → id < inner.nextId

/-- The empty queue is well formed. -/
theorem Inner.WF.empty : ({} : Inner).WF where
  pending_nodup := by simp
  own := by simp
  disjoint := by simp
  pending_lt := by simp
  leased_lt := by simp

namespace NotificationQueue

variable (q : NotificationQueue) (now : Instant) (max : ℕ) {inner : Inner}

/-- An entry that a poll at `now` may hand out: live and not too old. -/
def deliverable (countIndex : HashMap CountKey ℕ) (entry : Entry) : Bool :=
  isLive countIndex entry && decide (now - entry.enqueued < q.entryTtl)

theorem deliverable_eq_false_iff :
    q.deliverable now countIndex e = false ↔
      isLive countIndex e = false ∨ q.entryTtl ≤ now - e.enqueued := by
  simp [deliverable]
  grind

/-! ### Enqueue -/

/-- How many entries an enqueue evicts. -/
def excess (inner : Inner) : ℕ := inner.pending.length + 1 - q.maxEntries

/-- The eviction loop pops a prefix, and every popped entry forgets its mapping. -/
theorem evict_eq (l : List Entry) :
    q.evict countIndex l =
      (l.drop (l.length + 1 - q.maxEntries),
        forgetAll countIndex (l.take (l.length + 1 - q.maxEntries))) := by
  induction l generalizing countIndex with
  | nil => simp [evict, forgetAll]
  | cons e l ih =>
    rw [evict]
    by_cases hfull : q.maxEntries ≤ (e :: l).length
    -- one pop, and one entry less to evict from the rest
    · have hstep : (e :: l).length + 1 - q.maxEntries = (l.length + 1 - q.maxEntries) + 1 := by
        simp only [List.length_cons] at hfull ⊢
        omega
      rw [if_pos hfull, hstep, List.drop_succ_cons, List.take_succ_cons, forgetAll_cons, ih, ih]
      split
      next => rfl
      next hstale => rw [forgetCountKey_of_not_isLive (by simpa using hstale)]
    · have hzero : (e :: l).length + 1 - q.maxEntries = 0 := by omega
      rw [if_neg hfull, hzero]
      rfl

/-- The count index after a new entry has claimed its key. -/
def claimed (countKey : Option CountKey) (inner : Inner) : HashMap CountKey ℕ :=
  match countKey with
  | some k => inner.countIndex.insert k inner.nextId
  | none => inner.countIndex

/-- The effect of `enqueueAt`. -/
theorem enqueueAt_eq (payload : Value) (countKey : Option CountKey) (inner : Inner) :
    q.enqueueAt now payload countKey inner =
      { nextId := inner.nextId + 1
        pending := inner.pending.drop (q.excess inner) ++
          [⟨inner.nextId, now, payload, countKey⟩]
        countIndex := forgetAll (claimed countKey inner) (inner.pending.take (q.excess inner))
        leased := inner.leased } := by
  cases countKey <;> simp [enqueueAt, evict_eq, excess, claimed]

/-! ### Reclaiming expired leases -/

/-- The leased entries whose deadline has passed, in descending id order. -/
def expiredEntries (inner : Inner) : List Entry :=
  (expiredIds now inner).filterMap fun id => (inner.leased.lookup id).map (·.2)

/-- The entries that a poll puts back in front of `pending`, in ascending id order. -/
def requeued (inner : Inner) : List Entry :=
  ((expiredEntries now inner).filter (q.deliverable now inner.countIndex)).reverse

/-- The entries that a poll drops when their lease has ended. -/
def lapsed (inner : Inner) : List Entry :=
  (expiredEntries now inner).filter fun e => !q.deliverable now inner.countIndex e

theorem mem_expiredIds {id : ℕ} :
    id ∈ expiredIds now inner ↔ ∃ l, inner.leased.lookup id = some l ∧ l.1 ≤ now := by
  simp only [expiredIds, List.mem_insertionSort, List.mem_map, List.mem_filter, decide_eq_true_eq]
  constructor
  · rintro ⟨⟨id, l⟩, ⟨hmem, hle⟩, rfl⟩
    exact ⟨l, AList.mem_lookup_iff.mpr hmem, hle⟩
  · rintro ⟨l, hl, hle⟩
    exact ⟨⟨id, l⟩, ⟨AList.mem_lookup_iff.mp hl, hle⟩, rfl⟩

/-- Each expired id is reclaimed once, the newest first. -/
theorem pairwise_expiredIds : (expiredIds now inner).Pairwise (· > ·) := by
  have hnodup : (expiredIds now inner).Nodup := by
    rw [expiredIds, (List.perm_insertionSort _ _).nodup_iff]
    refine List.Sublist.nodup ?_ inner.leased.keys_nodup
    exact List.filter_sublist.map _
  have hsorted : (expiredIds now inner).Pairwise (· ≥ ·) := List.pairwise_insertionSort _ _
  exact hsorted.imp₂ (fun _ _ hge hne => lt_of_le_of_ne hge hne.symm) hnodup

/-- One turn of the reclaim loop, for a leased entry. -/
theorem reclaim_eq {id : ℕ} {d : Instant} (h : inner.leased.lookup id = some (d, e)) :
    q.reclaim now inner id =
      { inner with
        pending := [e].filter (q.deliverable now inner.countIndex) ++ inner.pending
        countIndex :=
          forgetAll inner.countIndex
            ([e].filter fun e => !q.deliverable now inner.countIndex e)
        leased := inner.leased.erase id } := by
  rw [reclaim, h]
  cases hlive : isLive inner.countIndex e with
  | false =>
    have hd : q.deliverable now inner.countIndex e = false := by simp [deliverable, hlive]
    simp [hd, forgetAll, hlive, forgetCountKey_of_not_isLive hlive]
  | true =>
    -- a live entry is dropped for its age only
    by_cases hold : q.entryTtl ≤ now - e.enqueued
    · have hd : q.deliverable now inner.countIndex e = false :=
        (q.deliverable_eq_false_iff now).mpr (Or.inr hold)
      simp [hd, forgetAll, hlive, hold]
    · have hd : q.deliverable now inner.countIndex e = true := by
        simp [deliverable, hlive, Nat.lt_of_not_le hold]
      simp [hd, forgetAll, hlive, hold]

/-- Whether an entry is deliverable does not depend on the mappings of others. -/
theorem deliverable_forgetAll_of_notMem (hid : e'.id ∉ es.map Entry.id) :
    q.deliverable now (forgetAll countIndex es) e' = q.deliverable now countIndex e' := by
  rw [deliverable, isLive_forgetAll_of_notMem hid, deliverable]

/-- The reclaim loop ends the leases of `ids`, puts the deliverable entries back and drops the
others. -/
theorem foldl_reclaim (ids : List ℕ) (hnodup : ids.Nodup)
    (hleased : ∀ id ∈ ids, ∃ l, inner.leased.lookup id = some l)
    (hown : ∀ {id d e}, inner.leased.lookup id = some (d, e) → e.id = id) :
    ids.foldl (q.reclaim now) inner =
      let es := ids.filterMap fun id => (inner.leased.lookup id).map (·.2)
      { inner with
        pending := (es.filter (q.deliverable now inner.countIndex)).reverse ++ inner.pending
        countIndex :=
          forgetAll inner.countIndex
            (es.filter fun e => !q.deliverable now inner.countIndex e)
        leased := ids.foldl (fun m id => AList.erase id m) inner.leased } := by
  induction ids generalizing inner with
  | nil => rfl
  | cons id ids ih =>
    rw [List.nodup_cons] at hnodup
    obtain ⟨⟨d, e⟩, hl⟩ := hleased id List.mem_cons_self
    have hid : e.id = id := hown hl
    have hne : ∀ id' ∈ ids, id' ≠ id := fun id' hmem heq => hnodup.1 (heq ▸ hmem)
    -- the remaining leases and the mappings of their entries are untouched by this turn
    have hlook : ∀ id' ∈ ids,
        (AList.erase id inner.leased).lookup id' = inner.leased.lookup id' :=
      fun id' hmem => AList.lookup_erase_ne (hne id' hmem)
    have hes : (ids.filterMap fun id' => ((AList.erase id inner.leased).lookup id').map (·.2)) =
        ids.filterMap fun id' => (inner.leased.lookup id').map (·.2) :=
      List.filterMap_congr fun id' hmem => by rw [hlook id' hmem]
    have hdel : ∀ e' ∈ ids.filterMap (fun id' => (inner.leased.lookup id').map (·.2)),
        q.deliverable now
            (forgetAll inner.countIndex
              ([e].filter fun e => !q.deliverable now inner.countIndex e)) e' =
          q.deliverable now inner.countIndex e' := by
      intro e' hmem
      obtain ⟨id', hid', hsome⟩ := List.mem_filterMap.mp hmem
      obtain ⟨⟨d', e''⟩, hl', rfl⟩ := Option.map_eq_some_iff.mp hsome
      apply deliverable_forgetAll_of_notMem
      intro hin
      have heq : e''.id = e.id := by
        obtain ⟨x, hx, hxid⟩ := List.mem_map.mp hin
        rw [← hxid, List.mem_singleton.mp (List.mem_filter.mp hx).1]
      exact hne id' hid' (by rw [← hown hl', ← hid]; exact heq)
    have hkeep := List.filter_congr hdel
    have hdrop := List.filter_congr fun e' hmem => congrArg Bool.not (hdel e' hmem)
    rw [List.foldl_cons, q.reclaim_eq now hl, ih hnodup.2]
    · simp only [hes, hkeep, hdrop, ← forgetAll_append, List.filterMap_cons, hl, Option.map_some,
        List.foldl_cons]
      by_cases h : q.deliverable now inner.countIndex e <;> simp [h]
    -- what is left to do still has its leases, under their own ids
    · intro id' hmem
      rw [hlook id' hmem]
      exact hleased id' (List.mem_cons_of_mem id hmem)
    · intro id' d' e' hl'
      simp only [HashMap.lookup_erase] at hl'
      split at hl'
      · cases hl'
      · exact hown hl'

/-! ### Handing out -/

/-- The hand-out loop walks `l` until the batch is full: it drops what is not deliverable and
leases what is. -/
theorem fetch_eq (l : List Entry) (batch : List PollEntry) (hnodup : (l.map Entry.id).Nodup) :
    q.fetch now max l batch inner =
      let s := l.sift (q.deliverable now inner.countIndex) (max - batch.length)
      (batch ++ s.taken.map Entry.toPollEntry,
        { inner with
          pending := s.rest
          countIndex := forgetAll inner.countIndex s.dropped
          leased := s.taken.foldl
            (fun m e => AList.insert e.id (now + q.lease, e) m) inner.leased }) := by
  induction l generalizing batch inner with
  | nil => simp [fetch, forgetAll]
  | cons e l ih =>
    rw [List.map_cons, List.nodup_cons] at hnodup
    by_cases hroom : batch.length < max
    · obtain ⟨n, hn⟩ : ∃ n, max - batch.length = n + 1 := ⟨max - batch.length - 1, by omega⟩
      rw [fetch, if_pos hroom]
      simp only [hn, List.sift.succ_cons]
      cases hlive : isLive inner.countIndex e with
      | false =>
        -- a stale entry owns no mapping, so dropping it changes nothing else
        have hd : q.deliverable now inner.countIndex e = false := by simp [deliverable, hlive]
        simp [hd, ih _ hnodup.2, hn, forgetAll_cons, forgetCountKey_of_not_isLive hlive]
      | true =>
        by_cases hold : q.entryTtl ≤ now - e.enqueued
        · have hd : q.deliverable now inner.countIndex e = false :=
            (q.deliverable_eq_false_iff now).mpr (Or.inr hold)
          -- dropping `e` leaves the entries behind it as deliverable as they were
          have hsame : l.sift (q.deliverable now (forgetCountKey inner.countIndex e)) (n + 1) =
              l.sift (q.deliverable now inner.countIndex) (n + 1) := by
            refine List.sift.congr _ fun e' hmem => ?_
            have hne : e'.id ≠ e.id := fun heq => hnodup.1 (heq ▸ List.mem_map_of_mem hmem)
            rw [deliverable, isLive_forgetCountKey_of_ne hne, deliverable]
          simp [hd, hold, ih _ hnodup.2, hn, forgetAll_cons, hsame]
        · have hd : q.deliverable now inner.countIndex e = true := by
            simp [deliverable, hlive, Nat.lt_of_not_le hold]
          have hn' : max - (batch.length + 1) = n := by omega
          simp [hd, hold, ih _ hnodup.2, hn']
    · have hzero : max - batch.length = 0 := by omega
      rw [fetch, if_neg hroom]
      simp [hzero, forgetAll]

/-- The walk of a poll over what it put back and what was pending. -/
def scan (inner : Inner) : List.Sifted Entry :=
  (q.requeued now inner ++ inner.pending).sift (q.deliverable now inner.countIndex) max

variable (h : inner.WF)

include h

theorem mem_expiredEntries :
    e ∈ expiredEntries now inner ↔ ∃ d, inner.leased.lookup e.id = some (d, e) ∧ d ≤ now := by
  simp only [expiredEntries, List.mem_filterMap, mem_expiredIds, Option.map_eq_some_iff]
  constructor
  · rintro ⟨id, ⟨l, hl, hle⟩, ⟨d, e⟩, hl', rfl⟩
    rw [hl] at hl'
    cases hl'
    exact ⟨d, by rw [h.own hl]; exact hl, hle⟩
  · rintro ⟨d, hl, hle⟩
    exact ⟨e.id, ⟨(d, e), hl, hle⟩, (d, e), hl, rfl⟩

/-- The expired entries are listed in descending id order. -/
theorem pairwise_expiredEntries :
    (expiredEntries now inner).Pairwise fun e e' => e.id > e'.id := by
  refine List.pairwise_filterMap.mpr ((pairwise_expiredIds now).imp ?_)
  intro id id' hlt e he e' he'
  obtain ⟨⟨d, e⟩, hl, rfl⟩ := Option.map_eq_some_iff.mp he
  obtain ⟨⟨d', e'⟩, hl', rfl⟩ := Option.map_eq_some_iff.mp he'
  show e.id > e'.id
  rw [h.own hl, h.own hl']
  exact hlt

theorem mem_requeued :
    e ∈ q.requeued now inner ↔
      (∃ d, inner.leased.lookup e.id = some (d, e) ∧ d ≤ now) ∧
        q.deliverable now inner.countIndex e = true := by
  simp [requeued, mem_expiredEntries now h]

theorem mem_lapsed :
    e ∈ q.lapsed now inner ↔
      (∃ d, inner.leased.lookup e.id = some (d, e) ∧ d ≤ now) ∧
        q.deliverable now inner.countIndex e = false := by
  simp [lapsed, mem_expiredEntries now h]

/-- What is put back is in ascending id order. -/
theorem pairwise_requeued : (q.requeued now inner).Pairwise fun e e' => e.id < e'.id :=
  List.pairwise_reverse.mpr ((pairwise_expiredEntries now h).filter _)

/-- What a poll walks over has no id twice. -/
theorem nodup_requeued_append : ((q.requeued now inner ++ inner.pending).map Entry.id).Nodup := by
  rw [List.map_append, List.nodup_append]
  refine ⟨?_, h.pending_nodup, ?_⟩
  · exact List.pairwise_map.mpr ((q.pairwise_requeued now h).imp Nat.ne_of_lt)
  · intro id hid id' hid' heq
    obtain ⟨e, he, rfl⟩ := List.mem_map.mp hid
    obtain ⟨e', he', rfl⟩ := List.mem_map.mp hid'
    obtain ⟨⟨d, hl, -⟩, -⟩ := (q.mem_requeued now h).mp he
    rw [heq, h.disjoint he'] at hl
    cases hl

/-- The effect of reclaiming every expired lease. -/
theorem foldl_reclaim_expiredIds :
    (expiredIds now inner).foldl (q.reclaim now) inner =
      { inner with
        pending := q.requeued now inner ++ inner.pending
        countIndex := forgetAll inner.countIndex (q.lapsed now inner)
        leased := (expiredIds now inner).foldl (fun m id => AList.erase id m) inner.leased } := by
  refine q.foldl_reclaim now _ ((pairwise_expiredIds now).imp Nat.ne_of_gt) ?_ h.own
  intro id hid
  obtain ⟨l, hl, -⟩ := (mem_expiredIds now).mp hid
  exact ⟨l, hl⟩

/-- The entries dropped while reclaiming own no mapping of an entry that is walked over. -/
theorem deliverable_forgetAll_lapsed (he : e ∈ q.requeued now inner ++ inner.pending) :
    q.deliverable now (forgetAll inner.countIndex (q.lapsed now inner)) e =
      q.deliverable now inner.countIndex e := by
  apply deliverable_forgetAll_of_notMem
  intro hin
  obtain ⟨x, hx, hxid⟩ := List.mem_map.mp hin
  obtain ⟨⟨d, hl, -⟩, hnot⟩ := (q.mem_lapsed now h).mp hx
  rw [hxid] at hl
  rcases List.mem_append.mp he with hreq | hpend
  · obtain ⟨⟨d', hl', -⟩, hdel⟩ := (q.mem_requeued now h).mp hreq
    rw [hl'] at hl
    cases hl
    rw [hdel] at hnot
    cases hnot
  · rw [h.disjoint hpend] at hl
    cases hl

/-- The effect of `takeAt`. -/
theorem takeAt_eq :
    q.takeAt now max inner =
      ((q.scan now max inner).taken.map Entry.toPollEntry,
        { nextId := inner.nextId
          pending := (q.scan now max inner).rest
          countIndex :=
            forgetAll inner.countIndex (q.lapsed now inner ++ (q.scan now max inner).dropped)
          leased := (q.scan now max inner).taken.foldl
            (fun m e => AList.insert e.id (now + q.lease, e) m)
            ((expiredIds now inner).foldl (fun m id => AList.erase id m) inner.leased) }) := by
  -- forgetting the lapsed entries makes no difference to those that are scanned
  have hscan : (q.requeued now inner ++ inner.pending).sift
      (q.deliverable now (forgetAll inner.countIndex (q.lapsed now inner))) max =
      q.scan now max inner :=
    List.sift.congr max fun e he => q.deliverable_forgetAll_lapsed now h he
  rw [takeAt, q.foldl_reclaim_expiredIds now h]
  simp only
  rw [q.fetch_eq now max _ _ (q.nodup_requeued_append now h)]
  simp [hscan, forgetAll_append]

end NotificationQueue

end Pincerbell
