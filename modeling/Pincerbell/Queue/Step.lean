import Mathlib.Data.List.Induction
import Pincerbell.Queue.Spec

/-!
# What one call does to the stored entries

An entry is stored when it is pending or leased. Two facts say what one call does to the stored
entries and to the count index, whatever the call.

* `Op`, `step` — a call on the queue and its effect.
* `Held` — the stored entries; `created`, `removed` — how a call changes them.
* `step_wf` — a call keeps the state well formed.
* `held_step`, `lookup_countIndex_step` — the two facts.
-/

namespace Pincerbell

/-- One call on the queue. -/
inductive Op
  | enqueueAt (now : Instant) (payload : Value) (countKey : Option CountKey)
  | takeAt (now : Instant) (max : ℕ)
  | ack (ids : List ℕ)

/-- The clock value a call reads, if it reads the clock. -/
def Op.time? : Op → Option Instant
  | .enqueueAt now _ _ => some now
  | .takeAt now _ => some now
  | .ack _ => none

/-! ### Stored entries -/

namespace Inner

/-- The entry is pending, or leased under its own id. -/
def Held (inner : Inner) (e : Entry) : Prop :=
  e ∈ inner.pending ∨ ∃ d, inner.leased.lookup e.id = some (d, e)

variable {inner : Inner} {e e' : Entry}

/-- A stored entry is determined by its id. -/
theorem WF.held_inj (h : inner.WF) (he : inner.Held e) (he' : inner.Held e')
    (hid : e.id = e'.id) : e = e' := by
  rcases he with hp | ⟨d, hl⟩ <;> rcases he' with hp' | ⟨d', hl'⟩
  -- both pending, then one pending and one leased, then both leased
  · exact List.inj_on_of_nodup_map h.pending_nodup hp hp' hid
  · rw [← hid, h.disjoint hp] at hl'
    cases hl'
  · rw [hid, h.disjoint hp'] at hl
    cases hl
  · rw [hid, hl'] at hl
    cases hl
    rfl

/-- Stored ids are below `nextId`. -/
theorem WF.held_lt (h : inner.WF) (he : inner.Held e) : e.id < inner.nextId := by
  rcases he with hp | ⟨d, hl⟩
  · exact h.pending_lt hp
  · exact h.leased_lt hl

end Inner

/-! ### One call -/

namespace NotificationQueue

variable (q : NotificationQueue) {inner : Inner} {e e' : Entry}

/-- The state after one call. -/
def step (inner : Inner) : Op → Inner
  | .enqueueAt now payload countKey => q.enqueueAt now payload countKey inner
  | .takeAt now max => (q.takeAt now max inner).2
  | .ack ids => ack ids inner

/-- The entry that a call creates. -/
def created (inner : Inner) : Op → Option Entry
  | .enqueueAt now payload countKey => some ⟨inner.nextId, now, payload, countKey⟩
  | _ => none

/-- The stored entries that a call removes. -/
def removed (inner : Inner) : Op → List Entry
  | .enqueueAt _ _ _ => inner.pending.take (q.excess inner)
  | .takeAt now max => q.lapsed now inner ++ (q.scan now max inner).dropped
  | .ack ids => ids.filterMap fun id => (inner.leased.lookup id).map (·.2)

/-- The count index after the entry that a call creates has claimed its key. -/
def claim (inner : Inner) : Op → HashMap CountKey ℕ
  | .enqueueAt _ _ countKey => claimed countKey inner
  | _ => inner.countIndex

/-! #### Taking -/

section Take

variable (now : Instant) (max : ℕ)

/-- What a poll walks over is pending or was just put back. -/
theorem mem_of_mem_scan {inner : Inner} {e : Entry}
    (he : e ∈ (q.scan now max inner).taken ∨ e ∈ (q.scan now max inner).dropped ∨
      e ∈ (q.scan now max inner).rest) :
    e ∈ inner.pending ∨ e ∈ q.requeued now inner := by
  have := (List.sift.mem_iff (q.deliverable now inner.countIndex)).mpr he
  exact (List.mem_append.mp this).symm

variable (h : inner.WF)

include h

/-- What a poll walks over is stored, and not in a running lease. -/
theorem held_of_mem_scan
    (he : e ∈ (q.scan now max inner).taken ∨ e ∈ (q.scan now max inner).dropped ∨
      e ∈ (q.scan now max inner).rest) :
    inner.Held e ∧ ∀ d e', inner.leased.lookup e.id = some (d, e') → d ≤ now := by
  rcases q.mem_of_mem_scan now max he with hp | hr
  · refine ⟨Or.inl hp, fun d e' hl => ?_⟩
    rw [h.disjoint hp] at hl
    cases hl
  · obtain ⟨⟨d, hl, hle⟩, -⟩ := (q.mem_requeued now h).mp hr
    refine ⟨Or.inr ⟨d, hl⟩, fun d' e' hl' => ?_⟩
    rw [hl] at hl'
    cases hl'
    exact hle

/-- What a poll drops while reclaiming is none of what it walks over. -/
theorem notMem_lapsed_of_mem_scan
    (he : e ∈ (q.scan now max inner).taken ∨ e ∈ (q.scan now max inner).dropped ∨
      e ∈ (q.scan now max inner).rest) :
    e ∉ q.lapsed now inner := by
  intro hlapsed
  obtain ⟨⟨d, hl, -⟩, hnot⟩ := (q.mem_lapsed now h).mp hlapsed
  rcases q.mem_of_mem_scan now max he with hp | hr
  · rw [h.disjoint hp] at hl
    cases hl
  · rw [((q.mem_requeued now h).mp hr).2] at hnot
    cases hnot

/-- The three parts of the walk have no id twice. -/
theorem nodup_scan :
    (((q.scan now max inner).taken ++ (q.scan now max inner).dropped ++
      (q.scan now max inner).rest).map Entry.id).Nodup :=
  ((List.sift.perm _ max _).map Entry.id).nodup_iff.mpr (q.nodup_requeued_append now h)

/-- Ids in different parts of the walk differ. -/
theorem id_ne_of_mem_scan :
    (∀ e ∈ (q.scan now max inner).taken, ∀ e' ∈ (q.scan now max inner).dropped, e.id ≠ e'.id) ∧
    (∀ e ∈ (q.scan now max inner).taken, ∀ e' ∈ (q.scan now max inner).rest, e.id ≠ e'.id) ∧
    (∀ e ∈ (q.scan now max inner).dropped, ∀ e' ∈ (q.scan now max inner).rest, e.id ≠ e'.id) := by
  have hnodup := q.nodup_scan now max h
  simp only [List.map_append, List.nodup_append, List.mem_append, List.mem_map] at hnodup
  obtain ⟨⟨-, -, htd⟩, -, hr⟩ := hnodup
  refine ⟨fun e he e' he' => ?_, fun e he e' he' => ?_, fun e he e' he' => ?_⟩
  · exact htd _ ⟨e, he, rfl⟩ _ ⟨e', he', rfl⟩
  · exact hr _ (Or.inl ⟨e, he, rfl⟩) _ ⟨e', he', rfl⟩
  · exact hr _ (Or.inr ⟨e, he, rfl⟩) _ ⟨e', he', rfl⟩

/-- A handed-out entry is leased until `now + lease`. -/
theorem lookup_takeAt_of_taken (he : e ∈ (q.scan now max inner).taken) :
    (q.takeAt now max inner).2.leased.lookup e.id = some (now + q.lease, e) := by
  rw [q.takeAt_eq now max h]
  have hnodup := q.nodup_scan now max h
  rw [List.map_append, List.map_append] at hnodup
  exact HashMap.lookup_foldl_insert_of_mem Entry.id (fun e => (now + q.lease, e)) _ _
    (List.nodup_append.mp (List.nodup_append.mp hnodup).1).1 he

/-- Apart from the handed-out entries, exactly the running leases remain. -/
theorem lookup_takeAt_of_not_taken {id : ℕ}
    (hid : id ∉ (q.scan now max inner).taken.map Entry.id) :
    (q.takeAt now max inner).2.leased.lookup id =
      if id ∈ expiredIds now inner then none else inner.leased.lookup id := by
  rw [q.takeAt_eq now max h]
  simp only
  rw [HashMap.lookup_foldl_insert_of_notMem _ _ _ _ hid, HashMap.lookup_foldl_erase]

/-- A lease that is still running is untouched. -/
theorem lookup_takeAt_of_running {id : ℕ} {d : Instant}
    (hl : inner.leased.lookup id = some (d, e)) (hlt : now < d) :
    (q.takeAt now max inner).2.leased.lookup id = some (d, e) := by
  have hnot : id ∉ (q.scan now max inner).taken.map Entry.id := by
    intro hin
    obtain ⟨x, hx, rfl⟩ := List.mem_map.mp hin
    have hle := (q.held_of_mem_scan now max h (Or.inl hx)).2 d e hl
    exact absurd hle (Nat.not_le_of_lt hlt)
  have hexp : id ∉ expiredIds now inner := by
    rw [mem_expiredIds]
    rintro ⟨l, hl', hle⟩
    rw [hl] at hl'
    cases hl'
    exact absurd hle (Nat.not_le_of_lt hlt)
  rw [q.lookup_takeAt_of_not_taken now max h hnot, if_neg hexp, hl]

/-- A lease after a poll is new, or still running. -/
theorem lookup_takeAt_cases {id : ℕ} {l : Instant × Entry}
    (hl : (q.takeAt now max inner).2.leased.lookup id = some l) :
    (∃ e ∈ (q.scan now max inner).taken, e.id = id ∧ l = (now + q.lease, e)) ∨
      (id ∉ (q.scan now max inner).taken.map Entry.id ∧ now < l.1 ∧
        inner.leased.lookup id = some l) := by
  by_cases hid : id ∈ (q.scan now max inner).taken.map Entry.id
  · obtain ⟨e, he, rfl⟩ := List.mem_map.mp hid
    rw [q.lookup_takeAt_of_taken now max h he] at hl
    cases hl
    exact Or.inl ⟨e, he, rfl, rfl⟩
  · rw [q.lookup_takeAt_of_not_taken now max h hid] at hl
    split at hl
    next => cases hl
    next hexp =>
      refine Or.inr ⟨hid, ?_, hl⟩
      by_contra hle
      exact hexp ((mem_expiredIds now).mpr ⟨l, hl, Nat.le_of_not_lt hle⟩)

/-- A poll keeps the state well formed. -/
theorem takeAt_wf : (q.takeAt now max inner).2.WF := by
  obtain ⟨-, htr, -⟩ := q.id_ne_of_mem_scan now max h
  have hpending : (q.takeAt now max inner).2.pending = (q.scan now max inner).rest := by
    rw [q.takeAt_eq now max h]
  have hnext : (q.takeAt now max inner).2.nextId = inner.nextId := by
    rw [q.takeAt_eq now max h]
  constructor
  case pending_nodup =>
    rw [hpending]
    exact List.Nodup.sublist ((List.sift.rest_suffix _ max _).sublist.map _)
      (q.nodup_requeued_append now h)
  case own =>
    intro id d e hl
    rcases q.lookup_takeAt_cases now max h hl with ⟨e', -, hid, heq⟩ | ⟨-, -, hl⟩
    · cases heq
      exact hid
    · exact h.own hl
  case disjoint =>
    -- what stays pending has not been handed out, and a lease it had has been ended
    intro e he
    rw [hpending] at he
    have hnot : e.id ∉ (q.scan now max inner).taken.map Entry.id := by
      intro hin
      obtain ⟨x, hx, hxid⟩ := List.mem_map.mp hin
      exact htr x hx e he hxid
    rw [q.lookup_takeAt_of_not_taken now max h hnot]
    rcases q.mem_of_mem_scan now max (Or.inr (Or.inr he)) with hp | hr
    · simp [h.disjoint hp]
    · obtain ⟨⟨d, hl, hle⟩, -⟩ := (q.mem_requeued now h).mp hr
      rw [if_pos ((mem_expiredIds now).mpr ⟨_, hl, hle⟩)]
  case pending_lt =>
    intro e he
    rw [hpending] at he
    rw [hnext]
    exact h.held_lt (q.held_of_mem_scan now max h (Or.inr (Or.inr he))).1
  case leased_lt =>
    intro id l hl
    rw [hnext]
    rcases q.lookup_takeAt_cases now max h hl with ⟨e', he', hid, -⟩ | ⟨-, -, hl⟩
    · rw [← hid]
      exact h.held_lt (q.held_of_mem_scan now max h (Or.inl he')).1
    · exact h.leased_lt hl

/-- A poll keeps every entry it does not drop. -/
theorem held_takeAt :
    (q.takeAt now max inner).2.Held e ↔
      inner.Held e ∧ e ∉ q.lapsed now inner ++ (q.scan now max inner).dropped := by
  obtain ⟨htd, -, hdr⟩ := q.id_ne_of_mem_scan now max h
  have hpending : (q.takeAt now max inner).2.pending = (q.scan now max inner).rest := by
    rw [q.takeAt_eq now max h]
  rw [List.mem_append, not_or]
  constructor
  · rintro (hp | ⟨d, hl⟩)
    · -- still pending
      rw [hpending] at hp
      have hscan : e ∈ (q.scan now max inner).taken ∨ e ∈ (q.scan now max inner).dropped ∨
          e ∈ (q.scan now max inner).rest := Or.inr (Or.inr hp)
      exact ⟨(q.held_of_mem_scan now max h hscan).1, q.notMem_lapsed_of_mem_scan now max h hscan,
        fun hd => hdr e hd e hp rfl⟩
    · rcases q.lookup_takeAt_cases now max h hl with ⟨x, hx, -, heq⟩ | ⟨-, hlt, hl⟩
      · -- handed out
        cases heq
        exact ⟨(q.held_of_mem_scan now max h (Or.inl hx)).1,
          q.notMem_lapsed_of_mem_scan now max h (Or.inl hx), fun hd => htd e hx e hd rfl⟩
      · -- in a lease that is still running
        refine ⟨Or.inr ⟨d, hl⟩, fun hlapsed => ?_, fun hd => ?_⟩
        · obtain ⟨⟨d', hl', hle⟩, -⟩ := (q.mem_lapsed now h).mp hlapsed
          rw [hl] at hl'
          cases hl'
          exact absurd hle (Nat.not_le_of_lt hlt)
        · have := (q.held_of_mem_scan now max h (Or.inr (Or.inl hd))).2 d e hl
          exact absurd this (Nat.not_le_of_lt hlt)
  · rintro ⟨hheld, hlapsed, hdropped⟩
    -- what is walked over and not dropped is leased anew or pending
    have hwalk : e ∈ q.requeued now inner ++ inner.pending →
        (q.takeAt now max inner).2.Held e := by
      intro hmem
      rcases (List.sift.mem_iff (q.deliverable now inner.countIndex)).mp hmem with ht | hd | hr
      · exact Or.inr ⟨_, q.lookup_takeAt_of_taken now max h ht⟩
      · exact absurd hd hdropped
      · exact Or.inl (hpending ▸ hr)
    rcases hheld with hp | ⟨d, hl⟩
    · exact hwalk (List.mem_append_right _ hp)
    · by_cases hle : d ≤ now
      · by_cases hdel : q.deliverable now inner.countIndex e = true
        · exact hwalk (List.mem_append_left _ ((q.mem_requeued now h).mpr ⟨⟨d, hl, hle⟩, hdel⟩))
        · exact absurd ((q.mem_lapsed now h).mpr ⟨⟨d, hl, hle⟩, by simpa using hdel⟩) hlapsed
      · exact Or.inr ⟨d, q.lookup_takeAt_of_running now max h hl (Nat.lt_of_not_le hle)⟩

end Take

/-! #### Enqueueing -/

section Enqueue

variable (now : Instant) (payload : Value) (countKey : Option CountKey) (h : inner.WF)

include h

/-- An entry that is not evicted is not among the evicted ones. -/
theorem notMem_take_of_mem_drop (n : ℕ) (he : e ∈ inner.pending.drop n) :
    e ∉ inner.pending.take n := by
  have hnodup := h.pending_nodup
  rw [← List.take_append_drop n inner.pending, List.map_append, List.nodup_append] at hnodup
  exact fun ht => hnodup.2.2 _ (List.mem_map_of_mem ht) _ (List.mem_map_of_mem he) rfl

/-- An enqueue keeps the state well formed. -/
theorem enqueueAt_wf : (q.enqueueAt now payload countKey inner).WF := by
  rw [enqueueAt_eq]
  have hdrop : ∀ {e}, e ∈ inner.pending.drop (q.excess inner) → e ∈ inner.pending :=
    fun he => List.mem_of_mem_drop he
  constructor
  case pending_nodup =>
    rw [List.map_append, List.nodup_append]
    refine ⟨?_, by simp, ?_⟩
    · exact List.Nodup.sublist ((List.drop_sublist _ _).map _) h.pending_nodup
    · intro id hid id' hid'
      obtain ⟨e, he, rfl⟩ := List.mem_map.mp hid
      obtain rfl : id' = inner.nextId := by simpa using hid'
      exact Nat.ne_of_lt (h.pending_lt (hdrop he))
  case own => exact h.own
  case disjoint =>
    intro e he
    rcases List.mem_append.mp he with he | he
    · exact h.disjoint (hdrop he)
    · -- the new id is above every leased one
      obtain rfl := List.mem_singleton.mp he
      cases hl : inner.leased.lookup inner.nextId with
      | none => rfl
      | some l => exact absurd (h.leased_lt hl) (Nat.lt_irrefl _)
  case pending_lt =>
    intro e he
    rcases List.mem_append.mp he with he | he
    · exact Nat.lt_succ_of_lt (h.pending_lt (hdrop he))
    · obtain rfl := List.mem_singleton.mp he
      exact Nat.lt_succ_self _
  case leased_lt =>
    intro id l hl
    exact Nat.lt_succ_of_lt (h.leased_lt hl)

/-- An enqueue adds its entry and keeps every other one that it does not evict. -/
theorem held_enqueueAt :
    (q.enqueueAt now payload countKey inner).Held e ↔
      e = ⟨inner.nextId, now, payload, countKey⟩ ∨
        (inner.Held e ∧ e ∉ inner.pending.take (q.excess inner)) := by
  rw [enqueueAt_eq]
  simp only [Inner.Held, List.mem_append, List.mem_singleton]
  constructor
  · rintro ((hd | rfl) | hl)
    · exact Or.inr ⟨Or.inl (List.mem_of_mem_drop hd), notMem_take_of_mem_drop h _ hd⟩
    · exact Or.inl rfl
    · -- a leased entry is not pending, so it is not evicted
      refine Or.inr ⟨Or.inr hl, fun ht => ?_⟩
      obtain ⟨d, hl⟩ := hl
      rw [h.disjoint (List.mem_of_mem_take ht)] at hl
      cases hl
  · rintro (rfl | ⟨hp | hl, ht⟩)
    · exact Or.inl (Or.inr rfl)
    · rw [← List.take_append_drop (q.excess inner) inner.pending] at hp
      exact Or.inl (Or.inl ((List.mem_append.mp hp).resolve_left ht))
    · exact Or.inr hl

end Enqueue

/-! #### Acknowledging -/

section Ack

/-- An acknowledgement touches neither `pending` nor the id counter. -/
theorem pending_ack (ids : List ℕ) (inner : Inner) :
    (ack ids inner).pending = inner.pending ∧ (ack ids inner).nextId = inner.nextId := by
  induction ids generalizing inner with
  | nil => exact ⟨rfl, rfl⟩
  | cons id ids ih =>
    obtain ⟨hp, hn⟩ := ih (ackOne inner id)
    rw [ack, List.foldl_cons, ← ack, hp, hn, ackOne]
    split <;> exact ⟨rfl, rfl⟩

/-- An acknowledgement ends the leases it names. -/
theorem lookup_leased_ack (ids : List ℕ) (inner : Inner) (id : ℕ) :
    (ack ids inner).leased.lookup id = if id ∈ ids then none else inner.leased.lookup id := by
  induction ids generalizing inner with
  | nil => simp [ack]
  | cons id' ids ih =>
    have hone : (ackOne inner id').leased.lookup id =
        if id = id' then none else inner.leased.lookup id := by
      rw [ackOne]
      split
      next l e hl => exact HashMap.lookup_erase _ _ _
      next hl =>
        split
        next heq => rw [heq, hl]
        next => rfl
    rw [ack, List.foldl_cons, ← ack, ih, hone]
    by_cases hmem : id ∈ ids <;> simp [hmem]

/-- What an acknowledgement removes: the entries it names while they are leased. -/
theorem mem_removed_ack {ids : List ℕ} (h : inner.WF) :
    e ∈ q.removed inner (.ack ids) ↔
      e.id ∈ ids ∧ ∃ d, inner.leased.lookup e.id = some (d, e) := by
  simp only [removed, List.mem_filterMap, Option.map_eq_some_iff]
  constructor
  · rintro ⟨id, hid, ⟨d, e⟩, hl, rfl⟩
    rw [show e.id = id from h.own hl]
    exact ⟨hid, d, hl⟩
  · rintro ⟨hid, d, hl⟩
    exact ⟨e.id, hid, (d, e), hl, rfl⟩

/-- An acknowledgement forgets the mappings that the removed entries own. -/
theorem lookup_countIndex_ack (ids : List ℕ) (h : inner.WF) (k : CountKey) :
    (ack ids inner).countIndex.lookup k =
      (forgetAll inner.countIndex (q.removed inner (.ack ids))).lookup k := by
  induction ids using List.reverseRecOn with
  | nil => rfl
  | append_singleton ids id ih =>
    have hsnoc : ack (ids ++ [id]) inner = ackOne (ack ids inner) id := by
      simp [ack]
    have hlook := lookup_leased_ack ids inner id
    have hremoved : q.removed inner (.ack (ids ++ [id])) =
        q.removed inner (.ack ids) ++ ((inner.leased.lookup id).map (·.2)).toList := by
      cases hl : inner.leased.lookup id <;> simp [removed, hl]
    rw [hsnoc, hremoved, forgetAll_append]
    by_cases hmem : id ∈ ids
    · -- the second mention finds no lease, and the entry has forgotten its mapping already
      rw [if_pos hmem] at hlook
      have hsame : ackOne (ack ids inner) id = ack ids inner := by simp [ackOne, hlook]
      rw [hsame, ih]
      cases hl : inner.leased.lookup id with
      | none => rfl
      | some l =>
        obtain ⟨d, x⟩ := l
        have hx : x ∈ q.removed inner (.ack ids) := by
          rw [q.mem_removed_ack h, h.own hl]
          exact ⟨hmem, d, hl⟩
        exact (lookup_forgetCountKey_forgetAll hx k).symm
    · -- the first mention ends the lease, if there is one
      rw [if_neg hmem] at hlook
      cases hl : inner.leased.lookup id with
      | none =>
        rw [hl] at hlook
        simp only [ackOne, hlook]
        exact ih
      | some l =>
        obtain ⟨d, x⟩ := l
        rw [hl] at hlook
        simp only [ackOne, hlook]
        show (forgetCountKey _ x).lookup k = (forgetCountKey _ x).lookup k
        rw [lookup_forgetCountKey, lookup_forgetCountKey, ih]

/-- An acknowledgement keeps the state well formed. -/
theorem ack_wf (ids : List ℕ) (h : inner.WF) : (ack ids inner).WF := by
  obtain ⟨hp, hn⟩ := pending_ack ids inner
  -- an acknowledgement only ends leases
  have hsub : ∀ {id l}, (ack ids inner).leased.lookup id = some l →
      inner.leased.lookup id = some l := by
    intro id l hl
    rw [lookup_leased_ack] at hl
    split at hl
    · cases hl
    · exact hl
  constructor
  case pending_nodup =>
    rw [hp]
    exact h.pending_nodup
  case own => exact fun hl => h.own (hsub hl)
  case disjoint =>
    intro e he
    rw [lookup_leased_ack, h.disjoint (hp ▸ he), ite_self]
  case pending_lt =>
    intro e he
    rw [hn]
    exact h.pending_lt (hp ▸ he)
  case leased_lt =>
    intro id l hl
    rw [hn]
    exact h.leased_lt (hsub hl)

/-- An acknowledgement keeps every entry that it does not settle. -/
theorem held_ack (ids : List ℕ) (h : inner.WF) :
    (ack ids inner).Held e ↔ inner.Held e ∧ e ∉ q.removed inner (.ack ids) := by
  rw [q.mem_removed_ack h, Inner.Held, (pending_ack ids inner).1, lookup_leased_ack]
  constructor
  · rintro (hp | ⟨d, hl⟩)
    · refine ⟨Or.inl hp, ?_⟩
      rintro ⟨-, d, hl⟩
      rw [h.disjoint hp] at hl
      cases hl
    · split at hl
      next => cases hl
      next hid => exact ⟨Or.inr ⟨d, hl⟩, fun hr => hid hr.1⟩
  · rintro ⟨hp | ⟨d, hl⟩, hr⟩
    · exact Or.inl hp
    · rw [if_neg fun hid => hr ⟨hid, d, hl⟩]
      exact Or.inr ⟨d, hl⟩

end Ack

/-! #### Any call -/

/-- Every call keeps the state well formed. -/
theorem step_wf (h : inner.WF) (op : Op) : (q.step inner op).WF := by
  cases op with
  | enqueueAt now payload countKey => exact q.enqueueAt_wf now payload countKey h
  | takeAt now max => exact q.takeAt_wf now max h
  | ack ids => exact ack_wf ids h

/-- After a call the queue stores what the call created and what it did not remove. -/
theorem held_step (h : inner.WF) (op : Op) :
    (q.step inner op).Held e ↔
      created inner op = some e ∨ (inner.Held e ∧ e ∉ q.removed inner op) := by
  cases op with
  | enqueueAt now payload countKey =>
    refine (q.held_enqueueAt now payload countKey h).trans ?_
    simp [created, removed, eq_comm]
  | takeAt now max =>
    refine (q.held_takeAt now max h).trans ?_
    simp [created, removed]
  | ack ids =>
    refine (q.held_ack ids h).trans ?_
    simp [created]

/-- After a call the count index has the new entry's mapping, less those of removed entries. -/
theorem lookup_countIndex_step (h : inner.WF) (op : Op) (k : CountKey) :
    (q.step inner op).countIndex.lookup k =
      if ∃ x ∈ q.removed inner op, x.countKey = some k ∧ (claim inner op).lookup k = some x.id
      then none else (claim inner op).lookup k := by
  rw [← lookup_forgetAll]
  cases op with
  | enqueueAt now payload countKey => rw [step, enqueueAt_eq, claim, removed]
  | takeAt now max =>
    show (q.takeAt now max inner).2.countIndex.lookup k = _
    rw [q.takeAt_eq now max h]
    rfl
  | ack ids => exact q.lookup_countIndex_ack ids h k

/-- What a call removes was stored. -/
theorem held_of_mem_removed (h : inner.WF) {op : Op} (he : e ∈ q.removed inner op) :
    inner.Held e := by
  cases op with
  | enqueueAt now payload countKey => exact Or.inl (List.mem_of_mem_take he)
  | takeAt now max =>
    rcases List.mem_append.mp he with hl | hd
    · obtain ⟨⟨d, hl, -⟩, -⟩ := (q.mem_lapsed now h).mp hl
      exact Or.inr ⟨d, hl⟩
    · exact (q.held_of_mem_scan now max h (Or.inr (Or.inl hd))).1
  | ack ids => exact Or.inr ((q.mem_removed_ack h).mp he).2

/-- A call moves the id counter past the entry that it creates. -/
theorem nextId_step (h : inner.WF) (op : Op) :
    (q.step inner op).nextId = inner.nextId + (created inner op).toList.length := by
  cases op with
  | enqueueAt now payload countKey => rw [step, enqueueAt_eq]; rfl
  | takeAt now max => rw [step, q.takeAt_eq now max h]; rfl
  | ack ids => exact (pending_ack ids inner).2

theorem id_of_created {op : Op} (he : created inner op = some e) : e.id = inner.nextId := by
  cases op with
  | enqueueAt now payload countKey =>
    cases he
    rfl
  | takeAt now max => cases he
  | ack ids => cases he

/-- A new entry claims its key; the other mappings are as before the call. -/
theorem lookup_claim (inner : Inner) (op : Op) (k : CountKey) :
    (claim inner op).lookup k =
      if ∃ e, created inner op = some e ∧ e.countKey = some k then some inner.nextId
      else inner.countIndex.lookup k := by
  cases op with
  | enqueueAt now payload countKey =>
    cases countKey with
    | none => simp [claim, claimed, created]
    | some k' =>
      rw [claim, claimed, HashMap.lookup_insert]
      simp [created, eq_comm]
  | takeAt now max => simp [claim, created]
  | ack ids => simp [claim, created]

end NotificationQueue

end Pincerbell
