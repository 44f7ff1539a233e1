import Pincerbell.Gateway
import Pincerbell.Queue.Exact
import Pincerbell.Support.Mutex

/-!
# Panics under the queue's lock

Two operations of `take_at` can panic: the removal of an expired lease, which expects to find its
id, and the addition of the lease to the clock value. An `Instant` counts seconds in a signed 64-bit
integer, and its addition panics on overflow. A panic under the lock poisons it, and an entry that
was popped from `pending` and is not leased yet is gone.

The first panic never happens. The second one does for a lease that the configuration accepts, as
soon as a poll finds something to hand out.

* `takeAtChecked`, `callChecked` — the operations with their panics.
* `takeAtChecked_eq_ok`, `takeAtChecked_panics` — when a poll returns, and when it panics.
* `unpoisoned_iff` — the runs in which nothing panics.
* `lease_overflows` — a run that does.
-/

namespace Pincerbell

/-- The first time that an `Instant` cannot hold. -/
def instantEnd : Instant := fromSecs (2 ^ 63)

/-- `Instant::checked_add`, whose `none` is the panic of `Instant + Duration`. -/
def Instant.checkedAdd (now : Instant) (d : Duration) : Option Instant :=
  if now + d < instantEnd then some (now + d) else none

namespace NotificationQueue

variable (q : NotificationQueue)

/-- One turn of the reclaim loop, which panics when the id is not leased. -/
def reclaimChecked (now : Instant) (inner : Inner) (id : ℕ) : Except Inner Inner :=
  match inner.leased.lookup id with
  | none => .error inner
  | some (_, entry) =>
    let inner := { inner with leased := inner.leased.erase id }
    if !isLive inner.countIndex entry then .ok inner
    else if q.entryTtl ≤ now - entry.enqueued then
      .ok { inner with countIndex := forgetCountKey inner.countIndex entry }
    else .ok { inner with pending := entry :: inner.pending }

/-- The hand-out loop, which panics when the deadline of a lease overflows. -/
def fetchChecked (now : Instant) (max : ℕ) :
    List Entry → List PollEntry → Inner → Except Inner (List PollEntry × Inner)
  | [], batch, inner => .ok (batch, { inner with pending := [] })
  | entry :: rest, batch, inner =>
    if batch.length < max then
      if !isLive inner.countIndex entry then fetchChecked now max rest batch inner
      else if q.entryTtl ≤ now - entry.enqueued then
        fetchChecked now max rest batch
          { inner with countIndex := forgetCountKey inner.countIndex entry }
      else
        match Instant.checkedAdd now q.lease with
        -- the entry has been popped, and is dropped with the panic
        | none => .error { inner with pending := rest }
        | some deadline =>
          fetchChecked now max rest (batch ++ [entry.toPollEntry])
            { inner with leased := inner.leased.insert entry.id (deadline, entry) }
    else .ok (batch, { inner with pending := entry :: rest })

/-- `takeAt` with its panics. -/
def takeAtChecked (now : Instant) (max : ℕ) (inner : Inner) :
    Except Inner (List PollEntry × Inner) := do
  let inner ← (expiredIds now inner).foldlM (q.reclaimChecked now) inner
  q.fetchChecked now max inner.pending [] inner

/-- A call with its panics. The other two operations have none. -/
def callChecked : Op → Inner → Except Inner Inner
  | .enqueueAt now payload countKey, inner => .ok (q.enqueueAt now payload countKey inner)
  | .takeAt now max, inner => do
    let (_, inner) ← q.takeAtChecked now max inner
    return inner
  | .ack ids, inner => .ok (ack ids inner)

/-- The lock after a run. -/
def locked (ops : List Op) : Mutex Inner := Mutex.calls q.callChecked ⟨{}, false⟩ ops

variable {now : Instant} {max : ℕ} {inner : Inner} {countIndex : HashMap CountKey ℕ}

/-! ### The reclaim loop -/

/-- A turn of the loop finds the id of a lease. -/
theorem reclaimChecked_eq_ok {id : ℕ} {l : Instant × Entry}
    (hl : inner.leased.lookup id = some l) :
    q.reclaimChecked now inner id = .ok (q.reclaim now inner id) := by
  rw [reclaimChecked, reclaim, hl]
  dsimp only
  split
  next => rfl
  next => split <;> rfl

/-- A turn of the loop ends the lease of its own id only. -/
theorem lookup_leased_reclaim_of_ne {id id' : ℕ} (hne : id' ≠ id) :
    (q.reclaim now inner id).leased.lookup id' = inner.leased.lookup id' := by
  rw [reclaim]
  split
  next => rfl
  next =>
    dsimp only
    split
    next => exact AList.lookup_erase_ne hne
    next => split <;> exact AList.lookup_erase_ne hne

/-- The loop finds every id, because it comes from the iteration over the leases. -/
theorem foldlM_reclaimChecked {ids : List ℕ} (hnodup : ids.Nodup)
    (hleased : ∀ id ∈ ids, ∃ l, inner.leased.lookup id = some l) :
    ids.foldlM (q.reclaimChecked now) inner = .ok (ids.foldl (q.reclaim now) inner) := by
  induction ids generalizing inner with
  | nil => rfl
  | cons id ids ih =>
    rw [List.nodup_cons] at hnodup
    obtain ⟨l, hl⟩ := hleased id List.mem_cons_self
    rw [List.foldlM_cons, q.reclaimChecked_eq_ok hl]
    show ids.foldlM (q.reclaimChecked now) (q.reclaim now inner id) = _
    apply ih hnodup.2
    intro id' hmem
    have hne : id' ≠ id := fun heq => hnodup.1 (heq ▸ hmem)
    rw [q.lookup_leased_reclaim_of_ne hne]
    exact hleased id' (List.mem_cons_of_mem id hmem)

/-! ### The hand-out loop -/

/-- Dropping an entry leaves the others of the list as deliverable as they were. -/
theorem deliverable_forgetCountKey_of_mem {e e' : Entry} {l : List Entry}
    (hid : e.id ∉ l.map Entry.id) (hmem : e' ∈ l) :
    q.deliverable now (forgetCountKey countIndex e) e' = q.deliverable now countIndex e' := by
  have hne : e'.id ≠ e.id := fun heq => hid (heq ▸ List.mem_map_of_mem hmem)
  rw [deliverable, isLive_forgetCountKey_of_ne hne, ← deliverable]

/-- When the deadline does not overflow, the loop returns. -/
theorem fetchChecked_eq_ok (hroom : now + q.lease < instantEnd) (l : List Entry)
    (batch : List PollEntry) (inner : Inner) :
    q.fetchChecked now max l batch inner = .ok (q.fetch now max l batch inner) := by
  induction l generalizing batch inner with
  | nil => rfl
  | cons e l ih =>
    have hadd : Instant.checkedAdd now q.lease = some (now + q.lease) := if_pos hroom
    rw [fetchChecked, fetch, hadd]
    split
    next =>
      split
      next => exact ih batch inner
      next => split <;> exact ih _ _
    next => rfl

/-- When the loop hands out nothing, it computes no deadline. -/
theorem fetchChecked_eq_ok_of_not_deliverable {l : List Entry} {batch : List PollEntry}
    (hnodup : (l.map Entry.id).Nodup)
    (hnone : max ≤ batch.length ∨ ∀ e ∈ l, q.deliverable now inner.countIndex e = false) :
    q.fetchChecked now max l batch inner = .ok (q.fetch now max l batch inner) := by
  induction l generalizing inner with
  | nil => rfl
  | cons e l ih =>
    rw [List.map_cons, List.nodup_cons] at hnodup
    rw [fetchChecked, fetch]
    by_cases hfull : batch.length < max
    · have hall := hnone.resolve_left (Nat.not_le_of_lt hfull)
      rw [if_pos hfull, if_pos hfull]
      rcases (q.deliverable_eq_false_iff now).mp (hall e List.mem_cons_self) with hstale | hold
      · rw [if_pos (by simp [hstale]), if_pos (by simp [hstale])]
        exact ih hnodup.2 (Or.inr fun e' hmem => hall e' (List.mem_cons_of_mem e hmem))
      · -- dropping `e` leaves the entries behind it as undeliverable as they were
        have hrest : ∀ e' ∈ l,
            q.deliverable now (forgetCountKey inner.countIndex e) e' = false := by
          intro e' hmem
          rw [q.deliverable_forgetCountKey_of_mem hnodup.1 hmem]
          exact hall e' (List.mem_cons_of_mem e hmem)
        split
        next => exact ih hnodup.2 (Or.inr fun e' hmem => hall e' (List.mem_cons_of_mem e hmem))
        next => exact ih hnodup.2 (Or.inr hrest)
    · rw [if_neg hfull, if_neg hfull]

/-- When the deadline overflows, the loop panics at the first entry that it could hand out, and the
entry is left nowhere. -/
theorem fetchChecked_panics (hend : instantEnd ≤ now + q.lease) {l : List Entry}
    (batch : List PollEntry) (inner : Inner) (hnodup : (l.map Entry.id).Nodup)
    (hfull : batch.length < max)
    (hsome : ∃ e ∈ l, q.deliverable now inner.countIndex e = true) :
    ∃ pre e post left, l = pre ++ e :: post ∧ q.deliverable now inner.countIndex e = true ∧
      q.fetchChecked now max l batch inner = .error left ∧ left.pending = post ∧
      left.leased = inner.leased := by
  induction l generalizing inner with
  | nil => simp at hsome
  | cons e l ih =>
    rw [List.map_cons, List.nodup_cons] at hnodup
    rw [fetchChecked, if_pos hfull]
    cases hdel : q.deliverable now inner.countIndex e with
    | true =>
      have hlive := (q.deliverable_iff.mp hdel).1
      have hyoung := (q.deliverable_iff.mp hdel).2
      have hadd : Instant.checkedAdd now q.lease = none := if_neg (Nat.not_lt_of_le hend)
      rw [if_neg (by simp [hlive]), if_neg (Nat.not_le_of_lt hyoung), hadd]
      exact ⟨[], e, l, _, rfl, hdel, rfl, rfl, rfl⟩
    | false =>
      -- `e` is dropped, so what can be handed out is behind it
      have hsome' : ∃ e' ∈ l, q.deliverable now inner.countIndex e' = true := by
        obtain ⟨e', hmem, hdel'⟩ := hsome
        rcases List.mem_cons.mp hmem with rfl | hmem
        · rw [hdel] at hdel'
          cases hdel'
        · exact ⟨e', hmem, hdel'⟩
      have hsame : ∀ e' ∈ l, q.deliverable now (forgetCountKey inner.countIndex e) e' =
          q.deliverable now inner.countIndex e' :=
        fun e' hmem => q.deliverable_forgetCountKey_of_mem hnodup.1 hmem
      split
      next =>
        obtain ⟨pre, x, post, left, rfl, hx, hleft⟩ := ih inner hnodup.2 hsome'
        exact ⟨e :: pre, x, post, left, rfl, hx, hleft⟩
      next hlive =>
        have hold := ((q.deliverable_eq_false_iff now).mp hdel).resolve_left (by simpa using hlive)
        obtain ⟨e', hmem, hdel'⟩ := hsome'
        obtain ⟨pre, x, post, left, rfl, hx, hleft⟩ :=
          ih { inner with countIndex := forgetCountKey inner.countIndex e } hnodup.2
            ⟨e', hmem, (hsame e' hmem).trans hdel'⟩
        rw [if_pos hold]
        refine ⟨e :: pre, x, post, left, rfl, ?_, hleft⟩
        rw [← hsame x (by simp)]
        exact hx

/-! ### A poll -/

/-- The reclaim loop of a poll does not panic. -/
theorem takeAtChecked_eq :
    q.takeAtChecked now max inner =
      let inner := (expiredIds now inner).foldl (q.reclaim now) inner
      q.fetchChecked now max inner.pending [] inner := by
  have hreclaim : (expiredIds now inner).foldlM (q.reclaimChecked now) inner =
      .ok ((expiredIds now inner).foldl (q.reclaim now) inner) := by
    apply q.foldlM_reclaimChecked ((pairwise_expiredIds now).imp Nat.ne_of_gt)
    intro id hid
    obtain ⟨l, hl, -⟩ := (mem_expiredIds now).mp hid
    exact ⟨l, hl⟩
  rw [takeAtChecked, hreclaim]
  rfl

section Poll

variable (h : inner.WF)

include h

/-- After the reclaim loop the deliverable entries of `pending` are those that are due. -/
theorem mem_pending_reclaimed_iff {e : Entry} :
    (e ∈ ((expiredIds now inner).foldl (q.reclaim now) inner).pending ∧
      q.deliverable now ((expiredIds now inner).foldl (q.reclaim now) inner).countIndex e = true) ↔
        q.Due now inner e := by
  rw [q.foldl_reclaim_expiredIds now h, ← q.mem_dueList h, dueList, List.mem_filter]
  refine and_congr_right fun hmem => ?_
  rw [q.deliverable_forgetAll_lapsed now h hmem]

/-- No entry is pending twice after the reclaim loop. -/
theorem nodup_pending_reclaimed (now : Instant) :
    (((expiredIds now inner).foldl (q.reclaim now) inner).pending.map Entry.id).Nodup := by
  rw [q.foldl_reclaim_expiredIds now h]
  exact q.nodup_requeued_append now h

/-- A poll returns when it hands out nothing, or computes a deadline that an `Instant` can hold. -/
theorem takeAtChecked_eq_ok
    (hroom : 1 ≤ max → (∃ e, q.Due now inner e) → now + q.lease < instantEnd) :
    q.takeAtChecked now max inner = .ok (q.takeAt now max inner) := by
  rw [q.takeAtChecked_eq, takeAt]
  by_cases hadd : now + q.lease < instantEnd
  · exact q.fetchChecked_eq_ok hadd _ _ _
  · apply q.fetchChecked_eq_ok_of_not_deliverable (q.nodup_pending_reclaimed h now)
    by_cases hmax : 1 ≤ max
    · right
      intro e he
      rw [← Bool.not_eq_true]
      intro hdel
      exact hadd (hroom hmax ⟨e, (q.mem_pending_reclaimed_iff h).mp ⟨he, hdel⟩⟩)
    · left
      rw [List.length_nil]
      omega

/-- Otherwise it panics, and an entry that is due is left neither pending nor leased with a deadline
to come. -/
theorem takeAtChecked_panics (hmax : 1 ≤ max) (hend : instantEnd ≤ now + q.lease)
    (hdue : ∃ e, q.Due now inner e) :
    ∃ e left, q.Due now inner e ∧ q.takeAtChecked now max inner = .error left ∧
      ¬ left.Held e := by
  obtain ⟨e, hdue⟩ := hdue
  have hnodup := q.nodup_pending_reclaimed h now
  obtain ⟨pre, x, post, left, hpending, hdel, herror, hleft, hleased⟩ :=
    q.fetchChecked_panics hend [] _ hnodup hmax
      ⟨e, (q.mem_pending_reclaimed_iff h).mpr hdue⟩
  have hx : q.Due now inner x := by
    rw [← q.mem_pending_reclaimed_iff h, hpending]
    exact ⟨by simp, hdel⟩
  refine ⟨x, left, hx, by rw [q.takeAtChecked_eq]; exact herror, ?_⟩
  rintro (hp | ⟨d, hl⟩)
  · -- the entries behind it have other ids
    rw [hpending, List.map_append, List.map_cons, List.nodup_append] at hnodup
    rw [hleft] at hp
    exact (List.nodup_cons.mp hnodup.2.1).1 (List.mem_map_of_mem hp)
  · -- its lease, if it had one, has ended
    rw [hleased, q.foldl_reclaim_expiredIds now h, HashMap.lookup_foldl_erase] at hl
    split at hl
    next => cases hl
    next hrunning =>
      rcases hx.1 with hp | ⟨d', hl', hle⟩
      · rw [h.disjoint hp] at hl
        cases hl
      · exact hrunning ((mem_expiredIds now).mpr ⟨_, hl', hle⟩)

end Poll

/-! ### Runs -/

/-- The polls of a run that have something to hand out compute deadlines that an `Instant` can
hold. -/
def DeadlinesFit (ops : List Op) : Prop :=
  ∀ pre now max post, ops = pre ++ .takeAt now max :: post → 1 ≤ max →
    (∃ e, q.Due now (q.run pre) e) → now + q.lease < instantEnd

/-- A call after a run returns, unless it is a poll whose deadline overflows. -/
theorem callChecked_eq_ok_iff (pre : List Op) (op : Op) :
    q.callChecked op (q.run pre) = .ok (q.step (q.run pre) op) ↔
      ∀ now max, op = .takeAt now max → 1 ≤ max → (∃ e, q.Due now (q.run pre) e) →
        now + q.lease < instantEnd := by
  cases op with
  | enqueueAt now payload countKey => simp [callChecked, step]
  | ack ids => simp [callChecked, step]
  | takeAt now max =>
    constructor
    · rintro hok now max ⟨⟩ hmax hdue
      -- something is due, and its deadline does not fit
      by_contra hend
      obtain ⟨e, left, -, herror, -⟩ :=
        q.takeAtChecked_panics (q.run_wf pre) hmax (Nat.le_of_not_lt hend) hdue
      rw [callChecked, herror] at hok
      cases hok
    · intro hroom
      rw [callChecked, q.takeAtChecked_eq_ok (q.run_wf pre) (hroom now max rfl)]
      rfl

/-- A call after a run returns what it returns without the overflow, if it returns at all. -/
theorem eq_step_of_callChecked {pre : List Op} {op : Op} {inner : Inner}
    (hok : q.callChecked op (q.run pre) = .ok inner) : inner = q.step (q.run pre) op := by
  by_cases hroom : q.callChecked op (q.run pre) = .ok (q.step (q.run pre) op)
  · rw [hok] at hroom
    exact Except.ok.inj hroom
  · rw [q.callChecked_eq_ok_iff] at hroom
    push Not at hroom
    obtain ⟨now, max, rfl, hmax, hdue, hend⟩ := hroom
    obtain ⟨e, left, -, herror, -⟩ := q.takeAtChecked_panics (q.run_wf pre) hmax hend hdue
    rw [callChecked, herror] at hok
    cases hok

/-- For every configuration and every run: no call panics, and the lock holds what the calls make of
the queue, exactly when the polls that have something to hand out compute deadlines that an
`Instant` can hold. -/
theorem unpoisoned_iff (cfg : QueueConfig) (ops : List Op) :
    let q := (QueueState.new cfg).queue
    ((q.locked ops).poisoned = false ∧ (q.locked ops).value = q.run ops) ↔ q.DeadlinesFit ops := by
  intro q
  have hpoison : (q.locked ops).poisoned = false ↔ Mutex.Returns q.callChecked q.step {} ops :=
    Mutex.not_poisoned_calls_iff (fun as a s' => q.eq_step_of_callChecked) ops
  -- a deadline that does not fit is the only panic
  have hfit : Mutex.Returns q.callChecked q.step {} ops ↔ q.DeadlinesFit ops := by
    constructor
    · rintro h pre now max post rfl
      exact (q.callChecked_eq_ok_iff pre _).mp (h pre _ post rfl) now max rfl
    · rintro h pre op post rfl
      refine (q.callChecked_eq_ok_iff pre op).mpr ?_
      rintro now max rfl
      exact h pre now max post rfl
  rw [← hfit, ← hpoison]
  refine ⟨And.left, fun h => ⟨h, ?_⟩⟩
  rw [locked, Mutex.calls_of_returns (hpoison.mp h)]
  rfl

/-- A lease of `i64::MAX` seconds is a configuration that loads. One second after the clock's origin
an entry is enqueued and polled. -/
theorem lease_overflows :
    ¬ ∀ (cfg : QueueConfig) (ops : List Op), cfg.leaseSecs < 2 ^ 63 → Clocked ops →
      (∀ t ∈ ops.filterMap Op.time?, t < fromSecs (2 ^ 32)) →
      ((QueueState.new cfg).queue.locked ops).poisoned = false := by
  intro h
  have hpanic := h { leaseSecs := 2 ^ 63 - 1 }
    [.enqueueAt (fromSecs 1) .null none, .takeAt (fromSecs 1) 1] (by decide) (by decide) (by decide)
  revert hpanic
  decide

end NotificationQueue

end Pincerbell
