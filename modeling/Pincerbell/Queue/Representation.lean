import Pincerbell.Queue.Coalesce

/-!
# The representation invariant of the queue

`pending`, `leased` and `countIndex` are three views of one set of stored entries. Every call keeps
them in step, and that includes an enqueue which evicts the very entry that it supersedes: the new
entry has claimed the key by then, so that the evicted one owns no mapping that could be forgotten.

* `owner_iff` — `countIndex` names exactly the stored entries that are the newest of their key.
* `owner_inj` — an entry owns at most one mapping.
* `representation` — the whole invariant, in every state of a run.
-/

namespace Pincerbell.NotificationQueue

variable (q : NotificationQueue) {ops : List Op} {k k' : CountKey} {id : ℕ}

/-- A key is mapped to the stored entry that is the newest of the key, and to no other. -/
theorem owner_iff :
    (q.run ops).countIndex.lookup k = some id ↔
      ∃ e, (q.run ops).Held e ∧ e.id = id ∧ Newest ops k e := by
  constructor
  · intro hk
    obtain ⟨e, hheld, hid, hkey, hnew⟩ := (q.inv_run ops).owned hk
    have he : e ∈ enqueued ops := (q.inv_run ops).held_enqueued hheld
    exact ⟨e, hheld, hid, (newest_iff_not_superseded he hkey).mpr hnew⟩
  · rintro ⟨e, hheld, rfl, hnew⟩
    exact isLive_iff.mp (q.isLive_of_newest hheld hnew) k hnew.2.1

/-- An entry owns at most one mapping. -/
theorem owner_inj (hk : (q.run ops).countIndex.lookup k = some id)
    (hk' : (q.run ops).countIndex.lookup k' = some id) : k = k' := by
  obtain ⟨e, hheld, hid, hnew⟩ := q.owner_iff.mp hk
  obtain ⟨e', hheld', hid', hnew'⟩ := q.owner_iff.mp hk'
  have heq : e = e' := (q.run_wf ops).held_inj hheld hheld' (hid.trans hid'.symm)
  have hkey : e.countKey = some k := hnew.2.1
  have hkey' : e.countKey = some k' := heq ▸ hnew'.2.1
  exact Option.some_inj.mp (hkey.symm.trans hkey')

/-- In every state of a run no id is pending twice, and none is both pending and leased; a lease is
stored under the id of its entry, and every stored id is below `nextId`. A key is mapped to an id
exactly when the entry of that id is stored and is the newest of the key; so no entry owns two
mappings, and a key has none once its entries are gone. -/
theorem representation (ops : List Op) :
    let inner := q.run ops
    (inner.pending.map Entry.id).Nodup ∧
    (∀ e ∈ inner.pending, inner.leased.lookup e.id = none) ∧
    (∀ id d e, inner.leased.lookup id = some (d, e) → e.id = id) ∧
    (∀ e, inner.Held e → e.id < inner.nextId) ∧
    (∀ k id, inner.countIndex.lookup k = some id ↔
      ∃ e, inner.Held e ∧ e.id = id ∧ Newest ops k e) ∧
    (∀ k k' id, inner.countIndex.lookup k = some id →
      inner.countIndex.lookup k' = some id → k = k') ∧
    (∀ k, (∀ e, inner.Held e → e.countKey ≠ some k) → inner.countIndex.lookup k = none) := by
  intro inner
  have hwf : inner.WF := q.run_wf ops
  refine ⟨hwf.pending_nodup, fun e he => hwf.disjoint he, fun id d e hl => hwf.own hl,
    fun e he => hwf.held_lt he, fun k id => q.owner_iff, fun k k' id => q.owner_inj, ?_⟩
  intro k hgone
  rw [Option.eq_none_iff_forall_ne_some]
  intro id hk
  obtain ⟨e, hheld, -, hnew⟩ := q.owner_iff.mp hk
  exact hgone e hheld hnew.2.1

end Pincerbell.NotificationQueue
