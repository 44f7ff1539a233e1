import Pincerbell.Queue.Invariant

/-!
# Count-only entries coalesce to the newest

A count-only notification replaces the older ones of its `(app_id, pushkey)`. Both directions hold
whatever happens to the other entries of the key: what a poll returns is the newest, and the newest
is never stale.

* `Newest` — the most recently enqueued count-only entry of a key.
* `newest_of_mem_output`, `pairwise_outputs`, `isLive_of_newest` — the three guarantees.
* `coalesce` — all of them, over a run.
-/

namespace Pincerbell

/-- `e` is the count-only entry of key `k` that was enqueued last. -/
def Newest (ops : List Op) (k : CountKey) (e : Entry) : Prop :=
  e ∈ enqueued ops ∧ e.countKey = some k ∧
    ∀ e' ∈ enqueued ops, e'.countKey = some k → e'.id ≤ e.id

/-- An entry of a key is its newest one unless it has been superseded. -/
theorem newest_iff_not_superseded {ops : List Op} {k : CountKey} {e : Entry}
    (he : e ∈ enqueued ops) (hkey : e.countKey = some k) :
    Newest ops k e ↔ ¬ Superseded ops e := by
  constructor
  · rintro ⟨-, -, hmax⟩ ⟨-, e', he', hkey', hlt⟩
    exact absurd (hmax e' he' (hkey'.trans hkey)) (Nat.not_le_of_lt hlt)
  · intro hnew
    refine ⟨he, hkey, fun e' he' hkey' => ?_⟩
    by_contra hlt
    apply hnew
    exact ⟨by simp [hkey], e', he', hkey'.trans hkey.symm, Nat.lt_of_not_le hlt⟩

namespace NotificationQueue

variable (q : NotificationQueue) {ops : List Op} {op : Op} {k : CountKey} {e e' : Entry}

/-- A count-only entry that a poll returns is the newest of its key at that moment. -/
theorem newest_of_mem_output (he : e ∈ enqueued ops)
    (hout : e.id ∈ (q.output (q.run ops) op).map PollEntry.id) (hkey : e.countKey = some k) :
    Newest ops k e := by
  obtain ⟨p, hp, hid⟩ := List.mem_map.mp hout
  obtain ⟨e', he', rfl, hheld, hlive⟩ := q.of_mem_output hp
  obtain rfl : e' = e := enqueued_inj he' he hid
  rw [newest_iff_not_superseded he hkey, ← q.isLive_run_iff hheld]
  exact hlive

/-- Everything that a run returns, it enqueued. -/
theorem exists_enqueued_of_mem_outputs {p : PollEntry} (hp : p ∈ q.outputs {} ops) :
    ∃ e ∈ enqueued ops, e.id = p.id := by
  induction ops using List.reverseRecOn with
  | nil => cases hp
  | append_singleton ops op ih =>
    rw [outputs_concat, List.mem_append] at hp
    rcases hp with hp | hp
    · obtain ⟨e, he, hid⟩ := ih hp
      exact ⟨e, mem_enqueued_append he, hid⟩
    · obtain ⟨e, he, rfl, -⟩ := q.of_mem_output hp
      exact ⟨e, mem_enqueued_append he, rfl⟩

/-- What a run returns for one key never goes back to an older entry. -/
theorem pairwise_outputs (ops : List Op) :
    (q.outputs {} ops).Pairwise fun p p' =>
      ∀ e ∈ enqueued ops, ∀ e' ∈ enqueued ops, e.id = p.id → e'.id = p'.id →
        e.countKey.isSome → e.countKey = e'.countKey → p.id ≤ p'.id := by
  induction ops using List.reverseRecOn with
  | nil => exact List.Pairwise.nil
  | append_singleton ops op ih =>
    -- whatever was returned before, the last call returns only the newest entry of a key
    have hlast : ∀ {p p' : PollEntry} {e e' : Entry}, (∃ x ∈ enqueued ops, x.id = p.id) →
        p' ∈ q.output (q.run ops) op →
        e ∈ enqueued (ops ++ [op]) → e' ∈ enqueued (ops ++ [op]) → e.id = p.id →
        e'.id = p'.id → e.countKey.isSome → e.countKey = e'.countKey → p.id ≤ p'.id := by
      intro p p' e e' hp hp' he he' hid hid' hsome hkey
      obtain ⟨x, hx, hxid⟩ := hp
      obtain ⟨x', hx', rfl, -⟩ := q.of_mem_output hp'
      have hxe : x = e := enqueued_inj (mem_enqueued_append hx) he (hxid.trans hid.symm)
      have hxe' : x' = e' := enqueued_inj (mem_enqueued_append hx') he' hid'.symm
      subst hxe hxe'
      obtain ⟨k, hk⟩ := Option.isSome_iff_exists.mp hsome
      have hnew := q.newest_of_mem_output hx' (List.mem_map_of_mem hp') (hkey ▸ hk)
      rw [← hid]
      exact hnew.2.2 x hx hk
    rw [outputs_concat, List.pairwise_append]
    refine ⟨?_, ?_, ?_⟩
    -- two results of earlier calls
    · refine ih.imp_of_mem fun {p p'} hp hp' h e he e' he' hid hid' => ?_
      obtain ⟨x, hx, hxid⟩ := q.exists_enqueued_of_mem_outputs hp
      obtain ⟨x', hx', hxid'⟩ := q.exists_enqueued_of_mem_outputs hp'
      have hxe : x = e := enqueued_inj (mem_enqueued_append hx) he (hxid.trans hid.symm)
      have hxe' : x' = e' := enqueued_inj (mem_enqueued_append hx') he' (hxid'.trans hid'.symm)
      exact h e (hxe ▸ hx) e' (hxe' ▸ hx') hid hid'
    -- two results of the last call
    · refine List.pairwise_of_forall_mem_list fun p hp p' hp' e he e' he' hid hid' hsome hkey => ?_
      obtain ⟨x, hx, rfl, -⟩ := q.of_mem_output hp
      exact hlast ⟨x, hx, rfl⟩ hp' he he' hid hid' hsome hkey
    -- an earlier result and one of the last call
    · intro p hp p' hp' e he e' he' hid hid' hsome hkey
      exact hlast (q.exists_enqueued_of_mem_outputs hp) hp' he he' hid hid' hsome hkey

/-- The newest entry of a key is live as long as it is stored. -/
theorem isLive_of_newest (hheld : (q.run ops).Held e) (hnew : Newest ops k e) :
    isLive (q.run ops).countIndex e = true := by
  rw [q.isLive_run_iff hheld, ← newest_iff_not_superseded hnew.1 hnew.2.1]
  exact hnew

/-- In every run the polls return only the newest count-only entry of a key, the ids that they
return for one key never decrease, and the newest entry of a key is live while it is stored. -/
theorem coalesce (ops : List Op) :
    (∀ pre now max suf, ops = pre ++ .takeAt now max :: suf →
      ∀ e ∈ enqueued pre, e.id ∈ (q.batch pre now max).map PollEntry.id →
        ∀ k, e.countKey = some k → Newest pre k e) ∧
    ((q.outputs {} ops).Pairwise fun p p' =>
      ∀ e ∈ enqueued ops, ∀ e' ∈ enqueued ops, e.id = p.id → e'.id = p'.id →
        e.countKey.isSome → e.countKey = e'.countKey → p.id ≤ p'.id) ∧
    (∀ pre suf, ops = pre ++ suf → ∀ e, (q.run pre).Held e →
      ∀ k, Newest pre k e → isLive (q.run pre).countIndex e = true) := by
  refine ⟨?_, q.pairwise_outputs ops, ?_⟩
  · rintro pre now max suf - e he hid k hkey
    have hout : e.id ∈ (q.output (q.run pre) (.takeAt now max)).map PollEntry.id := hid
    exact q.newest_of_mem_output he hout hkey
  · rintro pre suf - e hheld k hnew
    exact q.isLive_of_newest hheld hnew

/-- The badge state `0` is out on a lease when `1` replaces it: the next poll returns `1`, and `1`
stays live when the late acknowledgement of `0` arrives. -/
theorem coalesce_late_ack :
    let q : NotificationQueue := ⟨10, 3600, 60⟩
    let k : CountKey := ("app", "key")
    let pre : List Op := [.enqueueAt 0 .null (some k), .takeAt 0 1, .enqueueAt 5 .null (some k)]
    let newest : Entry := ⟨1, 5, .null, some k⟩
    Newest pre k newest ∧
      isLive (q.run (pre ++ [.takeAt 6 1, .ack [0]])).countIndex newest = true := by
  intro q k pre newest
  have h := q.coalesce (pre ++ [.takeAt 6 1, .ack [0]])
  have hmem : newest ∈ enqueued pre := by simp [pre, newest, enqueued, enqueuedFrom]
  have hnew := h.1 pre 6 1 _ rfl newest hmem (by decide) k rfl
  have hheld : (q.run (pre ++ [.takeAt 6 1, .ack [0]])).Held newest :=
    q.held_of_isSome (mem_enqueued_append hmem) (by decide)
  exact ⟨hnew, h.2.2 _ [] (by simp) newest hheld k hnew⟩

end NotificationQueue

end Pincerbell
