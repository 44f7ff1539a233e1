import Pincerbell.Queue.Step

/-!
# Runs of the queue and their invariant

A run is any list of calls on an empty queue. The invariant of every run is `inv_run`:

* an entry is stored once, and it is one that the run enqueued;
* `countIndex` maps a key to the stored, newest count-only entry of that key;
* conversely, the newest count-only entry of a key is live as long as it is stored.

So a stored entry is stale exactly when a newer one of its key was enqueued (`isLive_run_iff`).
-/

namespace Pincerbell

/-- The clock values of a run never decrease. -/
def Clocked (ops : List Op) : Prop := (ops.filterMap Op.time?).Pairwise (· ≤ ·)

instance (ops : List Op) : Decidable (Clocked ops) := by
  unfold Clocked
  infer_instance

/-! ### What a run enqueues -/

/-- The entries that a run enqueues, their ids counted from `n`. -/
def enqueuedFrom (n : ℕ) : List Op → List Entry
  | [] => []
  | .enqueueAt now payload countKey :: ops =>
    ⟨n, now, payload, countKey⟩ :: enqueuedFrom (n + 1) ops
  | .takeAt _ _ :: ops => enqueuedFrom n ops
  | .ack _ :: ops => enqueuedFrom n ops

/-- The entries that a run enqueues, oldest first. -/
def enqueued (ops : List Op) : List Entry := enqueuedFrom 0 ops

/-- A newer count-only entry of the key of `e` was enqueued. -/
def Superseded (ops : List Op) (e : Entry) : Prop :=
  e.countKey.isSome ∧ ∃ e' ∈ enqueued ops, e'.countKey = e.countKey ∧ e.id < e'.id

instance (ops : List Op) (e : Entry) : Decidable (Superseded ops e) := by
  unfold Superseded
  infer_instance

theorem enqueuedFrom_append (n : ℕ) (ops ops' : List Op) :
    enqueuedFrom n (ops ++ ops') =
      enqueuedFrom n ops ++ enqueuedFrom (n + (enqueuedFrom n ops).length) ops' := by
  induction ops generalizing n with
  | nil => rfl
  | cons op ops ih => cases op <;> simp [enqueuedFrom, ih, Nat.add_assoc, Nat.add_comm 1]

/-- The ids of a run are those of a counter. -/
theorem map_id_enqueuedFrom (n : ℕ) (ops : List Op) :
    (enqueuedFrom n ops).map Entry.id = List.range' n (enqueuedFrom n ops).length := by
  induction ops generalizing n with
  | nil => rfl
  | cons op ops ih => cases op <;> simp [enqueuedFrom, ih, List.range'_succ]

theorem lt_length_of_mem_enqueued {ops : List Op} {e : Entry} (he : e ∈ enqueued ops) :
    e.id < (enqueued ops).length := by
  have hmem := List.mem_map_of_mem (f := Entry.id) he
  rw [enqueued, map_id_enqueuedFrom, List.mem_range'_1] at hmem
  simpa [enqueued] using hmem.2

/-- Entries of a run are numbered in the order of their calls. -/
theorem pairwise_enqueued (ops : List Op) :
    (enqueued ops).Pairwise fun e e' => e.id < e'.id := by
  rw [← List.pairwise_map (f := Entry.id) (R := (· < ·)), enqueued, map_id_enqueuedFrom]
  exact List.pairwise_lt_range'

/-- An entry of a run is determined by its id. -/
theorem enqueued_inj {ops : List Op} {e e' : Entry} (he : e ∈ enqueued ops)
    (he' : e' ∈ enqueued ops) (hid : e.id = e'.id) : e = e' :=
  List.inj_on_of_nodup_map (List.pairwise_map.mpr ((pairwise_enqueued ops).imp Nat.ne_of_lt))
    he he' hid

/-- An entry of a run belongs to a call of the run. -/
theorem exists_op_of_mem_enqueued {ops : List Op} {n : ℕ} {e : Entry}
    (he : e ∈ enqueuedFrom n ops) : .enqueueAt e.enqueued e.payload e.countKey ∈ ops := by
  induction ops generalizing n with
  | nil => cases he
  | cons op ops ih =>
    cases op with
    | enqueueAt now payload countKey =>
      rcases List.mem_cons.mp he with rfl | he
      · exact List.mem_cons_self
      · exact List.mem_cons_of_mem _ (ih he)
    | takeAt now max => exact List.mem_cons_of_mem _ (ih he)
    | ack ids => exact List.mem_cons_of_mem _ (ih he)

/-- Every enqueue time of a run is a clock value of the run. -/
theorem enqueued_mem_times {ops : List Op} {e : Entry} (he : e ∈ enqueued ops) :
    e.enqueued ∈ ops.filterMap Op.time? :=
  List.mem_filterMap.mpr ⟨_, exists_op_of_mem_enqueued he, rfl⟩

/-- In a run whose clock does not go back, an entry is not younger than the clock. -/
theorem Clocked.enqueued_le {pre suf : List Op} {op : Op} {now : Instant} {e : Entry}
    (h : Clocked (pre ++ op :: suf)) (hop : op.time? = some now) (he : e ∈ enqueued pre) :
    e.enqueued ≤ now := by
  rw [Clocked, List.filterMap_append, List.pairwise_append] at h
  refine h.2.2 _ (enqueued_mem_times he) _ ?_
  rw [List.filterMap_cons, hop]
  exact List.mem_cons_self

/-- In a run whose clock does not go back, a call reads a clock value no smaller than those read
between an earlier call and it. -/
theorem Clocked.time_le {pre mid suf : List Op} {op op' : Op} {now : Instant}
    (h : Clocked (pre ++ op :: (mid ++ op' :: suf))) (hop : op'.time? = some now) {t : Instant}
    (ht : t ∈ mid.filterMap Op.time?) : t ≤ now := by
  have hmid : Clocked (mid ++ op' :: suf) := by
    refine List.Pairwise.sublist (List.Sublist.filterMap _ ?_) h
    exact (List.sublist_cons_self _ _).trans (List.sublist_append_right _ _)
  rw [Clocked, List.filterMap_append, List.pairwise_append] at hmid
  refine hmid.2.2 t ht now ?_
  rw [List.filterMap_cons, hop]
  exact List.mem_cons_self

/-! ### The state after a run -/

namespace NotificationQueue

variable (q : NotificationQueue) {ops ops' : List Op} {op : Op} {e e' : Entry}

/-- The state after a run. -/
def run (ops : List Op) : Inner := ops.foldl q.step {}

theorem run_append (ops ops' : List Op) : q.run (ops ++ ops') = ops'.foldl q.step (q.run ops) :=
  List.foldl_append

theorem run_concat (ops : List Op) (op : Op) : q.run (ops ++ [op]) = q.step (q.run ops) op :=
  q.run_append ops [op]

/-- Every state of a run is well formed. -/
theorem run_wf (ops : List Op) : (q.run ops).WF := by
  induction ops using List.reverseRecOn with
  | nil => exact Inner.WF.empty
  | append_singleton ops op ih =>
    rw [run_concat]
    exact q.step_wf ih op

/-- The id counter is the number of entries enqueued so far. -/
theorem nextId_run (ops : List Op) : (q.run ops).nextId = (enqueued ops).length := by
  induction ops using List.reverseRecOn with
  | nil => rfl
  | append_singleton ops op ih =>
    rw [run_concat, q.nextId_step (q.run_wf ops), ih, enqueued, enqueued, enqueuedFrom_append,
      List.length_append]
    cases op <;> rfl

/-- The last call of a run adds the entry that it creates to the history. -/
theorem enqueued_concat (ops : List Op) (op : Op) :
    enqueued (ops ++ [op]) = enqueued ops ++ (created (q.run ops) op).toList := by
  rw [enqueued, enqueuedFrom_append]
  refine congrArg _ ?_
  cases op with
  | enqueueAt now payload countKey => simp [enqueuedFrom, created, q.nextId_run, enqueued]
  | takeAt now max => rfl
  | ack ids => rfl

theorem mem_enqueued_concat :
    e ∈ enqueued (ops ++ [op]) ↔ e ∈ enqueued ops ∨ created (q.run ops) op = some e := by
  rw [q.enqueued_concat, List.mem_append, Option.mem_toList]

/-- A longer run enqueues more. -/
theorem mem_enqueued_append (he : e ∈ enqueued ops) : e ∈ enqueued (ops ++ ops') := by
  rw [enqueued, enqueuedFrom_append]
  exact List.mem_append_left _ he

/-- The last call supersedes what its entry replaces. -/
theorem superseded_concat :
    Superseded (ops ++ [op]) e ↔
      Superseded ops e ∨ (e.countKey.isSome ∧ ∃ e', created (q.run ops) op = some e' ∧
        e'.countKey = e.countKey ∧ e.id < e'.id) := by
  simp only [Superseded, q.mem_enqueued_concat]
  grind

/-- What holds of every run. -/
structure Inv (ops : List Op) : Prop where
  held_enqueued : ∀ {e}, (q.run ops).Held e → e ∈ enqueued ops
  owned : ∀ {k id}, (q.run ops).countIndex.lookup k = some id →
    ∃ e, (q.run ops).Held e ∧ e.id = id ∧ e.countKey = some k ∧ ¬ Superseded ops e
  live : ∀ {e}, (q.run ops).Held e → ¬ Superseded ops e →
    isLive (q.run ops).countIndex e = true

theorem Inv.nil : q.Inv [] where
  held_enqueued := by simp [run, Inner.Held]
  owned := by simp [run]
  live := by simp [run, Inner.Held]

variable {q}

/-- A call keeps the mappings of the count index owned by stored, newest entries. -/
theorem Inv.owned_concat (h : q.Inv ops) (op : Op) {k : CountKey} {id : ℕ}
    (hk : (q.run (ops ++ [op])).countIndex.lookup k = some id) :
    ∃ e, (q.run (ops ++ [op])).Held e ∧ e.id = id ∧ e.countKey = some k ∧
      ¬ Superseded (ops ++ [op]) e := by
  have hwf := q.run_wf ops
  rw [run_concat, q.lookup_countIndex_step hwf] at hk
  split at hk
  next => cases hk
  next hkept =>
    rw [lookup_claim] at hk
    split at hk
    next hnew =>
      -- the call has created the owner, and its id is above all others
      obtain ⟨e, hc, hkey⟩ := hnew
      have hid := id_of_created hc
      refine ⟨e, ?_, ?_, hkey, ?_⟩
      · rw [run_concat, q.held_step hwf]
        exact Or.inl hc
      · rw [hid]
        exact Option.some_inj.mp hk
      · rintro ⟨-, e', he', -, hlt⟩
        rcases q.mem_enqueued_concat.mp he' with he' | hc'
        · have := lt_length_of_mem_enqueued he'
          rw [hid, q.nextId_run] at hlt
          omega
        · rw [hc] at hc'
          cases hc'
          exact Nat.lt_irrefl _ hlt
    next hold =>
      -- the mapping was there before, and its owner was not removed
      obtain ⟨e, hheld, hid, hkey, hnew⟩ := h.owned hk
      have hnot : e ∉ q.removed (q.run ops) op := by
        intro hr
        apply hkept
        refine ⟨e, hr, hkey, ?_⟩
        rw [lookup_claim, if_neg hold, hk, hid]
      refine ⟨e, ?_, hid, hkey, ?_⟩
      · rw [run_concat, q.held_step hwf]
        exact Or.inr ⟨hheld, hnot⟩
      · rw [q.superseded_concat]
        rintro (hs | ⟨-, e', hc, hkey', -⟩)
        · exact hnew hs
        · exact hold ⟨e', hc, hkey'.trans hkey⟩

/-- A call keeps the newest stored entry of a key live. -/
theorem Inv.live_concat (h : q.Inv ops) (op : Op) (hheld : (q.run (ops ++ [op])).Held e)
    (hnew : ¬ Superseded (ops ++ [op]) e) :
    isLive (q.run (ops ++ [op])).countIndex e = true := by
  have hwf := q.run_wf ops
  rw [run_concat, q.held_step hwf] at hheld
  rw [q.superseded_concat, not_or] at hnew
  rw [isLive_iff]
  intro k hkey
  rw [run_concat, q.lookup_countIndex_step hwf]
  rcases hheld with hc | ⟨hheld, hkept⟩
  · -- a new entry owns its key, and what the call removes is older
    have hid := id_of_created hc
    have hclaim : (claim (q.run ops) op).lookup k = some e.id := by
      rw [lookup_claim, if_pos ⟨e, hc, hkey⟩, hid]
    rw [hclaim, if_neg]
    rintro ⟨x, hx, -, hxid⟩
    have hlt := hwf.held_lt (q.held_of_mem_removed hwf hx)
    have heq : e.id = x.id := Option.some_inj.mp hxid
    omega
  · have hlive := isLive_iff.mp (h.live hheld hnew.1) k hkey
    -- a newer entry of the key would supersede `e`
    have hold : ¬ ∃ e', created (q.run ops) op = some e' ∧ e'.countKey = some k := by
      rintro ⟨e', hc, hkey'⟩
      apply hnew.2
      refine ⟨by simp [hkey], e', hc, hkey'.trans hkey.symm, ?_⟩
      rw [id_of_created hc]
      exact hwf.held_lt hheld
    rw [lookup_claim, if_neg hold, hlive, if_neg]
    rintro ⟨x, hx, -, hxid⟩
    have heq : e = x :=
      hwf.held_inj hheld (q.held_of_mem_removed hwf hx) (Option.some_inj.mp hxid)
    exact hkept (heq ▸ hx)

/-- A call keeps the invariant. -/
theorem Inv.concat (h : q.Inv ops) (op : Op) : q.Inv (ops ++ [op]) where
  held_enqueued := by
    intro e he
    rw [run_concat, q.held_step (q.run_wf ops)] at he
    rw [q.mem_enqueued_concat]
    rcases he with hc | ⟨hheld, -⟩
    · exact Or.inr hc
    · exact Or.inl (h.held_enqueued hheld)
  owned := h.owned_concat op
  live := h.live_concat op

variable (q)

/-- The invariant holds of every run. -/
theorem inv_run (ops : List Op) : q.Inv ops := by
  induction ops using List.reverseRecOn with
  | nil => exact Inv.nil q
  | append_singleton ops op ih => exact ih.concat op

/-- What is leased was enqueued, and is leased under its own id. -/
theorem enqueued_of_leased {id : ℕ} {deadline : Instant}
    (hleased : (q.run ops).leased.lookup id = some (deadline, e)) :
    e ∈ enqueued ops ∧ e.id = id := by
  have hid : e.id = id := (q.run_wf ops).own hleased
  exact ⟨(q.inv_run ops).held_enqueued (Or.inr ⟨deadline, hid ▸ hleased⟩), hid⟩

/-- A stored entry is stale exactly when a newer one of its key was enqueued. -/
theorem isLive_run_iff (he : (q.run ops).Held e) :
    isLive (q.run ops).countIndex e = true ↔ ¬ Superseded ops e := by
  refine ⟨fun hlive hs => ?_, (q.inv_run ops).live he⟩
  obtain ⟨k, hkey⟩ := Option.isSome_iff_exists.mp hs.1
  obtain ⟨e', he', hid, -, hnew⟩ := (q.inv_run ops).owned (isLive_iff.mp hlive k hkey)
  rw [(q.run_wf ops).held_inj he' he hid] at hnew
  exact hnew hs

/-- An enqueued entry whose id is leased is stored. -/
theorem held_of_isSome (he : e ∈ enqueued ops)
    (hl : ((q.run ops).leased.lookup e.id).isSome) : (q.run ops).Held e := by
  obtain ⟨⟨d, e'⟩, hl⟩ := Option.isSome_iff_exists.mp hl
  have hid := (q.run_wf ops).own hl
  have hheld : (q.run ops).Held e' := Or.inr ⟨d, by rw [hid]; exact hl⟩
  rwa [enqueued_inj he ((q.inv_run ops).held_enqueued hheld) hid.symm]

/-- An entry that has left the queue does not come back. -/
theorem not_held_append (he : e ∈ enqueued ops) (hgone : ¬ (q.run ops).Held e)
    (ops' : List Op) : ¬ (q.run (ops ++ ops')).Held e := by
  induction ops' using List.reverseRecOn with
  | nil => simpa using hgone
  | append_singleton ops' op ih =>
    rw [← List.append_assoc, run_concat, q.held_step (q.run_wf _)]
    rintro (hc | ⟨hheld, -⟩)
    · -- ids are not used twice
      have hmem : e ∈ enqueued (ops ++ ops') := mem_enqueued_append he
      have hlt := lt_length_of_mem_enqueued hmem
      rw [id_of_created hc, q.nextId_run] at hlt
      exact Nat.lt_irrefl _ hlt
    · exact ih hheld

/-! #### What a poll returns -/

/-- What a poll returns when it comes after the calls `ops`. -/
def batch (ops : List Op) (now : Instant) (max : ℕ) : List PollEntry :=
  (q.takeAt now max (q.run ops)).1

theorem batch_eq (ops : List Op) (now : Instant) (max : ℕ) :
    q.batch ops now max = (q.scan now max (q.run ops)).taken.map Entry.toPollEntry := by
  rw [batch, q.takeAt_eq now max (q.run_wf ops)]

theorem map_id_batch (ops : List Op) (now : Instant) (max : ℕ) :
    (q.batch ops now max).map PollEntry.id =
      (q.scan now max (q.run ops)).taken.map Entry.id := by
  rw [batch_eq, List.map_map]
  rfl

/-- What a poll returns is stored, deliverable, and not in a running lease. -/
theorem of_mem_taken {now : Instant} {max : ℕ}
    (he : e ∈ (q.scan now max (q.run ops)).taken) :
    (q.run ops).Held e ∧ q.deliverable now (q.run ops).countIndex e = true ∧
      ∀ d e', (q.run ops).leased.lookup e.id = some (d, e') → d ≤ now := by
  obtain ⟨hheld, hlease⟩ := q.held_of_mem_scan now max (q.run_wf ops) (Or.inl he)
  exact ⟨hheld, List.sift.of_mem_taken _ he, hlease⟩

/-- What one call returns to its caller. -/
def output (inner : Inner) : Op → List PollEntry
  | .takeAt now max => (q.takeAt now max inner).1
  | _ => []

/-- Everything that the calls of a run return, in order. -/
def outputs (inner : Inner) : List Op → List PollEntry
  | [] => []
  | op :: ops => output q inner op ++ outputs (q.step inner op) ops

theorem outputs_append (inner : Inner) (ops ops' : List Op) :
    q.outputs inner (ops ++ ops') =
      q.outputs inner ops ++ q.outputs (ops.foldl q.step inner) ops' := by
  induction ops generalizing inner with
  | nil => rfl
  | cons op ops ih => simp [outputs, ih]

theorem outputs_concat (ops : List Op) (op : Op) :
    q.outputs {} (ops ++ [op]) = q.outputs {} ops ++ q.output (q.run ops) op := by
  simp [outputs_append, outputs, run]

/-- What a call returns is stored, live and enqueued by the run. -/
theorem of_mem_output {p : PollEntry} (hp : p ∈ q.output (q.run ops) op) :
    ∃ e ∈ enqueued ops, e.toPollEntry = p ∧ (q.run ops).Held e ∧
      isLive (q.run ops).countIndex e = true := by
  cases op with
  | takeAt now max =>
    change p ∈ q.batch ops now max at hp
    rw [batch_eq] at hp
    obtain ⟨e, he, rfl⟩ := List.mem_map.mp hp
    obtain ⟨hheld, hdel, -⟩ := q.of_mem_taken he
    refine ⟨e, (q.inv_run ops).held_enqueued hheld, rfl, hheld, ?_⟩
    simp only [deliverable, Bool.and_eq_true] at hdel
    exact hdel.1
  | enqueueAt now payload countKey => cases hp
  | ack ids => cases hp

end NotificationQueue

end Pincerbell
