import Pincerbell.Queue.LongPoll

/-!
# The turns of a long poll

What a call of `poll_wait` looks at, and what it returns, in any interleaving with other calls. Each
turn of its loop takes from the queue once, and after the first one a turn needs a notification. A
turn that finds something is the last one, so that whatever is leased for the call it also returns.

* `Turn`, `turn_of_step` — how a step moves a poller.
* `Poller.weight`, `takes_le` — how often a call looks at the queue.
* `Poller.Found`, `found_of_run` — what a poller has found so far.
* `returned_spec` — what a call that has returned has found at each look.
-/

namespace Pincerbell.LongPoll

variable {q : NotificationQueue} {s s' : State} {l : Label} {labels pre post : List Label}
  {p max : ℕ} {batch : List PollEntry}

/-! ### One step -/

/-- The call of `poll_wait` that takes the step. -/
def Label.poller? : Label → Option ℕ
  | .pollWait p _ => some p
  | .register p => some p
  | .takeAt p _ => some p
  | .park p => some p
  | .wake p => some p
  | .timeout p => some p
  | _ => none

/-- The call looks at the queue. -/
def Label.takes (p : ℕ) : Label → Bool
  | .takeAt p' _ => p' = p
  | _ => false

/-- Somebody notifies the waiters. -/
def Label.notifies : Label → Bool
  | .notifyWaiters _ => true
  | _ => false

/-- How a step moves the poller `p`, when the queue is `inner`. -/
inductive Turn (q : NotificationQueue) (inner : Inner) (p : ℕ) : Label → Poller → Poller → Prop
  | pollWait (max : ℕ) : Turn q inner p (.pollWait p max) .idle (.loop max)
  | register (max : ℕ) : Turn q inner p (.register p) (.loop max) (.enabled max false)
  | found {now max signalled batch} (hbatch : (q.takeAt now max inner).1 = batch)
    (hne : batch ≠ []) : Turn q inner p (.takeAt p now) (.enabled max signalled) (.returned batch)
  | nothing {now max signalled} (hbatch : (q.takeAt now max inner).1 = []) :
    Turn q inner p (.takeAt p now) (.enabled max signalled) (.checked max signalled)
  | park (max signalled) : Turn q inner p (.park p) (.checked max signalled) (.parked max signalled)
  | wake (max : ℕ) : Turn q inner p (.wake p) (.parked max true) (.loop max)
  | timeout (max signalled) : Turn q inner p (.timeout p) (.parked max signalled) (.returned [])
  | signal (e : ℕ) (poller : Poller) : Turn q inner p (.notifyWaiters e) poller poller.signal
  /-- A step of somebody else. -/
  | other {l poller} (hown : l.poller? ≠ some p) (hnotify : l.notifies = false) :
    Turn q inner p l poller poller

/-- A step that moves the poller `p'`. -/
theorem turn_of_setPoller {p' : ℕ} {poller : Poller} {inner : Inner} (hown : l.poller? = some p')
    (hnotify : l.notifies = false) (hself : Turn q s.inner p' l (s.pollers p') poller) :
    Turn q s.inner p l (s.pollers p) (({ s with inner }.setPoller p' poller).pollers p) := by
  rw [State.pollers_setPoller]
  by_cases hp : p = p'
  · rw [if_pos hp, hp]
    exact hself
  · rw [if_neg hp]
    refine .other ?_ hnotify
    rw [hown]
    simpa using Ne.symm hp

/-- Every step moves a poller in one of these ways. -/
theorem turn_of_step (hstep : step q s l = some s') (p : ℕ) :
    Turn q s.inner p l (s.pollers p) (s'.pollers p) := by
  cases l with
  | takeAt p' now =>
    simp only [step] at hstep
    split at hstep
    next max signalled hpc =>
      cases hstep
      refine turn_of_setPoller rfl rfl ?_
      rw [hpc]
      split
      next hempty => exact .nothing (List.isEmpty_iff.mp hempty)
      next hsome => exact .found rfl fun hnil => hsome (List.isEmpty_iff.mpr hnil)
    next => cases hstep
  | pollWait p' max =>
    obtain ⟨hpc, rfl⟩ := effect_of_step hstep
    exact turn_of_setPoller rfl rfl (hpc ▸ .pollWait max)
  | register p' =>
    obtain ⟨max, hpc, rfl⟩ := effect_of_step hstep
    exact turn_of_setPoller rfl rfl (hpc ▸ .register max)
  | park p' =>
    obtain ⟨max, signalled, hpc, rfl⟩ := effect_of_step hstep
    exact turn_of_setPoller rfl rfl (hpc ▸ .park max signalled)
  | wake p' =>
    obtain ⟨max, hpc, rfl⟩ := effect_of_step hstep
    exact turn_of_setPoller rfl rfl (hpc ▸ .wake max)
  | timeout p' =>
    obtain ⟨max, signalled, hpc, rfl⟩ := effect_of_step hstep
    exact turn_of_setPoller rfl rfl (hpc ▸ .timeout max signalled)
  | notifyWaiters e =>
    obtain ⟨-, rfl⟩ := effect_of_step hstep
    exact .signal e _
  | enqueue e n device =>
    obtain ⟨-, rfl⟩ := effect_of_step hstep
    exact .other (by simp [Label.poller?]) rfl
  | push e now =>
    obtain ⟨n, device, -, rfl⟩ := effect_of_step hstep
    exact .other (by simp [Label.poller?]) rfl
  | ack ids =>
    obtain rfl := effect_of_step hstep
    exact .other (by simp [Label.poller?]) rfl

/-! ### How often a call looks -/

/-- How many looks at the queue a poller has left, if nobody notifies any more. -/
def Poller.weight : Poller → ℕ
  | .idle => 1
  | .loop _ => 1
  | .enabled _ signalled => 1 + signalled.toNat
  | .checked _ signalled => signalled.toNat
  | .parked _ signalled => signalled.toNat
  | .returned _ => 0

theorem Poller.weight_signal (poller : Poller) : poller.signal.weight ≤ poller.weight + 1 := by
  cases poller with
  | enabled max signalled | checked max signalled | parked max signalled =>
    cases signalled <;> simp [weight, signal]
  | _ => exact Nat.le_succ _

theorem Label.takes_of_other (hown : l.poller? ≠ some p) : l.takes p = false := by
  cases l with
  | takeAt p' now => simpa [poller?, takes] using hown
  | _ => rfl

/-- A look costs one, and a notification gives at most one. -/
theorem Turn.weight_le {inner : Inner} {poller poller' : Poller}
    (h : Turn q inner p l poller poller') :
    poller'.weight + (l.takes p).toNat ≤ poller.weight + l.notifies.toNat := by
  cases h with
  | pollWait max | register max | park max signalled | wake max => exact Nat.le_refl _
  | timeout max signalled => exact Nat.zero_le _
  | found hbatch hne => simp [Poller.weight, Label.takes, Label.notifies]
  | nothing hbatch => simp [Poller.weight, Label.takes, Label.notifies, Nat.add_comm]
  | signal e poller => exact poller.weight_signal
  | other hown hnotify => simp [Label.takes_of_other hown]

/-- In any interleaving, a call looks at the queue at most once more often than somebody notifies
after it has begun. -/
theorem takes_le (q : NotificationQueue) (s : State) (pre post : List Label) (p max : ℕ)
    (hrun : run q (pre ++ .pollWait p max :: post) = some s) :
    post.countP (Label.takes p) ≤ 1 + post.countP Label.notifies := by
  rw [run, List.append_cons, History.run_append_eq_some_iff] at hrun
  obtain ⟨s₁, hpre, hpost⟩ := hrun
  obtain ⟨s₀, -, hcall⟩ := History.run_concat_eq_some_iff.mp hpre
  -- the call begins with one look ahead of it
  have hweight : (s₁.pollers p).weight = 1 := by
    obtain ⟨-, rfl⟩ := effect_of_step hcall
    simp [Poller.weight]
  have hstep : ∀ t l t', step q t l = some t' →
      (t'.pollers p).weight + (l.takes p).toNat ≤ (t.pollers p).weight + l.notifies.toNat :=
    fun t l t' h => (turn_of_step h p).weight_le
  have hle := History.countP_le_of_weight (fun s : State => (s.pollers p).weight) hstep hpost
  rw [hweight] at hle
  exact le_trans (Nat.le_add_left _ _) hle

def device : Device := { appId := "app", pushkey := "key" }

/-- What happens after the poller `0` is called: it finds nothing, is woken up by an enqueue, and
finds its entry. -/
def wokenUp : List Label :=
  [.register 0, .takeAt 0 5, .park 0, .enqueue 0 { devices := [device] } device, .push 0 6,
    .notifyWaiters 0, .wake 0, .register 0, .takeAt 0 7]

theorem takes_le_wokenUp : wokenUp.countP (Label.takes 0) = 2 ∧
    wokenUp.countP (Label.takes 0) ≤ 1 + wokenUp.countP Label.notifies := by
  have hsome : (run ⟨10, 3600, 60⟩ ([] ++ .pollWait 0 10 :: wokenUp)).isSome = true := by rfl
  exact ⟨by rfl, takes_le _ _ [] wokenUp 0 10 (Option.some_get hsome).symm⟩

/-! ### What a call returns -/

/-- Each look of the call has found nothing. -/
def NothingFound (q : NotificationQueue) (labels : List Label) (p max : ℕ) : Prop :=
  ∀ pre now post, labels = pre ++ .takeAt p now :: post →
    ∃ s, run q pre = some s ∧ (q.takeAt now max s.inner).1 = []

/-- The last look of the call has found this batch, and each look before nothing. -/
def LastFound (q : NotificationQueue) (labels : List Label) (p max : ℕ) (batch : List PollEntry) :
    Prop :=
  ∃ pre now post s, labels = pre ++ .takeAt p now :: post ∧ (∀ now', .takeAt p now' ∉ post) ∧
    run q pre = some s ∧ (q.takeAt now max s.inner).1 = batch ∧ NothingFound q pre p max

/-- What a poller has found so far. -/
def Poller.Found (q : NotificationQueue) (labels : List Label) (p : ℕ) : Poller → Prop
  | .idle => ∀ now, .takeAt p now ∉ labels
  | .loop max => .pollWait p max ∈ labels ∧ NothingFound q labels p max
  | .enabled max _ => .pollWait p max ∈ labels ∧ NothingFound q labels p max
  | .checked max _ => .pollWait p max ∈ labels ∧ LastFound q labels p max []
  | .parked max _ => .pollWait p max ∈ labels ∧ LastFound q labels p max []
  | .returned batch => ∃ max, .pollWait p max ∈ labels ∧ LastFound q labels p max batch

theorem NothingFound.of_notMem (h : ∀ now, .takeAt p now ∉ labels) : NothingFound q labels p max :=
  fun pre now post heq => absurd (by simp [heq]) (h now)

/-- A step that is no look leaves it at that. -/
theorem NothingFound.append (h : NothingFound q labels p max) (hl : l.takes p = false) :
    NothingFound q (labels ++ [l]) p max := by
  intro pre now post heq
  rcases History.concat_eq_append_cons_iff.mp heq with ⟨-, rfl, -⟩ | ⟨post', -, heq⟩
  · simp [Label.takes] at hl
  · exact h pre now post' heq

theorem LastFound.append (h : LastFound q labels p max batch) (hl : l.takes p = false) :
    LastFound q (labels ++ [l]) p max batch := by
  obtain ⟨pre, now, post, s, rfl, hpost, hrun, hbatch, hbefore⟩ := h
  refine ⟨pre, now, post ++ [l], s, by simp, fun now' hmem => ?_, hrun, hbatch, hbefore⟩
  rcases List.mem_append.mp hmem with hmem | hmem
  · exact hpost now' hmem
  · obtain rfl := List.mem_singleton.mp hmem
    simp [Label.takes] at hl

/-- A look after which there is another turn has found nothing. -/
theorem LastFound.nothingFound (h : LastFound q labels p max []) : NothingFound q labels p max := by
  obtain ⟨pre, now, post, s, rfl, hpost, hrun, hbatch, hbefore⟩ := h
  induction post using List.reverseRecOn with
  | nil =>
    intro pre' now' post' heq
    rcases History.concat_eq_append_cons_iff.mp heq with ⟨rfl, heq, -⟩ | ⟨post'', -, rfl⟩
    · cases heq
      exact ⟨s, hrun, hbatch⟩
    · exact hbefore pre' now' post'' rfl
  | append_singleton post l ih =>
    rw [← List.cons_append, ← List.append_assoc]
    refine (ih fun now' hmem => hpost now' (List.mem_append_left _ hmem)).append ?_
    by_contra htakes
    cases l with
    | takeAt p' now' =>
      obtain rfl : p' = p := by simpa [Label.takes] using htakes
      exact hpost now' (by simp)
    | _ => exact htakes rfl

/-- The look that a call takes now is its last one. -/
theorem NothingFound.look (h : NothingFound q labels p max) (hrun : run q labels = some s)
    {now : Instant} (hbatch : (q.takeAt now max s.inner).1 = batch) :
    LastFound q (labels ++ [.takeAt p now]) p max batch :=
  ⟨labels, now, [], s, rfl, by simp, hrun, hbatch, h⟩

/-- A step that is no look changes nothing about what was found, unless it moves the poller. -/
theorem Poller.Found.append {poller : Poller} (h : poller.Found q labels p)
    (hl : l.takes p = false) : poller.Found q (labels ++ [l]) p := by
  cases poller with
  | idle =>
    intro now hmem
    rcases List.mem_append.mp hmem with hmem | hmem
    · exact h now hmem
    · obtain rfl := List.mem_singleton.mp hmem
      simp [Label.takes] at hl
  | loop max => exact ⟨List.mem_append_left _ h.1, h.2.append hl⟩
  | enabled max signalled => exact ⟨List.mem_append_left _ h.1, h.2.append hl⟩
  | checked max signalled => exact ⟨List.mem_append_left _ h.1, h.2.append hl⟩
  | parked max signalled => exact ⟨List.mem_append_left _ h.1, h.2.append hl⟩
  | returned batch =>
    obtain ⟨max, hcall, hlast⟩ := h
    exact ⟨max, List.mem_append_left _ hcall, hlast.append hl⟩

/-- A signal does not tell what there is to find. -/
theorem Poller.found_signal {poller : Poller} :
    poller.signal.Found q labels p ↔ poller.Found q labels p := by
  cases poller <;> rfl

/-- In every run, the pollers have found what their places say. -/
theorem found_of_run (hrun : run q labels = some s) (p : ℕ) : (s.pollers p).Found q labels p := by
  suffices h : run q labels = some s ∧ (s.pollers p).Found q labels p from h.2
  refine History.run_induction
    (P := fun labels s => run q labels = some s ∧ (s.pollers p).Found q labels p)
    ⟨rfl, by simp [Poller.Found]⟩ ?_ hrun
  rintro labels s l s' ⟨hrun, ih⟩ hstep
  refine ⟨History.run_concat_eq_some_iff.mpr ⟨s, hrun, hstep⟩, ?_⟩
  have hturn := turn_of_step hstep p
  generalize s.pollers p = poller at hturn ih
  generalize s'.pollers p = poller' at hturn
  cases hturn with
  | pollWait max => exact ⟨by simp, (NothingFound.of_notMem ih).append rfl⟩
  | register max => exact ⟨List.mem_append_left _ ih.1, ih.2.append rfl⟩
  | found hbatch hne => exact ⟨_, List.mem_append_left _ ih.1, ih.2.look hrun hbatch⟩
  | nothing hbatch => exact ⟨List.mem_append_left _ ih.1, ih.2.look hrun hbatch⟩
  | park max signalled => exact ⟨List.mem_append_left _ ih.1, ih.2.append rfl⟩
  | wake max => exact ⟨List.mem_append_left _ ih.1, ih.2.nothingFound.append rfl⟩
  | timeout max signalled => exact ⟨max, List.mem_append_left _ ih.1, ih.2.append rfl⟩
  | signal e poller => exact (Poller.found_signal.mpr ih).append rfl
  | other hown hnotify => exact ih.append (Label.takes_of_other hown)

/-- A call has timed out exactly when it has returned nothing. -/
theorem timeout_mem_iff (hrun : run q labels = some s) :
    .timeout p ∈ labels ↔ s.pollers p = .returned [] := by
  refine History.run_induction
    (P := fun labels s => .timeout p ∈ labels ↔ s.pollers p = .returned []) (by simp) ?_ hrun
  intro labels s l s' ih hstep
  have hturn := turn_of_step hstep p
  rw [List.mem_append, List.mem_singleton, ih]
  generalize s.pollers p = poller at hturn
  generalize s'.pollers p = poller' at hturn
  cases hturn with
  | signal e poller => cases poller <;> simp [Poller.signal]
  | other hown hnotify =>
    have hne : .timeout p ≠ l := by
      rintro rfl
      exact hown rfl
    simp [hne]
  | found hbatch hne => simp [hne]
  | _ => simp

/-- In any interleaving, a call that has returned has returned what its last look at the queue took,
and each look before it took nothing. So whatever is leased for a call, the call returns. It returns
nothing exactly when it has timed out. -/
theorem returned_spec (q : NotificationQueue) (labels : List Label) (s : State) (p : ℕ)
    (batch : List PollEntry) (hrun : run q labels = some s)
    (hreturned : s.pollers p = .returned batch) :
    (∃ max, .pollWait p max ∈ labels ∧ LastFound q labels p max batch) ∧
      (batch = [] ↔ .timeout p ∈ labels) := by
  have hfound := found_of_run hrun p
  rw [hreturned] at hfound
  refine ⟨hfound, ?_⟩
  rw [timeout_mem_iff hrun, hreturned]
  simp

theorem returned_spec_wokenUp : ∃ s batch, run ⟨10, 3600, 60⟩ (.pollWait 0 10 :: wokenUp) = some s ∧
    s.pollers 0 = .returned batch ∧ (batch = [] ↔ .timeout 0 ∈ .pollWait 0 10 :: wokenUp) := by
  have hreturned : (run ⟨10, 3600, 60⟩ (.pollWait 0 10 :: wokenUp)).map (fun s => s.pollers 0) =
      some (.returned [⟨0, payload { devices := [device] } device⟩]) := rfl
  obtain ⟨s, hrun, hpc⟩ := Option.map_eq_some_iff.mp hreturned
  exact ⟨s, _, hrun, hpc, (returned_spec _ _ s 0 _ hrun hpc).2⟩

end Pincerbell.LongPoll
