import Pincerbell.Dedup.Window

/-!
# The cache refines its specification

The specification of the cache is the list of the recordings that it accepted: a key is a duplicate
when one of the last `maxEntries` of them is of that key and younger than the TTL, and a recording
is accepted when its key is no duplicate. Checks and recordings may come in any order, as long as
the clock does not go back.

* `Call` — the two operations.
* `acceptedBy` — the recordings of a run that the cache accepted.
* `specRun` — the specification as a machine.
* `refines` — the answer of the cache after a run of calls, and that it accepts what its
  specification accepts.
-/

namespace Pincerbell.DedupCache

/-- A call on the cache. -/
inductive Call
  /-- `record_at`. -/
  | record (now : Instant) (key : Key)
  /-- `is_duplicate_at`. -/
  | isDuplicate (now : Instant) (key : Key)

/-- The clock value that a call reads. -/
def Call.time : Call → Instant
  | record now _ => now
  | isDuplicate now _ => now

/-- The recording that a call makes. -/
def Call.recording? : Call → Option (Instant × Key)
  | record now key => some (now, key)
  | isDuplicate _ _ => none

/-- The clock values of the calls never decrease. -/
def Clocked (calls : List Call) : Prop := (calls.map Call.time).Pairwise (· ≤ ·)

instance (calls : List Call) : Decidable (Clocked calls) := by
  unfold Clocked
  infer_instance

variable (c : DedupCache) {calls : List Call} {call : Call} {now : Instant} {key : Key}

/-! ### Runs of the cache -/

/-- The state after a call. A check changes nothing. -/
def step (inner : Inner) : Call → Inner
  | .record now key => c.recordAt now key inner
  | .isDuplicate _ _ => inner

/-- The state after the calls. -/
def run (calls : List Call) : Inner := calls.foldl c.step {}

/-- The recordings that are accepted, from a given state: those whose key is no duplicate
immediately before the call. -/
def acceptedByFrom (inner : Inner) : List Call → List (Instant × Key)
  | [] => []
  | .record now key :: calls =>
    (if c.isDuplicateAt now key inner then [] else [(now, key)]) ++
      acceptedByFrom (c.recordAt now key inner) calls
  | .isDuplicate _ _ :: calls => acceptedByFrom inner calls

/-- The recordings that the calls make and the cache accepts. -/
def acceptedBy (calls : List Call) : List (Instant × Key) := c.acceptedByFrom {} calls

/-- The recordings that the calls make. -/
def recordings (calls : List Call) : List (Instant × Key) := calls.filterMap Call.recording?

/-- Checks between the recordings make no difference to the state. -/
theorem run_eq_after (calls : List Call) : c.run calls = c.after (recordings calls) := by
  have hfrom : ∀ inner, calls.foldl c.step inner =
      (recordings calls).foldl (fun inner r => c.recordAt r.1 r.2 inner) inner := by
    intro inner
    induction calls generalizing inner with
    | nil => rfl
    | cons call calls ih =>
      cases call with
      | record now key => exact ih (c.recordAt now key inner)
      | isDuplicate now key => exact ih inner
  exact hfrom {}

/-- Nor to what is accepted. -/
theorem acceptedBy_eq_accepted (calls : List Call) :
    c.acceptedBy calls = c.accepted (recordings calls) := by
  have hfrom : ∀ inner, c.acceptedByFrom inner calls = c.acceptedFrom inner (recordings calls) := by
    intro inner
    induction calls generalizing inner with
    | nil => rfl
    | cons call calls ih =>
      cases call with
      | record now key =>
        rw [acceptedByFrom, ih]
        show _ = c.acceptedFrom inner ((now, key) :: recordings calls)
        rw [acceptedFrom]
        cases hdup : c.isDuplicateAt now key inner <;> simp [hdup]
      | isDuplicate now key => exact ih inner
  exact hfrom {}

/-- The recordings of a run are in the order of the clock. -/
theorem Clocked.sorted_recordings (h : Clocked calls) : Sorted (recordings calls) := by
  rw [Clocked, List.pairwise_map] at h
  rw [Sorted, recordings, List.pairwise_filterMap]
  refine h.imp fun {call call'} hle r hr r' hr' => ?_
  cases call <;> cases call' <;> cases hr <;> cases hr'
  exact hle

/-- A recording is no later than a call after it. -/
theorem Clocked.recordings_le (h : Clocked (calls ++ [call])) {r : Instant × Key}
    (hr : r ∈ recordings calls) : r.1 ≤ call.time := by
  obtain ⟨call', hcall', hrec⟩ := List.mem_filterMap.mp hr
  rw [Clocked, List.map_append, List.pairwise_append] at h
  have hle := h.2.2 _ (List.mem_map_of_mem hcall') call.time (by simp)
  cases call' with
  | record now key =>
    cases hrec
    exact hle
  | isDuplicate now key => cases hrec

theorem Clocked.left {calls' : List Call} (h : Clocked (calls ++ calls')) : Clocked calls := by
  rw [Clocked, List.map_append, List.pairwise_append] at h
  exact h.1

/-! ### The specification -/

/-- Whether a recording of the key is among the last `maxEntries` ones and still young. -/
def remembers (accepted : List (Instant × Key)) (now : Instant) (key : Key) : Bool :=
  (accepted.rtake c.maxEntries).any fun r => r.2 = key && now - r.1 < c.ttl

/-- A recording is accepted unless its key is a duplicate. -/
def specStep (accepted : List (Instant × Key)) : Call → List (Instant × Key)
  | .record now key =>
    if c.remembers accepted now key then accepted else accepted ++ [(now, key)]
  | .isDuplicate _ _ => accepted

/-- What has been accepted after the calls. -/
def specRun (calls : List Call) : List (Instant × Key) := calls.foldl c.specStep []

theorem remembers_iff {accepted : List (Instant × Key)} :
    c.remembers accepted now key = true ↔
      ∃ t, (t, key) ∈ accepted.rtake c.maxEntries ∧ now - t < c.ttl := by
  simp only [remembers, List.any_eq_true, Bool.and_eq_true, decide_eq_true_eq]
  constructor
  · rintro ⟨⟨t, k⟩, hmem, rfl, hlive⟩
    exact ⟨t, hmem, hlive⟩
  · rintro ⟨t, hmem, hlive⟩
    exact ⟨(t, key), hmem, rfl, hlive⟩

/-- What the cache answers after a run. -/
theorem isDuplicateAt_run (httl : 0 < c.ttl)
    (hclock : Clocked (calls ++ [.isDuplicate now key])) :
    c.isDuplicateAt now key (c.run calls) = c.remembers (c.acceptedBy calls) now key := by
  rw [Bool.eq_iff_iff, remembers_iff, run_eq_after, acceptedBy_eq_accepted]
  exact isDuplicateAt_after_iff (Nat.ne_of_gt httl) hclock.left.sorted_recordings
    fun r hr => hclock.recordings_le hr

variable {c}

/-- The cache accepts what its specification accepts. -/
theorem specRun_eq (httl : 0 < c.ttl) (h : Clocked calls) :
    c.specRun calls = c.acceptedBy calls := by
  induction calls using List.reverseRecOn with
  | nil => rfl
  | append_singleton calls call ih =>
    have hspec : c.specRun (calls ++ [call]) = c.specStep (c.acceptedBy calls) call := by
      rw [← ih h.left]
      exact List.foldl_append
    rw [hspec, c.acceptedBy_eq_accepted (calls ++ [call]), recordings, List.filterMap_append]
    cases call with
    | isDuplicate now key =>
      show c.acceptedBy calls = c.accepted (recordings calls ++ [])
      rw [acceptedBy_eq_accepted, List.append_nil]
    | record now key =>
      -- the answer that decides is the one that a check would get at that time
      have hclock : Clocked (calls ++ [.isDuplicate now key]) := by
        rw [Clocked, List.map_append] at h ⊢
        exact h
      have hanswer := c.isDuplicateAt_run httl hclock
      show c.specStep _ _ = c.accepted (recordings calls ++ [(now, key)])
      rw [accepted_concat, ← run_eq_after, ← acceptedBy_eq_accepted, specStep, ← hanswer]
      cases hdup : c.isDuplicateAt now key (c.run calls) <;> simp [hdup]

/-- After any calls with a clock that does not go back, the cache reports a duplicate exactly for
the keys of the last `maxEntries` accepted recordings that are younger than the TTL; and the
recordings that it has accepted are those that its specification accepts. -/
theorem refines (c : DedupCache) (httl : 0 < c.ttl) (calls : List Call) (now : Instant) (key : Key)
    (hclock : Clocked (calls ++ [.isDuplicate now key])) :
    (c.isDuplicateAt now key (c.run calls) = true ↔
      ∃ t, (t, key) ∈ (c.acceptedBy calls).rtake c.maxEntries ∧ now - t < c.ttl) ∧
      c.acceptedBy calls = c.specRun calls := by
  rw [c.isDuplicateAt_run httl hclock, remembers_iff]
  exact ⟨Iff.rfl, (specRun_eq httl hclock.left).symm⟩

/-- The window of a key that is recorded twice is not extended, and the cap forgets the key that was
recorded first. -/
theorem refines_repeated :
    let c : DedupCache := ⟨300, 2⟩
    let k (s : String) : Key := (s, "app", "pk")
    let calls : List Call :=
      [.record 0 (k "a"), .record 200 (k "a"), .record 210 (k "b"), .record 220 (k "c")]
    (c.isDuplicateAt 230 (k "a") (c.run calls) = true ↔
      ∃ t, (t, k "a") ∈ (c.acceptedBy calls).rtake c.maxEntries ∧ 230 - t < c.ttl) ∧
      c.acceptedBy calls = c.specRun calls :=
  refines _ (by decide) _ _ _ (by decide)

end Pincerbell.DedupCache
