import Mathlib.Algebra.BigOperators.Ring.Finset
import Mathlib.Algebra.Order.BigOperators.Group.Finset
import Mathlib.Data.List.DropRight
import Pincerbell.Gateway
import Pincerbell.Support.History

/-!
# The pauses of the poll loop

`run` of `poller.rs` performs one cycle after the other. After a failed one it sleeps, and twice as
long after the next one, up to a minute, until a cycle succeeds. A cycle takes any time, and so may
what comes after a sleep.

* `Turn`, `Loop.step` — a cycle with its times, and what the loop makes of it.
* `failures`, `pauseSecs` — how often it has failed in a row, and the pause that follows.
* `of_run` — the state of the loop after a run.
* `paced` — how far apart the cycles are while they fail.
-/

namespace Pincerbell

/-- A cycle of the loop. -/
structure Turn where
  start : Instant
  finish : Instant
  result : Except String ℕ

/-- Whether it has failed. -/
def Turn.failed (t : Turn) : Bool :=
  match t.result with
  | .ok _ => false
  | .error _ => true

/-- The loop between two cycles. -/
structure Loop where
  backoff : Duration := fromSecs 1
  /-- When the sleep ends. -/
  ready : Instant := 0

namespace Loop

/-- One turn of `run`, if the times allow it. -/
def step (loop : Loop) (t : Turn) : Option Loop :=
  if loop.ready ≤ t.start ∧ t.start ≤ t.finish then
    match t.result with
    | .ok _ => some ⟨fromSecs 1, t.finish⟩
    | .error _ => some ⟨min (loop.backoff * 2) (fromSecs 60), t.finish + loop.backoff⟩
  else none

/-- The loop after some turns. -/
def run (ts : List Turn) : Option Loop := History.run step {} ts

/-- How many of the last turns have failed. -/
def failures (ts : List Turn) : ℕ := (ts.rtakeWhile Turn.failed).length

/-- The pause after a failure that comes after `k` other ones. -/
def pauseSecs (k : ℕ) : ℕ := min (2 ^ k) 60

variable {loop : Loop} {ts pre post mid : List Turn} {t a b : Turn}

/-! ### The state of the loop -/

theorem failures_concat :
    failures (ts ++ [t]) = if t.failed then failures ts + 1 else 0 := by
  rw [failures]
  split
  next hfailed => rw [List.rtakeWhile_concat_pos _ _ _ hfailed, List.length_append]; rfl
  next hok => rw [List.rtakeWhile_concat_neg _ _ _ hok]; rfl

/-- Failures in a row add up. -/
theorem failures_append (h : ∀ t ∈ mid, t.failed = true) :
    failures (ts ++ mid) = failures ts + mid.length := by
  induction mid using List.reverseRecOn with
  | nil => simp
  | append_singleton mid t ih =>
    have hfailed : t.failed = true := h t (by simp)
    have hmid := ih fun t ht => h t (List.mem_append_left _ ht)
    rw [← List.append_assoc, failures_concat, if_pos hfailed, hmid, List.length_append]
    rfl

theorem pauseSecs_succ (k : ℕ) : pauseSecs (k + 1) = min (pauseSecs k * 2) 60 := by
  rw [pauseSecs, pauseSecs, pow_succ]
  omega

theorem pauseSecs_mono {k l : ℕ} (h : k ≤ l) : pauseSecs k ≤ pauseSecs l :=
  min_le_min_right 60 (Nat.pow_le_pow_right (by decide) h)

/-- After any run, the next failure has the pause that the number of the last ones calls for. -/
theorem of_run (h : run ts = some loop) : loop.backoff = fromSecs (pauseSecs (failures ts)) := by
  refine History.run_induction (P := fun ts loop => loop.backoff =
    fromSecs (pauseSecs (failures ts))) rfl ?_ h
  intro ts loop t loop' hbackoff hstep
  rw [failures_concat]
  unfold step at hstep
  split_ifs at hstep
  cases hresult : t.result with
  | ok n =>
    rw [hresult] at hstep
    obtain rfl := Option.some_inj.mp hstep
    simp [Turn.failed, hresult, pauseSecs]
  | error e =>
    rw [hresult] at hstep
    obtain rfl := Option.some_inj.mp hstep
    rw [if_pos (by simp [Turn.failed, hresult]), pauseSecs_succ]
    show min (loop.backoff * 2) (fromSecs 60) = fromSecs (min (pauseSecs (failures ts) * 2) 60)
    rw [hbackoff, fromSecs, fromSecs, fromSecs, Nat.mul_right_comm, Nat.mul_min_mul_right]

/-! ### The time between two turns -/

/-- A turn after a failed one starts after the pause. -/
theorem pause_le (h : run (pre ++ a :: b :: post) = some loop) (ha : a.failed = true) :
    a.start ≤ a.finish ∧ a.finish + fromSecs (pauseSecs (failures pre)) ≤ b.start := by
  have hsplit : pre ++ a :: b :: post = pre ++ [a] ++ [b] ++ post := by simp
  rw [hsplit, run, History.run, List.foldlM_append] at h
  obtain ⟨loop₃, h₃, -⟩ := Option.bind_eq_some_iff.mp h
  obtain ⟨loop₂, h₂, hb⟩ := History.run_concat_eq_some_iff.mp h₃
  obtain ⟨loop₁, h₁, hstep⟩ := History.run_concat_eq_some_iff.mp h₂
  rw [← of_run h₁]
  unfold step at hstep hb
  split_ifs at hstep hb with hnow hnext
  cases hresult : a.result with
  | ok n => simp [Turn.failed, hresult] at ha
  | error e =>
    rw [hresult] at hstep
    obtain rfl := Option.some_inj.mp hstep
    exact ⟨hnow.2, hnext.1⟩

/-- The pauses of turns that fail one after the other lie between the first one and the next. -/
theorem pauses_le (h : run (pre ++ a :: (mid ++ b :: post)) = some loop) (ha : a.failed = true)
    (hmid : ∀ t ∈ mid, t.failed = true) :
    a.finish + ∑ i ∈ Finset.range (mid.length + 1), fromSecs (pauseSecs (failures pre + i)) ≤
      b.start := by
  induction mid using List.reverseRecOn generalizing b post with
  | nil => simpa using (pause_le h ha).2
  | append_singleton mid c ih =>
    have hc : c.failed = true := hmid c (by simp)
    have hmid' : ∀ t ∈ mid, t.failed = true := fun t ht => hmid t (List.mem_append_left _ ht)
    have hfirst := ih (by simpa using h) hmid'
    -- the last pause, after all the other failures
    have hsplit : pre ++ a :: (mid ++ [c] ++ b :: post) = (pre ++ a :: mid) ++ c :: b :: post := by
      simp
    rw [hsplit] at h
    obtain ⟨hc, hlast⟩ := pause_le h hc
    rw [failures_append (List.forall_mem_cons.mpr ⟨ha, hmid'⟩), List.length_cons] at hlast
    rw [List.length_append, List.length_singleton, Finset.sum_range_succ, ← Nat.add_assoc]
    exact (Nat.add_le_add_right (hfirst.trans hc) _).trans hlast

/-- Almost all pauses are a minute long. -/
theorem le_sum_pauseSecs (n : ℕ) : 60 * n ≤ ∑ i ∈ Finset.range n, pauseSecs i + 297 := by
  have hfirst : ∀ n < 6, 60 * n ≤ ∑ i ∈ Finset.range n, pauseSecs i + 297 := by decide
  by_cases hn : n < 6
  · exact hfirst n hn
  · induction n, Nat.le_of_not_lt hn using Nat.le_induction with
    | base => decide
    | succ n hle ih =>
      -- from the seventh one on
      have hlarge : pauseSecs n = 60 := by
        have hpow : 2 ^ 6 ≤ 2 ^ n := Nat.pow_le_pow_right (by decide) hle
        rw [pauseSecs]
        omega
      have hrest := ih (by omega)
      rw [Finset.sum_range_succ, hlarge]
      omega

/-- In every run of the loop, from a failed cycle over other failed ones to the next, the pauses are
those of the doubling backoff, so that an upstream that stays away is contacted about once a
minute. -/
theorem paced (h : run (pre ++ a :: (mid ++ b :: post)) = some loop) (ha : a.failed = true)
    (hmid : ∀ t ∈ mid, t.failed = true) :
    a.finish + ∑ i ∈ Finset.range (mid.length + 1), fromSecs (pauseSecs (failures pre + i)) ≤
        b.start ∧
      a.finish + fromSecs (60 * (mid.length + 1)) ≤ b.start + fromSecs 297 := by
  have hpauses := pauses_le h ha hmid
  refine ⟨hpauses, ?_⟩
  have hmono : ∑ i ∈ Finset.range (mid.length + 1), fromSecs (pauseSecs i) ≤
      ∑ i ∈ Finset.range (mid.length + 1), fromSecs (pauseSecs (failures pre + i)) :=
    Finset.sum_le_sum fun i _ => Nat.mul_le_mul_right _ (pauseSecs_mono (Nat.le_add_left _ _))
  have hsum : ∑ i ∈ Finset.range (mid.length + 1), fromSecs (pauseSecs i) =
      fromSecs (∑ i ∈ Finset.range (mid.length + 1), pauseSecs i) := (Finset.sum_mul _ _ _).symm
  have hle : fromSecs (60 * (mid.length + 1)) ≤
      fromSecs (∑ i ∈ Finset.range (mid.length + 1), pauseSecs i) + fromSecs 297 := by
    rw [fromSecs, fromSecs, fromSecs, ← Nat.add_mul]
    exact Nat.mul_le_mul_right _ (le_sum_pauseSecs _)
  rw [← hsum] at hle
  calc a.finish + fromSecs (60 * (mid.length + 1))
      ≤ a.finish + (∑ i ∈ Finset.range (mid.length + 1), fromSecs (pauseSecs (failures pre + i)) +
          fromSecs 297) := Nat.add_le_add_left (hle.trans (Nat.add_le_add_right hmono _)) _
    _ ≤ b.start + fromSecs 297 := by
        rw [← Nat.add_assoc]
        exact Nat.add_le_add_right hpauses _

/-- Two cycles fail, and the next one starts three seconds after the first. -/
def twoFailures : List Turn :=
  [⟨0, 0, .error "down"⟩, ⟨fromSecs 1, fromSecs 1, .error "down"⟩, ⟨fromSecs 3, fromSecs 3, .ok 0⟩]

theorem paced_twoFailures :
    ∃ loop a mid b, run twoFailures = some loop ∧ twoFailures = a :: (mid ++ [b]) ∧
      a.finish + ∑ i ∈ Finset.range (mid.length + 1), fromSecs (pauseSecs (failures [] + i)) ≤
        b.start ∧
      a.finish + fromSecs (60 * (mid.length + 1)) ≤ b.start + fromSecs 297 := by
  have hrun : run twoFailures = some ⟨fromSecs 1, fromSecs 3⟩ := by rfl
  have hsplit : twoFailures = [] ++ ⟨0, 0, .error "down"⟩ ::
      ([⟨fromSecs 1, fromSecs 1, .error "down"⟩] ++ ⟨fromSecs 3, fromSecs 3, .ok 0⟩ :: []) := rfl
  have hpaced := paced (hsplit ▸ hrun) rfl (by simp [Turn.failed])
  exact ⟨_, _, _, _, hrun, hsplit, hpaced⟩

end Loop

end Pincerbell
