import Pincerbell.Deployment.Log

/-!
# At most one delivery in a window

Checking for a duplicate and recording a delivery are two steps with the delivery between them, so
two pipelines of one triple may both find nothing to suppress. What holds is that deliveries whose
pipelines do not overlap are a window apart.

* `SuccessAt`, `Spaced` — the successes of a triple at an instance, and that they are `dedup_ttl`
  apart.
* `Serial` — every delivery of the triple is recorded before the next one is checked.
* `lookup_of_serial` — then every record opens a window.
* `spaced_of_serial` — and the successes are spaced.
* `not_spaced` — without it they need not be.
-/

namespace Pincerbell

open Machine (eq_append_of_getElem?)
open Prog (Event)

namespace Deployment

variable {ι : Type} [DecidableEq ι] {D : Deployment ι} {s : State ι} {i : ι} {key : Key}

/-! ### Steps by their place in the log -/

/-- Before an attempt comes a check that found nothing. -/
theorem check_of_attempt (h : D.machine.Reachable s) {b : ℕ} {r : Step ι}
    (hb : s.log[b]? = some r) (ha : attemptOf r.event.untag = some key) :
    ∃ c r', Machine.Next s.log c b r' r ∧ r'.event = (checkOf false key).tag r.event.1.1 :=
  Machine.exists_next_of_getLast? hb
    ((linked_of_log h (eq_append_of_getElem? hb)).attempt key ha)

/-- Before a record comes the success that it records. -/
theorem success_before_record (h : D.machine.Reachable s) {k : ℕ} {r : Step ι}
    (hk : s.log[k]? = some r) (hr : r.event.untag = recordOf key) :
    ∃ a r', Machine.Next s.log a k r' r ∧ successOf D.crates r'.event.untag = some key := by
  obtain ⟨e, hlast, -, hs⟩ := (linked_of_log h (eq_append_of_getElem? hk)).record key hr
  obtain ⟨a, r', hnext, rfl⟩ := Machine.exists_next_of_getLast? hk hlast
  exact ⟨a, r', hnext, hs⟩

/-- What comes after a success is its record. -/
theorem record_of_next (h : D.machine.Reachable s) {a k : ℕ} {r r' : Step ι}
    (hnext : Machine.Next s.log a k r r') (hs : successOf D.crates r.event.untag = some key) :
    r'.event = (recordOf key).tag r.event.1.1 :=
  (linked_of_log h (eq_append_of_getElem? hnext.second)).success r.event key hnext.getLast? hs

/-- The steps of a branch are at one instance. -/
theorem inst_eq_of_next (h : D.machine.Reachable s) {a b : ℕ} {r r' : Step ι}
    (hnext : Machine.Next s.log a b r r') : r'.request.inst = r.request.inst := by
  rw [h.tracks.request_inj (List.mem_of_getElem? hnext.second) (List.mem_of_getElem? hnext.first)
    hnext.same.1.symm]

theorem Timed.le_of_lt {log : List (Step ι)} (h : Timed i log) {a b : ℕ} {r r' : Step ι}
    (ha : log[a]? = some r) (hb : log[b]? = some r') (hlt : a < b) (hr : r.request.inst = i)
    (hr' : r'.request.inst = i) : r.time ≤ r'.time := by
  subst hr'
  rw [eq_append_of_getElem? hb] at h
  refine h.time_le (List.mem_of_getElem? (i := a) ?_) hr
  rw [List.getElem?_take_of_lt hlt, ha]

/-! ### Successes of a triple -/

/-- The step at `a` has delivered or queued for the triple `key` at the instance `i`. -/
structure SuccessAt (D : Deployment ι) (log : List (Step ι)) (i : ι) (key : Key) (a : ℕ)
    (r : Step ι) : Prop where
  get : log[a]? = some r
  inst : r.request.inst = i
  success : successOf D.crates r.event.untag = some key

/-- The successes of a triple are a window apart. -/
def Spaced (D : Deployment ι) (log : List (Step ι)) (i : ι) (key : Key) : Prop :=
  ∀ a b r r', a < b → SuccessAt D log i key a r → SuccessAt D log i key b r' →
    r.time + (D.app i).dedup.ttl ≤ r'.time

/-- The pipelines of a triple do not overlap: every delivery is recorded before the next delivery is
checked. -/
def Serial (D : Deployment ι) (log : List (Step ι)) (i : ι) (key : Key) : Prop :=
  ∀ a b c r r' r'', a < b → SuccessAt D log i key a r → SuccessAt D log i key b r' →
    Machine.Next log c b r'' r' → ∃ k r₁, Machine.Next log a k r r₁ ∧ k < c

/-! ### What is recorded between two places in the log -/

theorem dedupLog_take {log : List (Step ι)} {a b : ℕ} (hab : a ≤ b) :
    dedupLog i (log.take b) =
      dedupLog i (log.take a) ++ dedupLog i ((log.take b).drop a) := by
  rw [Machine.take_eq_append log hab, dedupLog, gather_append, ← Machine.take_eq_append log hab]

theorem dedupLog_take_isPrefix (log : List (Step ι)) (b : ℕ) :
    dedupLog i (log.take b) <+: dedupLog i log := by
  refine ⟨dedupLog i (log.drop b), ?_⟩
  rw [dedupLog, dedupLog, ← gather_append, List.take_append_drop]

/-- A recording between two places belongs to a step between them. -/
theorem exists_of_mem_dedupLog_drop {log : List (Step ι)} {a b : ℕ} {t : Instant}
    (hmem : (t, key) ∈ dedupLog i ((log.take b).drop a)) :
    ∃ k r, a ≤ k ∧ k < b ∧ log[k]? = some r ∧ r.request.inst = i ∧ r.time = t ∧
      r.event.untag = recordOf key := by
  obtain ⟨r, hr, hinst, htime, hrec⟩ := exists_of_mem_dedupLog hmem
  obtain ⟨k, hak, hkb, hk⟩ := Machine.exists_of_mem_drop_take hr
  exact ⟨k, r, hak, hkb, hk, hinst, htime, hrec⟩

/-- A time less than a window after another. -/
theorem sub_lt_of_lt_add {now t ttl : ℕ} (hnow : now < t + ttl) (httl : ttl ≠ 0) :
    now - t < ttl := by
  omega

/-! ### Pipelines that do not overlap -/

section Serial

variable (h : D.machine.Reachable s) (htimed : Timed i s.log)
  (hcap : (D.app i).dedup.BelowCap (dedupLog i s.log)) (httl : (D.app i).dedup.ttl ≠ 0)
  (hserial : Serial D s.log i key)

include h

/-- The answer of the check before an attempt. -/
theorem fresh_before_attempt {b : ℕ} {r : Step ι} (hb : s.log[b]? = some r)
    (hinst : r.request.inst = i) (ha : attemptOf r.event.untag = some key) :
    ∃ c r', Machine.Next s.log c b r' r ∧ r'.event = (checkOf false key).tag r.event.1.1 ∧
      r'.request.inst = i ∧ (D.app i).dedup.isDuplicateAt r'.time key
        ((D.app i).dedup.after (dedupLog i (s.log.take c))) = false := by
  obtain ⟨c, r', hnext, hevent⟩ := check_of_attempt h hb ha
  have hinst' : r'.request.inst = i := by rw [← inst_eq_of_next h hnext, hinst]
  refine ⟨c, r', hnext, hevent, hinst', ?_⟩
  subst hinst'
  exact isDuplicate_of_log h (eq_append_of_getElem? hnext.first) (by rw [hevent, Event.untag_tag])

/-- Between the check and the record of a delivery, the triple is not recorded. -/
theorem not_recorded_of_serial (hserial : Serial D s.log i key) {a c k : ℕ} {r r' r₁ : Step ι}
    (ha : SuccessAt D s.log i key a r) (hcheck : Machine.Next s.log c a r' r)
    (hrecord : Machine.Next s.log a k r r₁) {t : Instant} :
    (t, key) ∉ dedupLog i ((s.log.take k).drop c) := by
  intro hmem
  obtain ⟨k₀, r₀, hck₀, hk₀k, hk₀, hinst₀, -, hrec⟩ := exists_of_mem_dedupLog_drop hmem
  obtain ⟨a₀, r₀', hnext₀, hs₀⟩ := success_before_record h hk₀ hrec
  have ha₀ : SuccessAt D s.log i key a₀ r₀' :=
    ⟨hnext₀.first, by rw [← inst_eq_of_next h hnext₀, hinst₀], hs₀⟩
  rcases Nat.lt_trichotomy a₀ a with hlt | rfl | hgt
  · -- an earlier delivery was recorded before the check
    obtain ⟨k', r₁', hnext', hk'c⟩ := hserial a₀ a c _ _ _ hlt ha₀ ha hcheck
    have heq := hnext'.right_unique hnext₀
    omega
  · have heq := hrecord.right_unique hnext₀
    omega
  · -- a later delivery was checked after the record
    obtain ⟨c₀, r₂, hcheck₀, -⟩ := check_of_attempt h ha₀.get (attemptOf_of_successOf hs₀)
    obtain ⟨k', r₁', hnext', hk'c⟩ := hserial a a₀ c₀ _ _ _ hgt ha ha₀ hcheck₀
    have heq := hnext'.right_unique hrecord
    have := hcheck₀.lt
    have := hnext₀.lt
    omega

include htimed hcap httl hserial

/-- The record of a delivery opens a window. -/
theorem lookup_of_serial {a k : ℕ} {r r₁ : Step ι} (ha : SuccessAt D s.log i key a r)
    (hrecord : Machine.Next s.log a k r r₁) :
    ((D.app i).dedup.after (dedupLog i (s.log.take (k + 1)))).seen.lookup key = some r₁.time := by
  obtain ⟨c, r', hcheck, -, hinst', hfresh⟩ :=
    fresh_before_attempt h ha.get ha.inst (attemptOf_of_successOf ha.success)
  have hinst₁ : r₁.request.inst = i := by rw [inst_eq_of_next h hrecord, ha.inst]
  have hck : c ≤ k := Nat.le_of_lt (Nat.lt_trans hcheck.lt hrecord.lt)
  -- the record is the last thing that happens to the cache
  have hconcat : dedupLog i (s.log.take (k + 1)) =
      dedupLog i (s.log.take k) ++ [(r₁.time, key)] := by
    have hevent := record_of_next h hrecord ha.success
    rw [List.take_add_one, hrecord.second, dedupLog, gather_append, Option.toList_some,
      gather_singleton _ hinst₁, hevent]
    rfl
  rw [hconcat, DedupCache.after_concat]
  refine DedupCache.lookup_recordAt_self httl ?_ (hcap _ (dedupLog_take_isPrefix _ _))
  -- a window that is open now was open at the check
  by_contra hdup
  obtain ⟨t, hl, hlive⟩ := DedupCache.isDuplicateAt_iff.mp (Bool.not_eq_false _ ▸ hdup)
  rw [dedupLog_take hck] at hl
  have hbefore := DedupCache.lookup_after_of_append hl fun r₀ hr₀ hkey => by
    obtain ⟨t₀, key₀⟩ := r₀
    obtain rfl : key₀ = key := hkey
    exact not_recorded_of_serial h hserial ha hcheck hrecord hr₀
  have hle : r'.time ≤ r₁.time := htimed.le_of_lt hcheck.first hrecord.second
    (Nat.lt_trans hcheck.lt hrecord.lt) hinst' hinst₁
  have htrue : (D.app i).dedup.isDuplicateAt r'.time key
      ((D.app i).dedup.after (dedupLog i (s.log.take c))) = true :=
    DedupCache.isDuplicateAt_iff.mpr
      ⟨t, hbefore, Nat.lt_of_le_of_lt (Nat.sub_le_sub_right hle t) hlive⟩
  rw [hfresh] at htrue
  cases htrue

/-- A check after the record of a delivery finds nothing only when the window is over. -/
theorem le_time_of_fresh {a k c : ℕ} {r r₁ r' : Step ι} (ha : SuccessAt D s.log i key a r)
    (hrecord : Machine.Next s.log a k r r₁) (hc : s.log[c]? = some r') (hkc : k < c)
    (hinst : r'.request.inst = i) (hfresh : (D.app i).dedup.isDuplicateAt r'.time key
      ((D.app i).dedup.after (dedupLog i (s.log.take c))) = false) :
    r₁.time + (D.app i).dedup.ttl ≤ r'.time := by
  by_contra hlt
  have hlive : r'.time - r₁.time < (D.app i).dedup.ttl :=
    sub_lt_of_lt_add (Nat.lt_of_not_le hlt) httl
  have hopen := lookup_of_serial h htimed hcap httl hserial ha hrecord
  have hstill : ((D.app i).dedup.after (dedupLog i (s.log.take c))).seen.lookup key =
      some r₁.time := by
    -- nothing that is recorded in between is old enough to close the window
    rw [dedupLog_take hkc]
    refine DedupCache.lookup_after_append ?_ hopen fun r₀ hr₀ => ?_
    · rw [← dedupLog_take hkc]
      exact fun pre hpre => hcap pre (hpre.trans (dedupLog_take_isPrefix _ _))
    · obtain ⟨t₀, key₀⟩ := r₀
      obtain ⟨k₀, r₂, -, hk₀c, hk₀, hinst₀, rfl, -⟩ := exists_of_mem_dedupLog_drop hr₀
      have hle := htimed.le_of_lt hk₀ hc hk₀c hinst₀ hinst
      exact Nat.lt_of_le_of_lt (Nat.sub_le_sub_right hle _) hlive
  have htrue := DedupCache.isDuplicateAt_iff.mpr ⟨_, hstill, hlive⟩
  rw [hfresh] at htrue
  cases htrue

/-- Deliveries of a triple whose pipelines do not overlap are a window apart. -/
theorem spaced_of_serial : Spaced D s.log i key := by
  intro a b r r' hab ha hb
  obtain ⟨c, r'', hcheck, -, hinst, hfresh⟩ :=
    fresh_before_attempt h hb.get hb.inst (attemptOf_of_successOf hb.success)
  obtain ⟨k, r₁, hrecord, hkc⟩ := hserial a b c _ _ _ hab ha hb hcheck
  have hinst₁ : r₁.request.inst = i := by rw [inst_eq_of_next h hrecord, ha.inst]
  calc r.time + (D.app i).dedup.ttl
      ≤ r₁.time + (D.app i).dedup.ttl :=
        Nat.add_le_add_right (htimed.le_of_lt ha.get hrecord.second hrecord.lt ha.inst hinst₁) _
    _ ≤ r''.time :=
        le_time_of_fresh h htimed hcap httl hserial ha hrecord hcheck.first hkc hinst hfresh
    _ ≤ r'.time := htimed.le_of_lt hcheck.first hb.get hcheck.lt hinst hb.inst

end Serial

/-- A request is served, and sent again when the window is over. -/
def retried : List (Machine.Label (Request Side) Input) :=
  [.arrive (.notify .poll event), .perform 0 0 0 .none, .perform 0 0 0 (status 200),
    .perform 0 0 0 .none, .arrive (.notify .poll event), .perform 1 0 (fromSecs 300) .none,
    .perform 1 0 (fromSecs 300) (status 200), .perform 1 0 (fromSecs 300) .none]

theorem isSome_retried : (trio.machine.run retried).isSome = true := by decide

/-- The two pipelines do not overlap. -/
theorem serial_retried :
    Serial trio ((trio.machine.run retried).get isSome_retried).log .poll ("$e", "app", "pk") := by
  -- the calls of the six steps, and which of them are successes
  have hlog : ((trio.machine.run retried).get isSome_retried).log.map
      (fun r => (r.call, (successOf trio.crates r.event.untag).isSome)) =
        [(0, false), (0, true), (0, false), (1, false), (1, true), (1, false)] := by decide
  have hget : ∀ {a : ℕ} {r : Step Side},
      ((trio.machine.run retried).get isSome_retried).log[a]? = some r →
      ([(0, false), (0, true), (0, false), (1, false), (1, true),
        (1, false)] : List (ℕ × Bool))[a]? =
        some (r.call, (successOf trio.crates r.event.untag).isSome) := fun {a r} hr => by
    rw [← hlog, List.getElem?_map, hr, Option.map_some]
  have hsuccess : ∀ {a r}, SuccessAt trio ((trio.machine.run retried).get isSome_retried).log .poll
      ("$e", "app", "pk") a r → a = 1 ∨ a = 4 ∧ r.call = 1 := fun {a r} ha => by
    have hsum := hget ha.get
    rw [ha.success, Option.isSome_some] at hsum
    rcases a with _ | _ | _ | _ | _ | _ | a <;> simp at hsum ⊢
    exact hsum.symm
  rintro a b c r r' r'' hab ha hb hnext
  obtain ⟨rfl, rfl, hcall⟩ : a = 1 ∧ b = 4 ∧ r'.call = 1 := by
    rcases hsuccess ha with rfl | ⟨rfl, -⟩ <;> rcases hsuccess hb with rfl | ⟨rfl, hcall⟩ <;>
      first | exact ⟨rfl, rfl, hcall⟩ | omega
  have hc : c = 3 := by
    have hsum := hget hnext.first
    rw [hnext.same.1, hcall] at hsum
    have hlt := hnext.lt
    rcases c with _ | _ | _ | _ | c <;> simp at hsum ⊢
    omega
  obtain rfl : _ = r := Option.some_inj.mp ha.get
  exact ⟨2, _, ⟨rfl, rfl, by decide, ⟨rfl, rfl⟩, fun h₁ h₂ => by omega⟩, by omega⟩

/-- The second success of the run is the length of the window after the first one. -/
theorem spaced_retried :
    ∃ s r r', trio.machine.run retried = some s ∧
      SuccessAt trio s.log .poll ("$e", "app", "pk") 1 r ∧
      SuccessAt trio s.log .poll ("$e", "app", "pk") 4 r' ∧
      r.time + (trio.app .poll).dedup.ttl ≤ r'.time := by
  have htimed : Timed .poll ((trio.machine.run retried).get isSome_retried).log := by
    decide
  have hcap : (trio.app .poll).dedup.BelowCap
      (dedupLog .poll ((trio.machine.run retried).get isSome_retried).log) :=
    DedupCache.belowCap_of_length_lt (by decide)
  refine ⟨_, _, _, (Option.some_get isSome_retried).symm, ⟨rfl, rfl, rfl⟩, ⟨rfl, rfl, rfl⟩, ?_⟩
  exact spaced_of_serial (Machine.reachable_get isSome_retried) htimed hcap (by decide)
    serial_retried 1 4 _ _ (by decide) ⟨rfl, rfl, rfl⟩ ⟨rfl, rfl, rfl⟩

/-! ### Pipelines that overlap -/

/-- A request is sent again while the first one is being delivered. -/
def overlapping : List (Machine.Label (Request Side) Input) :=
  [.arrive (.notify .poll event), .arrive (.notify .poll event), .perform 0 0 0 .none,
    .perform 1 0 0 .none, .perform 0 0 0 (status 200), .perform 1 0 0 (status 200)]

theorem isSome_overlapping : (trio.machine.run overlapping).isSome = true := by decide

/-- Without further conditions, successes of a triple need not be a window apart. -/
theorem not_spaced : ¬ ∀ s, trio.machine.Reachable s → ∀ i key, (trio.app i).dedup.ttl ≠ 0 →
    Timed i s.log → (trio.app i).dedup.BelowCap (dedupLog i s.log) → Spaced trio s.log i key := by
  intro hall
  have htimed : Timed .poll ((trio.machine.run overlapping).get isSome_overlapping).log := by
    decide
  have hcap : (trio.app .poll).dedup.BelowCap
      (dedupLog .poll ((trio.machine.run overlapping).get isSome_overlapping).log) :=
    DedupCache.belowCap_of_length_lt (by decide)
  have hspaced := hall _ (Machine.reachable_get isSome_overlapping) .poll ("$e", "app", "pk")
    (by decide) htimed hcap
  have hnow := hspaced 2 3 _ _ (by decide) ⟨rfl, rfl, rfl⟩ ⟨rfl, rfl, rfl⟩
  exact absurd hnow (by decide)

end Deployment

end Pincerbell
