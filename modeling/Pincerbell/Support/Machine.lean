import Mathlib.Data.List.Induction
import Mathlib.Data.Nat.Find
import Pincerbell.Support.History
import Pincerbell.Support.Prog

/-!
# Machines that interleave programs

A `Machine` serves requests on a shared state. A request is a list of branches, each a program;
the branches of all requests that have arrived run concurrently, one command at a time and in any
order. What a command does is the machine's `exec`, which may depend on the time and on an input
from outside. The log records every command with its result.

* `Machine.step`, `Machine.run` — the executable machine; `Machine.Reachable` — its states.
* `Machine.guarded`, `run_guarded_iff` — the runs in which only some requests arrive.
* `Machine.Tracks` — each branch has performed its part of the log.
* `Reachable.exists_perform` — the state in which a logged command was performed.
* `Next` — a command and the next one of its branch.
* `Timed` — the clock of a log does not go back.
* `Reachable.shared_eq_foldl` — what the log makes of the shared state.
* `Reachable.of_mem_calls` — what holds of the requests that have arrived.
* `Reachable.always` — what always holds of the branches, holds all over the log.
* `Reachable.always_single`, `Reachable.exists_event_iff`, `Reachable.returns_of_results` — when
  every request has one branch.
-/

/-- Requests of type `κ` on a shared state of type `σ`. -/
structure Machine (κ σ Cmd : Type) (Res : Cmd → Type) (Input α : Type) where
  init : σ
  /-- Whether the request can arrive now. -/
  ready : κ → σ → Bool
  branches : κ → List (Prog Cmd Res α)
  /-- Perform a command of a request, if the input admits it. -/
  exec : κ → ℕ → (c : Cmd) → Input → σ → Option (Res c × σ)

namespace Machine

variable {κ σ Cmd : Type} {Res : Cmd → Type} {Input α : Type}

/-- A request that has arrived, with what its branches still have to do. -/
structure Call (κ : Type) (Cmd : Type) (Res : Cmd → Type) (α : Type) where
  request : κ
  rest : List (Prog Cmd Res α)

/-- What the branches of a request that has finished ended with. -/
def Call.results (call : Call κ Cmd Res α) : Option (List α) := call.rest.mapM Prog.result?

/-- A performed command: for which branch of which call, when, and with which result. -/
structure Record (κ : Type) (Cmd : Type) (Res : Cmd → Type) where
  request : κ
  call : ℕ
  branch : ℕ
  time : ℕ
  event : Prog.Event Cmd Res

/-- The state of a machine. -/
structure State (κ σ Cmd : Type) (Res : Cmd → Type) (α : Type) where
  shared : σ
  calls : List (Call κ Cmd Res α)
  log : List (Record κ Cmd Res)

/-- One step of a run. -/
inductive Label (κ Input : Type)
  | arrive (request : κ)
  | perform (call branch time : ℕ) (input : Input)

/-! ### Places in the log -/

section Places

variable {β : Type} {l : List β} {a b : ℕ} {x : β}

/-- A list around one of its elements. -/
theorem eq_append_of_getElem? (h : l[b]? = some x) : l = l.take b ++ x :: l.drop (b + 1) := by
  obtain ⟨hlt, hget⟩ := List.getElem?_eq_some_iff.mp h
  rw [← hget, ← List.drop_eq_getElem_cons hlt, List.take_append_drop]

/-- The elements before a place, split at an earlier one. -/
theorem take_eq_append (l : List β) (hab : a ≤ b) : l.take b = l.take a ++ (l.take b).drop a := by
  conv_lhs => rw [← List.take_append_drop a (l.take b)]
  rw [List.take_take, Nat.min_eq_left hab]

/-- The elements between two places. -/
theorem exists_of_mem_drop_take (h : x ∈ (l.take b).drop a) :
    ∃ k, a ≤ k ∧ k < b ∧ l[k]? = some x := by
  obtain ⟨m, hm⟩ := List.mem_iff_getElem?.mp h
  rw [List.getElem?_drop] at hm
  have hlt : a + m < b := by
    have hlen := (List.getElem?_eq_some_iff.mp hm).1
    rw [List.length_take] at hlen
    omega
  rw [List.getElem?_take_of_lt hlt] at hm
  exact ⟨a + m, Nat.le_add_right a m, hlt, hm⟩

end Places

/-- The events of one branch. -/
def trace (call branch : ℕ) (log : List (Record κ Cmd Res)) : List (Prog.Event Cmd Res) :=
  (log.filter fun r => r.call = call ∧ r.branch = branch).map Record.event

theorem trace_append (call branch : ℕ) (log log' : List (Record κ Cmd Res)) :
    trace call branch (log ++ log') = trace call branch log ++ trace call branch log' := by
  simp [trace]

theorem mem_trace {call branch : ℕ} {log : List (Record κ Cmd Res)} {e : Prog.Event Cmd Res} :
    e ∈ trace call branch log ↔ ∃ r ∈ log, r.call = call ∧ r.branch = branch ∧ r.event = e := by
  simp [trace, and_assoc]

/-- An event of a branch: where it is in the log. -/
theorem exists_of_trace_eq_append {call branch : ℕ} {log : List (Record κ Cmd Res)}
    {t t' : List (Prog.Event Cmd Res)} {e : Prog.Event Cmd Res}
    (h : trace call branch log = t ++ e :: t') :
    ∃ pre r post, log = pre ++ r :: post ∧ r.call = call ∧ r.branch = branch ∧ r.event = e ∧
      trace call branch pre = t ∧ trace call branch post = t' := by
  induction log generalizing t with
  | nil => simp [trace] at h
  | cons r log ih =>
    by_cases hr : r.call = call ∧ r.branch = branch
    -- a command of the branch: the event, or one before it
    · have hcons : trace call branch (r :: log) = r.event :: trace call branch log := by
        simp [trace, hr]
      rw [hcons] at h
      cases t with
      | nil =>
        obtain ⟨he, ht⟩ := List.cons.inj h
        exact ⟨[], r, log, rfl, hr.1, hr.2, he, rfl, ht⟩
      | cons e₀ t =>
        obtain ⟨he₀, ht⟩ := List.cons.inj h
        obtain ⟨pre, r', post, rfl, hc, hb, he, hpre, hpost⟩ := ih ht
        refine ⟨r :: pre, r', post, rfl, hc, hb, he, ?_, hpost⟩
        rw [← he₀, ← hpre]
        simp [trace, hr]
    -- a command of another branch
    · have hskip : ∀ log, trace call branch (r :: log) = trace call branch log := fun log => by
        simp [trace, hr]
      rw [hskip] at h
      obtain ⟨pre, r', post, rfl, hc, hb, he, hpre, hpost⟩ := ih h
      exact ⟨r :: pre, r', post, rfl, hc, hb, he, (hskip pre).trans hpre, hpost⟩

/-- The two commands belong to one branch. -/
def Record.SameBranch (r r' : Record κ Cmd Res) : Prop := r.call = r'.call ∧ r.branch = r'.branch

/-- The command `r'` at `b` is the next one of its branch after the command `r` at `a`. -/
structure Next (log : List (Record κ Cmd Res)) (a b : ℕ) (r r' : Record κ Cmd Res) : Prop where
  first : log[a]? = some r
  second : log[b]? = some r'
  lt : a < b
  same : r.SameBranch r'
  between : ∀ {k r''}, a < k → k < b → log[k]? = some r'' → ¬ r.SameBranch r''

/-- The last event of a branch before a command of it is that of the command it is next to. -/
theorem exists_next_of_getLast? {log : List (Record κ Cmd Res)} {b : ℕ} {r' : Record κ Cmd Res}
    {e : Prog.Event Cmd Res} (hb : log[b]? = some r')
    (h : (trace r'.call r'.branch (log.take b)).getLast? = some e) :
    ∃ a r, Next log a b r r' ∧ r.event = e := by
  obtain ⟨t, ht⟩ := List.getLast?_eq_some_iff.mp h
  obtain ⟨pre, r, post, hlog, hc, hbr, hevent, -, hpost⟩ := exists_of_trace_eq_append ht
  have htake : ∀ {k}, k < b → log[k]? = (pre ++ r :: post)[k]? := fun hk => by
    rw [← hlog, List.getElem?_take_of_lt hk]
  have hlen : pre.length < b := by
    have hle := congrArg List.length hlog
    rw [List.length_take, List.length_append, List.length_cons] at hle
    omega
  refine ⟨pre.length, r, ⟨?_, hb, hlen, ⟨hc, hbr⟩, fun {k r''} hak hkb hk hsame => ?_⟩, hevent⟩
  · rw [htake hlen]
    simp
  · -- what comes after it is not of the branch
    rw [htake hkb, List.getElem?_append_right (Nat.le_of_lt hak)] at hk
    obtain ⟨m, hm⟩ : ∃ m, k - pre.length = m + 1 := ⟨k - pre.length - 1, by omega⟩
    rw [hm, List.getElem?_cons_succ] at hk
    have hmem : r''.event ∈ trace r'.call r'.branch post := mem_trace.mpr
      ⟨r'', List.mem_of_getElem? hk, hsame.1.symm.trans hc, hsame.2.symm.trans hbr, rfl⟩
    rw [hpost] at hmem
    cases hmem

/-- What comes before a next command ends with the command that it is next to. -/
theorem Next.getLast? {log : List (Record κ Cmd Res)} {a b : ℕ} {r r' : Record κ Cmd Res}
    (h : Next log a b r r') :
    (trace r'.call r'.branch (log.take b)).getLast? = some r.event := by
  have ha : (log.take b)[a]? = some r := by rw [List.getElem?_take_of_lt h.lt, h.first]
  -- there is nothing of the branch behind the command
  have hafter : trace r'.call r'.branch ((log.take b).drop (a + 1)) = [] := by
    rw [List.eq_nil_iff_forall_not_mem]
    intro e he
    obtain ⟨r'', hr'', hc, hbr, -⟩ := mem_trace.mp he
    obtain ⟨k, hak, hkb, hk⟩ := exists_of_mem_drop_take hr''
    exact h.between hak hkb hk ⟨h.same.1.trans hc.symm, h.same.2.trans hbr.symm⟩
  have hself : trace r'.call r'.branch [r] = [r.event] := by
    simp [trace, h.same.1, h.same.2]
  rw [eq_append_of_getElem? ha, ← List.singleton_append, trace_append, trace_append, hafter, hself]
  simp

/-- The last command of a branch before a place in the log, if there is one. -/
theorem exists_last {log : List (Record κ Cmd Res)} {a c : ℕ} {r : Record κ Cmd Res}
    (ha : log[a]? = some r) (hac : a < c) :
    ∃ b r', a ≤ b ∧ b < c ∧ log[b]? = some r' ∧ r.SameBranch r' ∧
      (trace r.call r.branch (log.take c)).getLast? = some r'.event := by
  induction c with
  | zero => omega
  | succ c ih =>
    rw [List.take_add_one, trace_append]
    by_cases hlast : ∃ r', log[c]? = some r' ∧ r.SameBranch r'
    -- the place before `c` is the last one of the branch, or the branch stays as it is
    · obtain ⟨r', hr', hsame⟩ := hlast
      refine ⟨c, r', Nat.le_of_lt_succ hac, Nat.lt_succ_self c, hr', hsame, ?_⟩
      simp [trace, hr', hsame.1, hsame.2]
    · have hlt : a < c := by
        refine Nat.lt_of_le_of_ne (Nat.le_of_lt_succ hac) ?_
        rintro rfl
        exact hlast ⟨r, ha, rfl, rfl⟩
      obtain ⟨b, r', hab, hbc, hb, hsame, htrace⟩ := ih hlt
      refine ⟨b, r', hab, Nat.lt_succ_of_lt hbc, hb, hsame, ?_⟩
      have hnil : trace r.call r.branch log[c]?.toList = [] := by
        rw [List.eq_nil_iff_forall_not_mem]
        intro e he
        obtain ⟨r₀, hr₀, hc, hbr, -⟩ := mem_trace.mp he
        exact hlast ⟨r₀, Option.mem_toList.mp hr₀, hc.symm, hbr.symm⟩
      rw [hnil, List.append_nil, htrace]

/-- A command has at most one next command. -/
theorem Next.right_unique {log : List (Record κ Cmd Res)} {a b b' : ℕ}
    {r r' r₁ r₁' : Record κ Cmd Res} (h : Next log a b r r') (h' : Next log a b' r₁ r₁') :
    b = b' := by
  have hr : r = r₁ := Option.some_inj.mp (h.first.symm.trans h'.first)
  subst hr
  rcases Nat.lt_trichotomy b b' with hlt | heq | hgt
  · exact absurd h.same (h'.between h.lt hlt h.second)
  · exact heq
  · exact absurd h'.same (h.between h'.lt hgt h'.second)

/-- Before a later command of its branch, a command has a next one. -/
theorem exists_next {log : List (Record κ Cmd Res)} {a c : ℕ} {r r'' : Record κ Cmd Res}
    (ha : log[a]? = some r) (hc : log[c]? = some r'') (hlt : a < c) (hsame : r.SameBranch r'') :
    ∃ b r', Next log a b r r' ∧ b ≤ c := by
  -- the first place behind `a` with a command of the branch
  classical
  have hex : ∃ k, a < k ∧ ∃ r', log[k]? = some r' ∧ r.SameBranch r' := ⟨c, hlt, r'', hc, hsame⟩
  obtain ⟨hak, r', hr', hsame'⟩ := Nat.find_spec hex
  refine ⟨Nat.find hex, r', ⟨ha, hr', hak, hsame', fun {k r₁} hk hkb hr₁ hs => ?_⟩,
    Nat.find_min' hex ⟨hlt, r'', hc, hsame⟩⟩
  exact Nat.find_min hex hkb ⟨hk, r₁, hr₁, hs⟩

/-- The times of the commands never go back. -/
def Timed (log : List (Record κ Cmd Res)) : Prop := log.Pairwise fun r r' => r.time ≤ r'.time

instance (log : List (Record κ Cmd Res)) : Decidable (Timed log) :=
  inferInstanceAs (Decidable (log.Pairwise _))

/-- A command is no earlier than those before it. -/
theorem Timed.time_le {pre post : List (Record κ Cmd Res)} {r r' : Record κ Cmd Res}
    (h : Timed (pre ++ r :: post)) (hr' : r' ∈ pre) : r'.time ≤ r.time :=
  (List.pairwise_append.mp h).2.2 r' hr' r List.mem_cons_self

variable (m : Machine κ σ Cmd Res Input α)

/-- The state before any request has arrived. -/
def start : State κ σ Cmd Res α := ⟨m.init, [], []⟩

/-- A new request. -/
def arrived (s : State κ σ Cmd Res α) (r : κ) : State κ σ Cmd Res α :=
  { s with calls := s.calls ++ [⟨r, m.branches r⟩] }

/-- The branch `b` of call `i` has performed `c` with result `res`, and goes on with `p`. -/
def performed (s : State κ σ Cmd Res α) (call : Call κ Cmd Res α) (i b now : ℕ) (c : Cmd)
    (res : Res c) (p : Prog Cmd Res α) (shared : σ) : State κ σ Cmd Res α where
  shared := shared
  calls := s.calls.set i { call with rest := call.rest.set b p }
  log := s.log ++ [⟨call.request, i, b, now, ⟨c, res⟩⟩]

/-- One step, if it is possible. -/
def step (s : State κ σ Cmd Res α) : Label κ Input → Option (State κ σ Cmd Res α)
  | .arrive r => if m.ready r s.shared then some (m.arrived s r) else none
  | .perform i b now input =>
    match s.calls[i]? with
    | none => none
    | some call =>
      match call.rest[b]? with
      | some (.call c f) =>
        match m.exec call.request now c input s.shared with
        | some (res, shared) => some (performed s call i b now c res (f res) shared)
        | none => none
      | _ => none

/-- The state after the given steps, if all of them are possible. -/
def run (labels : List (Label κ Input)) : Option (State κ σ Cmd Res α) :=
  labels.foldlM m.step m.start

/-- The states that the machine can get to. -/
inductive Reachable : State κ σ Cmd Res α → Prop
  | start : Reachable m.start
  | arrive {s} {r : κ} : Reachable s → m.ready r s.shared = true → Reachable (m.arrived s r)
  | perform {s call i b now input c f res shared} : Reachable s → s.calls[i]? = some call →
      call.rest[b]? = some (Prog.call c f) →
      m.exec call.request now c input s.shared = some (res, shared) →
      Reachable (performed s call i b now c res (f res) shared)

variable {m} {s s' : State κ σ Cmd Res α}

/-- A step leads from a reachable state to a reachable one. -/
theorem Reachable.step (h : m.Reachable s) {l : Label κ Input} (hs : m.step s l = some s') :
    m.Reachable s' := by
  cases l with
  | arrive r =>
    simp only [Machine.step] at hs
    split at hs
    next hr =>
      cases hs
      exact h.arrive hr
    next => cases hs
  | perform i b now input =>
    simp only [Machine.step] at hs
    split at hs
    next => cases hs
    next call hcall =>
      split at hs
      next c f hrest =>
        split at hs
        next res shared hexec =>
          cases hs
          exact h.perform hcall hrest hexec
        next => cases hs
      next => cases hs

theorem Reachable.foldlM (h : m.Reachable s) {labels : List (Label κ Input)}
    (hs : labels.foldlM m.step s = some s') : m.Reachable s' := by
  induction labels generalizing s with
  | nil =>
    cases hs
    exact h
  | cons l labels ih =>
    rw [List.foldlM_cons] at hs
    obtain ⟨s₁, hs₁, hs⟩ := Option.bind_eq_some_iff.mp hs
    exact ih (h.step hs₁) hs

/-- What a run gets to is reachable. -/
theorem reachable_of_run {labels : List (Label κ Input)} (h : m.run labels = some s) :
    m.Reachable s :=
  Reachable.start.foldlM h

theorem reachable_get {labels : List (Label κ Input)} (h : (m.run labels).isSome) :
    m.Reachable ((m.run labels).get h) :=
  reachable_of_run (Option.some_get h).symm

/-! ### Requests that are let in -/

variable {g : κ → σ → Bool}

theorem run_concat_eq_some_iff {labels : List (Label κ Input)} {l : Label κ Input} :
    m.run (labels ++ [l]) = some s' ↔ ∃ s, m.run labels = some s ∧ m.step s l = some s' :=
  History.run_concat_eq_some_iff

/-- Each branch has performed its part of the log, and every logged command belongs to a call. -/
structure Tracks (m : Machine κ σ Cmd Res Input α) (s : State κ σ Cmd Res α) : Prop where
  length : ∀ {i : ℕ} {call : Call κ Cmd Res α}, s.calls[i]? = some call →
    call.rest.length = (m.branches call.request).length
  steps : ∀ {i b : ℕ} {call : Call κ Cmd Res α} {p : Prog Cmd Res α},
    s.calls[i]? = some call → call.rest[b]? = some p →
    ∃ p₀, (m.branches call.request)[b]? = some p₀ ∧ p₀.Steps (trace i b s.log) p
  logged : ∀ {r}, r ∈ s.log → ∃ call, s.calls[r.call]? = some call ∧ call.request = r.request

/-- A call that has not arrived has logged nothing. -/
theorem Tracks.trace_eq_nil (h : m.Tracks s) {i : ℕ} (hi : s.calls[i]? = none) (b : ℕ) :
    trace i b s.log = [] := by
  rw [trace, List.map_eq_nil_iff, List.filter_eq_nil_iff]
  intro r hr hmatch
  obtain ⟨call, hcall, -⟩ := h.logged hr
  have hri : r.call = i := by simpa using (of_decide_eq_true hmatch).1
  rw [hri, hi] at hcall
  cases hcall

/-- A request that arrives has performed nothing. -/
theorem Tracks.arrived (h : m.Tracks s) (r : κ) : m.Tracks (m.arrived s r) := by
  constructor
  case length =>
    intro i call hcall
    simp only [Machine.arrived, List.getElem?_append] at hcall
    split at hcall
    next => exact h.length hcall
    next =>
      obtain rfl := List.mem_singleton.mp (List.mem_of_getElem? hcall)
      rfl
  case steps =>
    intro i b call p hcall hp
    simp only [Machine.arrived, List.getElem?_append] at hcall
    split at hcall
    next => exact h.steps hcall hp
    next hi =>
      obtain rfl := List.mem_singleton.mp (List.mem_of_getElem? hcall)
      -- the new call has no trace yet
      have hnone : s.calls[i]? = none := List.getElem?_eq_none (Nat.le_of_not_lt hi)
      refine ⟨p, hp, ?_⟩
      rw [Machine.arrived, h.trace_eq_nil hnone]
      exact Prog.Steps.refl p
  case logged =>
    intro r' hr'
    obtain ⟨call, hcall, hreq⟩ := h.logged hr'
    refine ⟨call, ?_, hreq⟩
    rw [Machine.arrived, List.getElem?_append_left (List.getElem?_eq_some_iff.mp hcall).1]
    exact hcall

/-- A command takes its branch one step further, and no other branch. -/
theorem Tracks.performed (h : m.Tracks s) {call : Call κ Cmd Res α} {i b : ℕ} {c : Cmd}
    {f : Res c → Prog Cmd Res α} (hcall : s.calls[i]? = some call)
    (hrest : call.rest[b]? = some (Prog.call c f)) (now : ℕ) (res : Res c) (shared : σ) :
    m.Tracks (performed s call i b now c res (f res) shared) := by
  have hi : i < s.calls.length := (List.getElem?_eq_some_iff.mp hcall).1
  have hb : b < call.rest.length := (List.getElem?_eq_some_iff.mp hrest).1
  have hset : ∀ j, (Machine.performed s call i b now c res (f res) shared).calls[j]? =
      if i = j then some { call with rest := call.rest.set b (f res) } else s.calls[j]? := by
    intro j
    simp only [Machine.performed, List.getElem?_set, hi, if_true]
  constructor
  case length =>
    intro j call' hcall'
    rw [hset] at hcall'
    split at hcall'
    next =>
      cases hcall'
      simpa using h.length hcall
    next => exact h.length hcall'
  case steps =>
    intro j b' call' p hcall' hp
    have htrace : trace j b' (Machine.performed s call i b now c res (f res) shared).log =
        trace j b' s.log ++ if i = j ∧ b = b' then [⟨c, res⟩] else [] := by
      rw [Machine.performed, trace_append]
      refine congrArg _ ?_
      by_cases hj : i = j ∧ b = b' <;> simp [trace, hj]
    rw [htrace]
    rw [hset] at hcall'
    split at hcall'
    next hij =>
      cases hcall'
      subst hij
      simp only [List.getElem?_set, hb, if_true] at hp
      split at hp
      next hbb =>
        -- the branch that performed the command
        subst hbb
        cases hp
        obtain ⟨p₀, hp₀, hsteps⟩ := h.steps hcall hrest
        exact ⟨p₀, hp₀, by simpa using hsteps.snoc res⟩
      next hbb => simpa [hbb] using h.steps hcall hp
    next hij => simpa [hij] using h.steps hcall' hp
  case logged =>
    intro r hr
    rcases List.mem_append.mp hr with hr | hr
    · obtain ⟨call', hcall', hreq⟩ := h.logged hr
      rw [hset]
      split
      next hij =>
        rw [← hij, hcall] at hcall'
        cases hcall'
        exact ⟨_, rfl, hreq⟩
      next => exact ⟨call', hcall', hreq⟩
    · obtain rfl := List.mem_singleton.mp hr
      rw [hset]
      exact ⟨_, if_pos rfl, rfl⟩

theorem Reachable.tracks (h : m.Reachable s) : m.Tracks s := by
  induction h with
  | start => constructor <;> simp [Machine.start]
  | arrive _ _ ih => exact ih.arrived _
  | perform _ hcall hrest _ ih => exact ih.performed hcall hrest _ _ _

/-- A logged command belongs to the request of its call. -/
theorem Tracks.request_eq (h : m.Tracks s) {r : Record κ Cmd Res} (hr : r ∈ s.log)
    {call : Call κ Cmd Res α} (hcall : s.calls[r.call]? = some call) :
    r.request = call.request := by
  obtain ⟨call', hcall', hreq⟩ := h.logged hr
  rw [hcall] at hcall'
  cases hcall'
  exact hreq.symm

/-- The commands of a call belong to one request. -/
theorem Tracks.request_inj (h : m.Tracks s) {r r' : Record κ Cmd Res} (hr : r ∈ s.log)
    (hr' : r' ∈ s.log) (hcall : r.call = r'.call) : r.request = r'.request := by
  obtain ⟨call, hc, hreq⟩ := h.logged hr
  rw [← hreq]
  exact (h.request_eq hr' (hcall ▸ hc)).symm

/-- A logged command was performed in a reachable state whose log is what comes before it. -/
theorem Reachable.exists_perform (h : m.Reachable s) {pre post : List (Record κ Cmd Res)}
    {r : Record κ Cmd Res} (hlog : s.log = pre ++ r :: post) :
    ∃ s₀ call input f shared, m.Reachable s₀ ∧ s₀.log = pre ∧ s₀.calls[r.call]? = some call ∧
      call.request = r.request ∧ call.rest[r.branch]? = some (Prog.call r.event.1 f) ∧
      m.exec r.request r.time r.event.1 input s₀.shared = some (r.event.2, shared) := by
  induction h generalizing post with
  | start => simp [Machine.start] at hlog
  | arrive _ _ ih => exact ih hlog
  | @perform s call i b now input c f res shared hs hcall hrest hexec ih =>
    -- the command that was just performed, or an earlier one
    rcases History.concat_eq_append_cons_iff.mp hlog with ⟨rfl, rfl, -⟩ | ⟨post', -, hlog'⟩
    · exact ⟨s, call, input, f, shared, hs, rfl, hcall, rfl, hrest, hexec⟩
    · exact ih hlog'

/-- What always holds of the single branches of a request, holds of each of its logged commands. -/
theorem Reachable.always_getElem? (h : m.Reachable s)
    {P : κ → ℕ → List (Prog.Event Cmd Res) → Prog.Event Cmd Res → Prop}
    (hP : ∀ r b (p : Prog Cmd Res α), (m.branches r)[b]? = some p → p.Always (P r b))
    {pre post : List (Record κ Cmd Res)} {r : Record κ Cmd Res} (hlog : s.log = pre ++ r :: post) :
    P r.request r.branch (trace r.call r.branch pre) r.event := by
  obtain ⟨s₀, call, input, f, shared, hs₀, rfl, hcall, hreq, hrest, -⟩ := h.exists_perform hlog
  obtain ⟨p₀, hp₀, hsteps⟩ := hs₀.tracks.steps hcall hrest
  rw [hreq] at hp₀
  exact (hP _ _ p₀ hp₀).of_steps (hsteps.snoc r.event.2)

/-- What always holds of the branches of a request, holds of each of its logged commands. -/
theorem Reachable.always (h : m.Reachable s)
    {P : κ → List (Prog.Event Cmd Res) → Prog.Event Cmd Res → Prop}
    (hP : ∀ r, ∀ p ∈ m.branches r, p.Always (P r)) {pre post : List (Record κ Cmd Res)}
    {r : Record κ Cmd Res} (hlog : s.log = pre ++ r :: post) :
    P r.request (trace r.call r.branch pre) r.event :=
  h.always_getElem? (P := fun r _ => P r)
    (fun r _ p hp => hP r p (List.mem_of_getElem? hp)) hlog

/-- When a command changes the shared state as `g` says, the shared state is what the log makes of
the initial one. -/
theorem Reachable.shared_eq_foldl (h : m.Reachable s) {g : σ → Record κ Cmd Res → σ}
    (hexec : ∀ {r now c input x res x'} (i b : ℕ), m.exec r now c input x = some (res, x') →
      x' = g x ⟨r, i, b, now, ⟨c, res⟩⟩) : s.shared = s.log.foldl g m.init := by
  induction h with
  | start => rfl
  | arrive _ _ ih => exact ih
  | perform _ _ _ hex ih =>
    rw [performed, List.foldl_append, ← ih]
    exact hexec _ _ hex

/-- What holds of a request when it arrives, and is kept by every command, holds of every call. -/
theorem Reachable.of_mem_calls (h : m.Reachable s) {P : κ → σ → Prop}
    (hready : ∀ {r x}, m.ready r x = true → P r x)
    (hexec : ∀ {r r' now c input x res x'}, m.exec r' now c input x = some (res, x') →
      P r x → P r x') {call : Call κ Cmd Res α} (hcall : call ∈ s.calls) :
    P call.request s.shared := by
  induction h generalizing call with
  | start => cases hcall
  | arrive _ hr ih =>
    rcases List.mem_append.mp hcall with hcall | hcall
    · exact ih hcall
    · obtain rfl := List.mem_singleton.mp hcall
      exact hready hr
  | @perform s call' i b now input c f res shared _ hcall' _ hex ih =>
    rcases List.mem_or_eq_of_mem_set hcall with hcall | rfl
    · exact hexec hex (ih hcall)
    · have hold := ih (List.mem_of_getElem? hcall')
      exact hexec hex hold

/-! ### Requests of one branch -/

/-- A logged command belongs to the only branch of its request. -/
theorem Reachable.branch_eq_zero (h : m.Reachable s) {p : κ → Prog Cmd Res α}
    (hbranches : ∀ r, m.branches r = [p r]) {r : Record κ Cmd Res} (hr : r ∈ s.log) :
    r.branch = 0 := by
  obtain ⟨pre, post, hlog⟩ := List.append_of_mem hr
  refine h.always_getElem? (P := fun _ b _ _ => b = 0) ?_ hlog
  intro r b p' hp'
  rw [hbranches] at hp'
  cases b with
  | zero => exact .of_forall (fun _ _ => rfl) p'
  | succ b => cases hp'

/-- What always holds of the only branch of a request, holds of each of its logged commands. -/
theorem Reachable.always_single (h : m.Reachable s) {p : κ → Prog Cmd Res α}
    (hbranches : ∀ r, m.branches r = [p r])
    {P : κ → List (Prog.Event Cmd Res) → Prog.Event Cmd Res → Prop}
    (hP : ∀ r, (p r).Always (P r)) {pre post : List (Record κ Cmd Res)} {r : Record κ Cmd Res}
    (hlog : s.log = pre ++ r :: post) : P r.request (trace r.call 0 pre) r.event := by
  have hzero := h.branch_eq_zero hbranches (r := r) (by simp [hlog])
  rw [← hzero]
  refine h.always ?_ hlog
  intro r p' hp'
  rw [hbranches, List.mem_singleton] at hp'
  exact hp' ▸ hP r

/-- The events of the only branch are all those of the call. -/
theorem Reachable.mem_trace_single (h : m.Reachable s) {p : κ → Prog Cmd Res α}
    (hbranches : ∀ r, m.branches r = [p r]) {log : List (Record κ Cmd Res)} (hlog : log ⊆ s.log)
    {i : ℕ} {e : Prog.Event Cmd Res} :
    e ∈ trace i 0 log ↔ ∃ r ∈ log, r.call = i ∧ r.event = e := by
  rw [mem_trace]
  refine exists_congr fun r => and_congr_right fun hr => and_congr_right fun _ => ?_
  simp [h.branch_eq_zero hbranches (hlog hr)]

/-- Whether a call has done such a thing, its only branch knows. -/
theorem Reachable.exists_event_iff (h : m.Reachable s) {p : κ → Prog Cmd Res α}
    (hbranches : ∀ r, m.branches r = [p r]) {i : ℕ} {P : Prog.Event Cmd Res → Prop} :
    (∃ r ∈ s.log, r.call = i ∧ P r.event) ↔ ∃ e ∈ trace i 0 s.log, P e := by
  simp only [h.mem_trace_single hbranches (List.Subset.refl _)]
  constructor
  · rintro ⟨r, hr, hcall, hP⟩
    exact ⟨r.event, ⟨r, hr, hcall, rfl⟩, hP⟩
  · rintro ⟨_, ⟨r, hr, hcall, rfl⟩, hP⟩
    exact ⟨r, hr, hcall, hP⟩

/-- What the branch of a finished call has returned. -/
theorem Reachable.returns_of_results (h : m.Reachable s) {i : ℕ} {call : Call κ Cmd Res α}
    (hcall : s.calls[i]? = some call) {p₀ : Prog Cmd Res α}
    (hbranches : m.branches call.request = [p₀]) {a : α} (hresults : call.results = some [a]) :
    p₀.Returns (trace i 0 s.log) a := by
  have hlength := h.tracks.length hcall
  rw [hbranches] at hlength
  obtain ⟨p, hp⟩ := List.length_eq_one_iff.mp hlength
  obtain ⟨p₀', hp₀', hsteps⟩ := h.tracks.steps hcall (show call.rest[0]? = some p by rw [hp]; rfl)
  obtain rfl : p₀ = p₀' := by simpa [hbranches] using hp₀'
  rw [Call.results, hp] at hresults
  cases p with
  | pure a' =>
    obtain rfl : a' = a := by simpa [Prog.result?] using hresults
    exact hsteps
  | call c f => simp [Prog.result?] at hresults

end Machine
