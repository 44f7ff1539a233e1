import Mathlib.Data.List.DropRight
import Mathlib.Logic.Function.Basic
import Pincerbell.Gateway
import Pincerbell.Message
import Pincerbell.Support.History

/-!
# The provider token of APNs

`ApnsApp` caches the signed token that authorizes its requests. `bearer_token` and `deliver` take
the lock of the cache for each look at it: to read it, to store a token that was just signed, and to
discard it after a 403. The module has these steps, for any number of deliveries interleaved in any
way. What the signer yields and what APNs answers comes from outside.

* `State`, `Label`, `step` — the system. Its log says what the calls have done to the cache.
* `lastWrite`, `cacheOf` — the last change that a part of the log makes, and the token that it
  leaves.
* `Tracked` — the invariant: the cache is what the log says, and a call that has a token found it in
  the cache or put it there.
* `discards_iff_lastStored` — what a call discards, by the last change since it got its token.
* `discardsOwn_iff` — the runs in which a 403 discards only the token that it is about.
* `not_discardsRefused` — a run in which a late 403 discards a token that APNs has never refused.
-/

namespace Pincerbell.ApnsToken

/-! ### The system -/

/-- Apple: reuse a provider token for 20-60 minutes. -/
def tokenMaxAge : Duration := fromSecs (45 * 60)

structure CachedToken where
  bearer : String
  issued : Instant
  deriving DecidableEq, Repr

/-- Where a call of `deliver` is. -/
inductive Call
  /-- Not called. -/
  | idle
  /-- At the first look at the cache. -/
  | started
  /-- There is no token in the cache, or it is too old. -/
  | missed
  /-- A new token is signed, but not stored. -/
  | signed (bearer : String)
  /-- `bearer_token` has returned. -/
  | authorized (bearer : String)
  /-- The request is under way. -/
  | sent (bearer : String)
  /-- APNs has answered, or could not be reached. -/
  | answered (bearer : String) (response : Except String Response)
  | returned (outcome : Outcome)

/-- What a call has done to the cache, or learned from APNs. -/
inductive Event
  /-- It found the token in the cache. -/
  | found (call : ℕ) (bearer : String)
  /-- It stored a new token. -/
  | stored (call : ℕ) (bearer : String)
  /-- Its request carried the token, and the answer was a 403. -/
  | refused (call : ℕ) (bearer : String)
  /-- It discarded what was in the cache. -/
  | cleared (call : ℕ)
  deriving DecidableEq, Repr

/-- The cache and all the calls. -/
structure State where
  token : Option CachedToken := none
  calls : ℕ → Call := fun _ => .idle
  /-- What has happened so far, oldest first. -/
  log : List Event := []

/-- The atomic steps of a call. -/
inductive Label
  | deliver (call : ℕ)
  /-- The first look at the cache, under the lock. -/
  | read (call : ℕ) (now : Instant)
  | sign (call : ℕ) (result : Except String String)
  /-- The new token goes into the cache, under the lock. -/
  | store (call : ℕ) (now : Instant)
  | send (call : ℕ)
  | answer (call : ℕ) (response : Except String Response)
  /-- The answer is evaluated, which takes the lock for a 403. -/
  | settle (call : ℕ)

/-- Whether an answer makes `deliver` discard the cached token. -/
def forbids (response : Except String Response) : Bool :=
  match response with
  | .ok resp => resp.status = 403
  | .error _ => false

/-- What `deliver` returns after an answer. -/
def outcomeOf (bearer : String) (response : Except String Response) : Outcome :=
  ApnsApp.deliver { credential := .ok bearer, rng := .ok (), encrypted := .ok [], response }

/-- Move one call, and log what it has done. -/
def State.move (s : State) (call : ℕ) (pc : Call) (events : List Event) : State :=
  { s with calls := Function.update s.calls call pc, log := s.log ++ events }

/-- One atomic step, if it is possible. -/
def step (s : State) : Label → Option State
  | .deliver call =>
    match s.calls call with
    | .idle => some (s.move call .started [])
    | _ => none
  | .read call now =>
    match s.calls call with
    | .started =>
      match s.token with
      | some t =>
        if now - t.issued < tokenMaxAge then
          some (s.move call (.authorized t.bearer) [.found call t.bearer])
        else some (s.move call .missed [])
      | none => some (s.move call .missed [])
    | _ => none
  | .sign call result =>
    match s.calls call with
    | .missed =>
      match result with
      | .ok bearer => some (s.move call (.signed bearer) [])
      | .error e => some (s.move call (.returned (.transient ("signing provider token: " ++ e))) [])
    | _ => none
  | .store call now =>
    match s.calls call with
    | .signed bearer =>
      some ({ s with token := some ⟨bearer, now⟩ }.move call (.authorized bearer)
        [.stored call bearer])
    | _ => none
  | .send call =>
    match s.calls call with
    | .authorized bearer => some (s.move call (.sent bearer) [])
    | _ => none
  | .answer call response =>
    match s.calls call with
    | .sent bearer =>
      some (s.move call (.answered bearer response) <|
        if forbids response then [.refused call bearer] else [])
    | _ => none
  | .settle call =>
    match s.calls call with
    | .answered bearer response =>
      let pc := .returned (outcomeOf bearer response)
      if forbids response then
        -- so that the retry signs a fresh one
        some ({ s with token := none }.move call pc [.cleared call])
      else some (s.move call pc [])
    | _ => none

/-- The state after a list of steps from the start, if they are possible. -/
def run (labels : List Label) : Option State := History.run step {} labels

variable {s s' : State} {l : Label} {labels : List Label} {log events : List Event} {call : ℕ}
  {bearer : String}

/-! ### The log -/

/-- With this event the call gets its token. -/
def Event.acquires (call : ℕ) : Event → Bool
  | .found call' _ => call' = call
  | .stored call' _ => call' = call
  | _ => false

/-- What the event puts into the cache, if it changes it. -/
def Event.write? : Event → Option (Option String)
  | .stored _ bearer => some (some bearer)
  | .cleared _ => some none
  | _ => none

/-- The last change that the events make to the cache. -/
def lastWrite (events : List Event) : Option (Option String) :=
  (events.filterMap Event.write?).getLast?

/-- The token in the cache after the events. -/
def cacheOf (log : List Event) : Option String := (lastWrite log).join

/-- What has happened since the call got its token. -/
def since (call : ℕ) (log : List Event) : List Event := log.rtakeWhile fun e => !e.acquires call

/-- What more events make of the cache. -/
theorem cacheOf_append (log events : List Event) :
    cacheOf (log ++ events) = (lastWrite events).getD (cacheOf log) := by
  rw [cacheOf, lastWrite, List.filterMap_append, List.getLast?_append, ← lastWrite, ← lastWrite]
  cases lastWrite events with
  | none => rfl
  | some w => rfl

/-- The events that do not change the cache. -/
theorem lastWrite_eq_none (h : ∀ e ∈ events, e.write? = none) : lastWrite events = none := by
  rw [lastWrite, List.getLast?_eq_none_iff, List.filterMap_eq_nil_iff]
  exact h

/-- Events with which the call gets no token come after it got the one that it has. -/
theorem since_append (h : ∀ e ∈ events, e.acquires call = false) :
    since call (log ++ events) = since call log ++ events := by
  induction events using List.reverseRecOn with
  | nil => simp
  | append_singleton events e ih =>
    have he : (!e.acquires call) = true := by simp [h e (by simp)]
    have hrest := ih fun e' he' => h e' (List.mem_append_left _ he')
    rw [since] at hrest ⊢
    rw [← List.append_assoc, List.rtakeWhile_concat_pos (fun e => !e.acquires call) _ e he, hrest,
      List.append_assoc]

/-! ### One step -/

/-- The token that a call holds. -/
def Call.bearer? : Call → Option String
  | .authorized bearer => some bearer
  | .sent bearer => some bearer
  | .answered bearer _ => some bearer
  | _ => none

/-- The request of the call carried the token, and was answered with a 403. -/
def Call.Refused (pc : Call) (bearer : String) : Prop :=
  ∃ response, pc = .answered bearer response ∧ forbids response = true

/-- What a step can do: it finds the cached token, stores a new one, discards what is cached, or
does neither, and then gives its call no token that it did not have and logs a refusal. -/
inductive Effect (s : State) : State → Prop
  | found {call : ℕ} {t : CachedToken} (htoken : s.token = some t) :
    Effect s (s.move call (.authorized t.bearer) [.found call t.bearer])
  | stored (call : ℕ) (bearer : String) (now : Instant) :
    Effect s ({ s with token := some ⟨bearer, now⟩ }.move call (.authorized bearer)
      [.stored call bearer])
  | cleared {call : ℕ} {pc : Call} (hpc : pc.bearer? = none) :
    Effect s ({ s with token := none }.move call pc [.cleared call])
  | quiet {call : ℕ} {pc : Call} {events : List Event}
    (hpc : ∀ bearer, pc.bearer? = some bearer → (s.calls call).bearer? = some bearer)
    (hevents : ∀ e ∈ events, ∃ bearer, e = .refused call bearer)
    (hrefused : ∀ bearer, pc.Refused bearer → .refused call bearer ∈ events) :
    Effect s (s.move call pc events)

/-- A step that logs nothing. -/
theorem Effect.of_silent {pc : Call}
    (hpc : ∀ bearer, pc.bearer? = some bearer → (s.calls call).bearer? = some bearer)
    (hrefused : ∀ bearer, ¬ pc.Refused bearer) : Effect s (s.move call pc []) :=
  .quiet hpc (by simp) (by simp [hrefused])

/-- Every step has one of these effects. -/
theorem effect_of_step (hstep : step s l = some s') : Effect s s' := by
  -- each step asks where its call is, and is not possible elsewhere
  cases l with
  | deliver call =>
    simp only [step] at hstep
    split at hstep
    next =>
      cases hstep
      exact .of_silent (by simp [Call.bearer?]) (by simp [Call.Refused])
    next => cases hstep
  | read call now =>
    simp only [step] at hstep
    split at hstep
    next =>
      split at hstep
      next t htoken =>
        split at hstep
        next =>
          cases hstep
          exact .found htoken
        next =>
          cases hstep
          exact .of_silent (by simp [Call.bearer?]) (by simp [Call.Refused])
      next =>
        cases hstep
        exact .of_silent (by simp [Call.bearer?]) (by simp [Call.Refused])
    next => cases hstep
  | sign call result =>
    simp only [step] at hstep
    split at hstep
    next =>
      split at hstep <;> cases hstep <;>
        exact .of_silent (by simp [Call.bearer?]) (by simp [Call.Refused])
    next => cases hstep
  | store call now =>
    simp only [step] at hstep
    split at hstep
    next bearer hpc =>
      cases hstep
      exact .stored call bearer now
    next => cases hstep
  | send call =>
    simp only [step] at hstep
    split at hstep
    next bearer hpc =>
      cases hstep
      exact .of_silent (by simp [Call.bearer?, hpc]) (by simp [Call.Refused])
    next => cases hstep
  | answer call response =>
    simp only [step] at hstep
    split at hstep
    next bearer hpc =>
      cases hstep
      refine .quiet (by simp [Call.bearer?, hpc]) ?_ ?_
      · split <;> simp
      · rintro bearer' ⟨response', heq, hforbids⟩
        cases heq
        simp [hforbids]
    next => cases hstep
  | settle call =>
    simp only [step] at hstep
    split at hstep
    next bearer response hpc =>
      split at hstep
      next =>
        cases hstep
        exact .cleared rfl
      next =>
        cases hstep
        exact .of_silent (by simp [Call.bearer?]) (by simp [Call.Refused])
    next => cases hstep

/-! ### The invariant -/

/-- The call got this token, from the cache or for the cache, and `since` is what came after. -/
def Acquired (log : List Event) (call : ℕ) (bearer : String) : Prop :=
  ∃ pre, log = pre ++ since call log ∧ cacheOf pre = some bearer

/-- The cache is what the log says, every call that holds a token has acquired it, and every
refusal is logged. -/
structure Tracked (s : State) : Prop where
  token : s.token.map CachedToken.bearer = cacheOf s.log
  acquired : ∀ call bearer, (s.calls call).bearer? = some bearer → Acquired s.log call bearer
  refused : ∀ call bearer, (s.calls call).Refused bearer → .refused call bearer ∈ s.log

/-- Later events of others, and those with which the call gets no token, leave it at that. -/
theorem Acquired.append (h : Acquired log call bearer)
    (hevents : ∀ e ∈ events, e.acquires call = false) : Acquired (log ++ events) call bearer := by
  obtain ⟨pre, hlog, hcache⟩ := h
  refine ⟨pre, ?_, hcache⟩
  rw [since_append hevents, ← List.append_assoc, ← hlog]

/-- With an acquiring event the call has what is then in the cache. -/
theorem Acquired.of_acquires {e : Event} (he : e.acquires call = true)
    (hcache : cacheOf (log ++ [e]) = some bearer) : Acquired (log ++ [e]) call bearer := by
  refine ⟨log ++ [e], ?_, hcache⟩
  rw [since, List.rtakeWhile_concat_neg (fun e => !e.acquires call) _ e (by simp [he]),
    List.append_nil]

/-- After a call has moved, it holds its new token, and the others hold what they held. -/
theorem bearer?_move {pc : Call} {call' : ℕ}
    (h : ((s.move call pc events).calls call').bearer? = some bearer) :
    call' = call ∧ pc.bearer? = some bearer ∨
      call' ≠ call ∧ (s.calls call').bearer? = some bearer := by
  rw [State.move] at h
  by_cases hself : call' = call
  · subst hself
    left
    exact ⟨rfl, by simpa using h⟩
  · right
    exact ⟨hself, by simpa [hself] using h⟩

/-- A refusal that is logged when its call moves, stays logged. -/
theorem refused_move {pc : Call}
    (h : ∀ call bearer, (s.calls call).Refused bearer → .refused call bearer ∈ s.log)
    (hpc : ∀ bearer, pc.Refused bearer → .refused call bearer ∈ events)
    {call' : ℕ} (hrefused : ((s.move call pc events).calls call').Refused bearer) :
    .refused call' bearer ∈ s.log ++ events := by
  rw [State.move] at hrefused
  by_cases hself : call' = call
  · subst hself
    exact List.mem_append_right _ (hpc bearer (by simpa using hrefused))
  · exact List.mem_append_left _ (h call' bearer (by simpa [hself] using hrefused))

/-- A call that acquires what the cache then contains is tracked, and so are the others. -/
theorem Tracked.acquire (h : Tracked s) {token : Option CachedToken} {e : Event}
    (hself : e.acquires call = true) (hothers : ∀ call', call' ≠ call → e.acquires call' = false)
    (htoken : token.map CachedToken.bearer = some bearer)
    (hcache : cacheOf (s.log ++ [e]) = some bearer) :
    Tracked ({ s with token }.move call (.authorized bearer) [e]) := by
  constructor
  case token => exact htoken.trans hcache.symm
  case acquired =>
    intro call' bearer' hbearer
    rcases bearer?_move hbearer with ⟨rfl, hpc⟩ | ⟨hne, hother⟩
    · obtain rfl : bearer = bearer' := Option.some_inj.mp hpc
      exact .of_acquires hself hcache
    · apply (h.acquired call' bearer' hother).append
      simpa using hothers call' hne
  case refused =>
    intro call' bearer' hrefused
    exact refused_move (s := { s with token }) h.refused (by simp [Call.Refused]) hrefused

/-- Where no call gets a token that it did not have, it is enough that the cache is what the log
says. -/
theorem Tracked.keep (h : Tracked s) {token : Option CachedToken} {pc : Call}
    (hevents : ∀ e ∈ events, ∀ call', e.acquires call' = false)
    (hpc : ∀ bearer, pc.bearer? = some bearer → (s.calls call).bearer? = some bearer)
    (hrefused : ∀ bearer, pc.Refused bearer → .refused call bearer ∈ events)
    (htoken : token.map CachedToken.bearer = cacheOf (s.log ++ events)) :
    Tracked ({ s with token }.move call pc events) := by
  constructor
  case token => exact htoken
  case acquired =>
    intro call' bearer hbearer
    have hbefore : (s.calls call').bearer? = some bearer := by
      rcases bearer?_move hbearer with ⟨rfl, hpc'⟩ | ⟨-, hother⟩
      · exact hpc bearer hpc'
      · exact hother
    apply (h.acquired call' bearer hbefore).append
    intro e he
    exact hevents e he call'
  case refused =>
    intro call' bearer hrefused'
    exact refused_move (s := { s with token }) h.refused hrefused hrefused'

/-- A step keeps the invariant. -/
theorem Tracked.step (h : Tracked s) (hstep : ApnsToken.step s l = some s') : Tracked s' := by
  cases effect_of_step hstep with
  | @found call t htoken =>
    have hbearer : s.token.map CachedToken.bearer = some t.bearer := by
      rw [htoken]
      rfl
    have hcache : cacheOf (s.log ++ [.found call t.bearer]) = some t.bearer := by
      rw [cacheOf_append, ← h.token, hbearer]
      rfl
    apply h.acquire (by simp [Event.acquires]) _ hbearer hcache
    intro call' hne
    simp [Event.acquires, hne.symm]
  | stored call bearer now =>
    have hcache : cacheOf (s.log ++ [.stored call bearer]) = some bearer := by
      rw [cacheOf_append]
      rfl
    apply h.acquire (by simp [Event.acquires]) _ rfl hcache
    intro call' hne
    simp [Event.acquires, hne.symm]
  | @cleared call pc hpc =>
    have hnot : ∀ bearer, ¬ pc.Refused bearer := by
      rintro bearer ⟨response, rfl, -⟩
      cases hpc
    apply h.keep (by simp [Event.acquires]) (by simp [hpc]) (by simp [hnot])
    rw [cacheOf_append]
    rfl
  | @quiet call pc events hpc hevents hrefused =>
    -- a refusal neither gives a call its token nor changes the cache
    have hquiet : ∀ e ∈ events, ∀ call', e.acquires call' = false ∧ e.write? = none := by
      intro e he call'
      obtain ⟨bearer, rfl⟩ := hevents e he
      exact ⟨rfl, rfl⟩
    apply h.keep (fun e he call' => (hquiet e he call').1) hpc hrefused
    rw [cacheOf_append, lastWrite_eq_none fun e he => (hquiet e he 0).2]
    exact h.token

/-- Every state of a run is tracked by its log. -/
theorem tracked_of_run (hrun : run labels = some s) : Tracked s := by
  refine History.run_induction (P := fun _ s => Tracked s)
    ⟨rfl, by simp [Call.bearer?], by simp [Call.Refused]⟩ ?_ hrun
  intro labels s l s' h hstep
  exact h.step hstep

/-! ### What a 403 discards -/

/-- Each time a call discards what is in the cache, after a 403 to a request with the token
`bearer`, `P` holds of the log, of this token and of the one that is discarded. -/
def Discards (P : List Event → String → String → Prop) (labels : List Label) : Prop :=
  ∀ pre call post s bearer, labels = pre ++ .settle call :: post → run pre = some s →
    (s.calls call).Refused bearer → ∀ t, s.token = some t → P s.log bearer t.bearer

/-- Each time a call discards what is in the cache, `P` holds of the token of the last change to the
cache since the call got its own, if that was the storing of a token. -/
def LastStored (P : List Event → String → String → Prop) (labels : List Label) : Prop :=
  ∀ pre call post s bearer, labels = pre ++ .settle call :: post → run pre = some s →
    (s.calls call).Refused bearer → ∀ bearer',
      lastWrite (since call s.log) = some (some bearer') → P s.log bearer bearer'

/-- The token is the one that the refused request carried. -/
def Own (_ : List Event) (bearer bearer' : String) : Prop := bearer' = bearer

/-- Some request that carried the token has been refused. -/
def EverRefused (log : List Event) (_ bearer' : String) : Prop :=
  ∃ call, .refused call bearer' ∈ log

/-- What a call finds in the cache when it discards it: its own token, unless the cache has changed
since. -/
theorem token_of_refused (hrun : run labels = some s) (hrefused : (s.calls call).Refused bearer) :
    s.token.map CachedToken.bearer = (lastWrite (since call s.log)).getD (some bearer) := by
  have htracked := tracked_of_run hrun
  obtain ⟨response, hpc, -⟩ := hrefused
  obtain ⟨pre, hlog, hcache⟩ := htracked.acquired call bearer (by rw [hpc]; rfl)
  rw [htracked.token, ← hcache, ← cacheOf_append, ← hlog]

/-- What holds of the call's own token holds of what it discards, exactly when it holds of the last
token that was stored since, where nothing was discarded after that. -/
theorem discards_iff_lastStored {P : List Event → String → String → Prop}
    (hself : ∀ {labels s call bearer}, run labels = some s → (s.calls call).Refused bearer →
      P s.log bearer bearer) : Discards P labels ↔ LastStored P labels := by
  constructor
  · intro h pre call post s bearer hlabels hrun hrefused bearer' hwrite
    have htoken := token_of_refused hrun hrefused
    rw [hwrite, Option.getD_some, Option.map_eq_some_iff] at htoken
    obtain ⟨t, ht, rfl⟩ := htoken
    exact h pre call post s bearer hlabels hrun hrefused t ht
  · intro h pre call post s bearer hlabels hrun hrefused t ht
    have htoken := token_of_refused hrun hrefused
    rw [ht, Option.map_some] at htoken
    cases hwrite : lastWrite (since call s.log) with
    | none =>
      -- the cache has not changed since the call got its token
      rw [hwrite] at htoken
      obtain rfl : t.bearer = bearer := Option.some_inj.mp htoken
      exact hself hrun hrefused
    | some w =>
      rw [hwrite, Option.getD_some] at htoken
      apply h pre call post s bearer hlabels hrun hrefused
      rw [hwrite, htoken]

/-- In every run, a 403 discards only the token that it is about, exactly when at each discard the
last change to the cache since the call got its token was not the storing of another one; and it
discards only tokens that have been refused, exactly when it was not the storing of one that has
not. -/
theorem discardsOwn_iff (labels : List Label) :
    (Discards Own labels ↔ LastStored Own labels) ∧
      (Discards EverRefused labels ↔ LastStored EverRefused labels) := by
  constructor
  · exact discards_iff_lastStored fun _ _ => rfl
  · apply discards_iff_lastStored
    intro labels s call bearer hrun hrefused
    exact ⟨call, (tracked_of_run hrun).refused call bearer hrefused⟩

/-! ### A late 403 -/

/-- Two deliveries use one token. The 403 of the first discards it, a third delivery signs a new
one, and then the 403 of the second comes in. -/
def lateAnswer : List Label :=
  let forbidden : Except String Response := .ok ⟨403, .ok "ExpiredProviderToken"⟩
  [.deliver 0, .read 0 0, .sign 0 (.ok "old"), .store 0 0, .send 0, .deliver 1, .read 1 1, .send 1,
    .answer 0 forbidden, .settle 0, .deliver 2, .read 2 2, .sign 2 (.ok "new"), .store 2 2,
    .answer 1 forbidden]

/-- The second 403 discards a token that no request has carried yet. -/
theorem not_discardsRefused : ¬ Discards EverRefused (lateAnswer ++ [.settle 1]) := by
  intro h
  have hrun : (run lateAnswer).map (fun s => (s.calls 1, s.token, s.log)) =
      some (.answered "old" (.ok ⟨403, .ok "ExpiredProviderToken"⟩), some ⟨"new", 2⟩,
        [.stored 0 "old", .found 1 "old", .refused 0 "old", .cleared 0, .stored 2 "new",
          .refused 1 "old"]) := rfl
  obtain ⟨s, hs, heq⟩ := Option.map_eq_some_iff.mp hrun
  simp only [Prod.mk.injEq] at heq
  obtain ⟨hpc, htoken, hlog⟩ := heq
  obtain ⟨call', hmem⟩ := h lateAnswer 1 [] s "old" rfl hs ⟨_, hpc, rfl⟩ _ htoken
  rw [hlog] at hmem
  simp at hmem

end Pincerbell.ApnsToken
