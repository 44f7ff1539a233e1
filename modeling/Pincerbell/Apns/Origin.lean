import Pincerbell.Apns.Token

/-!
# Where a provider token comes from

Apple accepts a provider token for an hour. In any interleaving of deliveries, the token that a
request carries was signed for the app and put into the cache, by the delivery itself or by another
one, and in the second case it was younger than 45 minutes when the delivery found it, and had been
neither replaced nor discarded since it was stored. What a delivery returns depends on the answer to
its own request only.

* `Move`, `move_of_step` — what each step requires and does.
* `Kept` — the cache is left as it is.
* `Origin`, `Provenance` — who has signed and stored a token, and the invariant.
* `send_issued` — where the token of a request comes from.
* `returned_iff` — what a delivery returns.
-/

namespace Pincerbell.ApnsToken

variable {s s' : State} {l : Label} {labels pre mid post : List Label} {call : ℕ} {bearer : String}
  {t : CachedToken}

/-! ### One step -/

/-- A step moves a call and leaves a token in the cache. -/
inductive Move (s : State) : Label → ℕ → Option CachedToken → Call → Prop
  | deliver {call : ℕ} (hpc : s.calls call = .idle) :
    Move s (.deliver call) call s.token .started
  | found {call : ℕ} {now : Instant} {t : CachedToken} (hpc : s.calls call = .started)
    (htoken : s.token = some t) (hage : now - t.issued < tokenMaxAge) :
    Move s (.read call now) call s.token (.authorized t.bearer)
  | missed {call : ℕ} {now : Instant} (hpc : s.calls call = .started) :
    Move s (.read call now) call s.token .missed
  | signed {call : ℕ} {bearer : String} (hpc : s.calls call = .missed) :
    Move s (.sign call (.ok bearer)) call s.token (.signed bearer)
  | failed {call : ℕ} {e : String} (hpc : s.calls call = .missed) :
    Move s (.sign call (.error e)) call s.token
      (.returned (.transient ("signing provider token: " ++ e)))
  | stored {call : ℕ} {now : Instant} {bearer : String} (hpc : s.calls call = .signed bearer) :
    Move s (.store call now) call (some ⟨bearer, now⟩) (.authorized bearer)
  | sent {call : ℕ} {bearer : String} (hpc : s.calls call = .authorized bearer) :
    Move s (.send call) call s.token (.sent bearer)
  | answered {call : ℕ} {bearer : String} {response : Except String Response}
    (hpc : s.calls call = .sent bearer) :
    Move s (.answer call response) call s.token (.answered bearer response)
  | cleared {call : ℕ} {bearer : String} {response : Except String Response}
    (hpc : s.calls call = .answered bearer response) (hforbids : forbids response = true) :
    Move s (.settle call) call none (.returned (outcomeOf bearer response))
  | settled {call : ℕ} {bearer : String} {response : Except String Response}
    (hpc : s.calls call = .answered bearer response) (hforbids : forbids response = false) :
    Move s (.settle call) call s.token (.returned (outcomeOf bearer response))

/-- Every step is one of these. -/
theorem move_of_step (hstep : step s l = some s') : ∃ call pc, Move s l call s'.token pc ∧
    s'.calls = Function.update s.calls call pc := by
  cases l with
  | deliver call =>
    simp only [step] at hstep
    split at hstep
    next hpc =>
      cases hstep
      exact ⟨call, _, .deliver hpc, rfl⟩
    next => cases hstep
  | read call now =>
    simp only [step] at hstep
    split at hstep
    next hpc =>
      split at hstep
      next t htoken =>
        split at hstep
        next hage =>
          cases hstep
          exact ⟨call, _, .found hpc htoken hage, rfl⟩
        next =>
          cases hstep
          exact ⟨call, _, .missed hpc, rfl⟩
      next =>
        cases hstep
        exact ⟨call, _, .missed hpc, rfl⟩
    next => cases hstep
  | sign call result =>
    simp only [step] at hstep
    split at hstep
    next hpc =>
      split at hstep
      next bearer =>
        cases hstep
        exact ⟨call, _, .signed hpc, rfl⟩
      next e =>
        cases hstep
        exact ⟨call, _, .failed hpc, rfl⟩
    next => cases hstep
  | store call now =>
    simp only [step] at hstep
    split at hstep
    next bearer hpc =>
      cases hstep
      exact ⟨call, _, .stored hpc, rfl⟩
    next => cases hstep
  | send call =>
    simp only [step] at hstep
    split at hstep
    next bearer hpc =>
      cases hstep
      exact ⟨call, _, .sent hpc, rfl⟩
    next => cases hstep
  | answer call response =>
    simp only [step] at hstep
    split at hstep
    next bearer hpc =>
      cases hstep
      exact ⟨call, _, .answered hpc, rfl⟩
    next => cases hstep
  | settle call =>
    simp only [step] at hstep
    split at hstep
    next bearer response hpc =>
      split at hstep
      next hforbids =>
        cases hstep
        exact ⟨call, _, .cleared hpc hforbids, rfl⟩
      next hforbids =>
        cases hstep
        exact ⟨call, _, .settled hpc (by simpa using hforbids), rfl⟩
    next => cases hstep

/-! ### The cache -/

/-- After the steps `pre`, the steps `mid` neither store a token nor discard one. -/
def Kept (pre mid : List Label) : Prop :=
  ∀ mid₁ l mid₂, mid = mid₁ ++ l :: mid₂ → (∀ call now, l ≠ .store call now) ∧
    ∀ call s bearer, l = .settle call → run (pre ++ mid₁) = some s →
      ¬ (s.calls call).Refused bearer

theorem Kept.nil (pre : List Label) : Kept pre [] := by
  intro mid₁ l mid₂ heq
  simp at heq

theorem Kept.concat (h : Kept pre mid) (hstore : ∀ call now, l ≠ .store call now)
    (hsettle : ∀ call s bearer, l = .settle call → run (pre ++ mid) = some s →
      ¬ (s.calls call).Refused bearer) : Kept pre (mid ++ [l]) :=
  History.forall_splits_concat.mpr ⟨h, hstore, hsettle⟩

/-- Some call has signed the token and has stored it, and there it has been since. -/
def Stored (labels : List Label) (t : CachedToken) : Prop :=
  ∃ pre call mid, labels = pre ++ .store call t.issued :: mid ∧ .sign call (.ok t.bearer) ∈ pre ∧
    Kept (pre ++ [.store call t.issued]) mid

/-- A step that does not change the cache. -/
theorem Stored.concat (h : Stored labels t) (hstore : ∀ call now, l ≠ .store call now)
    (hsettle : ∀ call s bearer, l = .settle call → run labels = some s →
      ¬ (s.calls call).Refused bearer) : Stored (labels ++ [l]) t := by
  obtain ⟨pre, call, mid, rfl, hsign, hkept⟩ := h
  refine ⟨pre, call, mid ++ [l], by simp, hsign, hkept.concat hstore ?_⟩
  rwa [List.append_assoc, List.singleton_append]

/-- Where the token of a call comes from: the call has signed and stored it itself, or has found it
in the cache when it was not too old. -/
inductive Origin (labels : List Label) (call : ℕ) (bearer : String) : Prop
  | own (pre post : List Label) (now : Instant) : labels = pre ++ .store call now :: post →
    .sign call (.ok bearer) ∈ pre → Origin labels call bearer
  | cached (pre post : List Label) (t : CachedToken) (now : Instant) : t.bearer = bearer →
    labels = pre ++ .read call now :: post → Stored pre t → now - t.issued < tokenMaxAge →
      Origin labels call bearer

theorem Origin.append (h : Origin labels call bearer) (labels' : List Label) :
    Origin (labels ++ labels') call bearer := by
  cases h with
  | own pre post now heq hsign => exact .own pre (post ++ labels') now (by simp [heq]) hsign
  | cached pre post t now hbearer heq hstored hage =>
    exact .cached pre (post ++ labels') t now hbearer (by simp [heq]) hstored hage

/-! ### The invariant -/

/-- The tokens of a state come from where they should. -/
structure Provenance (labels : List Label) (s : State) : Prop where
  token : ∀ t, s.token = some t → Stored labels t
  signed : ∀ call bearer, s.calls call = .signed bearer → .sign call (.ok bearer) ∈ labels
  bearer : ∀ call bearer, (s.calls call).bearer? = some bearer → Origin labels call bearer

/-- A step that brings its call no token of unknown origin. -/
theorem Provenance.move (h : Provenance labels s) {pc : Call}
    (hcalls : s'.calls = Function.update s.calls call pc)
    (htoken : ∀ t, s'.token = some t → Stored (labels ++ [l]) t)
    (hsigned : ∀ bearer, pc = .signed bearer → .sign call (.ok bearer) ∈ labels ++ [l])
    (hbearer : ∀ bearer, pc.bearer? = some bearer → Origin (labels ++ [l]) call bearer) :
    Provenance (labels ++ [l]) s' where
  token := htoken
  signed call' bearer hpc := by
    rw [hcalls, Function.update_apply] at hpc
    split at hpc
    next hself =>
      rw [hself]
      exact hsigned bearer hpc
    next => exact List.mem_append_left _ (h.signed call' bearer hpc)
  bearer call' bearer hpc := by
    rw [hcalls, Function.update_apply] at hpc
    split at hpc
    next hself =>
      rw [hself]
      exact hbearer bearer hpc
    next => exact (h.bearer call' bearer hpc).append [l]

/-- A step that leaves the cache alone. -/
theorem Provenance.keep (h : Provenance labels s) (hstore : ∀ call now, l ≠ .store call now)
    (hsettle : ∀ call s bearer, l = .settle call → run labels = some s →
      ¬ (s.calls call).Refused bearer) (t : CachedToken) (ht : s.token = some t) :
    Stored (labels ++ [l]) t :=
  (h.token t ht).concat hstore hsettle

/-- A step keeps the invariant. -/
theorem Provenance.step (h : Provenance labels s) (hrun : run labels = some s)
    (hstep : ApnsToken.step s l = some s') : Provenance (labels ++ [l]) s' := by
  obtain ⟨call, pc, hmove, hcalls⟩ := move_of_step hstep
  generalize hnew : s'.token = token at hmove
  cases hmove with
  | deliver hpc | missed hpc | failed hpc =>
    refine h.move hcalls ?_ (by simp) (by simp [Call.bearer?])
    rw [hnew]
    exact h.keep (by simp) (by simp)
  | @found call now t hpc htoken hage =>
    refine h.move hcalls ?_ (by simp) ?_
    · rw [hnew]
      exact h.keep (by simp) (by simp)
    · rintro bearer hbearer
      obtain rfl := Option.some_inj.mp hbearer
      exact .cached labels [] t now rfl rfl (h.token t htoken) hage
  | @signed call bearer hpc =>
    refine h.move hcalls ?_ ?_ (by simp [Call.bearer?])
    · rw [hnew]
      exact h.keep (by simp) (by simp)
    · rintro bearer' ⟨⟩
      simp
  | @stored call now bearer hpc =>
    have hsign := h.signed call bearer hpc
    refine h.move hcalls ?_ (by simp) ?_
    · rintro t ht
      obtain rfl := Option.some_inj.mp (hnew.symm.trans ht)
      exact ⟨labels, call, [], rfl, hsign, .nil _⟩
    · rintro bearer' hbearer
      obtain rfl := Option.some_inj.mp hbearer
      exact .own labels [] now rfl hsign
  | @sent call bearer hpc | @answered call bearer response hpc =>
    refine h.move hcalls ?_ (by simp) ?_
    · rw [hnew]
      exact h.keep (by simp) (by simp)
    · rintro bearer' hbearer
      refine (h.bearer call bearer' ?_).append _
      rw [hpc]
      exact hbearer
  | cleared hpc hforbids =>
    refine h.move hcalls ?_ (by simp) (by simp [Call.bearer?])
    simp [hnew]
  | settled hpc hforbids =>
    refine h.move hcalls ?_ (by simp) (by simp [Call.bearer?])
    rw [hnew]
    refine h.keep (by simp) ?_
    -- the call has not been refused
    rintro call' s₁ bearer' ⟨⟩ hrun₁ ⟨response', hpc', hforbids'⟩
    obtain rfl := Option.some_inj.mp (hrun.symm.trans hrun₁)
    cases hpc.symm.trans hpc'
    rw [hforbids] at hforbids'
    cases hforbids'

theorem provenance_of_run (hrun : run labels = some s) : Provenance labels s := by
  suffices h : run labels = some s ∧ Provenance labels s from h.2
  refine History.run_induction (P := fun labels s => run labels = some s ∧ Provenance labels s)
    ⟨rfl, ⟨by simp, by simp, by simp [Call.bearer?]⟩⟩ ?_ hrun
  rintro labels s l s' ⟨hrun, h⟩ hstep
  exact ⟨History.run_concat_eq_some_iff.mpr ⟨s, hrun, hstep⟩, h.step hrun hstep⟩

/-- In any interleaving, the bearer token of each request was signed and stored by the call itself,
or it was stored by another call that had signed it, was neither replaced nor discarded until the
call found it, and was younger than `tokenMaxAge` then. -/
theorem send_issued (labels pre post : List Label) (s : State) (call : ℕ)
    (hrun : run labels = some s) (hlabels : labels = pre ++ .send call :: post) :
    ∃ s₀ bearer, run pre = some s₀ ∧ s₀.calls call = .authorized bearer ∧
      Origin pre call bearer := by
  rw [hlabels, run, List.append_cons, History.run_append_eq_some_iff] at hrun
  obtain ⟨s₁, hpre, -⟩ := hrun
  obtain ⟨s₀, hrun₀, hstep⟩ := History.run_concat_eq_some_iff.mp hpre
  obtain ⟨call', pc, hmove, -⟩ := move_of_step hstep
  generalize s₁.token = token at hmove
  cases hmove with
  | @sent call bearer hpc =>
    exact ⟨s₀, bearer, hrun₀, hpc, (provenance_of_run hrun₀).bearer call bearer (by rw [hpc]; rfl)⟩

/-- The second delivery finds the token that the first one has signed and stored. -/
def shared : List Label :=
  [.deliver 0, .read 0 0, .sign 0 (.ok "tok"), .store 0 1, .deliver 1,
    .read 1 (tokenMaxAge - fromSecs 1), .send 1, .answer 1 (.ok ⟨410, .ok "Unregistered"⟩),
    .settle 1]

theorem send_issued_shared : ∃ s₀ bearer, run (shared.take 6) = some s₀ ∧
    s₀.calls 1 = .authorized bearer ∧ Origin (shared.take 6) 1 bearer := by
  have hsome : (run shared).isSome = true := by decide
  exact send_issued shared (shared.take 6) (shared.drop 7) _ 1 (Option.some_get hsome).symm rfl

/-! ### What a delivery returns -/

/-- What the place of a call says about the answer to its request. -/
def Call.Told (labels : List Label) (call : ℕ) : Call → Prop
  | .answered _ response => ∀ response', .answer call response' ∈ labels ↔ response' = response
  | .returned outcome =>
    (∃ e, outcome = .transient e ∧ ∀ response, .answer call response ∉ labels) ∨
      ∃ bearer response, outcome = outcomeOf bearer response ∧
        ∀ response', .answer call response' ∈ labels ↔ response' = response
  | _ => ∀ response, .answer call response ∉ labels

/-- Steps that do not answer the call leave it at that. -/
theorem Call.Told.append {pc : Call} (h : pc.Told labels call)
    (hl : ∀ response, l ≠ .answer call response) : pc.Told (labels ++ [l]) call := by
  have hmem : ∀ response,
      .answer call response ∈ labels ++ [l] ↔ .answer call response ∈ labels := by
    intro response
    simp [Ne.symm (hl response)]
  cases pc <;> simpa only [Told, hmem] using h

/-- In every run, the calls have been told what their places say. -/
theorem told_of_run (hrun : run labels = some s) (call : ℕ) : (s.calls call).Told labels call := by
  refine History.run_induction (P := fun labels s => ∀ call, (s.calls call).Told labels call)
    (by simp [Call.Told]) ?_ hrun call
  intro labels s l s' ih hstep call
  obtain ⟨call', pc, hmove, hcalls⟩ := move_of_step hstep
  rw [hcalls, Function.update_apply]
  generalize s'.token = token at hmove
  split
  next hself =>
    subst hself
    have hbefore := ih call
    cases hmove with
    | answered hpc =>
      rw [hpc] at hbefore
      intro response'
      simp [show ∀ response, .answer call response ∉ labels from hbefore]
    | cleared hpc hforbids | settled hpc hforbids =>
      rw [hpc] at hbefore
      refine Call.Told.append (Or.inr ⟨_, _, rfl, hbefore⟩) (by simp)
    | failed hpc =>
      rw [hpc] at hbefore
      exact Call.Told.append (Or.inl ⟨_, rfl, hbefore⟩) (by simp)
    | deliver hpc | found hpc | missed hpc | signed hpc | stored hpc | sent hpc =>
      rw [hpc] at hbefore
      exact (show Call.started.Told labels call from hbefore).append (by simp)
  next hother =>
    refine (ih call).append ?_
    rintro response rfl
    cases hmove
    exact hother rfl

/-- In any interleaving, a delivery that has returned was accepted exactly when its own request
ended with a success, and is rejected exactly when it ended with 410 and `Unregistered`; no other
call, and nothing that happens to the token, makes it either. The response that a request ends with
is that of APNs, or of the last host that redirects have led to. -/
theorem returned_iff (labels : List Label) (s : State) (call : ℕ) (outcome : Outcome)
    (hrun : run labels = some s) (hreturned : s.calls call = .returned outcome) :
    (outcome = .delivered ↔
      ∃ resp, .answer call (.ok resp) ∈ labels ∧ resp.isSuccess = true) ∧
    (outcome = .rejected ↔ ∃ resp, .answer call (.ok resp) ∈ labels ∧ resp.status = 410 ∧
      contains resp.text "Unregistered" = true) := by
  have htold := told_of_run hrun call
  rw [hreturned] at htold
  rcases htold with ⟨e, rfl, hnone⟩ | ⟨bearer, response, rfl, hanswer⟩
  · simp [hnone]
  · have hended : ∀ resp, .answer call (.ok resp) ∈ labels ↔ response = .ok resp :=
      fun resp => (hanswer _).trans eq_comm
    simp [hended, outcomeOf, Provider.apns_deliver_eq_delivered_iff,
      Provider.apns_deliver_eq_rejected_iff]

theorem returned_iff_shared : ∃ s, run shared = some s ∧ s.calls 1 = .returned .rejected ∧
    (Outcome.rejected = .rejected ↔ ∃ resp, .answer 1 (.ok resp) ∈ shared ∧ resp.status = 410 ∧
      contains resp.text "Unregistered" = true) := by
  have hreturned : (run shared).map (fun s => s.calls 1) = some (.returned .rejected) := by rfl
  obtain ⟨s, hrun, hpc⟩ := Option.map_eq_some_iff.mp hreturned
  exact ⟨s, hrun, hpc, (returned_iff shared s 1 .rejected hrun hpc).2⟩

end Pincerbell.ApnsToken
