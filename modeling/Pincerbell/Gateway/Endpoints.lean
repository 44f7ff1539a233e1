import Pincerbell.Gateway.Device

/-!
# The endpoints of the queue side

Which steps `queuePoll` and `queueAck` consist of. They deliver nothing, so they are linked like
any other pipeline.

* `PollStep`, `always_pollStep_queuePoll` — a response answers with what was taken.
* `AckStep`, `always_ackStep_queueAck` — the entries are settled first, then the reports recorded.
-/

namespace Pincerbell

open Prog (Event Always Returns Chained)

/-- The steps of the endpoint for polls. -/
inductive PollStep (t : List (Event Cmd Cmd.Res)) : Cmd → Prop
  | takeAt {max} : PollStep t (.takeAt max)
  | respond {max entries} : ⟨.takeAt max, entries⟩ ∈ t → PollStep t (.respond entries)

theorem PollStep.mono {t t' : List (Event Cmd Cmd.Res)} {c : Cmd} (h : PollStep t c)
    (hsub : t ⊆ t') : PollStep t' c := by
  cases h with
  | takeAt => exact .takeAt
  | respond hmem => exact .respond (hsub hmem)

theorem always_pollStep_pollWait (max wakeups : ℕ) :
    (pollWait max wakeups).Always fun t e => PollStep t e.1 := by
  induction wakeups with
  | zero =>
    simp only [pollWait, Prog.perform, Prog.always_call]
    exact fun _ => ⟨.takeAt, trivial⟩
  | succ wakeups ih =>
    simp only [pollWait, Prog.perform_bind, Prog.always_call]
    refine fun batch => ⟨.takeAt, ?_⟩
    split
    · exact ih.mono fun t e he => he.mono (List.subset_cons_self _ _)
    · exact Prog.always_pure

/-- The wait returns what was taken. -/
theorem mem_of_returns_pollWait {max wakeups : ℕ} {t : List (Event Cmd Cmd.Res)}
    {entries : List PollEntry} (h : (pollWait max wakeups).Returns t entries) :
    ⟨.takeAt max, entries⟩ ∈ t := by
  induction wakeups generalizing t with
  | zero =>
    obtain ⟨batch, t', rfl, hend⟩ := Prog.returns_call_iff.mp h
    obtain ⟨-, rfl⟩ := Prog.returns_pure_iff.mp hend
    exact List.mem_cons_self
  | succ wakeups ih =>
    rw [pollWait, Prog.perform_bind] at h
    obtain ⟨batch, t', rfl, hend⟩ := Prog.returns_call_iff.mp h
    split at hend
    · exact List.mem_cons_of_mem _ (ih hend)
    · obtain ⟨-, rfl⟩ := Prog.returns_pure_iff.mp hend
      exact List.mem_cons_self

theorem always_pollStep_queuePoll (req : PollRequest) (wakeups : ℕ) :
    (queuePoll req wakeups).Always fun t e => PollStep t e.1 := by
  refine (always_pollStep_pollWait _ wakeups).bind fun t entries hret => ?_
  simp only [Prog.perform, Prog.always_call]
  exact fun _ => ⟨.respond (List.mem_append_left _ (mem_of_returns_pollWait hret)), trivial⟩

/-- The steps of the endpoint for acks. -/
inductive AckStep (req : AckRequest) (t : List (Event Cmd Cmd.Res)) : Cmd → Prop
  | ack : t = [] → AckStep req t (.ack req.acked)
  | report {r} : r ∈ req.rejectedPushkeys → AckStep req t (.reportRejected r.appId r.pushkey)

theorem always_ackStep_queueAck (req : AckRequest) :
    (queueAck req).Always fun t e => AckStep req t e.1 := by
  have hreports : ∀ rs ⊆ req.rejectedPushkeys, (reportAll rs).Always
      fun _ e => ∃ r ∈ req.rejectedPushkeys, e.1 = .reportRejected r.appId r.pushkey := by
    intro rs
    induction rs with
    | nil => exact fun _ => Prog.always_pure
    | cons r rs ih =>
      intro hsub
      obtain ⟨hr, hrs⟩ := List.cons_subset.mp hsub
      simp only [reportAll, Prog.perform_bind, Prog.always_call]
      exact fun _ => ⟨⟨r, hr, rfl⟩, ih hrs⟩
  simp only [queueAck, Prog.perform_bind, Prog.always_call]
  refine fun _ => ⟨.ack rfl, (hreports _ (List.Subset.refl _)).mono fun t e he => ?_⟩
  obtain ⟨r, hr, heq⟩ := he
  rw [heq]
  exact .report hr

/-! ### They deliver nothing -/

variable {crates : Crates} {last : Option (Event Cmd Cmd.Res)}

/-- A pipeline without attempts and records is linked. -/
theorem chained_of_other {α : Type} {p : Pipeline α} (hlast : Quiet crates last)
    (h : p.Always fun _ e => attemptOf e = none ∧ ∀ key, e ≠ recordOf key) :
    p.Chained (Linked crates) (Quiet crates) last := by
  refine h.chained (fun last e hlast he => ⟨Linked.of_other hlast he.1 he.2, ?_⟩) hlast
  rw [quiet_some]
  by_contra hs
  obtain ⟨key, hkey⟩ := Option.ne_none_iff_exists'.mp hs
  rw [attemptOf_of_successOf hkey] at he
  cases he.1

theorem chained_queuePoll {req : PollRequest} {wakeups : ℕ} (hlast : Quiet crates last) :
    (queuePoll req wakeups).Chained (Linked crates) (Quiet crates) last := by
  refine chained_of_other hlast ((always_pollStep_queuePoll req wakeups).mono ?_)
  rintro t ⟨c, r⟩ he
  cases he <;> exact ⟨rfl, by rintro _ ⟨⟩⟩

theorem chained_queueAck {req : AckRequest} (hlast : Quiet crates last) :
    (queueAck req).Chained (Linked crates) (Quiet crates) last := by
  refine chained_of_other hlast ((always_ackStep_queueAck req).mono ?_)
  rintro t ⟨c, r⟩ he
  cases he <;> exact ⟨rfl, by rintro _ ⟨⟩⟩

end Pincerbell
