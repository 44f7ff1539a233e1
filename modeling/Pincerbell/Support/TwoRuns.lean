import Mathlib.Data.List.Forall2
import Pincerbell.Support.Machine

/-!
# Two runs of a machine

Two runs with the same interleaving, whose requests differ only in what a relation allows. When
related requests consist of related programs, and related commands do the same to the shared state,
the two runs go through the same shared states.

* `Prog.Akin C` — programs that perform commands related by `C`, as long as they get the same
  results.
* `Machine.Indifferent K C` — requests related by `K` are served by similar programs, and a command
  does the same for each of them.
* `Machine.Alike K C` — states that differ only in what `K` and `C` relate.
* `Indifferent.run` — the run lemma: from related labels to states that are alike.
-/

namespace Prog

variable {Cmd : Type} {Res : Cmd → Type} {α β : Type} {C : Cmd → Cmd → Prop}

/-- Related commands, and similar continuations for the same result. -/
inductive Akin (C : Cmd → Cmd → Prop) : Prog Cmd Res α → Prog Cmd Res α → Prop
  | pure (a : α) : Akin C (pure a) (pure a)
  | call {c c' : Cmd} {f : Res c → Prog Cmd Res α} {f' : Res c' → Prog Cmd Res α} (hc : C c c')
      (hf : ∀ r r', r ≍ r' → Akin C (f r) (f' r')) : Akin C (call c f) (call c' f')

variable {p p' : Prog Cmd Res α}

/-- A program is similar to itself. -/
theorem Akin.refl (hC : ∀ c, C c c) (p : Prog Cmd Res α) : Akin C p p := by
  induction p with
  | pure a => exact .pure a
  | call c f ih =>
    refine .call (hC c) fun r r' heq => ?_
    obtain rfl := eq_of_heq heq
    exact ih r

/-- One similar program after another. -/
theorem Akin.bind {k k' : α → Prog Cmd Res β} (h : Akin C p p')
    (hk : ∀ a, Akin C (k a) (k' a)) : Akin C (p >>= k) (p' >>= k') := by
  induction h with
  | pure a => exact hk a
  | call hc _ ih => exact .call hc fun r r' heq => ih r r' heq

theorem Akin.map (h : Akin C p p') (g : α → β) : Akin C (g <$> p) (g <$> p') :=
  h.bind fun a => .pure (g a)

theorem Akin.result?_eq (h : Akin C p p') : p.result? = p'.result? := by
  cases h with
  | pure a => rfl
  | call hc hf => rfl

/-- Marking the commands of similar programs. -/
theorem Akin.tag {τ : Type} (x : τ) (h : Akin C p p') :
    Akin (fun c c' => c.1 = c'.1 ∧ C c.2 c'.2) (p.tag x) (p'.tag x) := by
  induction h with
  | pure a => exact .pure a
  | call hc _ ih => exact .call ⟨rfl, hc⟩ fun r r' heq => ih r r' heq

end Prog

/-! ### Lists -/

section Lists

variable {α β : Type} {R : α → β → Prop} {as : List α} {bs : List β} {i : ℕ}

theorem List.Forall₂.exists_getElem? (h : List.Forall₂ R as bs) {a : α} (ha : as[i]? = some a) :
    ∃ b, bs[i]? = some b ∧ R a b := by
  induction h generalizing i with
  | nil => simp at ha
  | cons hab _ ih =>
    cases i with
    | zero =>
      obtain rfl := Option.some_inj.mp ha
      exact ⟨_, rfl, hab⟩
    | succ i => exact ih ha

theorem List.Forall₂.set (h : List.Forall₂ R as bs) (i : ℕ) {a : α} {b : β} (hab : R a b) :
    List.Forall₂ R (as.set i a) (bs.set i b) := by
  induction h generalizing i with
  | nil => exact .nil
  | cons hcd hrest ih =>
    cases i with
    | zero => exact .cons hab hrest
    | succ i => exact .cons hcd (ih i)

end Lists

/-! ### Machines -/

namespace Machine

variable {κ σ Cmd : Type} {Res : Cmd → Type} {Input α : Type}

open Prog (Akin)

/-- Related requests arrive in the same states, are served by similar programs, and a command has
the same result and the same effect for each of them. -/
structure Indifferent (m : Machine κ σ Cmd Res Input α) (K : κ → κ → Prop)
    (C : Cmd → Cmd → Prop) : Prop where
  ready : ∀ {r r' s}, K r r' → m.ready r s = m.ready r' s
  branches : ∀ {r r'}, K r r' → List.Forall₂ (Akin C) (m.branches r) (m.branches r')
  exec : ∀ {r r' now c c' input s res s'}, K r r' → C c c' →
    m.exec r now c input s = some (res, s') →
    ∃ res', m.exec r' now c' input s = some (res', s') ∧ res ≍ res'

/-- Labels that differ in related requests. -/
inductive Label.Alike (K : κ → κ → Prop) : Label κ Input → Label κ Input → Prop
  | arrive {r r' : κ} (hr : K r r') : Alike K (.arrive r) (.arrive r')
  | perform (call branch time : ℕ) (input : Input) :
      Alike K (.perform call branch time input) (.perform call branch time input)

/-- Calls of related requests, as far as each other. -/
structure Call.Alike (K : κ → κ → Prop) (C : Cmd → Cmd → Prop) (call call' : Call κ Cmd Res α) :
    Prop where
  request : K call.request call'.request
  rest : List.Forall₂ (Akin C) call.rest call'.rest

/-- States with the same shared part, and calls that are alike. -/
structure Alike (K : κ → κ → Prop) (C : Cmd → Cmd → Prop) (s s' : State κ σ Cmd Res α) : Prop where
  shared : s.shared = s'.shared
  calls : List.Forall₂ (Call.Alike K C) s.calls s'.calls

variable {m : Machine κ σ Cmd Res Input α} {K : κ → κ → Prop} {C : Cmd → Cmd → Prop}
  {s s' t : State κ σ Cmd Res α} {l l' : Label κ Input}

/-- Calls that are alike have finished with the same results, or both have not. -/
theorem Call.Alike.results_eq {call call' : Call κ Cmd Res α} (h : Call.Alike K C call call') :
    call.results = call'.results := by
  obtain ⟨r, rest⟩ := call
  obtain ⟨r', rest'⟩ := call'
  have hrest : List.Forall₂ (Akin C) rest rest' := h.rest
  show rest.mapM Prog.result? = rest'.mapM Prog.result?
  clear h
  induction hrest with
  | nil => rfl
  | cons hp _ ih => rw [List.mapM_cons, List.mapM_cons, hp.result?_eq, ih]

/-- A step of one run is matched by a step of the other. -/
theorem Indifferent.step (h : m.Indifferent K C) (hs : Alike K C s s') (hl : l.Alike K l')
    (hstep : m.step s l = some t) : ∃ t', m.step s' l' = some t' ∧ Alike K C t t' := by
  cases hl with
  | arrive hr =>
    simp only [Machine.step] at hstep
    split at hstep
    next hready =>
      cases hstep
      rw [h.ready hr, hs.shared] at hready
      -- the request arrives in both runs, and its branches are akin
      refine ⟨m.arrived s' _, by rw [Machine.step, if_pos hready], hs.shared, ?_⟩
      exact List.rel_append hs.calls (.cons ⟨hr, h.branches hr⟩ .nil)
    next => cases hstep
  | perform i b now input =>
    simp only [Machine.step] at hstep
    split at hstep
    next => cases hstep
    next call hcall =>
      obtain ⟨call', hcall', halike⟩ := hs.calls.exists_getElem? hcall
      split at hstep
      next c f hrest =>
        obtain ⟨p', hrest', hakin⟩ := halike.rest.exists_getElem? hrest
        split at hstep
        next res shared hexec =>
          cases hstep
          -- the other branch is at a related command, which has the same result
          cases hakin with
          | @call c c' f f' hc hf =>
            rw [hs.shared] at hexec
            obtain ⟨res', hexec', heq⟩ := h.exec halike.request hc hexec
            refine ⟨performed s' call' i b now c' res' (f' res') shared, ?_, rfl, ?_⟩
            · rw [Machine.step, hcall']
              simp only [hrest', hexec']
            · exact hs.calls.set i ⟨halike.request, halike.rest.set b (hf _ _ heq)⟩
        next => cases hstep
      next => cases hstep

theorem Indifferent.foldlM (h : m.Indifferent K C) {labels labels' : List (Label κ Input)}
    (hl : List.Forall₂ (Label.Alike K) labels labels') (hs : Alike K C s s')
    (hrun : labels.foldlM m.step s = some t) :
    ∃ t', labels'.foldlM m.step s' = some t' ∧ Alike K C t t' := by
  induction hl generalizing s s' with
  | nil =>
    cases hrun
    exact ⟨s', rfl, hs⟩
  | cons hlabel _ ih =>
    rw [List.foldlM_cons] at hrun
    obtain ⟨s₁, hs₁, hrun⟩ := Option.bind_eq_some_iff.mp hrun
    obtain ⟨s₁', hs₁', halike⟩ := h.step hs hlabel hs₁
    obtain ⟨t', ht', halike⟩ := ih halike hrun
    refine ⟨t', ?_, halike⟩
    rw [List.foldlM_cons, hs₁']
    exact ht'

/-- A run is matched by the run with alike labels. -/
theorem Indifferent.run (h : m.Indifferent K C) {labels labels' : List (Label κ Input)}
    (hl : List.Forall₂ (Label.Alike K) labels labels') (hrun : m.run labels = some t) :
    ∃ t', m.run labels' = some t' ∧ Alike K C t t' :=
  h.foldlM hl ⟨rfl, .nil⟩ hrun

end Machine
