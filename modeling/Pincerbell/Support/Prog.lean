import Mathlib.Data.List.Basic

/-!
# Programs over commands

A `Prog Cmd Res α` performs commands one after the other, continues with the result of each, and
returns a value of type `α`. What a command does is left open: a machine that runs programs decides
it, and may run commands of other programs in between.

* `Steps p t p'` — performing the events `t`, which are commands with their results, takes `p` to
  `p'`. `Returns p t a` — it takes `p` to the result `a`.
* `returns_bind_iff`, `Steps.bind_cases` — the events of `p >>= k` are those of `p`, followed by
  those of a continuation.
* `Always P p` — every event of `p` is related by `P` to the events before it. `Always.of_steps`
  applies it, `Always.bind` is its rule for `>>=`. `Chained R F` — every event is related by `R`
  to the event before it, and the last one satisfies `F`.
* `tag x p` — the program `p` with every command marked by `x`.
-/

/-- A program that performs commands and returns a value. -/
inductive Prog (Cmd : Type) (Res : Cmd → Type) (α : Type) : Type
  | pure (a : α)
  | call (c : Cmd) (k : Res c → Prog Cmd Res α)

namespace Prog

variable {Cmd : Type} {Res : Cmd → Type} {α β : Type}

/-- Run `p`, then continue with its result. -/
protected def bind : Prog Cmd Res α → (α → Prog Cmd Res β) → Prog Cmd Res β
  | pure a, k => k a
  | call c f, k => call c fun r => (f r).bind k

instance : Monad (Prog Cmd Res) where
  pure := pure
  bind := Prog.bind

/-- Perform one command. -/
def perform (c : Cmd) : Prog Cmd Res (Res c) := call c pure

/-- The value of a program that has nothing left to perform. -/
def result? : Prog Cmd Res α → Option α
  | pure a => some a
  | call _ _ => none

@[simp]
theorem pure_bind (a : α) (k : α → Prog Cmd Res β) : (Pure.pure a >>= k) = k a := rfl

@[simp]
theorem call_bind (c : Cmd) (f : Res c → Prog Cmd Res α) (k : α → Prog Cmd Res β) :
    (call c f >>= k) = call c fun r => f r >>= k := rfl

@[simp]
theorem perform_bind (c : Cmd) (k : Res c → Prog Cmd Res β) : (perform c >>= k) = call c k := rfl

@[simp]
theorem map_call (c : Cmd) (f : Res c → Prog Cmd Res α) (g : α → β) :
    g <$> call c f = call c fun r => g <$> f r := rfl

/-! ### Events -/

variable (Cmd Res) in
/-- A performed command with its result. -/
abbrev Event := (c : Cmd) × Res c

/-- Performing the events `t` takes one program to another. -/
inductive Steps : Prog Cmd Res α → List (Event Cmd Res) → Prog Cmd Res α → Prop
  | refl (p) : Steps p [] p
  | call {c f r t p'} : Steps (f r) t p' → Steps (call c f) (⟨c, r⟩ :: t) p'

/-- Performing the events `t` takes the program to its result. -/
def Returns (p : Prog Cmd Res α) (t : List (Event Cmd Res)) (a : α) : Prop := Steps p t (pure a)

variable {p p' : Prog Cmd Res α} {t t' : List (Event Cmd Res)} {a : α}

theorem steps_pure_iff : Steps (pure a) t p ↔ t = [] ∧ p = pure a := by
  constructor
  · rintro ⟨⟩
    exact ⟨rfl, rfl⟩
  · rintro ⟨rfl, rfl⟩
    exact Steps.refl _

theorem steps_call_iff {c : Cmd} {f : Res c → Prog Cmd Res α} :
    Steps (call c f) t p ↔
      t = [] ∧ p = call c f ∨ ∃ r t', t = ⟨c, r⟩ :: t' ∧ Steps (f r) t' p := by
  constructor
  · rintro (_ | h)
    · exact Or.inl ⟨rfl, rfl⟩
    · exact Or.inr ⟨_, _, rfl, h⟩
  · rintro (⟨rfl, rfl⟩ | ⟨r, t', rfl, h⟩)
    · exact Steps.refl _
    · exact Steps.call h

theorem steps_nil_iff : Steps p [] p' ↔ p' = p := by
  constructor
  · rintro ⟨⟩
    rfl
  · rintro rfl
    exact Steps.refl _

@[simp]
theorem returns_pure_iff {b : α} :
    Returns (Pure.pure b : Prog Cmd Res α) t a ↔ t = [] ∧ a = b := by
  refine steps_pure_iff.trans (and_congr_right fun _ => ?_)
  constructor
  · intro h
    exact (Prog.pure.inj h)
  · rintro rfl
    rfl

@[simp]
theorem returns_call_iff {c : Cmd} {f : Res c → Prog Cmd Res α} :
    Returns (call c f) t a ↔ ∃ r t', t = ⟨c, r⟩ :: t' ∧ Returns (f r) t' a := by
  simp [Returns, steps_call_iff]

/-- Performing more events after some. -/
theorem Steps.append {p'' : Prog Cmd Res α} (h : Steps p t p') (h' : Steps p' t' p'') :
    Steps p (t ++ t') p'' := by
  induction h with
  | refl => exact h'
  | call _ ih => exact Steps.call (ih h')

/-- Performing the command that is next. -/
theorem Steps.snoc {c : Cmd} {f : Res c → Prog Cmd Res α} (h : Steps p t (Prog.call c f))
    (r : Res c) :
    Steps p (t ++ [⟨c, r⟩]) (f r) :=
  h.append (Steps.call (Steps.refl _))

/-- What a program has performed determines how it goes on. -/
theorem Steps.of_append {p'' : Prog Cmd Res α} (h : Steps p t p') (h' : Steps p (t ++ t') p'') :
    Steps p' t' p'' := by
  induction h with
  | refl => exact h'
  | call _ ih =>
    rcases steps_call_iff.mp h' with ⟨heq, -⟩ | ⟨r, t₀, heq, hrest⟩
    · cases heq
    · cases heq
      exact ih hrest

/-- The events of a sequence of two programs: still those of the first, or all of them followed by
events of the second. -/
theorem Steps.bind_cases {k : α → Prog Cmd Res β} {q : Prog Cmd Res β}
    (h : Steps (p >>= k) t q) :
    (∃ c f, Steps p t (Prog.call c f) ∧ q = Prog.call c fun r => f r >>= k) ∨
      ∃ a t₁ t₂, t = t₁ ++ t₂ ∧ Returns p t₁ a ∧ Steps (k a) t₂ q := by
  induction p generalizing t with
  | pure a => exact Or.inr ⟨a, [], t, rfl, Steps.refl _, h⟩
  | call c f ih =>
    rw [call_bind, steps_call_iff] at h
    rcases h with ⟨rfl, rfl⟩ | ⟨r, t', rfl, hrest⟩
    · exact Or.inl ⟨c, f, Steps.refl _, rfl⟩
    -- the first command is one of `p`, and the rest is cut where the rest of `p` is
    · rcases ih r hrest with ⟨c', f', hp', rfl⟩ | ⟨a, t₁, t₂, rfl, hp, hk⟩
      · exact Or.inl ⟨c', f', Steps.call hp', rfl⟩
      · exact Or.inr ⟨a, ⟨c, r⟩ :: t₁, t₂, rfl, Steps.call hp, hk⟩

/-- The first of two programs runs in front of the second. -/
theorem Steps.bind_left (h : Steps p t p') (k : α → Prog Cmd Res β) :
    Steps (p >>= k) t (p' >>= k) := by
  induction h with
  | refl => exact Steps.refl _
  | call _ ih => exact Steps.call ih

theorem returns_bind_iff {k : α → Prog Cmd Res β} {b : β} :
    Returns (p >>= k) t b ↔
      ∃ a t₁ t₂, t = t₁ ++ t₂ ∧ Returns p t₁ a ∧ Returns (k a) t₂ b := by
  constructor
  · intro h
    rcases Steps.bind_cases h with ⟨c, f, -, heq⟩ | h
    · cases heq
    · exact h
  · rintro ⟨a, t₁, t₂, rfl, hp, hk⟩
    exact (hp.bind_left k).append hk

@[simp]
theorem returns_map_iff {g : α → β} {b : β} :
    Returns (g <$> p) t b ↔ ∃ a, Returns p t a ∧ b = g a := by
  show Returns (p >>= fun a => Pure.pure (g a)) t b ↔ _
  rw [returns_bind_iff]
  constructor
  · rintro ⟨a, t₁, t₂, rfl, hp, hk⟩
    obtain ⟨rfl, rfl⟩ := returns_pure_iff.mp hk
    exact ⟨a, by simpa using hp, rfl⟩
  · rintro ⟨a, hp, rfl⟩
    exact ⟨a, t, [], by simp, hp, by simp⟩

/-- Changing the result of a program does not change what it performs. -/
theorem Steps.of_map {g : α → β} {c : Cmd} {f : Res c → Prog Cmd Res β}
    (h : Steps (g <$> p) t (Prog.call c f)) :
    ∃ f', Steps p t (Prog.call c f') ∧ ∀ r, f r = g <$> f' r := by
  have hbind : Steps (p >>= fun a => Pure.pure (g a)) t (Prog.call c f) := h
  rcases hbind.bind_cases with ⟨c', f', hp, heq⟩ | ⟨a, t₁, t₂, -, -, hpure⟩
  · cases heq
    exact ⟨f', hp, fun r => rfl⟩
  · obtain ⟨-, heq⟩ := steps_pure_iff.mp hpure
    cases heq

/-! ### Facts about every event -/

/-- Every event that the program performs is related to the events before it. -/
def Always (P : List (Event Cmd Res) → Event Cmd Res → Prop) : Prog Cmd Res α → Prop
  | pure _ => True
  | call c f => ∀ r, P [] ⟨c, r⟩ ∧ Always (fun t e => P (⟨c, r⟩ :: t) e) (f r)

variable {P Q : List (Event Cmd Res) → Event Cmd Res → Prop}

@[simp]
theorem always_pure : Always P (Pure.pure a : Prog Cmd Res α) := trivial

@[simp]
theorem always_call {c : Cmd} {f : Res c → Prog Cmd Res α} :
    Always P (call c f) ↔
      ∀ r, P [] ⟨c, r⟩ ∧ Always (fun t e => P (⟨c, r⟩ :: t) e) (f r) := Iff.rfl

/-- What always holds, holds of the last event performed. -/
theorem Always.of_steps {e : Event Cmd Res} (h : Always P p) (hs : Steps p (t ++ [e]) p') :
    P t e := by
  induction p generalizing t P with
  | pure a =>
    obtain ⟨heq, -⟩ := steps_pure_iff.mp hs
    simp at heq
  | call c f ih =>
    rcases steps_call_iff.mp hs with ⟨heq, -⟩ | ⟨r, t', heq, hs'⟩
    · simp at heq
    -- the last event is the first one, or the last one of the rest
    · cases t with
      | nil =>
        obtain ⟨rfl, -⟩ := List.cons.inj heq
        exact (h r).1
      | cons e' t =>
        obtain ⟨rfl, rfl⟩ := List.cons.inj heq
        exact ih r (P := fun t e => P (⟨c, r⟩ :: t) e) (h r).2 hs'

/-- What holds of any events, always holds. -/
theorem Always.of_forall (h : ∀ t e, P t e) (p : Prog Cmd Res α) : Always P p := by
  induction p generalizing P with
  | pure a => trivial
  | call c f ih => exact fun r => ⟨h _ _, ih r fun t e => h (⟨c, r⟩ :: t) e⟩

/-- A weaker relation always holds too. -/
theorem Always.mono (h : Always P p) (himp : ∀ t e, P t e → Q t e) : Always Q p := by
  induction p generalizing P Q with
  | pure a => trivial
  | call c f ih =>
    exact fun r => ⟨himp _ _ (h r).1, ih r (h r).2 fun t e => himp _ e⟩

/-- The second of two programs is judged by the events of both. -/
theorem Always.bind {k : α → Prog Cmd Res β} (h : Always P p)
    (hk : ∀ t a, Returns p t a → Always (fun t' e => P (t ++ t') e) (k a)) :
    Always P (p >>= k) := by
  induction p generalizing P with
  | pure a => exact hk [] a (Steps.refl _)
  | call c f ih =>
    exact fun r => ⟨(h r).1, ih r (h r).2 fun t a hr => hk (⟨c, r⟩ :: t) a (Steps.call hr)⟩

theorem Always.map (h : Always P p) (g : α → β) : Always P (g <$> p) :=
  Always.bind h fun _ _ _ => always_pure

/-- Each event is related by `R` to the one before it, the first one to `last`, and the program ends
after an event that satisfies `F`. -/
def Chained (R : Option (Event Cmd Res) → Event Cmd Res → Prop)
    (F : Option (Event Cmd Res) → Prop) : Option (Event Cmd Res) → Prog Cmd Res α → Prop
  | last, pure _ => F last
  | last, call c f => ∀ r, R last ⟨c, r⟩ ∧ Chained R F (some ⟨c, r⟩) (f r)

variable {R : Option (Event Cmd Res) → Event Cmd Res → Prop} {F G : Option (Event Cmd Res) → Prop}
  {last : Option (Event Cmd Res)}

@[simp]
theorem chained_pure : Chained R F last (Pure.pure a : Prog Cmd Res α) ↔ F last := Iff.rfl

@[simp]
theorem chained_call {c : Cmd} {f : Res c → Prog Cmd Res α} :
    Chained R F last (call c f) ↔ ∀ r, R last ⟨c, r⟩ ∧ Chained R F (some ⟨c, r⟩) (f r) := Iff.rfl

/-- The last event before or among the events `t`. -/
theorem getLast?_cons_or (e : Event Cmd Res) (t : List (Event Cmd Res)) :
    ((e :: t).getLast?.or last) = t.getLast?.or (some e) := by
  cases hlast : t.getLast? <;> simp [List.getLast?_cons, hlast]

/-- In a chain, every event is related to the last one before it. -/
theorem Chained.always (h : Chained R F last p) :
    Always (fun t e => R (t.getLast?.or last) e) p := by
  induction p generalizing last with
  | pure a => trivial
  | call c f ih =>
    refine fun r => ⟨(h r).1, (ih r (h r).2).mono fun t e he => ?_⟩
    simpa only [getLast?_cons_or] using he

/-- A chain ends as it should. -/
theorem Chained.of_returns (h : Chained R F last p) (hr : Returns p t a) :
    F (t.getLast?.or last) := by
  induction p generalizing last t with
  | pure b =>
    obtain ⟨rfl, -⟩ := returns_pure_iff.mp hr
    exact h
  | call c f ih =>
    obtain ⟨r, t', rfl, hrest⟩ := returns_call_iff.mp hr
    rw [getLast?_cons_or]
    exact ih r (h r).2 hrest

/-- The second of two programs continues the chain of the first. -/
theorem Chained.bind {k : α → Prog Cmd Res β} (h : Chained R F last p)
    (hk : ∀ last a, F last → Chained R G last (k a)) : Chained R G last (p >>= k) := by
  induction p generalizing last with
  | pure a => exact hk last a h
  | call c f ih => exact fun r => ⟨(h r).1, ih r (h r).2⟩

theorem Chained.map (h : Chained R F last p) (g : α → β) : Chained R F last (g <$> p) :=
  h.bind fun _ _ hlast => hlast

/-- Events that may follow anything and be followed by anything form a chain. -/
theorem Always.chained {C : Event Cmd Res → Prop} (h : Always (fun _ e => C e) p)
    (hC : ∀ last e, F last → C e → R last e ∧ F (some e)) (hlast : F last) :
    Chained R F last p := by
  induction p generalizing last with
  | pure a => exact hlast
  | call c f ih =>
    intro r
    obtain ⟨hR, hF⟩ := hC last _ hlast (h r).1
    exact ⟨hR, ih r (h r).2 hF⟩

/-! ### Marked commands -/

/-- Mark every command of the program. -/
def tag {τ : Type} (x : τ) : Prog Cmd Res α → Prog (τ × Cmd) (fun c => Res c.2) α
  | pure a => pure a
  | call c f => call (x, c) fun r => (f r).tag x

/-- The marked form of an event. -/
def Event.tag {τ : Type} (x : τ) (e : Event Cmd Res) : Event (τ × Cmd) (fun c => Res c.2) :=
  ⟨(x, e.1), e.2⟩

/-- The event without its mark. -/
def Event.untag {τ : Type} (e : Event (τ × Cmd) fun c => Res c.2) : Event Cmd Res := ⟨e.1.2, e.2⟩

@[simp]
theorem Event.untag_tag {τ : Type} (x : τ) (e : Event Cmd Res) : (e.tag x).untag = e := rfl

@[simp]
theorem Event.map_untag_map_tag {τ : Type} (x : τ) (t : List (Event Cmd Res)) :
    (t.map (Event.tag x)).map Event.untag = t := by
  rw [List.map_map]
  exact List.map_id t

/-- A marked program performs the marked events of the program. -/
theorem steps_tag_iff {τ : Type} {x : τ} {t : List (Event (τ × Cmd) fun c => Res c.2)}
    {q : Prog (τ × Cmd) (fun c => Res c.2) α} :
    Steps (p.tag x) t q ↔ ∃ t' p', t = t'.map (Event.tag x) ∧ q = p'.tag x ∧ Steps p t' p' := by
  constructor
  · intro h
    induction p generalizing t with
    | pure a =>
      obtain ⟨rfl, rfl⟩ := steps_pure_iff.mp h
      exact ⟨[], pure a, rfl, rfl, Steps.refl _⟩
    | call c f ih =>
      rcases steps_call_iff.mp h with ⟨rfl, rfl⟩ | ⟨r, t', rfl, hf⟩
      · exact ⟨[], call c f, rfl, rfl, Steps.refl _⟩
      · obtain ⟨t'', p', rfl, rfl, h'⟩ := ih r hf
        exact ⟨⟨c, r⟩ :: t'', p', rfl, rfl, Steps.call h'⟩
  · rintro ⟨t', p', rfl, rfl, h⟩
    induction h with
    | refl => exact Steps.refl _
    | call _ ih => exact Steps.call ih

theorem returns_tag_iff {τ : Type} {x : τ} {t : List (Event (τ × Cmd) fun c => Res c.2)} :
    Returns (p.tag x) t a ↔ ∃ t', t = t'.map (Event.tag x) ∧ Returns p t' a := by
  rw [Returns, steps_tag_iff]
  constructor
  · rintro ⟨t', p', rfl, heq, h⟩
    cases p' with
    | pure b =>
      obtain rfl := Prog.pure.inj heq
      exact ⟨t', rfl, h⟩
    | call c f => cases heq
  · rintro ⟨t', rfl, h⟩
    exact ⟨t', pure a, rfl, rfl, h⟩

/-- A marked program is judged as the program, by its marked events. -/
theorem always_tag_iff {τ : Type} {x : τ}
    {P : List (Event (τ × Cmd) fun c => Res c.2) → Event (τ × Cmd) (fun c => Res c.2) → Prop} :
    Always P (p.tag x) ↔ Always (fun t e => P (t.map (Event.tag x)) (e.tag x)) p := by
  induction p generalizing P with
  | pure a => exact Iff.rfl
  | call c f ih => exact forall_congr' fun r => and_congr_right fun _ => ih r

end Prog
