import Mathlib.Data.List.Forall2
import Mathlib.Data.List.Induction
import Pincerbell.Support.HashMap

/-!
# Doing something for all of a collection

A computation that can fail is done for each element of a list, or for each entry of a map, and
fails with the first error. It succeeds exactly when it does so for each of them, in whatever order
the entries come.

* `AllOrNothing.mapM_eq_ok_iff`, `exists_mapM_eq_ok_iff` — lists.
* `HashMap.build` — the map of the results.
* `HashMap.exists_build_eq_ok_iff`, `HashMap.lookup_build` — when there is one, and what is in it.
-/

namespace AllOrNothing

variable {ε α β : Type} {f : α → Except ε β}

theorem bind_eq_ok_iff {x : Except ε α} {b : β} :
    x >>= f = .ok b ↔ ∃ a, x = .ok a ∧ f a = .ok b := by
  cases x with
  | error e => simp [bind, Except.bind]
  | ok a => simp [bind, Except.bind]

theorem mapError_eq_ok_iff {ε' : Type} {g : ε → ε'} {x : Except ε α} {a : α} :
    x.mapError g = .ok a ↔ x = .ok a := by
  cases x <;> simp [Except.mapError]

/-- The results are those of the elements, in their order. -/
theorem mapM_eq_ok_iff {l : List α} {l' : List β} :
    l.mapM f = .ok l' ↔ List.Forall₂ (fun a b => f a = .ok b) l l' := by
  induction l generalizing l' with
  | nil =>
    rw [List.mapM_nil, List.forall₂_nil_left_iff]
    exact ⟨fun h => (Except.ok.inj h).symm, fun h => congrArg _ h.symm⟩
  | cons a l ih =>
    simp only [List.mapM_cons, bind_eq_ok_iff, ih, List.forall₂_cons_left_iff]
    constructor
    · rintro ⟨b, hb, bs, hbs, heq⟩
      exact ⟨b, bs, hb, hbs, (Except.ok.inj heq).symm⟩
    · rintro ⟨b, bs, hb, hbs, rfl⟩
      exact ⟨b, hb, bs, hbs, rfl⟩

/-- There are results exactly when each element has one. -/
theorem exists_mapM_eq_ok_iff {l : List α} :
    (∃ l', l.mapM f = .ok l') ↔ ∀ a ∈ l, ∃ b, f a = .ok b := by
  simp only [mapM_eq_ok_iff]
  induction l with
  | nil => simp
  | cons a l ih =>
    rw [List.forall_mem_cons, ← ih]
    constructor
    · rintro ⟨l', h⟩
      obtain ⟨b, bs, hb, hbs, -⟩ := List.forall₂_cons_left_iff.mp h
      exact ⟨⟨b, hb⟩, bs, hbs⟩
    · rintro ⟨⟨b, hb⟩, bs, hbs⟩
      exact ⟨b :: bs, .cons hb hbs⟩

end AllOrNothing

namespace HashMap

variable {ε κ υ β : Type} [DecidableEq κ]

/-- Insert what each entry leads to, one after the other. -/
def build (f : κ → υ → Except ε β) (order : List (Sigma fun _ : κ => υ)) :
    Except ε (HashMap κ β) :=
  order.foldlM (fun m kv => do return AList.insert kv.1 (← f kv.1 kv.2) m) ∅

variable {f : κ → υ → Except ε β} {order : List (Sigma fun _ : κ => υ)} {m : HashMap κ β}

theorem build_concat_eq_ok_iff {kv : Sigma fun _ : κ => υ} :
    build f (order ++ [kv]) = .ok m ↔
      ∃ m' b, build f order = .ok m' ∧ f kv.1 kv.2 = .ok b ∧ m = AList.insert kv.1 b m' := by
  rw [build, List.foldlM_append, ← build, AllOrNothing.bind_eq_ok_iff]
  simp only [List.foldlM_cons, List.foldlM_nil, bind_pure, AllOrNothing.bind_eq_ok_iff]
  constructor
  · rintro ⟨m', hm', b, hb, heq⟩
    exact ⟨m', b, hm', hb, (Except.ok.inj heq).symm⟩
  · rintro ⟨m', b, hm', hb, rfl⟩
    exact ⟨m', hm', b, hb, rfl⟩

/-- There is a map exactly when each entry leads to something. -/
theorem exists_build_eq_ok_iff :
    (∃ m, build f order = .ok m) ↔ ∀ kv ∈ order, ∃ b, f kv.1 kv.2 = .ok b := by
  induction order using List.reverseRecOn with
  | nil => exact ⟨fun _ => by simp, fun _ => ⟨∅, rfl⟩⟩
  | append_singleton order kv ih =>
    rw [List.forall_mem_append, List.forall_mem_singleton, ← ih]
    simp only [build_concat_eq_ok_iff]
    constructor
    · rintro ⟨-, m', b, hm', hb, -⟩
      exact ⟨⟨m', hm'⟩, b, hb⟩
    · rintro ⟨⟨m', hm'⟩, b, hb⟩
      exact ⟨_, m', b, hm', hb, rfl⟩

/-- The map has the keys of the entries, each with what its value leads to. -/
theorem lookup_build (hnodup : order.NodupKeys) (h : build f order = .ok m) (k : κ) :
    m.lookup k = (order.dlookup k).bind fun v => (f k v).toOption := by
  induction order using List.reverseRecOn generalizing m with
  | nil =>
    obtain rfl : ∅ = m := Except.ok.inj h
    rfl
  | append_singleton order kv ih =>
    obtain ⟨m', b, hm', hb, rfl⟩ := build_concat_eq_ok_iff.mp h
    have hnodup' : order.NodupKeys := hnodup.sublist (List.sublist_append_left _ _)
    rw [lookup_insert, List.dlookup_append, ih hnodup' hm']
    obtain ⟨k', v⟩ := kv
    split
    next hk =>
      -- the last entry is the only one of its key
      subst hk
      have hnone : order.dlookup k = none := by
        rw [List.dlookup_eq_none]
        intro hmem
        have hkeys : (order.keys ++ [k]).Nodup := by
          rw [List.NodupKeys, List.keys, List.map_append] at hnodup
          exact hnodup
        exact (List.nodup_append.mp hkeys).2.2 k hmem k (List.mem_singleton.mpr rfl) rfl
      simp [hnone, hb, Except.toOption]
    next hk => rw [List.dlookup_cons_ne _ _ (hk ·), List.dlookup_nil, Option.or_none]

end HashMap
