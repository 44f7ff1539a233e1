import Mathlib.Data.List.Induction
import Pincerbell.Support.HashMap

/-!
# What was stored last

Some of the events of a log store a value. A slot that changes in no other way holds the value that
was stored last, and so does a map for each of its keys.

* `lastStored f log` — the value that was stored last, where `f` says what an event stores.
* `lastStored_eq_some_iff` — it comes from an event after which nothing was stored.
* `foldl_slot`, `lookup_foldl_insert` — what a slot and a map hold after the events of a log.
-/

namespace Log

variable {ε ρ : Type} {f : ε → Option ρ} {log log' : List ε} {e : ε} {r : ρ}

/-- The value that the log stores last. -/
def lastStored (f : ε → Option ρ) (log : List ε) : Option ρ := (log.filterMap f).getLast?

@[simp]
theorem lastStored_nil (f : ε → Option ρ) : lastStored f [] = none := rfl

/-- What is stored later counts. -/
theorem lastStored_append (f : ε → Option ρ) (log log' : List ε) :
    lastStored f (log ++ log') = (lastStored f log').or (lastStored f log) := by
  rw [lastStored, List.filterMap_append, List.getLast?_append]
  rfl

theorem lastStored_concat (f : ε → Option ρ) (log : List ε) (e : ε) :
    lastStored f (log ++ [e]) = (f e).or (lastStored f log) := by
  rw [lastStored_append]
  congr 1
  cases he : f e <;> simp [lastStored, he]

theorem lastStored_eq_none_iff : lastStored f log = none ↔ ∀ e ∈ log, f e = none := by
  rw [lastStored, List.getLast?_eq_none_iff, List.filterMap_eq_nil_iff]

/-- The last value comes from an event after which nothing was stored. -/
theorem lastStored_eq_some_iff : lastStored f log = some r ↔
    ∃ pre e post, log = pre ++ e :: post ∧ f e = some r ∧ ∀ e' ∈ post, f e' = none := by
  constructor
  · intro h
    induction log using List.reverseRecOn with
    | nil => cases h
    | append_singleton log e ih =>
      rw [lastStored_concat] at h
      cases he : f e with
      | some r' =>
        obtain rfl : r' = r := by simpa [he] using h
        exact ⟨log, e, [], rfl, he, by simp⟩
      | none =>
        obtain ⟨pre, e', post, rfl, he', hpost⟩ := ih (by simpa [he] using h)
        refine ⟨pre, e', post ++ [e], by simp, he', fun e'' hmem => ?_⟩
        rcases List.mem_append.mp hmem with hmem | hmem
        · exact hpost e'' hmem
        · rw [List.mem_singleton.mp hmem, he]
  · rintro ⟨pre, e, post, rfl, he, hpost⟩
    have hafter : lastStored f post = none := lastStored_eq_none_iff.mpr hpost
    rw [← List.singleton_append, ← List.append_assoc, lastStored_append, hafter, lastStored_concat,
      he]
    rfl

/-! ### Slots and maps -/

/-- A slot holds what was stored in it last. -/
theorem foldl_slot (f : ε → Option ρ) (log : List ε) (x : Option ρ) :
    log.foldl (fun x e => (f e).or x) x = (lastStored f log).or x := by
  induction log using List.reverseRecOn with
  | nil => rfl
  | append_singleton log e ih => simp [ih, lastStored_concat, Option.or_assoc]

variable {κ : Type} [DecidableEq κ]

/-- The value that an event stores under the key, where `store?` says under which key it stores
what. -/
def storedUnder (store? : ε → Option (κ × ρ)) (k : κ) (e : ε) : Option ρ :=
  match store? e with
  | some s => if s.1 = k then some s.2 else none
  | none => none

theorem storedUnder_eq_some_iff {store? : ε → Option (κ × ρ)} {k : κ} :
    storedUnder store? k e = some r ↔ store? e = some (k, r) := by
  rw [storedUnder]
  split
  next s hs =>
    obtain ⟨k', r'⟩ := s
    simp [hs]
  next hs => simp [hs]

/-- A map holds under each key what was stored under it last. -/
theorem lookup_foldl_insert (store? : ε → Option (κ × ρ)) (log : List ε) (k : κ) :
    (log.foldl (fun m e => (store? e).elim m fun s => AList.insert s.1 s.2 m)
      (∅ : HashMap κ ρ)).lookup k = lastStored (storedUnder store? k) log := by
  induction log using List.reverseRecOn with
  | nil => rfl
  | append_singleton log e ih =>
    rw [List.foldl_append, lastStored_concat, ← ih]
    simp only [List.foldl_cons, List.foldl_nil, storedUnder]
    cases store? e with
    | none => rfl
    | some s =>
      simp only [Option.elim_some, HashMap.lookup_insert]
      by_cases hk : k = s.1
      · simp [hk]
      · simp [hk, Ne.symm hk]

end Log
