import Mathlib.Data.List.Induction

/-!
# The command line

`config_path` of `main.rs` walks over the arguments and keeps the path that was named last. It stops
at the first argument that it does not know, and at a request for the version.

* `Args.scan`, `configPath` — the function.
* `Args.Flags`, `Args.written`, `Args.chosen` — paths as they are named on a command line.
* `Args.exists_written` — each command line names some paths, and goes on with something else.
* `configPath_iff` — which command lines lead to which result.
-/

namespace Pincerbell

namespace Args

/-- What comes of the command line. -/
inductive Outcome
  | path (p : String)
  /-- The version is printed, and the process exits. -/
  | version
  | error (e : String)
  deriving DecidableEq, Repr

/-- A flag that is followed by a path. -/
def IsConfig (arg : String) : Prop := arg = "-c" ∨ arg = "--config"

def IsVersion (arg : String) : Prop := arg = "-V" ∨ arg = "--version"

instance (arg : String) : Decidable (IsConfig arg) := inferInstanceAs (Decidable (_ ∨ _))

instance (arg : String) : Decidable (IsVersion arg) := inferInstanceAs (Decidable (_ ∨ _))

def missing (flag : String) : String := flag ++ " requires a path argument"

def unknown (arg : String) : String :=
  "unknown argument: " ++ arg ++ "\nusage: pincerbell [-c CONFIG]"

/-- The loop over the arguments, with the last path so far. -/
def scan (env : Option String) : Option String → List String → Outcome
  | path, [] => .path ((path.or env).getD "pincerbell.toml")
  | _, arg :: args =>
    if IsConfig arg then
      match args with
      | p :: args => scan env (some p) args
      | [] => .error (missing arg)
    else if IsVersion arg then .version
    else .error (unknown arg)

end Args

/-- `config_path`, with the value of `PINCERBELL_CONF`. -/
def configPath (env : Option String) (args : List String) : Args.Outcome := Args.scan env none args

namespace Args

/-! ### Paths on the command line -/

/-- The first of each two is a flag for a path. -/
def Flags (pairs : List (String × String)) : Prop := ∀ x ∈ pairs, IsConfig x.1

/-- Flags and paths, as they are written. -/
def written (pairs : List (String × String)) : List String := pairs.flatMap fun x => [x.1, x.2]

/-- The path that is used: that of the last flag, or else the one of the environment. -/
def chosen (env : Option String) (pairs : List (String × String)) : String :=
  ((pairs.getLast?.map Prod.snd).or env).getD "pincerbell.toml"

variable {env path : Option String} {args rest : List String} {pairs : List (String × String)}

/-- The loop goes over flags with paths, and keeps the last of these. -/
theorem scan_written_append (h : Flags pairs) :
    scan env path (written pairs ++ rest) =
      scan env ((pairs.getLast?.map Prod.snd).or path) rest := by
  induction pairs generalizing path with
  | nil => rfl
  | cons x pairs ih =>
    obtain ⟨hflag, hpairs⟩ := List.forall_mem_cons.mp h
    have hwritten : written (x :: pairs) ++ rest = x.1 :: x.2 :: (written pairs ++ rest) := rfl
    rw [hwritten, scan, if_pos hflag, ih hpairs]
    cases pairs with
    | nil => rfl
    | cons y pairs => simp [List.getLast?_eq_some_getLast]

/-- Each command line begins with flags and their paths. What follows, if anything does, is a flag
without a path or another argument. -/
theorem exists_written (args : List String) :
    ∃ pairs, Flags pairs ∧ (args = written pairs ∨
      (∃ flag, IsConfig flag ∧ args = written pairs ++ [flag]) ∨
      ∃ arg rest, ¬ IsConfig arg ∧ args = written pairs ++ arg :: rest) := by
  induction args using List.twoStepInduction with
  | nil => exact ⟨[], by simp [Flags], Or.inl rfl⟩
  | singleton arg =>
    refine ⟨[], by simp [Flags], Or.inr ?_⟩
    by_cases hconfig : IsConfig arg
    · exact Or.inl ⟨arg, hconfig, rfl⟩
    · exact Or.inr ⟨arg, [], hconfig, rfl⟩
  | cons_cons arg p args ih _ =>
    by_cases hconfig : IsConfig arg
    · obtain ⟨pairs, hpairs, hrest⟩ := ih
      refine ⟨(arg, p) :: pairs, List.forall_mem_cons.mpr ⟨hconfig, hpairs⟩, ?_⟩
      rcases hrest with rfl | ⟨flag, hflag, rfl⟩ | ⟨other, rest, hother, rfl⟩
      · exact Or.inl rfl
      · exact Or.inr (Or.inl ⟨flag, hflag, rfl⟩)
      · exact Or.inr (Or.inr ⟨other, rest, hother, rfl⟩)
    · exact ⟨[], by simp [Flags], Or.inr (Or.inr ⟨arg, p :: args, hconfig, rfl⟩)⟩

/-! ### The results -/

theorem configPath_written (h : Flags pairs) :
    configPath env (written pairs) = .path (chosen env pairs) := by
  rw [configPath, ← List.append_nil (written pairs), scan_written_append h, Option.or_none]
  rfl

theorem configPath_missing (h : Flags pairs) {flag : String} (hflag : IsConfig flag) :
    configPath env (written pairs ++ [flag]) = .error (missing flag) := by
  rw [configPath, scan_written_append h, scan, if_pos hflag]

theorem configPath_other (h : Flags pairs) {arg : String} (harg : ¬ IsConfig arg) :
    configPath env (written pairs ++ arg :: rest) =
      if IsVersion arg then .version else .error (unknown arg) := by
  rw [configPath, scan_written_append h]
  cases rest <;> rw [scan, if_neg harg]

end Args

open Args in
/-- Which command lines lead to a path and to which one, which ones print the version, and what is
said of all others. A path that looks like a flag is a path. -/
theorem configPath_iff (env : Option String) (args : List String) :
    (∀ p, configPath env args = .path p ↔
      ∃ pairs, Flags pairs ∧ args = written pairs ∧ p = chosen env pairs) ∧
    (configPath env args = .version ↔
      ∃ pairs arg rest, Flags pairs ∧ IsVersion arg ∧ args = written pairs ++ arg :: rest) ∧
    ∀ e, configPath env args = .error e ↔ ∃ pairs, Flags pairs ∧
      ((∃ flag, IsConfig flag ∧ args = written pairs ++ [flag] ∧ e = missing flag) ∨
        ∃ arg rest, ¬ IsConfig arg ∧ ¬ IsVersion arg ∧ args = written pairs ++ arg :: rest ∧
          e = unknown arg) := by
  have hversion : ∀ {arg}, IsVersion arg → ¬ IsConfig arg := by
    rintro arg (rfl | rfl) <;> decide
  refine ⟨fun p => ⟨fun h => ?_, ?_⟩, ⟨fun h => ?_, ?_⟩, fun e => ⟨fun h => ?_, ?_⟩⟩
  · obtain ⟨pairs, hpairs, rfl | ⟨flag, hflag, rfl⟩ | ⟨arg, rest, harg, rfl⟩⟩ := exists_written args
    · rw [configPath_written hpairs] at h
      exact ⟨pairs, hpairs, rfl, (Outcome.path.inj h).symm⟩
    · rw [configPath_missing hpairs hflag] at h
      cases h
    · rw [configPath_other hpairs harg] at h
      split at h <;> cases h
  · rintro ⟨pairs, hpairs, rfl, rfl⟩
    exact configPath_written hpairs
  · obtain ⟨pairs, hpairs, rfl | ⟨flag, hflag, rfl⟩ | ⟨arg, rest, harg, rfl⟩⟩ := exists_written args
    · rw [configPath_written hpairs] at h
      cases h
    · rw [configPath_missing hpairs hflag] at h
      cases h
    · rw [configPath_other hpairs harg] at h
      split at h
      next hv => exact ⟨pairs, arg, rest, hpairs, hv, rfl⟩
      next => cases h
  · rintro ⟨pairs, arg, rest, hpairs, harg, rfl⟩
    rw [configPath_other hpairs (hversion harg), if_pos harg]
  · obtain ⟨pairs, hpairs, rfl | ⟨flag, hflag, rfl⟩ | ⟨arg, rest, harg, rfl⟩⟩ := exists_written args
    · rw [configPath_written hpairs] at h
      cases h
    · rw [configPath_missing hpairs hflag] at h
      exact ⟨pairs, hpairs, Or.inl ⟨flag, hflag, rfl, (Outcome.error.inj h).symm⟩⟩
    · rw [configPath_other hpairs harg] at h
      split at h
      next => cases h
      next hv =>
        exact ⟨pairs, hpairs, Or.inr ⟨arg, rest, harg, hv, rfl, (Outcome.error.inj h).symm⟩⟩
  · rintro ⟨pairs, hpairs, ⟨flag, hflag, rfl, rfl⟩ | ⟨arg, rest, harg, hv, rfl, rfl⟩⟩
    · exact configPath_missing hpairs hflag
    · rw [configPath_other hpairs harg, if_neg hv]

end Pincerbell
