/-
# Fsmc.Runtime.Dispatch — how the runtime chooses a transition.

A row of the transition table fires when its source is the current state, its event is the event
dispatched and its guard holds. `execute_transition_from_ports` tries the rows in the order of the
table and takes the first that fires.
-/
import Fsmc.Ir.FsmIr

namespace Fsmc.Runtime

open Fsmc.Ir

/-- A valuation of the guards: which guard predicates hold, by their text. -/
abbrev GuardValuation := String → Bool

/-- The guard column of a row: no text, `else` and `default` are `no_guard`, which holds. -/
def guardPassed (v : GuardValuation) (guard : Option String) : Bool :=
  match guard with
  | none => true
  | some text => text = "" || text = "else" || text = "default" || v text

/-- Whether the guard of a row holds. -/
def enabled (v : GuardValuation) (t : TransitionEdge) : Bool := guardPassed v t.guard

/-- Whether a row is tried for an event dispatched in a state. -/
def tried (source event : String) (t : TransitionEdge) : Bool :=
  t.source = source && t.event = event

/-- Whether a row fires. -/
def fires (source event : String) (v : GuardValuation) (t : TransitionEdge) : Bool :=
  tried source event t && enabled v t

/-- The rows that fire, in the order of the table. -/
def candidates (rows : List TransitionEdge) (source event : String) (v : GuardValuation) :
    List TransitionEdge :=
  rows.filter (fires source event v)

/-- `execute_transition_from_ports`: the row that is executed. -/
def firstMatch (rows : List TransitionEdge) (source event : String) (v : GuardValuation) :
    Option TransitionEdge :=
  rows.find? (fires source event v)

variable {source event : String} {t : TransitionEdge} {v : GuardValuation}

@[simp] theorem fires_iff :
    fires source event v t = true ↔ (t.source = source ∧ t.event = event) ∧ enabled v t = true := by
  simp [fires, tried]

theorem mem_candidates {rows : List TransitionEdge}
    :
    t ∈ candidates rows source event v ↔
      t ∈ rows ∧ (t.source = source ∧ t.event = event) ∧ enabled v t = true := by
  simp [candidates]

end Fsmc.Runtime
