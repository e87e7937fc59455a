/-
# Fsmc.Runtime.Hierarchy — runs of a hierarchical machine.

A configuration is a set of active states. A state is never active without its ancestors; entering a
composite enters its initial sub-state and the first states of its regions; and a transition of an active
state can be taken, be it the innermost one or an ancestor, unless its guard is the text `false`. What a
transition leaves is not laid down: what is active afterwards was active before or was entered.
-/
import Fsmc.Ir.FsmIr
import Mathlib.Data.Set.Basic

namespace Fsmc.Runtime

open Fsmc.Ir

def isFork (t : TransitionEdge) : Bool := 1 < t.targetIds.length

def isJoin (t : TransitionEdge) : Bool := 1 < t.sourceIds.length

/-- The states that a transition leaves together. -/
def sourceEnds (t : TransitionEdge) : List String := if isJoin t then t.sourceIds else [t.source]

/-- The states that a transition enters together. -/
def targetEnds (t : TransitionEdge) : List String := if isFork t then t.targetIds else [t.target]

/-- The states that a transition activates: all those of `target_ids` for a fork. -/
def targetsOf (t : TransitionEdge) : List String :=
  (if isFork t then t.targetIds else [t.target]).filter (· ≠ "")

/-- The state where a machine starts. -/
def initialName (ir : FsmIr) : String :=
  if ir.initialState = "" then (ir.states.head?.map (·.name)).getD "" else ir.initialState

/-- What may become active when a state is entered. -/
inductive Entered (ir : FsmIr) (s : String) : String → Prop
  | self : Entered ir s s
  | ancestor {x : String} {n : StateNode} : Entered ir s x → ir.findState x = some n →
      n.parentState ≠ "" → Entered ir s n.parentState
  | initial {x : String} {n : StateNode} : Entered ir s x → ir.findState x = some n →
      n.initialSubState ≠ "" → Entered ir s n.initialSubState
  | region {x : String} {n : StateNode} {r : OrthogonalRegion} {c : StateNode} :
      Entered ir s x → ir.findState x = some n → r ∈ n.orthogonalRegions → c ∈ ir.states →
        (c.id = r.initialStateId ∨ c.name = r.initialStateId) → Entered ir s c.name

/-- A transition that some guard valuation and some event let be taken. -/
def takeable (t : TransitionEdge) : Bool := t.guard ≠ some "false"

/-- A transition is taken between two configurations. -/
structure Taken (ir : FsmIr) (C : Set String) (t : TransitionEdge) (C' : Set String) : Prop where
  mem : t ∈ ir.transitions
  active : t.source ∈ C
  takeable : takeable t = true
  after : ∀ x ∈ C', x ∈ C ∨ ∃ y ∈ targetsOf t, Entered ir y x

/-- The configurations of the runs. -/
inductive Reached (ir : FsmIr) : Set String → Prop
  | start {C : Set String} : initialName ir ≠ "" → (∀ x ∈ C, Entered ir (initialName ir) x) →
      Reached ir C
  | step {C C' : Set String} {t : TransitionEdge} : Reached ir C → Taken ir C t C' → Reached ir C'

end Fsmc.Runtime
