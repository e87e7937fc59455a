/-
# Fsmc.Emitter.TransitionTable — the rows that the C++ emitter prints.

Transitions are printed by priority, in their order otherwise. A transition into a composite state is printed
with a leaf for its target; where the composite has a history, one row for each substate that may be recorded
goes before the row of the default leaf. A guard or an action is the type that the row names.
-/
import Fsmc.Ir.GraphOps

namespace Fsmc.Emitter

open Fsmc.Ir Fsmc.Cpp

/-! ## Rows -/

/-- A guard type of the table; `history_is` names the composite and the substate. -/
inductive GuardType where
  | noGuard
  | named (name : String)
  | historyIs (composite sub : String)
  | andHistory (name composite sub : String)
  deriving DecidableEq, Repr

/-- An action type of the table. -/
inductive ActionType where
  | noAction
  | named (name : String)
  | seq (first second : String)
  deriving DecidableEq, Repr

/-- A row of the table; an `internal_row` has no target. -/
structure EmittedRow where
  source : String
  event : String
  target : Option String
  action : ActionType
  guard : GuardType
  deriving DecidableEq, Repr

/-! ## The columns of a transition -/

def eventType (t : TransitionEdge) : String :=
  match t.trigger with
  | .time durationMs periodic dynamicExpression =>
    if 0 < durationMs then
      (if periodic then "::fsm::every_ms<" else "::fsm::after_ms<") ++ toString durationMs.toNat ++ ">"
    else if dynamicExpression ≠ "" then "::fsm::after_ms<1000>"
    else "::fsm::after_ms<0>"
  | _ => if t.event = "" then "::fsm::anonymous_event" else t.event

/-- The names of the actions of a transition, where they are given. -/
def actionNames (t : TransitionEdge) : String × String :=
  ((t.conditionAction.map (·.name)).getD "", (t.transitionAction.map (·.name)).getD "")

def actionType (t : TransitionEdge) : ActionType :=
  if (actionNames t).1 ≠ "" ∧ (actionNames t).2 ≠ "" then .seq (actionNames t).1 (actionNames t).2
  else if t.getAction = "" ∨ t.getAction = "::fsm::no_action" then .noAction
  else .named t.getAction

/-- The guard texts that are printed as `no_guard`. -/
def isNoGuard (text : String) : Bool :=
  text = "" || text = "else" || text = "default" || text = "::fsm::no_guard"

def guardType (t : TransitionEdge) : GuardType :=
  if isNoGuard (t.guard.getD "") then .noGuard else .named (t.guard.getD "")

/-- The guard type of a row that is only for a recorded substate. -/
def GuardType.withHistory (composite sub : String) : GuardType → GuardType
  | .named name => .andHistory name composite sub
  | _ => .historyIs composite sub

/-! ## Substates -/

/-- `find_initial_leaf_substate`, which follows the initial substates as far as a number of turns goes. -/
def findInitialLeafSubstate (ir : FsmIr) : ℕ → String → String
  | 0, stateName => stateName
  | n + 1, stateName =>
    match ir.findState stateName with
    | some s =>
      if s.isComposite && s.initialSubState ≠ "" then findInitialLeafSubstate ir n s.initialSubState
      else stateName
    | none => stateName

/-- `get_all_substates`; a hierarchy has no deeper nesting than states. -/
def getAllSubstates (ir : FsmIr) (deep : Bool) : ℕ → String → List String
  | 0, _ => []
  | n + 1, parentName =>
    (ir.states.filter fun s => s.parentState = parentName).flatMap fun s =>
      if deep && s.isComposite then getAllSubstates ir deep n s.name else [s.name]

/-! ## The table -/

/-- `emit_single_row`, with the source, event and action of the transition. -/
def singleRow (t : TransitionEdge) (target : String) (guard : GuardType) : EmittedRow :=
  ⟨t.source, eventType t, some target, actionType t, guard⟩

def internalRow (t : TransitionEdge) : EmittedRow :=
  ⟨t.source, eventType t, none, actionType t, guardType t⟩

/-- The substates that may be recorded for a composite state. -/
def recordedSubstates (ir : FsmIr) (s : StateNode) : List String :=
  getAllSubstates ir s.hasDeepHistory ir.states.length s.name

/-- Where the row without a record goes, for a composite state with a history. -/
def defaultSubstate (ir : FsmIr) (s : StateNode) : String :=
  findInitialLeafSubstate ir ir.states.length
    (if s.initialSubState ≠ "" then s.initialSubState else (recordedSubstates ir s).headD "")

/-- The target of the row that has the guard of the transition and nothing else. -/
def plainTarget (ir : FsmIr) (t : TransitionEdge) : String :=
  match ir.findState t.target with
  | some s =>
    if s.isComposite then
      if s.hasHistory && !(recordedSubstates ir s).isEmpty then defaultSubstate ir s
      else if s.initialSubState ≠ "" then findInitialLeafSubstate ir ir.states.length s.initialSubState
      else t.target
    else t.target
  | none => t.target

/-- The rows for the recorded substates. -/
def historyRows (ir : FsmIr) (t : TransitionEdge) : List EmittedRow :=
  match ir.findState t.target with
  | some s =>
    if s.isComposite && s.hasHistory then
      (recordedSubstates ir s).map fun sub => singleRow t sub ((guardType t).withHistory s.name sub)
    else []
  | none => []

/-- Whether the target of a transition is a composite state. -/
def intoComposite (ir : FsmIr) (t : TransitionEdge) : Bool :=
  match ir.findState t.target with
  | some s => s.isComposite
  | none => false

/-- The last row of a transition, which has its guard. -/
def plainRow (ir : FsmIr) (t : TransitionEdge) : EmittedRow :=
  if t.kind = .internal && !intoComposite ir t then internalRow t
  else singleRow t (plainTarget ir t) (guardType t)

def transitionRows (ir : FsmIr) (t : TransitionEdge) : List EmittedRow :=
  historyRows ir t ++ [plainRow ir t]

/-- The comparator of the sort. -/
def byPrecedence (a b : TransitionEdge) : Bool := precedence a.priority < precedence b.priority

/-- The transitions in the order of the table. -/
def printedTransitions (ir : FsmIr) : List TransitionEdge := stableSort byPrecedence ir.transitions

def emitTransitionTable (ir : FsmIr) : List EmittedRow :=
  (printedTransitions ir).flatMap (transitionRows ir)

theorem printedTransitions_of_unprioritized {ir : FsmIr} (h : ∀ t ∈ ir.transitions, t.priority = 0) :
    printedTransitions ir = ir.transitions := by
  unfold printedTransitions stableSort
  apply List.mergeSort_of_pairwise
  apply List.pairwise_of_forall_mem_list
  intro a ha b hb
  simp [byPrecedence, h a ha, h b hb]

end Fsmc.Emitter
