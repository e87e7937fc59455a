/-
# Fsmc.Ir.FsmIr — the intermediate representation of a state machine.

States and transitions refer to each other by name. The records hold the fields that the modelled
analyses read; nothing in them forces a name to resolve, so well-formedness is a separate predicate.
-/
import Fsmc.Cpp.Double
import Fsmc.Ir.Action
import Fsmc.Ir.Guard
import Fsmc.Ir.Property

namespace Fsmc.Ir

open Fsmc.Cpp

inductive StateKind where
  | atomic | composite | parallel | initial | final | shallowHistory | deepHistory | choice
  | junction | fork | join | entryPoint | exitPoint | terminate
  deriving DecidableEq, Repr

structure OrthogonalRegion where
  id : String := ""
  name : String := ""
  initialStateId : String := ""
  stateIds : List String := []
  priority : UInt32 := 0
  deriving DecidableEq

structure PortMapping where
  entryPoint : String := ""
  deriving DecidableEq

structure SubmachineRef where
  fsmName : String := ""
  portMappings : List PortMapping := []
  deriving DecidableEq

/-- `StateNode`; `aliasName` is its `alias`, and a time invariant is its text. -/
structure StateNode where
  id : String := ""
  name : String := ""
  aliasName : String := ""
  fqn : String := ""
  kind : StateKind := .atomic
  parentState : String := ""
  parentId : Option String := none
  childrenIds : List String := []
  orthogonalRegions : List OrthogonalRegion := []
  submachine : Option SubmachineRef := none
  isComposite : Bool := false
  pinnedParent : Bool := false
  initialSubState : String := ""
  hasHistory : Bool := false
  hasDeepHistory : Bool := false
  entryActions : List ActionSignature := []
  exitActions : List ActionSignature := []
  doActivity : Option String := none
  timeInvariant : Option String := none
  invariants : List GuardAstNode := []
  deferredEvents : List String := []
  outgoingTransitions : List Nat := []
  incomingTransitions : List Nat := []
  description : String := ""

/-- `TriggerVariant`: what makes a transition fire. -/
inductive TriggerVariant where
  | signal (signalName : String)
  | time (durationMs : UInt64) (periodic : Bool) (dynamicExpression : String := "")
  | change (rawExpression : String) (predicate : Option GuardAstNode := none) (activeOnTrue : Bool := true)
  | anonymous

inductive TransitionEdgeKind where
  | external | internal | local
  deriving DecidableEq, Repr

structure TransitionEdge where
  id : String := ""
  source : String := ""
  target : String := ""
  sourceId : String := ""
  targetId : String := ""
  sourceIds : List String := []
  targetIds : List String := []
  clockResets : List String := []
  event : String := ""
  guard : Option String := none
  trigger : TriggerVariant := .anonymous
  guardAst : Option GuardAstNode := none
  conditionAction : Option ActionSignature := none
  transitionAction : Option ActionSignature := none
  kind : TransitionEdgeKind := .external
  priority : UInt32 := 0
  targetIsHistory : Bool := false
  targetIsDeepHistory : Bool := false
  parentScope : String := ""

def TransitionEdge.getTriggerName (t : TransitionEdge) : String :=
  if t.event ≠ "" then t.event
  else
    match t.trigger with
    | .signal signalName => signalName
    | .time durationMs periodic _ =>
      (if periodic then "every_" else "after_") ++ toString durationMs.toNat ++ "ms"
    | .change rawExpression _ _ => "when(" ++ rawExpression ++ ")"
    | .anonymous => ""

/-- `get_guard`: the text of the structured guard, else the raw text. -/
def TransitionEdge.getGuard (t : TransitionEdge) : String :=
  match t.guardAst with
  | some ast => ast.toCpp
  | none => t.guard.getD ""

/-- `get_action`: the transition action names the transition, else the condition action. -/
def TransitionEdge.getAction (t : TransitionEdge) : String :=
  match t.transitionAction, t.conditionAction with
  | some a, _ => a.name
  | none, some a => a.name
  | none, none => ""

structure VariableDefinition where
  name : String := ""
  initialValue : String := "0"
  minValue : Option Int := none
  maxValue : Option Int := none
  registerIndex : Option Nat := none

inductive PortDirection where
  | in | out | inOut
  deriving DecidableEq, Repr

structure PortDefinition where
  name : String := ""
  direction : PortDirection := .in
  minValue : Option Double := none
  maxValue : Option Double := none
  defaultValue : String := ""

def PortDefinition.isIn (p : PortDefinition) : Bool := p.direction = .in || p.direction = .inOut

def PortDefinition.isOut (p : PortDefinition) : Bool := p.direction = .out || p.direction = .inOut

/-- `FsmIr`; `vars` are its `variables`, and a choice node is its name. -/
structure FsmIr where
  initialState : String := ""
  initialStateId : String := ""
  states : List StateNode := []
  transitions : List TransitionEdge := []
  ports : List PortDefinition := []
  vars : List VariableDefinition := []
  properties : List FormalProperty := []
  guards : List GuardModel := []
  choiceNodes : List String := []

/-- `find_state`: the first state with that name. -/
def FsmIr.findState (ir : FsmIr) (stateName : String) : Option StateNode :=
  ir.states.find? fun s => s.name = stateName

def FsmIr.findStateById (ir : FsmIr) (stateId : String) : Option StateNode :=
  ir.states.find? fun s => s.id = stateId

def FsmIr.findPort (ir : FsmIr) (portName : String) : Option PortDefinition :=
  ir.ports.find? fun p => p.name = portName

def FsmIr.findVariable (ir : FsmIr) (varName : String) : Option VariableDefinition :=
  ir.vars.find? fun v => v.name = varName

def FsmIr.isChoiceNode (ir : FsmIr) (nodeName : String) : Bool :=
  nodeName ∈ ir.choiceNodes ||
    match ir.findState nodeName with
    | some s => s.kind = .choice
    | none => false

/-- The identifier of the state at one end of a transition, which is found by its name when there is no
state with the identifier given. -/
def FsmIr.resolveStateId (ir : FsmIr) (stateId stateName : String) : String :=
  match ir.findStateById stateId with
  | some _ => stateId
  | none =>
    match ir.findState (if stateName = "" then stateId else stateName) with
    | some s => s.id
    | none => stateId

/-- The names of the variables. -/
def FsmIr.knownVars (ir : FsmIr) : List String := ir.vars.map (·.name)

theorem FsmIr.findState_spec {ir : FsmIr} {name : String} {s : StateNode}
    (h : ir.findState name = some s) : s ∈ ir.states ∧ s.name = name :=
  ⟨List.mem_of_find?_eq_some h, by simpa using List.find?_some h⟩

end Fsmc.Ir
