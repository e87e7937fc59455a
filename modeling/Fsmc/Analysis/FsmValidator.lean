/-
# Fsmc.Analysis.FsmValidator — the checks of a whole model before it is compiled.

Nine checks add their findings to one list, and a model is valid if none of them is an error. The searches
among them work on names and end for every model: each remembers where it has been. What the datapath
checks find is an argument.
-/
import Fsmc.Cpp.Text
import Fsmc.Lib.CycleSearch
import Fsmc.Lib.Worklist
import Fsmc.Passes.HierarchyWalks
import Fsmc.Passes.TriggerConsistency

namespace Fsmc.Analysis.FsmValidator

open Fsmc.Ir Fsmc.Cpp Fsmc.Lib Fsmc.Runtime
open Fsmc.Passes.HierarchyWalks (left)

inductive DiagnosticSeverity where
  | error | warning | safetyCritical | info
  deriving DecidableEq

structure DiagnosticMessage where
  severity : DiagnosticSeverity
  category : String
  message : String
  deriving DecidableEq

/-- `ValidationResult::diagnostics`; the lists of errors and warnings are its parts. -/
abbrev Findings := List DiagnosticMessage

def Findings.isValid (f : Findings) : Bool := f.all fun d => d.severity ≠ .error

def nodeNames (ir : FsmIr) : List String := ir.states.map (·.name) ++ ir.choiceNodes

/-! ## Names -/

def validateInitialState (ir : FsmIr) : Findings :=
  if ir.initialState = "" then
    ir.states.head?.toList.map fun s => ⟨.warning, "InitialState",
      "No initial state '[*]' specified. Defaulting to first state: '" ++ s.name ++ "'."⟩
  else if ir.initialState ∈ nodeNames ir then []
  else [⟨.error, "InitialState", "Initial state '" ++ ir.initialState ++ "' is not defined in the state list."⟩]

/-- What `validate_transition_endpoints` finds about a transition. -/
def endpointFindings (ir : FsmIr) (t : TransitionEdge) : Findings :=
  (if t.source ∈ nodeNames ir then []
    else [⟨.error, "Transition", "Unknown source state/node in transition: '" ++ t.source ++ "'."⟩]) ++
  (if t.target ∈ nodeNames ir then []
    else [⟨.error, "Transition", "Unknown target state/node in transition: '" ++ t.target ++ "'."⟩]) ++
  if t.event = "" && !ir.isChoiceNode t.source then
    [⟨.info, "Transition",
      "Transition from '" ++ t.source ++ "' to '" ++ t.target ++ "' is eventless (immediate)."⟩]
  else []

def validateTransitionEndpoints (ir : FsmIr) : Findings := ir.transitions.flatMap (endpointFindings ir)

/-! ## Choices -/

/-- The guard of a branch, if it has one. -/
def guardOf (t : TransitionEdge) : Option String := t.guard.filter (· ≠ "")

/-- The guards that occur a second time, one for each time, with those seen before. -/
def repeated : List String → List String → List String
  | _, [] => []
  | seen, g :: gs => if g ∈ seen then g :: repeated seen gs else repeated (g :: seen) gs

/-- What `validate_choice_pseudostates` finds about a choice. -/
def choiceFindings (ir : FsmIr) (choice : String) : Findings :=
  let outgoing := ir.transitions.filter fun t => t.source = choice
  if outgoing = [] then
    [⟨.error, "Choice", "Choice pseudostate '" ++ choice ++ "' has no outgoing branches."⟩]
  else
    ((repeated [] (outgoing.filterMap guardOf)).map fun g => ⟨.warning, "Choice", "Choice pseudostate '" ++
      choice ++ "' has duplicate/conflicting guard condition '" ++ g ++ "' on multiple outgoing branches."⟩) ++
    if outgoing.any fun t => (guardOf t).isNone then []
    else [⟨.safetyCritical, "Choice", "Choice pseudostate '" ++ choice ++
      "' lacks an unconditional else/default fallback branch (potential stall)."⟩]

def validateChoicePseudostates (ir : FsmIr) : Findings := ir.choiceNodes.flatMap (choiceFindings ir)

/-! ## Hierarchy -/

/-- How the climb from a state ends. -/
inductive Climb where
  | root
  | cycle (curr : String)
  | unknown (curr : String)
  deriving DecidableEq

/-- The loop over the ancestors, which remembers the names it has been at. -/
def climb (ir : FsmIr) : ℕ → List String → String → Climb
  | 0, _, _ => .root
  | n + 1, visited, curr =>
    if curr = "" then .root
    else if curr ∈ visited then .cycle curr
    else
      match ir.findState curr with
      | none => .unknown curr
      | some p => climb ir n (curr :: visited) p.parentState

/-- The climb from a state, with turns for every state. -/
def climbFrom (ir : FsmIr) (s : StateNode) : Climb := climb ir (ir.states.length + 1) [s.name] s.parentState

/-- The states in turn; the first cycle ends the check. -/
def hierarchyFindings (ir : FsmIr) : List StateNode → Findings
  | [] => []
  | s :: states =>
    match climbFrom ir s with
    | .root => hierarchyFindings ir states
    | .cycle curr => [⟨.error, "Hierarchy",
        "Cyclic parent-child state hierarchy detected involving state '" ++ curr ++ "'."⟩]
    | .unknown curr => ⟨.error, "Hierarchy",
        "State '" ++ s.name ++ "' references unknown parent state '" ++ curr ++ "'."⟩ ::
          hierarchyFindings ir states

def validateStateHierarchy (ir : FsmIr) : Findings := hierarchyFindings ir ir.states

/-! ## Reachability -/

/-- `reachable` and `bfs_queue`. -/
abbrev Marks := Frontier String String

/-- A name that is not empty and new is inserted and queued. -/
def insert (m : Marks) (name : String) : Marks := if name = "" then m else m.discover id "" name

/-- `mark_reachable`: a new name comes with its initial sub-state and its parent. -/
def markReachable (ir : FsmIr) (m : Marks) (name : String) : Marks :=
  if name = "" ∨ name ∈ m.seen then m
  else
    match ir.findState name with
    | some s => insert (insert (insert m name) s.initialSubState) s.parentState
    | none => insert m name

/-- The names that are marked when `current` is taken off the queue, in this order. -/
def successors (ir : FsmIr) (current : String) : List String :=
  (match ir.findState current with
    | some s => [s.initialSubState, s.parentState] ++
        if s.kind = .parallel then (ir.states.filter fun c => c.parentState = current).map (·.name) else []
    | none => []) ++
  ir.transitions.flatMap fun t =>
    (if t.source = current then [t.target] else []) ++
      if parentOf ir current = some t.source then [t.target] else []

/-- The loop; `none` only while the queue is not empty. -/
def search (ir : FsmIr) : ℕ → Marks → Option Marks
  | 0, _ => none
  | n + 1, m =>
    match m.queue with
    | [] => some m
    | current :: rest => search ir n ((successors ir current).foldl (markReachable ir) { m with queue := rest })

/-- All names that the search can come to. -/
def searchNames (ir : FsmIr) : List String :=
  ir.states.map (·.name) ++ ir.states.map (·.initialSubState) ++ ir.states.map (·.parentState) ++
    ir.transitions.map (·.target)

/-- `reachable` after the loop. -/
def reachable (ir : FsmIr) : List String :=
  ((search ir ((searchNames ir).length + 3) (markReachable ir ⟨[], [], []⟩ ir.initialState)).map (·.seen)).getD []

def validateReachability (ir : FsmIr) : Findings :=
  (ir.states.filter fun s => s.name ∉ reachable ir).map fun s =>
    ⟨.warning, "Reachability", "State unreachable from initial state: '" ++ s.name ++ "'."⟩

/-! ## Livelocks -/

def isEventlessStep (t : TransitionEdge) : Bool :=
  Passes.isEventless t.event &&
    match t.trigger with
    | .anonymous => true
    | _ => false

def eventlessAdj (ir : FsmIr) (node : String) : List String :=
  (ir.transitions.filter fun t => isEventlessStep t && t.source = node).map (·.target)

/-- One root: the colours stay as a search that has found a cycle leaves them, and each such search counts. -/
def livelockStep (ir : FsmIr) (n : ℕ) (acc : CycleSearch.Search String × ℕ) (root : String) :
    CycleSearch.Search String × ℕ :=
  (CycleSearch.searchFrom true (eventlessAdj ir) n acc.1 root,
    match acc.1.1 root with
    | .white => acc.2 +
        if (CycleSearch.visit true (eventlessAdj ir) n root (acc.1.1, false)).2 then 1 else 0
    | _ => acc.2)

/-- How many searches find a cycle. -/
def livelocks (ir : FsmIr) : ℕ :=
  ((ir.states.map (·.name)).foldl (livelockStep ir (ir.states.length + ir.transitions.length))
    ((fun _ => .white, false), 0)).2

/-- `validate_livelock_cycles`, without the cycle that the text goes on with. -/
def validateLivelockCycles (ir : FsmIr) : Findings :=
  List.replicate (livelocks ir)
    ⟨.safetyCritical, "Livelock", "Infinite cycle of eventless transitions detected: ["⟩

/-! ## Deadlocks -/

def entered (ir : FsmIr) (name : String) : Bool := ir.transitions.any fun t => t.target = name

def hasAncestorOutgoing (ir : FsmIr) (s : StateNode) : Bool :=
  (chain ir s.parentState).any (left ir)

/-- The states that name a state as their parent. -/
def childrenOf (ir : FsmIr) (name : String) : List String :=
  (ir.states.filter fun c => c.parentState = name).map (·.name)

theorem childrenOf_mem (ir : FsmIr) (name : String) : ∀ c ∈ childrenOf ir name, id c ∈ ir.states.map (·.name) := by
  intro c hc
  obtain ⟨s, hs, rfl⟩ := List.mem_map.mp hc
  exact List.mem_map_of_mem (List.mem_filter.mp hs).1

/-- `has_descendant_outgoing`, of a state that no transition leaves. -/
def hasDescendantOutgoing (ir : FsmIr) (s : StateNode) : Bool :=
  (searchFrom (childrenOf_mem ir) (left ir) s.name).1

/-- `is_intended_final`, of the name in lower case. -/
def isIntendedFinal (lower : String) : Bool :=
  lower ∈ ["end", "final", "stop", "terminate", "completed", "done", "landed"] ||
    startsWith lower "final" || startsWith lower "end_" || "_end".toList.isSuffixOf lower.toList ||
    (find lower "terminal").isSome

/-- The states that are reported as traps. -/
def trapped (ir : FsmIr) (s : StateNode) : Bool :=
  !left ir s.name && entered ir s.name && !hasAncestorOutgoing ir s && !hasDescendantOutgoing ir s &&
    s.kind ≠ .final && !isIntendedFinal (s.name.map Char.toLower)

def validateDeadlockStates (ir : FsmIr) : Findings :=
  (ir.states.filter (trapped ir)).map fun s => ⟨.warning, "Deadlock", "Potential trap / deadlock state: '" ++
    s.name ++ "' has incoming transitions but no outgoing transitions."⟩

/-! ## Conflicts -/

/-- The keys of a `std::map` with a pair of names for each transition, in its order. -/
def sourceEventKeys (ts : List TransitionEdge) : List (String × String) :=
  (ts.map fun t => (t.source, t.event)).dedup.mergeSort fun a b => a.1 < b.1 || (a.1 = b.1 && a.2 ≤ b.2)

def validateTransitionDeterminism (ir : FsmIr) : Findings :=
  let keyed := ir.transitions.filter fun t => t.event ≠ ""
  ((sourceEventKeys keyed).filter fun k =>
      1 < keyed.countP fun t => (t.source, t.event) = k && (guardOf t).isNone).map fun k =>
    ⟨.safetyCritical, "Determinism", "Non-deterministic conflict in state '" ++ k.1 ++
      "': multiple unconditional transitions on event '" ++ k.2 ++ "'."⟩

def validateTimedTransitions (ir : FsmIr) : Findings :=
  let timed := ir.transitions.filter fun t => startsWith t.event "after_" || startsWith t.event "after("
  ((sourceEventKeys timed).filter fun k => 1 < timed.countP fun t => (t.source, t.event) = k).map fun k =>
    ⟨.warning, "TimedTransition", "Duplicate timer transitions defined for duration '" ++ k.2 ++
      "' on state '" ++ k.1 ++ "'."⟩

/-! ## The model -/

/-- The checks before the one of reachability, which is made only when they find no error. -/
def structuralFindings (ir : FsmIr) : Findings :=
  validateInitialState ir ++ validateTransitionEndpoints ir ++ validateChoicePseudostates ir ++
    validateStateHierarchy ir

/-- `validate`, with the errors and the warnings of the datapath checks. -/
def validate (semErrors semWarnings : List String) (ir : FsmIr) : Findings :=
  if ir.states = [] && ir.choiceNodes = [] then
    [⟨.error, "Structure", "State machine does not contain any states."⟩]
  else
    structuralFindings ir ++
    (if (structuralFindings ir).isValid && ir.initialState ≠ "" then validateReachability ir else []) ++
    validateLivelockCycles ir ++ validateDeadlockStates ir ++ validateTransitionDeterminism ir ++
    validateTimedTransitions ir ++ semErrors.map (⟨.error, "Semantics", ·⟩) ++
    semWarnings.map (⟨.warning, "Semantics", ·⟩)

end Fsmc.Analysis.FsmValidator
