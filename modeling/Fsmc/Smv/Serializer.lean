/-
# Fsmc.Smv.Serializer — the module that a machine is exported as.

The states, the choice nodes and the ends of transitions are the constants of one enumeration, the events those
of another. A transition is a branch of the next state, in the order of the priorities, and asks for its source
itself; a time trigger asks for the counter of its source, which counts the steps that are spent there.
-/
import Fsmc.Cpp.Algorithm
import Fsmc.Ir.GraphOps
import Fsmc.Lib.SmvModule
import Fsmc.Smv.Properties

namespace Fsmc.Smv

open Fsmc.Ir Fsmc.Cpp Fsmc.Lib.SmvModule

/-- What the exporter reads of data: which variables and ports have a Boolean type, and how a bound of a port
is converted. -/
structure TypedSource extends Source where
  boolean : String → Bool := fun _ => false
  toInt64 : Double → ℤ

/-! ## Declarations -/

def toSmvType (boolean : Bool) (minVal maxVal : Option ℤ) : VarType :=
  if boolean then .boolean
  else
    match minVal, maxVal with
    | some lo, some hi => .range lo hi
    | _, _ => .range 0 100

/-- The declaration of a variable. -/
def variableDecl (S : TypedSource) (v : VariableDefinition) : String × VarType :=
  (sanitizeSmvIdent v.name, toSmvType (S.boolean v.name) v.minValue v.maxValue)

def portDecl (S : TypedSource) (p : PortDefinition) : String × VarType :=
  (sanitizeSmvIdent p.name, toSmvType (S.boolean p.name) (p.minValue.map S.toInt64) (p.maxValue.map S.toInt64))

/-- `known_idents`, before the guards are read. -/
def knownIdents (S : Source) : List String :=
  stateNames S ++ (eventNames S).map sanitizeSmvIdent ++ ["state", "event", "none", "TRUE", "FALSE", "true", "false"] ++
    S.ir.vars.map (sanitizeSmvIdent ·.name) ++ S.ir.ports.map (sanitizeSmvIdent ·.name)

def resolveGuardExpr (ir : FsmIr) (guardVal : String) : String :=
  match (ir.guards.find? fun g => g.name = guardVal).bind (·.rawExpression) with
  | some raw => if raw = "" then guardVal else raw
  | none => guardVal

/-- The runs of identifier characters in a text, behind those read so far. -/
def identRuns : List Char → List Char → List (List Char)
  | [], cur => if cur = [] then [] else [cur]
  | c :: text, cur =>
    if isIdentChar c then identRuns text (cur ++ [c])
    else (if cur = [] then [] else [cur]) ++ identRuns text []

def extractSmvIdentifiers (expr : String) (known : List String) : List String :=
  (((identRuns expr.toList []).filter fun cur => cur.head?.any fun c => c.isAlpha || c = '_').map String.ofList).filter
    fun name => name ∉ known

/-- What is printed for the guard of a transition. -/
def guardPredicate (ir : FsmIr) (t : TransitionEdge) : Option String :=
  if t.guard.getD "" = "" then none else some (toSmvPredicate (resolveGuardExpr ir (t.guard.getD "")))

def freeGuardVars (S : Source) : List String :=
  stableSort (fun a b => a < b)
    (S.ir.transitions.flatMap fun t =>
      (guardPredicate S.ir t).toList.flatMap fun smvGuard => extractSmvIdentifiers smvGuard (knownIdents S)).dedup

/-! ## Timers -/

def tickCount (durationMs : UInt64) : ℕ := if durationMs = 0 then 1 else durationMs.toNat

/-- The ticks of a transition that has a time trigger. -/
def ticksOf (t : TransitionEdge) : Option ℕ :=
  match t.trigger with
  | .time durationMs _ _ => some (tickCount durationMs)
  | _ => none

/-- The longest duration of the time triggers of a state. -/
def maxDuration (ir : FsmIr) (source : String) : ℕ :=
  ((ir.transitions.filter (·.source = source)).filterMap ticksOf).foldr max 0

def stateMaxTimeouts (ir : FsmIr) : List (String × ℕ) :=
  (stableSort (fun a b => a < b)
    ((ir.transitions.filter fun t => t.source ≠ "" && (ticksOf t).isSome).map (·.source)).dedup).map
      fun s => (s, maxDuration ir s)

def timerName (stateName : String) : String := "timer_" ++ sanitizeSmvIdent stateName

/-- The branches of the next value of a counter. -/
def timerBranches (entry : String × ℕ) : List Branch :=
  [⟨[.equals "state" (sanitizeSmvIdent entry.1), .below (timerName entry.1) entry.2], .succ (timerName entry.1)⟩,
    ⟨[], .number 0⟩]

/-! ## Transitions -/

def firstGiven (names : List String) : String := (names.find? (· ≠ "")).getD ""

def initialText (ir : FsmIr) : String :=
  firstGiven [ir.initialStateId, ir.initialState, (ir.states.head?.map (·.name)).getD "", "Idle"]

def sortedTransitions (ir : FsmIr) : List TransitionEdge :=
  stableSort (fun a b => precedence a.priority < precedence b.priority) ir.transitions

/-- A transition without an event of its own. -/
def isEventless (evt : String) : Bool := evt = "" || evt = "Anonymous" || evt = "none"

/-- What a branch asks of the trigger. -/
def triggerConditions (t : TransitionEdge) : List Condition :=
  match ticksOf t with
  | some dur => [.atLeast (timerName t.source) dur]
  | none => if isEventless t.getTriggerName then [] else [.equals "event" (sanitizeSmvIdent t.getTriggerName)]

def transitionBranch (ir : FsmIr) (t : TransitionEdge) : Branch where
  conditions := .equals "state" (sanitizeSmvIdent t.source) ::
    (triggerConditions t ++ (guardPredicate ir t).toList.map .formula)
  result := .constant (sanitizeSmvIdent t.target)

/-- A transition with both ends. -/
def hasEnds (t : TransitionEdge) : Bool := t.source ≠ "" && t.target ≠ ""

/-- The branches of the next state. -/
def stateBranches (ir : FsmIr) : List Branch :=
  ((sortedTransitions ir).filter hasEnds).map (transitionBranch ir) ++ [⟨[], .same "state"⟩]

/-! ## The module -/

def declarations (S : TypedSource) : List (String × VarType) :=
  ("state", .symbols ((stateNames S.toSource).map sanitizeSmvIdent)) ::
    ("event", .symbols ("none" :: (eventNames S.toSource).map sanitizeSmvIdent)) ::
      (S.ir.vars.map (variableDecl S) ++ S.ir.ports.map (portDecl S) ++
        (freeGuardVars S.toSource).map (fun name => (name, .boolean)) ++
          (stateMaxTimeouts S.ir).map fun entry => (timerName entry.1, .range 0 entry.2))

/-- `serialize`, without the specifications. -/
def serialize (S : TypedSource) : Module where
  vars := declarations S
  init := ("state", .constant (sanitizeSmvIdent (initialText S.ir))) ::
    (S.ir.vars.map (fun v => (sanitizeSmvIdent v.name, .text (if v.initialValue = "" then "0" else v.initialValue))) ++
      (stateMaxTimeouts S.ir).map fun entry => (timerName entry.1, .number 0))
  next := (stateMaxTimeouts S.ir).map (fun entry => (timerName entry.1, timerBranches entry)) ++
    [("state", stateBranches S.ir)]

end Fsmc.Smv
