/-
# Fsmc.Analysis.EfsmInterval — the interval analysis of the data path.

`computeStateIntervals` carries an environment of intervals along the transitions until nothing changes or
200 states have been taken from the worklist; from the third visit on a state's intervals are widened.
An assignment is understood through its text: the first of a list of shapes that the text has decides
what becomes of the interval.

A result is `none` where an exception leaves the analyser: a number in a text is too large for `std::stod`.
Names are identifiers, so a name that is put into a regular expression stands for itself. Environments
are hash maps in the source and lists here; each variable is merged for itself, so the order of the entries
decides nothing.
-/
import Fsmc.Analysis.Interval
import Fsmc.Cpp.Regex
import Fsmc.Ir.FsmIr
import Fsmc.Lib.AssocList

namespace Fsmc.Analysis.EfsmInterval

open Fsmc.Cpp Fsmc.Ir Fsmc.Lib

/-- The intervals of the variables. -/
abbrev Env := List (String × Interval)

def intervalOf (env : Env) (name : String) : Interval := (env.lookup name).getD {}

/-! ## Assignments -/

/-- `strip_qualifier`: what follows the last point. -/
def stripQualifier (name : String) : String := String.ofList (name.toList.rtakeWhile (· ≠ '.'))

/-- A character that may end the literal of a number. -/
def isSuffixChar (c : Char) : Bool := c ∈ "fFuUlL".toList

def cleanNumberLiteral (s : String) : String := String.ofList (s.toList.rdropWhile isSuffixChar)

/-- What the text of a right-hand side is taken for. -/
inductive Reading where
  | constant (c : Double)
  | copy (name : String)
  | addConst (name : String) (k : Double)
  | subConst (name : String) (k : Double)
  | mulConst (name : String) (k : Double)
  | divConst (name : String) (k : Double)
  | add (x y : String)
  | sub (x y : String)
  | mul (x y : String)
  | unknown
  deriving DecidableEq, Repr

def Reading.eval (env : Env) : Reading → Interval
  | constant c => ⟨c, c⟩
  | copy name => intervalOf env name
  | addConst name k => (intervalOf env name).addConst k
  | subConst name k => (intervalOf env name).subConst k
  | mulConst name k => (intervalOf env name).mulConst k
  | divConst name k => (intervalOf env name).divConst k
  | add x y => (intervalOf env x).add (intervalOf env y)
  | sub x y => (intervalOf env x).sub (intervalOf env y)
  | mul x y => (intervalOf env x).mul (intervalOf env y)
  | unknown => {}

section Shapes

open Regex

/-- `(?:(?:in|reg|out)\.)?`. -/
def qualifier : Regex :=
  opt (seq (alt (literal "in") (alt (literal "reg") (literal "out"))) (one (· = '.')))

/-- `[+-]?\d+(?:\.\d+)?[fFuUlL]*`. -/
def number : Regex :=
  concat [opt (one fun c => c = '+' || c = '-'), digits, opt (seq (one (· = '.')) digits),
    many isSuffixChar]

/-- A variable, an operator and a number. -/
def varOpNumber (op : Char) (i : Nat) : Regex :=
  concat [qualifier, group i word, spaces, one (· = op), spaces, group (i + 1) number]

/-- A number, an operator and a variable. -/
def numberOpVar (op : Char) (i : Nat) : Regex :=
  concat [group i number, spaces, one (· = op), spaces, qualifier, group (i + 1) word]

def addRe : Regex := alt (varOpNumber '+' 1) (numberOpVar '+' 3)

def subRe (var : String) : Regex :=
  concat [qualifier, literal var, spaces, one (· = '-'), spaces, group 1 number]

def mulRe : Regex := alt (varOpNumber '*' 1) (numberOpVar '*' 3)

def divRe : Regex := varOpNumber '/' 1

def binVarRe : Regex :=
  concat [qualifier, group 1 word, spaces,
    group 2 (one fun c => c = '+' || c = '-' || c = '*'), spaces, qualifier, group 3 word]

end Shapes

def str (m : Captures) (i : Nat) : String := (m.text i).getD ""

/-- `matched_var` and `num_str`, which stand in one of two orders. -/
def operands (m : Captures) : String × String :=
  if (m.text 1).isSome then (str m 1, str m 2) else (str m 4, str m 3)

/-- A shape that may not be there, or whose number may throw. -/
abbrev Attempt := Option (Option Reading)

/-- The operation of a variable with the number in a text. -/
def withNumber (reading : Double → Reading) (numStr : String) : Attempt :=
  (stod (cleanNumberLiteral numStr)).map fun k => some (reading k)

/-- The reading of a text as a sum of the variable with a number. -/
def readAdd (var expr : String) : Attempt :=
  match addRe.search expr with
  | none => some none
  | some m =>
    let (matchedVar, numStr) := operands m
    if matchedVar = var then withNumber (.addConst var) numStr else some none

/-- As a difference of the variable and a number. -/
def readSub (var expr : String) : Attempt :=
  match (subRe var).search expr with
  | none => some none
  | some m => withNumber (.subConst var) (str m 1)

/-- As a product of a variable with a number; the number is read before the variable is looked up. -/
def readMul (tracked : String → Bool) (expr : String) : Attempt :=
  match mulRe.search expr with
  | none => some none
  | some m =>
    let (matchedVar, numStr) := operands m
    (withNumber (.mulConst matchedVar) numStr).map fun r => if tracked matchedVar then r else none

/-- As a quotient of a variable and a number. -/
def readDiv (tracked : String → Bool) (expr : String) : Attempt :=
  match divRe.search expr with
  | none => some none
  | some m =>
    (withNumber (.divConst (str m 1)) (str m 2)).map fun r => if tracked (str m 1) then r else none

/-- As an operation of two variables. -/
def readBinary (tracked : String → Bool) (expr : String) : Attempt :=
  match binVarRe.search expr with
  | none => some none
  | some m =>
    if tracked (str m 1) && tracked (str m 3) then
      if str m 2 = "+" then some (some (.add (str m 1) (str m 3)))
      else if str m 2 = "-" then some (some (.sub (str m 1) (str m 3)))
      else some (some (.mul (str m 1) (str m 3)))
    else some none

/-- The first shape that is there. -/
def firstReading : List Attempt → Option Reading
  | [] => some .unknown
  | none :: _ => none
  | some none :: rest => firstReading rest
  | some (some r) :: _ => some r

/-- What `apply_assignment` takes an expression for, given which names have an interval. -/
def readExpression (tracked : String → Bool) (var expr : String) : Option Reading :=
  if expr = "true" || expr = "true;" then some (.constant (.fin 1))
  else if expr = "false" || expr = "false;" then some (.constant (.fin 0))
  else
    match stod (cleanNumberLiteral expr) with
    | some c => some (.constant c)
    | none =>
      if tracked (stripQualifier expr) then some (.copy (stripQualifier expr))
      else
        firstReading [readAdd var expr, readSub var expr, readMul tracked expr,
          readDiv tracked expr, readBinary tracked expr]

/-- The names that have an interval. -/
def tracks (env : Env) (name : String) : Bool := (env.lookup name).isSome

/-- `apply_assignment`; the operator of the assignment plays no part. -/
def applyAssignment (env : Env) (assign : ActionAssignment) : Option Env :=
  let var := stripQualifier assign.target.name
  (readExpression (tracks env) var assign.expression).map fun r =>
    AssocList.assign var (r.eval env) env

/-! ## Propagation -/

/-- `process_action_assignments`. -/
def applyAction (env : Env) : Option ActionSignature → Option Env
  | none => some env
  | some act => act.assignments.foldlM applyAssignment env

/-- `next_env` of a transition. -/
def applyEdge (env : Env) (t : TransitionEdge) : Option Env :=
  (applyAction env t.conditionAction).bind fun env => applyAction env t.transitionAction

/-- The interval that a variable starts with. -/
def initialInterval (v : VariableDefinition) : Interval :=
  if v.initialValue = "" then {}
  else
    match stod v.initialValue with
    | some val => ⟨val, val⟩
    | none => {}

/-- The bounds that a port is declared with. -/
def portContract (p : PortDefinition) : Interval :=
  ⟨p.minValue.getD .negInf, p.maxValue.getD .posInf⟩

/-- The interval that a port starts with: its default value, else its bounds. -/
def initialPortInterval (p : PortDefinition) : Interval :=
  if p.defaultValue = "" then portContract p
  else
    match stod p.defaultValue with
    | some val => ⟨val, val⟩
    | none => portContract p

def initEnv (ir : FsmIr) : Env :=
  let env := ir.vars.foldl (fun env v => AssocList.assign v.name (initialInterval v) env) []
  ir.ports.foldl (fun env p => AssocList.assign p.name (initialPortInterval p) env) env

def root (ir : FsmIr) : String :=
  if ir.initialState = "" then (ir.states.head?.map (·.name)).getD "" else ir.initialState

/-- The data of the loop; `visits` holds a state once for each visit. -/
structure Propagation where
  stateEnvs : StateIntervals
  worklist : List String
  visits : List String

section Loop

-- when two intervals are taken for different
variable (differs : Interval → Interval → Bool)

/-- One variable is merged into the environment of the target, with `changed`. -/
def mergeVar (applyWidening : Bool) (target : Env × Bool) (entry : String × Interval) : Env × Bool :=
  match target.1.lookup entry.1 with
  | none => (AssocList.assign entry.1 entry.2 target.1, true)
  | some old =>
    let merged := if applyWidening then old.widenWith entry.2 else old.joinWith entry.2
    if differs merged old then (AssocList.assign entry.1 merged target.1, true) else target

/-- `target_env` after a transition, with `changed`. -/
def mergeEnv (applyWidening : Bool) (targetEnv nextEnv : Env) : Env × Bool :=
  nextEnv.foldl (mergeVar differs applyWidening) (targetEnv, false)

/-- The environment of a state. -/
def Propagation.env (p : Propagation) (state : String) : Env := (p.stateEnvs.lookup state).getD []

/-- One outgoing transition of the state that was taken from the worklist. -/
def processEdge (currEnv : Env) (p : Propagation) (t : TransitionEdge) : Option Propagation :=
  (applyEdge currEnv t).map fun nextEnv =>
    let target := mergeEnv differs (3 ≤ p.visits.count t.target) (p.env t.target) nextEnv
    { p with
      stateEnvs := AssocList.assign t.target target.1 p.stateEnvs
      worklist :=
        if target.2 && !p.worklist.contains t.target then p.worklist ++ [t.target]
        else p.worklist }

/-- One round of the loop; without a worklist there is nothing to do. -/
def round (ir : FsmIr) (p : Propagation) : Option Propagation :=
  match p.worklist with
  | [] => some p
  | currState :: worklist =>
    (ir.transitions.filter fun t => t.source = currState).foldlM
      (processEdge differs (p.env currState))
      { p with worklist := worklist, visits := currState :: p.visits }

def rounds (ir : FsmIr) : Nat → Propagation → Option Propagation
  | 0, p => some p
  | n + 1, p => (round differs ir p).bind (rounds ir n)

end Loop

/-- The loop before its first round. -/
def start (ir : FsmIr) : Propagation := ⟨[(root ir, initEnv ir)], [root ir], []⟩

def kMaxIterations : Nat := 200

def differs (a b : Interval) : Bool := !a.same b

def computeStateIntervals (ir : FsmIr) : Option StateIntervals :=
  if ir.vars.isEmpty && ir.ports.isEmpty then some []
  else if root ir = "" then some []
  else (rounds differs ir kMaxIterations (start ir)).map (·.stateEnvs)

end Fsmc.Analysis.EfsmInterval
