/-
# Fsmc.Analysis.EfsmFindings — guards and contracts against the intervals.

`analyze` reports a guard whose comparison with some variable leaves nothing of the variable's interval,
and an assignment that puts a variable or an out-port outside its contract. Of a guard it reads the first
comparison of the variable with a number and nothing else. The findings of one transition come in the
order of the entries of its environment, which the source leaves open; the texts of messages are left out.
-/
import Fsmc.Analysis.EfsmInterval

namespace Fsmc.Analysis.EfsmInterval

open Fsmc.Cpp Fsmc.Ir Fsmc.Lib

/-! ## Guards -/

def isNameChar (c : Char) : Bool := c.isAlphanum || c = '_'

/-- `prefix_ok`, from the text before the name, last character first. -/
def prefixOk : List Char → Bool
  | [] => true
  | '.' :: before =>
    String.ofList (before.takeWhile fun c => !" \t\r\n(".toList.contains c).reverse ∈
      ["in", "reg", "out", "cmd", "event", "payload"]
  | c :: _ => !isNameChar c

/-- `suffix_ok`, from the text behind the name. -/
def suffixOk : List Char → Bool
  | [] => true
  | c :: _ => !isNameChar c

/-- The comparison that a text begins with, as the interval that a number gives, and what follows it. -/
def scanOp : List Char → Option ((Double → Interval) × List Char)
  | '>' :: '=' :: rem => some (fun c => ⟨c, .posInf⟩, rem)
  | '>' :: rem => some (fun c => ⟨c.add Double.tolerance, .posInf⟩, rem)
  | '<' :: '=' :: rem => some (fun c => ⟨.negInf, c⟩, rem)
  | '<' :: rem => some (fun c => ⟨.negInf, c.sub Double.tolerance⟩, rem)
  | '=' :: '=' :: rem => some (fun c => ⟨c, c⟩, rem)
  | _ => none

/-- `num_str`: a sign, and digits and points. -/
def scanNumber : List Char → List Char
  | '+' :: rem => '+' :: rem.takeWhile fun c => c.isDigit || c = '.'
  | '-' :: rem => '-' :: rem.takeWhile fun c => c.isDigit || c = '.'
  | rem => rem.takeWhile fun c => c.isDigit || c = '.'

/-- White space inside a comparison. -/
def isBlankChar (c : Char) : Bool := c = ' ' || c = '\t'

/-- The domain that a comparison behind a name describes: `none` when there is none and the search goes on,
`some none` when it ends without one. -/
def comparisonDomain (rem : List Char) : Option (Option Interval) :=
  match scanOp (rem.dropWhile isBlankChar) with
  | none => none
  | some (domain, rem) =>
    let num := scanNumber (rem.dropWhile isBlankChar)
    if num.any Char.isDigit then some ((stod (String.ofList num)).map domain) else none

/-- The loop of `parse_guard_domain`, with the text before the position, last character first. -/
def searchDomain (varName : List Char) : List Char → List Char → Option Interval
  | _, [] => none
  | before, c :: text =>
    let here :=
      if varName.isPrefixOf (c :: text) && prefixOk before &&
          suffixOk ((c :: text).drop varName.length) then
        comparisonDomain ((c :: text).drop varName.length)
      else none
    match here with
    | some domain => domain
    | none => searchDomain varName (c :: before) text

def parseGuardDomain (expr varName : String) : Option Interval :=
  searchDomain varName.toList [] expr.toList

/-- `EFSMAnalysisFinding`, without its message. -/
structure EFSMAnalysisFinding where
  variableName : String
  transitionId : String
  sourceState : String
  targetState : String
  isError : Bool
  deriving DecidableEq, Repr

def findingOn (t : TransitionEdge) (variableName : String) (isError : Bool) : EFSMAnalysisFinding :=
  ⟨variableName, t.id, t.source, t.target, isError⟩

/-- `g_str`: the expression of a guard that is given by its name. -/
def guardText (ir : FsmIr) (guard : String) : String :=
  match ir.guards.find? fun gm => gm.name = guard && gm.rawExpression.isSome with
  | some gm => gm.rawExpression.getD guard
  | none => guard

def guardFindings (ir : FsmIr) (env : Env) (t : TransitionEdge) : List EFSMAnalysisFinding :=
  match t.guard with
  | none => []
  | some guard =>
    if guard = "" || guard = "else" || guard = "default" then []
    else
      env.filterMap fun (varName, varInterval) =>
        match parseGuardDomain (guardText ir guard) varName with
        | some domain =>
          if (varInterval.intersectWith domain).isEmpty then some (findingOn t varName false) else none
        | none => none

example : parseGuardDomain "!(reg.x <= 5) || y" "x" = some ⟨.negInf, .fin 5⟩ := by decide +kernel

/-! ## Contracts -/

def portBound (ir : FsmIr) (name : String) : Option Interval :=
  (ir.findPort name).bind fun p =>
    if p.isOut && (p.minValue.isSome || p.maxValue.isSome) then some (portContract p) else none

section Bounds

-- the conversion of a `double` to `int64_t`, which is undefined for an infinity
variable (toInt64 : Double → Int)

/-- `var_bound`; `value_or` converts the infinity that stands for a missing bound to the type of the
bound. -/
def varBound (ir : FsmIr) (name : String) : Option Interval :=
  (ir.findVariable name).bind fun v =>
    if v.minValue.isSome || v.maxValue.isSome then
      some ⟨roundDouble (v.minValue.getD (toInt64 .negInf)),
        roundDouble (v.maxValue.getD (toInt64 .posInf))⟩
    else none

/-- `env[name]` leaves an entry behind. -/
def touch (name : String) (env : Env) : Env :=
  if tracks env name then env else AssocList.assign name {} env

/-- The check of an assigned interval against a bound. -/
def checkBound (t : TransitionEdge) (name : String) (env : Env) :
    Option Interval → Env × List EFSMAnalysisFinding
  | none => (env, [])
  | some bound =>
    (touch name env,
      if (bound.intersectWith (intervalOf env name)).isEmpty then [findingOn t name true] else [])

/-- One assignment of `check_actions`. -/
def checkAssignment (ir : FsmIr) (t : TransitionEdge) (acc : Env × List EFSMAnalysisFinding)
    (assign : ActionAssignment) : Option (Env × List EFSMAnalysisFinding) :=
  (applyAssignment acc.1 assign).map fun env =>
    let name := assign.target.name
    let port := checkBound t name env (portBound ir name)
    let var := checkBound t name port.1 (varBound toInt64 ir name)
    (var.1, acc.2 ++ port.2 ++ var.2)

def checkActions (ir : FsmIr) (t : TransitionEdge) (acc : Env × List EFSMAnalysisFinding) :
    Option ActionSignature → Option (Env × List EFSMAnalysisFinding)
  | none => some acc
  | some act => act.assignments.foldlM (checkAssignment toInt64 ir t) acc

def transitionFindings (ir : FsmIr) (stateEnvs : StateIntervals) (t : TransitionEdge) :
    Option (List EFSMAnalysisFinding) :=
  match stateEnvs.lookup t.source with
  | none => some []
  | some currEnv =>
    (checkActions toInt64 ir t (currEnv, guardFindings ir currEnv t) t.conditionAction).bind fun acc =>
      (checkActions toInt64 ir t acc t.transitionAction).map (·.2)

def analyze (ir : FsmIr) : Option (List EFSMAnalysisFinding) :=
  if ir.vars.isEmpty && ir.ports.isEmpty then some []
  else
    (computeStateIntervals ir).bind fun stateEnvs =>
      ir.transitions.foldlM
        (fun findings t => (transitionFindings toInt64 ir stateEnvs t).map (findings ++ ·)) []

end Bounds

end Fsmc.Analysis.EfsmInterval
