/-
# Fsmc.Smv.Text — the text that a machine is exported as.

The exporter writes line by line. A transition is one line of the `case` of the next state, with its action in a
comment behind it; a property takes two lines, the keyword with the name in a comment and the formula.
-/
import Fsmc.Smv.Serializer

namespace Fsmc.Smv

open Fsmc.Ir Fsmc.Cpp Fsmc.Lib.SmvModule

/-- What the exporter reads besides: the name of the machine and the physical units of its variables. -/
structure TextSource extends TypedSource where
  name : String := ""
  physicalUnit : String → Option String := fun _ => none

/-! ## Declarations -/

/-- How a type is written. -/
def typeText : VarType → String
  | .boolean => "boolean"
  | .range lo hi => toString lo ++ ".." ++ toString hi
  | .symbols constants => "\x7b" ++ ", ".intercalate constants ++ "\x7d"

/-- The lines before the declarations. -/
def headerLines (S : TextSource) : List String :=
  ["-- ============================================================================",
    "-- nuXmv / SMV Formal Verification Model: " ++ (if S.name = "" then "main" else S.name),
    "-- Generated automatically by fsmc (https://github.com/simoneCavalleri/fsmc)",
    "-- ============================================================================", "", "MODULE main", "", "VAR"]

/-- The enumeration of the states. -/
def stateLine (S : Source) : String :=
  "  state : " ++ typeText (.symbols ((stateNames S).map sanitizeSmvIdent)) ++ ";"

/-- The enumeration of the events. -/
def eventLine (S : Source) : String :=
  "  event : " ++ typeText (.symbols ("none" :: (eventNames S).map sanitizeSmvIdent)) ++ ";"

/-- The declaration of a variable. -/
def variableLine (S : TextSource) (v : VariableDefinition) : String :=
  let decl := variableDecl S.toTypedSource v
  "  " ++ decl.1 ++ " : " ++ typeText decl.2 ++ ";" ++
    ((S.physicalUnit v.name).map (" -- physical unit: " ++ ·)).getD ""

def portDirectionToString : PortDirection → String
  | .in => "in"
  | .out => "out"
  | .inOut => "inout"

def portLine (S : TextSource) (p : PortDefinition) : String :=
  let decl := portDecl S.toTypedSource p
  "  " ++ decl.1 ++ " : " ++ typeText decl.2 ++ ";" ++ " -- port (" ++ portDirectionToString p.direction ++ ")"

/-- The declaration of a free variable of the guards. -/
def guardVarLine (name : String) : String := "  " ++ name ++ " : boolean; -- input guard condition"

/-- The declaration of a counter. -/
def timerLine (entry : String × ℕ) : String :=
  "  " ++ timerName entry.1 ++ " : 0.." ++ toString entry.2 ++ ";"

/-- The declarations behind those of the state and the event. -/
def declarationLines (S : TextSource) : List String :=
  S.ir.vars.map (variableLine S) ++ S.ir.ports.map (portLine S) ++ (freeGuardVars S.toSource).map guardVarLine ++
    (stateMaxTimeouts S.ir).map timerLine

/-! ## Assignments -/

def initialLine (ir : FsmIr) : String := "  init(state) := " ++ sanitizeSmvIdent (initialText ir) ++ ";"

/-- The initial value of a variable. -/
def variableInitLine (v : VariableDefinition) : String :=
  "  init(" ++ sanitizeSmvIdent v.name ++ ") := " ++ (if v.initialValue = "" then "0" else v.initialValue) ++ ";"

/-- The assignments of a counter. -/
def timerInitLines (entry : String × ℕ) : List String :=
  ["  init(" ++ timerName entry.1 ++ ") := 0;", "  next(" ++ timerName entry.1 ++ ") := case",
    "    state = " ++ sanitizeSmvIdent entry.1 ++ " & " ++ timerName entry.1 ++ " < " ++ toString entry.2 ++ " : " ++
      timerName entry.1 ++ " + 1;",
    "    TRUE : 0;", "  esac;"]

/-- The assignments behind that of the initial state. -/
def assignmentLines (S : TextSource) : List String :=
  S.ir.vars.map variableInitLine ++ (stateMaxTimeouts S.ir).flatMap timerInitLines

/-! ## Transitions -/

/-- What a transition asks of the trigger. -/
def triggerText (t : TransitionEdge) : String :=
  match ticksOf t with
  | some dur => " & " ++ timerName t.source ++ " >= " ++ toString dur
  | none => if isEventless t.getTriggerName then "" else " & event = " ++ sanitizeSmvIdent t.getTriggerName

/-- The guard of a transition, in parentheses. -/
def guardText (ir : FsmIr) (t : TransitionEdge) : String :=
  ((guardPredicate ir t).map fun guardStr => " & (" ++ guardStr ++ ")").getD ""

/-- The comment with the action of a transition. -/
def actionText (t : TransitionEdge) : String := if t.getAction = "" then "" else " -- action: " ++ t.getAction

def transitionLine (ir : FsmIr) (t : TransitionEdge) : String :=
  "    state = " ++ sanitizeSmvIdent t.source ++ triggerText t ++ guardText ir t ++ " : " ++
    sanitizeSmvIdent t.target ++ ";" ++ actionText t

/-- The lines of the transitions, in the order of their priorities. -/
def transitionLines (ir : FsmIr) : List String := ((sortedTransitions ir).filter hasEnds).map (transitionLine ir)

/-! ## Properties -/

def toSmvFormula (S : Source) (prop : FormalProperty) : String :=
  match prop.ast with
  | some ast => formatAst S ast
  | none => toSmvPredicate prop.rawFormula

def propertyLines (S : Source) (prop : FormalProperty) : List String :=
  if prop.kind = .invariant then
    ["INVARSPEC -- " ++ sanitizeSmvIdent prop.name, "  " ++ invariantText (toSmvFormula S prop) ++ ";", ""]
  else ["LTLSPEC -- " ++ sanitizeSmvIdent prop.name, "  " ++ toSmvFormula S prop ++ ";", ""]

/-- The lines of the properties, under a heading. -/
def specificationLines (S : Source) : List String :=
  if S.ir.properties = [] then []
  else
    ["-- ============================================================================",
        "-- Formal Specifications & Verification Goals",
        "-- ============================================================================", ""] ++
      S.ir.properties.flatMap (propertyLines S)

/-! ## The text -/

def serializedLines (S : TextSource) : List String :=
  headerLines S ++ [stateLine S.toSource, eventLine S.toSource] ++ declarationLines S ++
    ["", "ASSIGN", initialLine S.ir] ++ assignmentLines S ++ ["", "  next(state) := case"] ++ transitionLines S.ir ++
      ["    TRUE : state;", "  esac;", ""] ++ specificationLines S.toSource

/-- `SmvSerializer::serialize`. -/
def serializeText (S : TextSource) : String := String.join ((serializedLines S).map (· ++ "\n"))

theorem toList_serializeText (S : TextSource) :
    (serializeText S).toList = ((serializedLines S).map String.toList).flatMap (· ++ ['\n']) := by
  unfold serializeText
  rw [String.toList_join, List.flatMap_map, List.flatMap_map]
  congr 1
  funext line
  exact String.toList_append

end Fsmc.Smv
