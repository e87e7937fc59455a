/-
# Fsmc.Smv.Parser — reading a module back.

The reader takes a text line by line and knows the section it is in. Only the `case` of the next state is not
read by lines: its lines are put behind each other, and a statement is what comes before a semicolon. What is
behind the last one stays for the next line, a comment included.

What the directives in comments do to a machine is a parameter: the exporter writes none.
-/
import Fsmc.Cpp.Lines
import Fsmc.Frontend.GuardNames
import Fsmc.Frontend.LtlParser
import Fsmc.Ir.Canonical

namespace Fsmc.Smv.Parser

open Fsmc.Ir Fsmc.Cpp Fsmc.Lib.Registry Fsmc.Frontend.GuardNames
open Fsmc.Frontend.LtlParser (trim)

/-! ## The machine that is read -/

/-- The machine read so far, with the variables among its own that are Boolean. -/
structure Draft extends WholeIr where
  booleans : List String := []

namespace Draft

/-- The entry with a key is replaced, and added when there is none. -/
def put {α : Type} (key : α → String) (entry : α) (table : List α) : List α :=
  if key entry ∈ table.map key then modifyFirst (fun x => key x = key entry) (fun _ => entry) table
  else table ++ [entry]

variable (d : Draft)

/-- `add_or_get_state`, without a parent. -/
def addState (stateName : String) : Draft :=
  { d with
    states := register (·.name) (fun name => { id := computeDeterministicId name, name := name, fqn := name })
      d.states stateName }

/-- `add_event` and `add_signal` of an event. -/
def addEvent (eventName : String) : Draft :=
  { d with
    signals :=
      put (·.name) { name := eventName } (register (·.name) (fun name => { name := name }) d.signals eventName) }

def addVariable (var : VariableDefinition) (boolean : Bool) : Draft :=
  { d with
    vars := put (·.name) var d.vars
    booleans := if boolean then var.name :: d.booleans else d.booleans.filter (· ≠ var.name) }

def addProperty (prop : FormalProperty) : Draft := { d with properties := put (·.name) prop d.properties }

/-- `add_guard` with a raw expression. -/
def addGuard (guardName rawExpr : String) : Draft :=
  { d with
    guards :=
      if guardName ∈ d.guards.map (·.name) then
        modifyFirst (fun g => g.name = guardName)
          (fun g => { g with rawExpression := g.rawExpression.or (some rawExpr) }) d.guards
      else d.guards ++ [{ name := guardName, rawExpression := some rawExpr }] }

def addAction (actionName : String) : Draft :=
  { d with actions := register (·.name) (fun name => { name := name }) d.actions actionName }

def addTransition (edge : TransitionEdge) : Draft := { d with transitions := d.transitions ++ [edge] }

end Draft

/-! ## Texts -/

def starts (text : List Char) (p : String) : Bool := p.toList.isPrefixOf text

def contains (text : List Char) (p : String) : Bool := (findSub p.toList text).isSome

/-- `sanitize_identifier` of a trimmed text. -/
def identOf (text : List Char) : String := sanitizeIdentifier (String.ofList (trim text))

/-- A text without a semicolon at its end. -/
def withoutSemicolon (text : List Char) : List Char := if text.getLast? = some ';' then text.dropLast else text

/-- What is between the first `{` and the first `}`. -/
def braced (text : List Char) : Option (List Char) :=
  let openB := text.idxOf '{'
  let closeB := text.idxOf '}'
  if openB < closeB ∧ closeB < text.length then some ((text.take closeB).drop (openB + 1)) else none

/-- The names in a list, without those that are empty. -/
def listed (text : List Char) : List String := ((getlines ',' text []).map identOf).filter (· ≠ "")

/-- `std::stoll`, `none` where it throws. -/
def stoll (text : List Char) : Option ℤ :=
  let body := text.dropWhile isSpace
  let digits := (if body.head? = some '-' ∨ body.head? = some '+' then body.tail else body).takeWhile Char.isDigit
  let n : ℤ := digits.foldl (fun n c => 10 * n + (c.toNat - '0'.toNat)) 0
  let value := if body.head? = some '-' then -n else n
  if digits = [] ∨ value < -9223372036854775808 ∨ 9223372036854775807 < value then none else some value

/-! ## Declarations -/

def parseEnumStates (line : List Char) (d : Draft) : Draft :=
  (((braced line).map listed).getD []).foldl Draft.addState d

def parseEnumEvents (line : List Char) (d : Draft) : Draft :=
  ((((braced line).map listed).getD []).filter (· ≠ "none")).foldl Draft.addEvent d

/-- The bounds of a type with two dots in it. -/
def rangeOf (typePart : List Char) (dotdot : ℕ) : ℤ × ℤ :=
  match stoll (trim (typePart.take dotdot)), stoll (trim (typePart.drop (dotdot + 2))) with
  | some lo, some hi => (lo, hi)
  | _, _ => (0, 100)

def parseVariableDecl (line : List Char) (d : Draft) : Draft :=
  if ':' ∈ line then
    let name := identOf (line.takeWhile (· ≠ ':'))
    -- the counters that the exporter adds are not variables of the machine
    if name = "" ∨ (startsWith name "timer_" ∧ (d.findState (substrFrom name 6)).isSome) then d
    else
      let typePart := withoutSemicolon (trim ((line.dropWhile (· ≠ ':')).drop 1))
      if contains typePart "boolean" then d.addVariable { name := name } true
      else
        match findSub "..".toList typePart with
        | some dotdot =>
          let bounds := rangeOf typePart dotdot
          d.addVariable { name := name, minValue := some bounds.1, maxValue := some bounds.2 } false
        | none => d.addVariable { name := name } false
  else d

/-- The value that an assignment gives, behind its `:=`. -/
def assigned (line : List Char) (eq : ℕ) : List Char := trim (withoutSemicolon (trim (line.drop (eq + 2))))

/-- The assignment of an initial value. -/
def parseInit (line : List Char) (d : Draft) : Draft :=
  match findSub ":=".toList line with
  | none => d
  | some eq =>
    if starts line "init(state)" then
      { d with initialState := sanitizeIdentifier (String.ofList (assigned line eq)) }
    else if starts line "init(" ∧ line.idxOf ')' < eq then
      let varName := String.ofList (trim ((line.take (line.idxOf ')')).drop 5))
      { d with
        vars := modifyFirst (fun v => v.name = varName)
          (fun v => { v with initialValue := String.ofList (assigned line eq) }) d.vars }
    else d

/-! ## Transitions -/

/-- The condition and the result of a statement, read backwards: they are separated by the last colon that is not
one of two. -/
def caseSplit : List Char → List Char → Option (List Char × List Char)
  | [], _ => none
  | c :: before, after =>
    if c = ':' ∧ before.head? ≠ some ':' ∧ after.head? ≠ some ':' then some (before.reverse, after)
    else caseSplit before (c :: after)

/-- The clauses of a condition: it is split at `&` outside parentheses. -/
def splitClauses : ℕ → List Char → List Char → List (List Char)
  | _, [], cur => [cur]
  | depth, c :: text, cur =>
    if c = '(' then splitClauses (depth + 1) text (cur ++ [c])
    else if c = ')' then splitClauses (depth - 1) text (cur ++ [c])
    else if c = '&' ∧ depth = 0 then cur :: splitClauses depth text []
    else splitClauses depth text (cur ++ [c])

/-- Whether a text begins with `(` and ends with `)`. -/
def isWrapped (c : List Char) : Bool := 2 ≤ c.length && c.head? = some '(' && c.getLast? = some ')'

/-- The loop that takes parentheses off a clause; each turn makes it shorter. -/
def stripOuter : ℕ → List Char → List Char
  | 0, c => c
  | n + 1, c => if isWrapped c then stripOuter n (trim c.tail.dropLast) else c

/-- What the clauses of a condition say. -/
structure Condition where
  sources : List String := []
  event : String := ""
  others : List (List Char) := []

/-- What is behind the first `=`. -/
def behindEq (c : List Char) : List Char := (c.dropWhile (· ≠ '=')).drop 1

def addClause (cond : Condition) (c : List Char) : Condition :=
  if c = [] then cond
  else if starts c "state in" then { cond with sources := cond.sources ++ ((braced c).map listed).getD [] }
  else if starts c "state =" ∨ starts c "state=" then
    let s := identOf (behindEq c)
    if s = "" then cond else { cond with sources := cond.sources ++ [s] }
  else if starts c "event =" ∨ starts c "event=" then
    let ev := identOf (behindEq c)
    if ev = "none" ∨ ev = "" then cond else { cond with event := ev }
  else { cond with others := cond.others ++ [c] }

/-- One clause, without the parentheses around it. -/
def readClause (cond : Condition) (rawClause : List Char) : Condition :=
  addClause cond (stripOuter rawClause.length (trim rawClause))

/-- The event that a clause is taken for: a name by itself, or one that is compared with `TRUE`. -/
def triggerOf (c : List Char) : Option String :=
  if '&' ∉ c ∧ '|' ∉ c ∧
      (contains c "= TRUE" ∨ contains c "= true" ∨ ('=' ∉ c ∧ '<' ∉ c ∧ '>' ∉ c)) then
    let cand := identOf (c.takeWhile (· ≠ '='))
    if cand = "" ∨ cand = "TRUE" ∨ cand = "true" then none else some cand
  else none

/-- A clause that names no state and no event: it is the event when there is none yet, else part of the guard. -/
def readOther (read : String × List Char) (c : List Char) : String × List Char :=
  match if read.1 = "" then triggerOf c else none with
  | some cand => (cand, read.2)
  | none => (read.1, if read.2 = [] then c else read.2 ++ " && ".toList ++ c)

def guardNameOf (src target : String) (n : ℕ) : String :=
  "guard_" ++ sanitizeIdentifier src ++ "_to_" ++ sanitizeIdentifier target ++ "_" ++ toString n

/-- The transition from one source. -/
def addTransitionFrom (target event guardExpr action : String) (d : Draft) (src : String) : Draft :=
  let guardName := guardNameOf src target (d.transitions.length + 1)
  let guarded := if guardExpr = "" then d else d.addGuard guardName guardExpr
  let acting := if action = "" then guarded else guarded.addAction action
  acting.addTransition
    { source := src
      target := target
      event := event
      guard := if guardExpr = "" then none else some guardName
      transitionAction := if action = "" then none else some (.ofName action) }

def actionOf (comment : List Char) : String :=
  match (findSub "action:".toList comment).or (findSub "action=".toList comment) with
  | some pos => identOf (comment.drop (pos + 7))
  | none => ""

def parseTransitionCase (line : List Char) (d : Draft) : Draft :=
  let commentPos := findSub "--".toList line
  let action := (commentPos.map fun pos => actionOf (line.drop (pos + 2))).getD ""
  let cleanLine := (commentPos.map fun pos => line.take pos).getD line
  match caseSplit cleanLine.reverse [] with
  | none => d
  | some (condPart, targetPart) =>
    let target := identOf (withoutSemicolon (trim targetPart))
    if target = "" then d
    else
      let cond := (splitClauses 0 (trim condPart) []).foldl readClause {}
      let read := cond.others.foldl readOther (cond.event, [])
      cond.sources.foldl (addTransitionFrom target read.1 (String.ofList read.2) action) d

/-! ## Lines -/

inductive Section where
  | none | var | assignNextState | assignInit
  deriving DecidableEq, Repr

structure Reader where
  currentSection : Section := .none
  caseAccumulator : List Char := []
  model : Draft := { name := "MyStateMachine" }

/-- The loop over the statements that are complete; each turn takes one semicolon. -/
def drain : ℕ → List Char → Draft → List Char × Draft
  | 0, acc, d => (acc, d)
  | n + 1, acc, d =>
    if ';' ∈ acc then
      let stmt := trim (acc.take (acc.idxOf ';' + 1))
      drain n (trim (acc.drop (acc.idxOf ';' + 1)))
        (if contains stmt "TRUE :" ∨ contains stmt "TRUE:" then d else parseTransitionCase stmt d)
    else (acc, d)

/-- A specification: the formula is what follows the keyword on its line. -/
def readSpec (keyword label : String) (kind : PropertyKind) (trimmed : List Char) (d : Draft) : Draft :=
  d.addProperty
    { name := label ++ toString (d.properties.length + 1)
      kind := kind
      rawFormula := String.ofList (trim (withoutSemicolon (trim (trimmed.drop keyword.length)))) }

def readInSection (r : Reader) (trimmed : List Char) : Reader :=
  match r.currentSection with
  | .none => r
  | .var =>
    if starts trimmed "state :" ∨ starts trimmed "state:" then { r with model := parseEnumStates trimmed r.model }
    else if starts trimmed "event :" ∨ starts trimmed "event:" then { r with model := parseEnumEvents trimmed r.model }
    else { r with model := parseVariableDecl trimmed r.model }
  | .assignInit => { r with model := parseInit trimmed r.model }
  | .assignNextState =>
    let acc := if r.caseAccumulator = [] then trimmed else r.caseAccumulator ++ ' ' :: trimmed
    let drained := drain (acc.length + 1) acc r.model
    { r with caseAccumulator := drained.1, model := drained.2 }

/-- The name in a comment or behind `MODULE`. -/
def readModuleName (trimmed : List Char) (d : Draft) : Draft :=
  let modName := trim (trimmed.drop 6)
  if modName ≠ [] ∧ modName ≠ "main".toList ∧ (d.name = "" ∨ d.name = "MyStateMachine") then
    { d with name := sanitizeIdentifier (String.ofList modName) }
  else d

variable (directive : List Char → Draft → Draft)

def readComment (trimmed : List Char) (d : Draft) : Draft :=
  if contains trimmed "@fsm:" then directive trimmed d else d

def readLine (r : Reader) (line : List Char) : Reader :=
  let trimmed := trim line
  if trimmed = [] then r
  else if starts trimmed "-- nuXmv / SMV Formal Model:" then
    let name := trim (trimmed.drop 28)
    if name = [] then r else { r with model := { r.model with name := sanitizeIdentifier (String.ofList name) } }
  else if starts trimmed "MODULE" then { r with model := readModuleName trimmed r.model }
  else if starts trimmed "--" then { r with model := readComment directive trimmed r.model }
  else if trimmed = "VAR".toList then { r with currentSection := .var }
  else if trimmed = "ASSIGN".toList then { r with currentSection := .assignInit }
  else if contains trimmed "next(state)" ∧ contains trimmed "case" then { r with currentSection := .assignNextState }
  else if trimmed = "esac;".toList ∨ trimmed = "esac".toList then { r with currentSection := .none }
  else if starts trimmed "LTLSPEC" then
    { r with model := readSpec "LTLSPEC" "ltl_spec_" .liveness trimmed r.model }
  else if starts trimmed "INVARSPEC" then
    { r with model := readSpec "INVARSPEC" "invar_spec_" .invariant trimmed r.model }
  else readInSection r trimmed

/-- A machine that names no initial state starts in its first one. -/
def settleInitial (d : Draft) : Draft :=
  if d.initialState = "" then { d with initialState := (d.states.head?.map (·.name)).getD "" } else d

def parse (content : String) : Except String Draft :=
  let model := ((getlines '\n' content.toList []).foldl (readLine directive) {}).model
  if model.states = [] then .error "SMV Parser: No states found in MODULE." else .ok (settleInitial model)

end Fsmc.Smv.Parser
