/-
# Fsmc.Lib.SmvModule — modules of SMV and their runs.

A module declares variables over finite domains, says where some of them start, and gives some of them a next
value by a case distinction, in which the first true branch counts. A variable without an assignment has any
value of its domain at any time. What words inside a proposition mean is left to a reader.
-/
import Fsmc.Lib.SmvFormula
import Mathlib.Data.Rat.Defs

namespace Fsmc.Lib.SmvModule

open Fsmc.Lib.SmvFormula

/-! ## Values -/

/-- A value of a variable; an enumeration has symbols. -/
inductive Datum where
  | bool (b : Bool)
  | number (q : ℚ)
  | symbol (name : String)
  deriving DecidableEq, Repr

/-- The values of all variables at one time. -/
abbrev Values := String → Datum

/-- What a variable is declared with. -/
inductive VarType where
  | boolean
  | symbols (constants : List String)
  | range (lo hi : ℤ)
  deriving DecidableEq, Repr

/-- The values of a domain. -/
def VarType.Contains : VarType → Datum → Prop
  | .boolean, .bool _ => True
  | .symbols constants, .symbol name => name ∈ constants
  | .range lo hi, .number q => ∃ n : ℤ, q = n ∧ lo ≤ n ∧ n ≤ hi
  | _, _ => False

def VarType.constants : VarType → List String
  | .symbols constants => constants
  | _ => []

@[simp] theorem constants_boolean : VarType.boolean.constants = [] := rfl

@[simp] theorem constants_symbols (constants : List String) : (VarType.symbols constants).constants = constants := rfl

@[simp] theorem constants_range (lo hi : ℤ) : (VarType.range lo hi).constants = [] := rfl

/-! ## Names -/

/-- The words of the language. -/
def reserved : List String :=
  ["MODULE", "DEFINE", "MDEFINE", "CONSTANTS", "VAR", "IVAR", "FROZENVAR", "INIT", "TRANS", "INVAR", "SPEC",
    "CTLSPEC", "LTLSPEC", "PSLSPEC", "COMPUTE", "NAME", "INVARSPEC", "FAIRNESS", "JUSTICE", "COMPASSION", "ISA",
    "ASSIGN", "CONSTRAINT", "SIMPWFF", "CTLWFF", "LTLWFF", "PSLWFF", "COMPWFF", "IN", "MIN", "MAX", "MIRROR",
    "PRED", "PREDICATES", "process", "array", "of", "boolean", "integer", "real", "word", "word1", "bool",
    "signed", "unsigned", "extend", "resize", "sizeof", "uwconst", "swconst", "EX", "AX", "EF", "AF", "EG", "AG",
    "E", "F", "O", "G", "H", "X", "Y", "Z", "A", "U", "S", "V", "T", "BU", "EBF", "ABF", "EBG", "ABG", "case",
    "esac", "mod", "next", "init", "union", "in", "xor", "xnor", "self", "TRUE", "FALSE", "count", "abs", "max",
    "min"]

/-- A name: letters, digits and underscores, without a digit in front, and no word of the language. -/
def IsName (name : String) : Prop :=
  name.toList.head?.any (fun c => !c.isDigit) = true ∧ name.toList.all (fun c => c.isAlphanum || c = '_') = true ∧
    name ∉ reserved

instance (name : String) : Decidable (IsName name) := inferInstanceAs (Decidable (_ ∧ _ ∧ _))

/-! ## Expressions -/

/-- How a run of words is read; a word that is a name has the value of the variable. -/
structure Reader where
  term : String → Option Datum
  prop : List String → Values → Option Bool
  prop_name : ∀ {name : String} {ν : Values} {b : Bool}, IsName name → ν name = .bool b →
    prop [name] ν = some b

def connective (op : String) (p q : Bool) : Option Bool :=
  if op = "&" then some (p && q)
  else if op = "|" then some (p || q)
  else if op = "->" then some (!p || q)
  else if op = "<->" then some (p == q)
  else none

/-- What may be true before a branch is taken. -/
inductive Condition where
  | equals (x constant : String)
  | atLeast (x : String) (n : ℕ)
  | below (x : String) (n : ℕ)
  | formula (text : String)
  deriving DecidableEq, Repr

/-- What a variable starts with or gets. -/
inductive Term where
  | constant (name : String)
  | number (n : ℕ)
  | same (x : String)
  | succ (x : String)
  | text (text : String)
  deriving DecidableEq, Repr

/-- A branch of a case distinction. -/
structure Branch where
  conditions : List Condition
  result : Term
  deriving DecidableEq, Repr

namespace Reader

variable (R : Reader) (ν : Values)

/-- The truth of a formula at one time; a temporal formula has none. -/
def evaluate : Formula → Option Bool
  | .prop words => R.prop words ν
  | .unary op f => if op = "!" then (evaluate f).map (!·) else none
  | .binary op f g => (evaluate f).bind fun p => (evaluate g).bind fun q => connective op p q

def truth (text : String) : Option Bool := (read text).bind (R.evaluate ν)

def holds : Condition → Bool
  | .equals x constant => ν x = .symbol constant
  | .atLeast x n =>
    match ν x with
    | .number q => (n : ℚ) ≤ q
    | _ => false
  | .below x n =>
    match ν x with
    | .number q => q < (n : ℚ)
    | _ => false
  | .formula text => R.truth ν text = some true

def value : Term → Option Datum
  | .constant name => some (.symbol name)
  | .number n => some (.number n)
  | .same x => some (ν x)
  | .succ x =>
    match ν x with
    | .number q => some (.number (q + 1))
    | _ => none
  | .text text => R.term text

/-- Whether a branch is true. -/
def takes (b : Branch) : Bool := b.conditions.all (R.holds ν)

/-- The value of a case distinction. -/
def caseValue (branches : List Branch) : Option Datum :=
  (branches.find? (R.takes ν)).bind fun b => R.value ν b.result

variable {R ν} {x : String} {q : ℚ}

@[simp] theorem holds_equals {constant : String} :
    R.holds ν (.equals x constant) = decide (ν x = .symbol constant) := rfl

@[simp] theorem holds_formula {text : String} : R.holds ν (.formula text) = decide (R.truth ν text = some true) := rfl

theorem holds_atLeast (h : ν x = .number q) (n : ℕ) : R.holds ν (.atLeast x n) = decide ((n : ℚ) ≤ q) := by
  rw [holds, h]

theorem holds_below (h : ν x = .number q) (n : ℕ) : R.holds ν (.below x n) = decide (q < (n : ℚ)) := by
  rw [holds, h]

theorem value_succ (h : ν x = .number q) : R.value ν (.succ x) = some (.number (q + 1)) := by
  rw [value, h]

theorem caseValue_default (result : Term) : R.caseValue ν [⟨[], result⟩] = R.value ν result := rfl

theorem caseValue_cons (b : Branch) (branches : List Branch) :
    R.caseValue ν (b :: branches) = if R.takes ν b then R.value ν b.result else R.caseValue ν branches := by
  unfold caseValue
  rw [List.find?_cons]
  cases R.takes ν b <;> rfl

variable {front : List Branch}

theorem caseValue_append_of_none (h : front.find? (R.takes ν) = none) (back : List Branch) :
    R.caseValue ν (front ++ back) = R.caseValue ν back := by
  unfold caseValue
  rw [List.find?_append, h, Option.none_or]

theorem caseValue_append_of_some {b : Branch} (h : front.find? (R.takes ν) = some b)
    (back : List Branch) : R.caseValue ν (front ++ back) = R.value ν b.result := by
  unfold caseValue
  rw [List.find?_append, h, Option.some_or, Option.bind_some]

end Reader

/-! ## Modules -/

/-- A module: declarations, initial values and next values. -/
structure Module where
  vars : List (String × VarType)
  init : List (String × Term)
  next : List (String × List Branch)

namespace Module

variable (R : Reader) (M : Module)

/-- The constants of the declarations. -/
def constants : List String := M.vars.flatMap (·.2.constants)

/-- The variables have values of their domains. -/
def Typed (ν : Values) : Prop := ∀ v ∈ M.vars, v.2.Contains (ν v.1)

/-- The conditions of the case distinctions. -/
def conditions : List Condition := M.next.flatMap fun a => a.2.flatMap (·.conditions)

/-- A condition that can be asked: a constant is one of the variable's, and a text is true or false. -/
def Asks : Condition → Prop
  | .equals x constant => ∃ cs, (x, VarType.symbols cs) ∈ M.vars ∧ constant ∈ cs
  | .atLeast x _ | .below x _ => ∃ lo hi, (x, VarType.range lo hi) ∈ M.vars
  | .formula text => ∀ ν, M.Typed ν → (R.truth ν text).isSome = true

/-- A term that fits a variable: a constant is one of the variable's, and a text has a value of the domain. -/
def Fits (x : String) : Term → Prop
  | .constant name => ∃ cs, (x, VarType.symbols cs) ∈ M.vars ∧ name ∈ cs
  | .text text => ∃ v d, R.term text = some v ∧ (x, d) ∈ M.vars ∧ d.Contains v
  | _ => True

/-- A module that is not rejected: names are names, each is declared once, no variable is a constant, all
conditions can be asked and all terms fit. -/
structure Accepted : Prop where
  names : ∀ name ∈ M.vars.map (·.1) ++ M.constants, IsName name
  nodup : (M.vars.map (·.1)).Nodup
  apart : ∀ v ∈ M.vars, v.1 ∉ M.constants
  conditions : ∀ c ∈ M.conditions, M.Asks R c
  init : ∀ a ∈ M.init, M.Fits R a.1 a.2
  next : ∀ a ∈ M.next, ∀ b ∈ a.2, M.Fits R a.1 b.result

structure IsRun (ρ : ℕ → Values) : Prop where
  accepted : M.Accepted R
  typed : ∀ i, M.Typed (ρ i)
  init : ∀ a ∈ M.init, R.value (ρ 0) a.2 = some (ρ 0 a.1)
  next : ∀ i, ∀ a ∈ M.next, R.caseValue (ρ i) a.2 = some (ρ (i + 1) a.1)

end Module

end Fsmc.Lib.SmvModule
