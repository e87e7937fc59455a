/-
# Fsmc.Analysis.GuardComparisons — the guards that the warnings are about, and the comparisons that are read.

A comparison of a variable with a number or a truth value, in this order, is read as it stands: as the variable
without its qualifier and as the interval of its operator.
-/
import Fsmc.Analysis.GuardSatisfiability

namespace Fsmc.Analysis.GuardSatisfiability

open Fsmc.Cpp Fsmc.Ir

/-! ## Guards -/

/-- The operators of comparisons. -/
inductive Comparator where
  | eq | ne | ge | le | gt | lt
  deriving DecidableEq, Repr

/-- How an operator is written. -/
def Comparator.text : Comparator → String
  | eq => "=="
  | ne => "!="
  | ge => ">="
  | le => "<="
  | gt => ">"
  | lt => "<"

/-- What an operator says. -/
def Comparator.holds : Comparator → ℚ → ℚ → Bool
  | eq, a, b => a = b
  | ne, a, b => a ≠ b
  | ge, a, b => b ≤ a
  | le, a, b => a ≤ b
  | gt, a, b => b < a
  | lt, a, b => a < b

/-- The values of the variables; a truth value is 0 or 1. -/
abbrev Valuation := List Char → ℚ

/-- The number that stands for a truth value. -/
def ofBool (b : Bool) : ℚ := if b then 1 else 0

inductive Operand where
  | var (x : List Char)
  | number (value : ℚ)
  | truth (b : Bool)

def Operand.value (v : Valuation) : Operand → ℚ
  | var x => v x
  | number value => value
  | truth b => ofBool b

def Operand.variables : Operand → List (List Char)
  | var x => [x]
  | _ => []

inductive Guard where
  | literal (b : Bool)
  | flag (x : List Char)
  | compare (l : Operand) (op : Comparator) (r : Operand)
  | not (g : Guard)
  | and (g g' : Guard)
  | or (g g' : Guard)

def Guard.holds (v : Valuation) : Guard → Bool
  | literal b => b
  | flag x => v x ≠ 0
  | compare l op r => op.holds (l.value v) (r.value v)
  | not g => !g.holds v
  | and g g' => g.holds v && g'.holds v
  | or g g' => g.holds v || g'.holds v

def Guard.variables : Guard → List (List Char)
  | literal _ => []
  | flag x => [x]
  | compare l _ r => l.variables ++ r.variables
  | not g => g.variables
  | and g g' | or g g' => g.variables ++ g'.variables

/-! ## How guards are written -/

/-- The words that are no names. -/
def keywords : List (List Char) := ["and".toList, "or".toList, "not".toList, "true".toList, "false".toList]

/-- A name, with its qualifiers. -/
structure IsVariable (x : List Char) : Prop where
  first : ∃ c cs, x = c :: cs ∧ (c.isAlpha || c = '_') = true
  chars : ∀ c ∈ x, (isWordChar c || c = '.') = true
  keyword : x ∉ keywords

/-- A sign, digits, digits behind a point and letters behind them. -/
def NumberShape (text : List Char) : Prop :=
  ∃ sign whole fraction suffix, text = sign ++ (whole ++ (fraction ++ suffix)) ∧
    (sign = [] ∨ ∃ c, sign = [c] ∧ (c = '+' || c = '-') = true) ∧
    (whole ≠ [] ∧ ∀ c ∈ whole, c.isDigit = true) ∧
    (fraction = [] ∨ ∃ digits, fraction = '.' :: digits ∧ digits ≠ [] ∧ ∀ c ∈ digits, c.isDigit = true) ∧
    ∀ c ∈ suffix, EfsmInterval.isSuffixChar c = true

/-- A number, and the value that it is read as. -/
structure IsNumber (text : List Char) (value : ℚ) : Prop where
  shape : NumberShape text
  value : stod (cleanNumber (String.ofList text)) = some (.fin value)

/-- A truth value. -/
def boolText (b : Bool) : String := if b then "true" else "false"

/-- How an operand is written. -/
inductive OperandText : Operand → List Char → Prop
  | var {x : List Char} (h : IsVariable x) : OperandText (.var x) x
  | number {s : List Char} {value : ℚ} (h : IsNumber s value) : OperandText (.number value) s
  | truth (b : Bool) : OperandText (.truth b) (boolText b).toList

/-- How a guard is written, a disjunction at level 1. -/
inductive Writes : ℕ → Guard → List Char → Prop
  | literal (b : Bool) : Writes 4 (.literal b) (boolText b).toList
  | flag {x : List Char} (h : IsVariable x) : Writes 4 (.flag x) x
  | parens {g : Guard} {s : List Char} (h : Writes 1 g s) : Writes 4 g ('(' :: (s ++ [')']))
  | not {g : Guard} {s : List Char} (h : Writes 4 g s) : Writes 4 (.not g) ('!' :: s)
  | compare {l r : Operand} {s s' b b' : List Char} (op : Comparator) (hl : OperandText l s) (hr : OperandText r s')
      (hb : ∀ c ∈ b, isSpace c = true) (hb' : ∀ c ∈ b', isSpace c = true) :
      Writes 3 (.compare l op r) (s ++ (b ++ (op.text.toList ++ (b' ++ s'))))
  | and {g g' : Guard} {s s' : List Char} (h : Writes 2 g s) (h' : Writes 3 g' s') :
      Writes 2 (.and g g') (s ++ '&' :: '&' :: s')
  | or {g g' : Guard} {s s' : List Char} (h : Writes 1 g s) (h' : Writes 2 g' s') :
      Writes 1 (.or g g') (s ++ '|' :: '|' :: s')
  | operand {n : ℕ} {g : Guard} {s : List Char} (hn : n ≤ 3) (h : Writes (n + 1) g s) : Writes n g s
  | blankLeft {n : ℕ} {c : Char} {g : Guard} {s : List Char} (hc : isSpace c = true) (h : Writes n g s) :
      Writes n g (c :: s)
  | blankRight {n : ℕ} {c : Char} {g : Guard} {s : List Char} (hc : isSpace c = true) (h : Writes n g s) :
      Writes n g (s ++ [c])

/-! ## Comparisons -/

/-- The literal of a comparison. -/
inductive Literal where
  | number (text : List Char) (value : ℚ)
  | truth (b : Bool)

/-- How a literal is written. -/
def Literal.text : Literal → List Char
  | number text _ => text
  | truth b => (boolText b).toList

def Literal.operand : Literal → Operand
  | number _ value => .number value
  | truth b => .truth b

/-- A comparison of a variable with a literal. -/
structure Comparison where
  qualifier : List Char
  name : List Char
  op : Comparator
  literal : Literal

namespace Comparison

/-- The variable that is compared, with its qualifier. -/
def qualified (c : Comparison) : List Char := c.qualifier ++ c.name

def guard (c : Comparison) : Guard := .compare (.var c.qualified) c.op c.literal.operand

/-- How it is written without the qualifier, with blanks around its operator. -/
def unqualified (c : Comparison) (b b' : List Char) : List Char :=
  c.name ++ (b ++ (c.op.text.toList ++ (b' ++ c.literal.text)))

/-- How it is written. -/
def text (c : Comparison) (b b' : List Char) : List Char := c.qualifier ++ c.unqualified b b'

/-- The interval that is read for it. -/
def interval (c : Comparison) : Interval :=
  match c.literal with
  | .number _ value => clauseInterval c.op.text (.fin value)
  | .truth b => boolInterval c.op.text (boolText b)

def reading (c : Comparison) : String × Interval := (String.ofList c.name, c.interval)

end Comparison

/-- A name without qualifier. -/
structure IsIdentifier (name : List Char) : Prop where
  first : ∃ c cs, name = c :: cs ∧ (c.isAlpha || c = '_') = true
  chars : ∀ c ∈ name, isWordChar c = true

/-- What stands in front of a name: the way to it, up to the last point. -/
structure IsQualifier (qualifier : List Char) : Prop where
  first : ∃ c cs, qualifier = c :: cs ∧ (c.isAlpha || c = '_') = true
  chars : ∀ c ∈ qualifier, (isWordChar c || c = '.') = true
  last : qualifier.getLast? = some '.'

/-- The literals that an operator is used with. -/
def Fits (op : Comparator) : Literal → Prop
  | .number text value => IsNumber text value
  | .truth _ => op = .eq ∨ op = .ne

/-- A comparison that can be read: a truth value only for equality. -/
structure IsComparison (c : Comparison) : Prop where
  qualifier : c.qualifier = [] ∨ IsQualifier c.qualifier
  name : IsIdentifier c.name
  keyword : c.qualified ∉ keywords
  literal : Fits c.op c.literal

/-! ## Variables -/

theorem isWordChar_of_first {c : Char} (h : (c.isAlpha || c = '_') = true) : isWordChar c = true := by
  unfold isWordChar Char.isAlphanum
  rcases Bool.or_eq_true_iff.mp h with halpha | hunder
  · rw [halpha]
    rfl
  · rw [hunder, Bool.or_true]

theorem IsComparison.isVariable {c : Comparison} (h : IsComparison c) : IsVariable c.qualified := by
  have hname : ∀ d ∈ c.name, (isWordChar d || d = '.') = true := fun d hd => by
    rw [h.name.chars d hd]
    rfl
  refine ⟨?_, fun x hx => ?_, h.keyword⟩
  · unfold Comparison.qualified
    rcases h.qualifier with hnone | hqualifier
    · rw [hnone]
      exact h.name.first
    · obtain ⟨d, ds, hcons, hfirst⟩ := hqualifier.first
      exact ⟨d, ds ++ c.name, by rw [hcons]; rfl, hfirst⟩
  · rcases List.mem_append.mp hx with hx | hx
    · rcases h.qualifier with hnone | hqualifier
      · rw [hnone] at hx
        exact absurd hx List.not_mem_nil
      · exact hqualifier.chars x hx
    · exact hname x hx

end Fsmc.Analysis.GuardSatisfiability
