/-
# Fsmc.Passes.ConstantFolding — folding guards that are constant.

A guard whose text is a constant, or a comparison of two numbers, is folded: a true one is dropped and a
false one becomes `false`. Transitions guarded by `false` are erased, and then the actions that nothing
refers to.
-/
import Fsmc.Cpp.Regex
import Fsmc.Ir.Canonical

namespace Fsmc.Passes.ConstantFolding

open Fsmc.Cpp Fsmc.Ir

/-! ## Guards -/

def isBlankChar (c : Char) : Bool := c = ' ' || c = '\t'

/-- The text without blanks and tabs around it. -/
def trimBlanks (g : String) : String :=
  String.ofList ((g.toList.dropWhile isBlankChar).rdropWhile isBlankChar)

def trueTexts : List String := ["true", "1", "1 == 1", "0 == 0", "!false", "!0"]

def falseTexts : List String := ["false", "0", "1 == 0", "0 == 1", "!true", "!1"]

def number : Regex := .seq (.opt (.literal "-")) .digits

def comparator : Regex :=
  .alt (.literal "==") (.alt (.literal "!=") (.alt (.literal "<=") (.alt (.literal ">=")
    (.alt (.literal "<") (.literal ">")))))

def numCmpRe : Regex :=
  .concat [.spaces, .group 1 number, .spaces, .group 2 comparator, .spaces, .group 3 number, .spaces]

/-- `std::regex_match`: a match of the whole text. -/
def regexMatch (r : Regex) (text : String) : Option Captures :=
  ((r.ends text.toList).find? fun m => m.2.isEmpty).map (·.1)

/-- The number that decimal digits stand for. -/
def digitsValue (digits : List Char) : ℕ := digits.foldl (fun n c => 10 * n + (c.toNat - '0'.toNat)) 0

/-- `std::stoll` of digits, with or without a sign; `none` where it throws. -/
def stoll (text : String) : Option ℤ :=
  let n : ℤ :=
    match text.toList with
    | '-' :: digits => -(digitsValue digits : ℤ)
    | digits => digitsValue digits
  if -9223372036854775808 ≤ n ∧ n ≤ 9223372036854775807 then some n else none

def compare (op : String) (left right : ℤ) : Bool :=
  if op = "==" then left = right
  else if op = "!=" then left ≠ right
  else if op = "<" then left < right
  else if op = "<=" then left ≤ right
  else if op = ">" then left > right
  else if op = ">=" then left ≥ right
  else false

/-- What becomes of a guard, `none` where an exception leaves the pass. -/
def foldGuard : Option String → Option (Option String)
  | none => some none
  | some text =>
    let g := trimBlanks text
    if g ∈ trueTexts then some none
    else if g ∈ falseTexts then some (some "false")
    else
      match regexMatch numCmpRe g with
      | none => some (some text)
      | some m => do
        let left ← stoll ((m.text 1).getD "")
        let right ← stoll ((m.text 3).getD "")
        if compare ((m.text 2).getD "") left right then some none else some (some "false")

example : foldGuard (some " 5 > 3") = some none := by decide +kernel

example : foldGuard (some "-2 >= 1") = some (some "false") := by decide +kernel

/-! ## The pass -/

def foldTransition (t : TransitionEdge) : TransitionEdge := { t with guard := (foldGuard t.guard).getD none }

/-- A transition that is erased: its guard folds to `false`. -/
def isFalse (t : TransitionEdge) : Bool := foldGuard t.guard = some (some "false")

def referencedActions (states : List StateNode) (transitions : List TransitionEdge) : List String :=
  transitions.flatMap transitionActions ++
    states.flatMap fun s => s.entryActions.map (·.name) ++ s.exitActions.map (·.name)

/-- `ConstantFoldingPass::run`, `none` where an exception leaves it. -/
def run (ir : WholeIr) : Option WholeIr :=
  if ir.transitions.any fun t => foldGuard t.guard = none then none
  else
    let transitions := (ir.transitions.map foldTransition).filter fun t => t.guard ≠ some "false"
    some { ir with
      transitions := transitions
      actions := ir.actions.filter fun a => a.name ∈ referencedActions ir.states transitions }

theorem transitions_run {ir ir' : WholeIr} (h : run ir = some ir') :
    ir'.transitions = (ir.transitions.filter fun t => !isFalse t).map foldTransition := by
  unfold run at h
  split at h
  · exact absurd h (by simp)
  · next hthrows =>
      obtain rfl := Option.some.inj h
      show (ir.transitions.map foldTransition).filter _ = _
      rw [List.filter_map]
      congr 1
      refine List.filter_congr fun t ht => ?_
      have hfolds : foldGuard t.guard ≠ none := by
        intro hnone
        exact hthrows (List.any_eq_true.mpr ⟨t, ht, decide_eq_true hnone⟩)
      obtain ⟨g, hg⟩ := Option.ne_none_iff_exists'.mp hfolds
      unfold isFalse foldTransition
      simp [hg]

theorem states_run {ir ir' : WholeIr} (h : run ir = some ir') : ir'.states = ir.states := by
  unfold run at h
  split at h
  · exact absurd h (by simp)
  · obtain rfl := Option.some.inj h
    rfl

end Fsmc.Passes.ConstantFolding
