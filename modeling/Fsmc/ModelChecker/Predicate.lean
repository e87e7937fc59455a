/-
# Fsmc.ModelChecker.Predicate — what a state predicate says in a state.

An atomic proposition is a text. `evalAtomPredicate` tries its readings in a fixed order: a constant, the
name of the state, a comparison with the keyword `state`, a relational comparison, and at last a name or
a part of the description of the state. A relational comparison is decided by the interval that the
data-path analysis has for its left side in that state, and without a usable one by initial values.
`evalPredicate` is the propositional part of a formula; a temporal operator is false in it.
-/
import Fsmc.ModelChecker.Graph

namespace Fsmc

open Fsmc.Cpp Fsmc.Ir Fsmc.Analysis

/-! ## Relational comparisons -/

/-- The comparison operators. -/
inductive RelOp where
  | le | ge | ne | eq | lt | gt
  deriving DecidableEq, Repr

namespace RelOp

/-- How an operator is written. -/
def text : RelOp → String
  | le => "<="
  | ge => ">="
  | ne => "!="
  | eq => "=="
  | lt => "<"
  | gt => ">"

/-- `ops`: the order in which an atom is searched for the operators. -/
def all : List RelOp := [le, ge, ne, eq, lt, gt]

/-- A comparison that holds for all values of an interval, judged by the bounds. -/
def onInterval (op : RelOp) (iv : Interval) (rhs : Double) : Bool :=
  match op with
  | lt => iv.hi.lt rhs
  | le => iv.hi.le rhs
  | gt => rhs.lt iv.lo
  | ge => rhs.le iv.lo
  | eq => iv.lo.near rhs && iv.hi.near rhs
  | ne => rhs.lt iv.lo || iv.hi.lt rhs

/-- `std::abs(a - b) >= 1e-6`. -/
def apart (a b : Double) : Bool := Double.tolerance.le (a.sub b).abs

/-- A comparison of two numbers. -/
def onNumbers (op : RelOp) (lhs rhs : Double) : Bool :=
  match op with
  | lt => lhs.lt rhs
  | le => lhs.le rhs
  | gt => rhs.lt lhs
  | ge => rhs.le lhs
  | eq => lhs.near rhs
  | ne => apart lhs rhs

/-- A comparison of two texts; only the two equality operators have one. -/
def onTexts (op : RelOp) (lhs rhs : String) : Option Bool :=
  match op with
  | eq => some (decide (lhs = rhs))
  | ne => some (decide (lhs ≠ rhs))
  | _ => none

end RelOp

/-- `static_cast<double>` of an integer. -/
def doubleOfInt (n : Int) : Double := roundDouble n

/-- The number that the left side of a comparison stands for: the initial value of a variable or its
lower bound, the default of a port or its lower bound, or a literal. -/
def lhsNumber (ir : FsmIr) (lhs : String) : Option Double :=
  -- the first variable of that name decides, and its bound counts only when `std::stod` throws
  let ofVariable := (ir.vars.find? fun v => v.name = lhs).bind fun v =>
    (stod v.initialValue).orElse fun _ => v.minValue.map doubleOfInt
  let ofPort := (ir.ports.find? fun p => p.name = lhs).bind fun p =>
    if p.defaultValue ≠ "" then stod p.defaultValue else p.minValue
  (ofVariable.orElse fun _ => ofPort).orElse fun _ => stod lhs

/-- The number that the right side of a comparison stands for: a literal, or the initial value of a
variable. -/
def rhsNumber (ir : FsmIr) (rhs : String) : Option Double :=
  (stod rhs).orElse fun _ =>
    (ir.vars.find? fun v => v.name = rhs).bind fun v => stod v.initialValue

/-- Whether an interval decides comparisons: it has a value and some finite side. -/
def usable (iv : Interval) : Bool := !iv.isEmpty && (!iv.lo.isInf || !iv.hi.isInf)

namespace ModelChecker

variable (mc : ModelChecker) (state : String)

/-- A comparison with the interval of its left side in the state. -/
def compareInterval (op : RelOp) (lhs rhs : String) : Option Bool :=
  match mc.stateIntervals.find state lhs with
  -- a right side that is no number leaves the comparison to the initial values
  | some iv => if usable iv then (stod rhs).map (op.onInterval iv) else none
  | none => none

/-- A comparison by initial values, and between texts when a side is not a number. -/
def compareValues (op : RelOp) (lhs rhs : String) : Option Bool :=
  match lhsNumber mc.ir lhs, rhsNumber mc.ir rhs with
  | some a, some b => some (op.onNumbers a b)
  | _, _ => op.onTexts lhs rhs

/-- An atom read as a comparison by `op`: `none` when `op` does not occur in it, or decides nothing. -/
def evalComparison (atom : String) (op : RelOp) : Option Bool :=
  match find atom op.text with
  | none => none
  | some pos =>
    let lhs := trimStr (substrTo atom pos)
    let rhs := trimStr (substrFrom atom (pos + op.text.length))
    -- `state` with an ordering operator is read like any other name
    let ofState := if lhs = "state" then op.onTexts state rhs else none
    (ofState.orElse fun _ => mc.compareInterval state op lhs rhs).orElse fun _ =>
      mc.compareValues op lhs rhs

/-- An atom that starts with `state` read as a comparison with the name of the state. -/
def compareState (atom : String) : Option Bool :=
  if startsWith atom "state" then
    let rest := trimStr (substrFrom atom 5)
    if startsWith rest "==" then some (decide (state = trimStr (substrFrom rest 2)))
    else if startsWith rest "!=" then some (decide (state ≠ trimStr (substrFrom rest 2)))
    else if startsWith rest "=" then some (decide (state = trimStr (substrFrom rest 1)))
    else none
  else none

/-- An atom read as another name of the state or a part of its description. -/
def describesState (atom : String) : Bool :=
  match mc.ir.findState state with
  | some s => s.fqn = atom || s.aliasName = atom || (find s.description atom).isSome
  | none => false

/-- A trimmed atom that is not negated. -/
def evalPlainAtom (atom : String) : Bool :=
  if atom = "true" ∨ atom = "1" then true
  else if atom = "false" ∨ atom = "0" then false
  else if atom = state then true
  else
    match compareState state atom with
    | some verdict => verdict
    | none =>
      match RelOp.all.findSome? (mc.evalComparison state atom) with
      | some verdict => verdict
      | none => mc.describesState state atom

/-- `evalAtomPredicate` with a bound on the negations that are stripped. -/
def evalAtomWithin : Nat → String → Bool
  | 0, _ => true
  | n + 1, rawAtom =>
    let atom := trimStr rawAtom
    if atom = "" then true
    else if startsWith atom "!" then !evalAtomWithin n (substrFrom atom 1)
    else mc.evalPlainAtom state atom

/-- `eval_atom_predicate`: every negation that is stripped makes the text shorter. -/
def evalAtomPredicate (rawAtom : String) : Bool :=
  evalAtomWithin mc state (rawAtom.length + 1) rawAtom

mutual

def evalPredicate (state : String) : PropertyAstNode → Bool
  | .mk op atom children =>
    match op, evalPredicates state children with
    | .atom, _ => mc.evalAtomPredicate state atom
    | .not, value :: _ => !value
    | .not, [] => !mc.evalAtomPredicate state atom
    | .and, values => values.all id
    | .or, values => values.any id
    | .implies, left :: right :: _ => !left || right
    | .equivalent, left :: right :: _ => left == right
    -- temporal operators, and connectives with too few operands
    | _, _ => false

/-- The values of several predicates. -/
def evalPredicates (state : String) : List PropertyAstNode → List Bool
  | [] => []
  | node :: nodes => evalPredicate state node :: evalPredicates state nodes

end

/-! ## The recursion of the source -/

variable {mc state}

theorem length_trimStr_le (s : String) : (trimStr s).length ≤ s.length := by
  rw [← String.length_toList, ← String.length_toList, trimStr, String.toList_ofList,
    List.rdropWhile]
  calc ((s.toList.dropWhile isSpace).reverse.dropWhile isSpace).reverse.length
      ≤ (s.toList.dropWhile isSpace).reverse.length := by
        rw [List.length_reverse]
        exact List.length_dropWhile_le _ _
    _ ≤ s.toList.length := by
        rw [List.length_reverse]
        exact List.length_dropWhile_le _ _

theorem length_substrFrom_lt {s : String} (h : s ≠ "") : (substrFrom s 1).length < s.length := by
  have hpos : 0 < s.length := by
    rw [Nat.pos_iff_ne_zero]
    exact fun h0 => h (String.length_eq_zero_iff.mp h0)
  rw [← String.length_toList, substrFrom, String.toList_ofList, List.length_drop,
    String.length_toList]
  omega

theorem evalAtomWithin_eq {n m : Nat} {rawAtom : String} (hn : rawAtom.length < n) (hm : rawAtom.length < m) :
    mc.evalAtomWithin state n rawAtom = mc.evalAtomWithin state m rawAtom := by
  induction n generalizing m rawAtom with
  | zero => exact absurd hn (Nat.not_lt_zero _)
  | succ n ih =>
    obtain ⟨m, rfl⟩ : ∃ k, m = k + 1 := ⟨m - 1, by omega⟩
    simp only [evalAtomWithin]
    by_cases hempty : trimStr rawAtom = ""
    · rw [if_pos hempty, if_pos hempty]
    · have hlt := length_substrFrom_lt hempty
      have hle := length_trimStr_le rawAtom
      rw [if_neg hempty, if_neg hempty, ih (by omega) (by omega : _ < m)]

theorem evalAtomPredicate_eq (rawAtom : String) : mc.evalAtomPredicate state rawAtom =
    if trimStr rawAtom = "" then true
    else if startsWith (trimStr rawAtom) "!" then
      !mc.evalAtomPredicate state (substrFrom (trimStr rawAtom) 1)
    else mc.evalPlainAtom state (trimStr rawAtom) := by
  rw [evalAtomPredicate, evalAtomWithin]
  by_cases hempty : trimStr rawAtom = ""
  · rw [if_pos hempty, if_pos hempty]
  · have hlt := length_substrFrom_lt hempty
    have hle := length_trimStr_le rawAtom
    rw [if_neg hempty, if_neg hempty, evalAtomPredicate,
      evalAtomWithin_eq (by omega) (Nat.lt_succ_self _)]

theorem evalPredicates_eq_map (nodes : List PropertyAstNode) :
    mc.evalPredicates state nodes = nodes.map (mc.evalPredicate state) := by
  induction nodes with
  | nil => rfl
  | cons node nodes ih => rw [evalPredicates, ih, List.map_cons]

variable {nodes : List PropertyAstNode}

theorem evalPredicate_and {text : String} :
    mc.evalPredicate state (.mk .and text nodes) = nodes.all (mc.evalPredicate state) := by
  unfold evalPredicate
  rw [evalPredicates_eq_map]
  exact List.all_map

theorem evalPredicate_or {text : String} :
    mc.evalPredicate state (.mk .or text nodes) = nodes.any (mc.evalPredicate state) := by
  unfold evalPredicate
  rw [evalPredicates_eq_map]
  exact List.any_map

end ModelChecker

end Fsmc
