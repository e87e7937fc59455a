/-
# Fsmc.Ir.Guard — composable guard predicates.
-/

namespace Fsmc.Ir

inductive GuardOp where
  | none | not | and | or
  deriving DecidableEq, Repr

structure GuardAstNode where
  op : GuardOp := .none
  expression : String := ""
  children : List GuardAstNode := []
  deriving Repr

mutual

/-- `GuardAstNode::to_cpp`, which is also `to_string`. -/
def GuardAstNode.toCpp : GuardAstNode → String
  | ⟨.none, expression, _⟩ => expression
  | ⟨.not, expression, []⟩ => "!" ++ expression
  | ⟨.not, _, child :: _⟩ =>
    "!" ++ (if child.op ≠ .none then "(" ++ child.toCpp ++ ")" else child.toCpp)
  | ⟨.and, _, children⟩ => joinCpp " && " true children
  | ⟨.or, _, children⟩ => joinCpp " || " false children

/-- The loop of `to_cpp` over the children of a conjunction or disjunction; a disjunction under a
conjunction is put in parentheses. -/
def joinCpp (opStr : String) (underAnd : Bool) : List GuardAstNode → String
  | [] => ""
  | child :: rest =>
    (if underAnd && child.op = .or then "(" ++ child.toCpp ++ ")" else child.toCpp) ++
      (if rest.isEmpty then "" else opStr ++ joinCpp opStr underAnd rest)

end

/-- `GuardModel`: a named guard and the texts it was declared with. -/
structure GuardModel where
  name : String := ""
  rawExpression : Option String := none
  normalizedExpression : Option String := none

end Fsmc.Ir
