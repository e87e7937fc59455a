/-
# Fsmc.ModelChecker.Verify — choosing the check for a property.

The choice looks at the shape of the formula near its root and nothing else. Every shape that is not
listed is checked as an invariant, whatever operators it contains.
-/
import Fsmc.ModelChecker.Ctl
import Fsmc.ModelChecker.Ltl

namespace Fsmc

open Fsmc.Ir

namespace ModelChecker

variable (mc : ModelChecker)

/-- The operators that the CTL engine takes. -/
def isCtl : TemporalOp → Bool
  | .ex | .ax | .ef | .af | .eg | .ag | .eu | .au => true
  | _ => false

/-- The first child, or the node itself when it has none. -/
def childOrSelf (node : PropertyAstNode) : PropertyAstNode := node.children.headD node

/-- What is checked for `G` with the child `p`. -/
def verifyGlobally (prop : FormalProperty) (p : PropertyAstNode) : ModelCheckResult :=
  match p.op, p.children with
  | .implies, trigger :: target :: _ =>
    -- only a target with `F` or `X` at its root makes the implication temporal
    if target.op = .finally then mc.checkResponse prop trigger (childOrSelf target)
    else if target.op = .next then mc.checkNextResponse prop trigger (childOrSelf target)
    else mc.checkInvariant prop p
  | .finally, _ => mc.checkInfinitelyOften prop (childOrSelf p)
  | .next, _ => mc.checkNextResponse prop (.ofAtom "true") (childOrSelf p)
  | _, _ => mc.checkInvariant prop p

/-- What is checked for `F` with the child `p`. -/
def verifyFinally (prop : FormalProperty) (p : PropertyAstNode) : ModelCheckResult :=
  if p.op = .globally then mc.checkEventuallyAlways prop (childOrSelf p)
  else mc.checkReachability prop p

/-- `verify_property` for a formula. -/
def verifyAst (prop : FormalProperty) (ast : PropertyAstNode) : ModelCheckResult :=
  if isCtl ast.op then mc.checkCtl prop ast
  else
    match ast.op, ast.children with
    | .until, left :: right :: _ => mc.checkUntil prop left right
    | .next, target :: _ => mc.checkNext prop target
    | .globally, p :: _ => mc.verifyGlobally prop p
    | .globally, [] => mc.checkInvariant prop ast
    | .finally, p :: _ => mc.verifyFinally prop p
    | .finally, [] => mc.checkReachability prop ast
    -- also an until or a next with too few operands, and every Boolean connective
    | _, _ => mc.checkInvariant prop ast

/-- `verify_property`: a property without a formula passes. -/
def verifyProperty (prop : FormalProperty) : ModelCheckResult :=
  match prop.ast with
  | none => .pass prop
  | some ast => mc.verifyAst prop ast

def verifyAll : List ModelCheckResult := mc.ir.properties.map mc.verifyProperty

end ModelChecker

end Fsmc
