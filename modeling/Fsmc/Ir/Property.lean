/-
# Fsmc.Ir.Property — temporal formulas and the properties that carry them.

A formula is a tree of operators with any number of children; nothing in the type ties an operator to
the number of children it needs, so the functions below say what happens for every number.
-/
import Mathlib.Data.List.Basic

namespace Fsmc.Ir

/-- `TemporalOp`: the temporal and propositional operators, LTL first and then CTL. -/
inductive TemporalOp where
  | atom | globally | finally | next | until | release | implies | equivalent | and | or | not
  | ex | ax | ef | af | eg | ag | eu | au
  deriving DecidableEq, Repr

/-- `PropertyAstNode`: the text of an atomic proposition and the child formulas. -/
inductive PropertyAstNode where
  | mk (op : TemporalOp) (atom : String) (children : List PropertyAstNode)

namespace PropertyAstNode

/-- The operator at the root. -/
def op : PropertyAstNode → TemporalOp
  | mk op _ _ => op

/-- The text of the proposition. -/
def atom : PropertyAstNode → String
  | mk _ atom _ => atom

def children : PropertyAstNode → List PropertyAstNode
  | mk _ _ children => children

def ofAtom (propAtom : String) : PropertyAstNode := mk .atom propAtom []

/-- `PropertyAstNode(operation, sub_nodes)`. -/
def ofOp (operation : TemporalOp) (subNodes : List PropertyAstNode) : PropertyAstNode :=
  mk operation "" subNodes

/-- A formula with one operand. -/
def unary (operation : TemporalOp) (p : PropertyAstNode) : PropertyAstNode := ofOp operation [p]

/-- A formula with two operands. -/
def binary (operation : TemporalOp) (p q : PropertyAstNode) : PropertyAstNode :=
  ofOp operation [p, q]

variable {cs : List PropertyAstNode} {o : TemporalOp}

@[simp] theorem op_mk {a : String} : (mk o a cs).op = o := rfl

@[simp] theorem children_mk {a : String} : (mk o a cs).children = cs := rfl

@[simp] theorem op_ofOp : (ofOp o cs).op = o := rfl

@[simp] theorem children_ofOp : (ofOp o cs).children = cs := rfl

theorem induct {P : PropertyAstNode → Prop}
    (node : ∀ op atom children, (∀ c ∈ children, P c) → P (mk op atom children)) :
    ∀ n, P n := by
  intro n
  refine @PropertyAstNode.rec P (fun cs => ∀ c ∈ cs, P c) ?_ ?_ ?_ n
  · exact fun op atom children ih => node op atom children ih
  · exact fun c hc => absurd hc List.not_mem_nil
  · intro c cs hc hcs d hd
    rcases List.mem_cons.mp hd with rfl | hd
    · exact hc
    · exact hcs d hd

/-- The children of a binary operator joined by its symbol, those with several children of their own
in parentheses. -/
def joinChildren (opStr : String) : List (PropertyAstNode × String) → String
  | [] => ""
  | [(c, text)] => parens c text
  | (c, text) :: rest => parens c text ++ opStr ++ joinChildren opStr rest
where
  parens (c : PropertyAstNode) (text : String) : String :=
    if c.op ≠ .atom ∧ 1 < c.children.length then "(" ++ text ++ ")" else text

mutual

def toString : PropertyAstNode → String
  | mk op atom children =>
    let texts := toStrings children
    let unary (opStr : String) : String :=
      match texts with
      | t :: _ => opStr ++ "(" ++ t ++ ")"
      | [] => opStr ++ "(" ++ atom ++ ")"
    let pathUntil (opening : String) : String :=
      match texts with
      | t :: u :: _ => opening ++ t ++ " U " ++ u ++ "]"
      | _ => opening ++ atom ++ "]"
    let binary (opStr : String) : String := joinChildren opStr (children.zip texts)
    match op with
    | .atom => atom
    | .not =>
      match children, texts with
      | c :: _, t :: _ => "!" ++ if c.op ≠ .atom then "(" ++ t ++ ")" else t
      | _, _ => "!" ++ atom
    | .globally => unary "G "
    | .finally => unary "F "
    | .next => unary "X "
    | .ex => unary "EX "
    | .ax => unary "AX "
    | .ef => unary "EF "
    | .af => unary "AF "
    | .eg => unary "EG "
    | .ag => unary "AG "
    | .eu => pathUntil "E ["
    | .au => pathUntil "A ["
    | .until => binary " U "
    | .release => binary " R "
    | .implies => binary " -> "
    | .equivalent => binary " <-> "
    | .and => binary " && "
    | .or => binary " || "

/-- The texts of several formulas. -/
def toStrings : List PropertyAstNode → List String
  | [] => []
  | c :: cs => toString c :: toStrings cs

end

end PropertyAstNode

inductive PropertyKind where
  | safety | liveness | invariant | reachability | deadlockFreedom
  deriving DecidableEq, Repr

/-- `FormalProperty`, with the fields that verification reads. -/
structure FormalProperty where
  name : String := ""
  kind : PropertyKind := .safety
  rawFormula : String := ""
  ast : Option PropertyAstNode := none

end Fsmc.Ir
