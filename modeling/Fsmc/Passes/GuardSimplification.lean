/-
# Fsmc.Passes.GuardSimplification — the simplification of structured guards.

`simplify_node` works from the leaves up: it removes double negations and constants, merges a connective with
those of the same kind directly below it and drops operands that repeat. The truth value never changes
(`truth_simplifyNode`). What is left is in `ReducedForm`, the normal form without its condition on negations,
and a second run changes nothing (`simplifyNode_idem`).
-/
import Fsmc.Ir.Guard
import Mathlib.Data.List.Nodup

namespace Fsmc.Ir

/-! ## Guards as trees -/

namespace GuardAstNode

theorem induction {P : GuardAstNode → Prop}
    (h : ∀ op expression children, (∀ child ∈ children, P child) → P ⟨op, expression, children⟩) (g : GuardAstNode) :
    P g := by
  refine @GuardAstNode.rec P (fun children => ∀ child ∈ children, P child) h ?_ ?_ g
  · exact fun _ hmem => absurd hmem List.not_mem_nil
  · intro head tail hhead htail child hmem
    rcases List.mem_cons.mp hmem with rfl | hmem
    · exact hhead
    · exact htail child hmem

mutual

/-- `GuardAstNode::operator==`. -/
def decEq : (a b : GuardAstNode) → Decidable (a = b)
  | ⟨op, expression, children⟩, ⟨op', expression', children'⟩ =>
    match decEqAll children children' with
    | .isTrue h =>
      if hhead : op = op' ∧ expression = expression' then .isTrue (by rw [hhead.1, hhead.2, h])
      else .isFalse fun heq => hhead (by injection heq with hop hexpression; exact ⟨hop, hexpression⟩)
    | .isFalse h => .isFalse fun heq => h (by injection heq)

/-- The same for the children. -/
def decEqAll : (as bs : List GuardAstNode) → Decidable (as = bs)
  | [], [] => .isTrue rfl
  | [], _ :: _ => .isFalse (by simp)
  | _ :: _, [] => .isFalse (by simp)
  | a :: as, b :: bs =>
    match decEq a b with
    | .isTrue hhead =>
      match decEqAll as bs with
      | .isTrue htail => .isTrue (by rw [hhead, htail])
      | .isFalse htail => .isFalse fun heq => htail (List.cons.inj heq).2
    | .isFalse hhead => .isFalse fun heq => hhead (List.cons.inj heq).1

end

instance : DecidableEq GuardAstNode := decEq

def atom (expression : String) : GuardAstNode := ⟨.none, expression, []⟩

mutual

/-- A node and everything below it. -/
def subnodes : GuardAstNode → List GuardAstNode
  | ⟨op, expression, children⟩ => ⟨op, expression, children⟩ :: subnodesAll children

/-- The same for the children. -/
def subnodesAll : List GuardAstNode → List GuardAstNode
  | [] => []
  | child :: rest => subnodes child ++ subnodesAll rest

end

theorem mem_subnodesAll {n : GuardAstNode} {children : List GuardAstNode} :
    n ∈ subnodesAll children ↔ ∃ child ∈ children, n ∈ child.subnodes := by
  induction children with
  | nil => simp [subnodesAll]
  | cons child rest ih => simp [subnodesAll, ih]

theorem forall_subnodes {P : GuardAstNode → Prop} {op : GuardOp} {expression : String} {children : List GuardAstNode} :
    (∀ n ∈ subnodes ⟨op, expression, children⟩, P n) ↔
      P ⟨op, expression, children⟩ ∧ ∀ child ∈ children, ∀ n ∈ child.subnodes, P n := by
  show (∀ n ∈ _ :: subnodesAll children, P n) ↔ _
  rw [List.forall_mem_cons]
  apply and_congr_right
  intro _
  constructor
  · exact fun h child hchild n hn => h n (mem_subnodesAll.mpr ⟨child, hchild, hn⟩)
  · intro h n hn
    obtain ⟨child, hchild, hn⟩ := mem_subnodesAll.mp hn
    exact h child hchild n hn

theorem self_mem_subnodes (g : GuardAstNode) : g ∈ g.subnodes := by
  obtain ⟨op, expression, children⟩ := g
  exact List.mem_cons_self

end GuardAstNode

end Fsmc.Ir

namespace Fsmc.Passes.GuardSimplification

open Fsmc.Ir GuardAstNode

/-! ## The pass -/

/-- The branch for a negation, with the simplified child. -/
def negate (child : GuardAstNode) : GuardAstNode :=
  match child with
  | ⟨.not, _, grandchild :: _⟩ => grandchild
  | ⟨.none, expression, _⟩ =>
    if expression = "true" then atom "false"
    else if expression = "false" then atom "true"
    else ⟨.not, "", [child]⟩
  -- also a negation that carries its operand as a text
  | _ => ⟨.not, "", [child]⟩

/-- The children, with those of the same kind replaced by their own children. -/
def flatten (op : GuardOp) (children : List GuardAstNode) : List GuardAstNode :=
  children.flatMap fun child => if child.op = op then child.children else [child]

/-- Whether a node is the constant that `text` is. -/
def isText (text : String) (item : GuardAstNode) : Bool := item.op = .none && item.expression = text

/-- The loop over the flattened children; `none` where the absorbing constant ends it. -/
def clean (absorbing neutral : String) : List GuardAstNode → List GuardAstNode → Option (List GuardAstNode)
  | cleaned, [] => some cleaned
  | cleaned, item :: rest =>
    if isText absorbing item then none
    else if isText neutral item then clean absorbing neutral cleaned rest
    else if item ∈ cleaned then clean absorbing neutral cleaned rest
    else clean absorbing neutral (cleaned ++ [item]) rest

/-- The branch for a connective, with the simplified children. -/
def connect (op : GuardOp) (absorbing neutral : String) (children : List GuardAstNode) : GuardAstNode :=
  match clean absorbing neutral [] (flatten op children) with
  | none => atom absorbing
  | some [] => atom neutral
  | some [single] => single
  | some cleaned => ⟨op, "", cleaned⟩

mutual

def simplifyNode : GuardAstNode → GuardAstNode
  | ⟨.none, expression, children⟩ => ⟨.none, expression, children⟩
  | ⟨.not, expression, []⟩ => ⟨.not, expression, []⟩
  | ⟨.not, _, child :: _⟩ => negate (simplifyNode child)
  | ⟨.and, _, children⟩ => connect .and "false" "true" (simplifyNodes children)
  | ⟨.or, _, children⟩ => connect .or "true" "false" (simplifyNodes children)

/-- The loop over the children. -/
def simplifyNodes : List GuardAstNode → List GuardAstNode
  | [] => []
  | child :: rest => simplifyNode child :: simplifyNodes rest

end

theorem simplifyNodes_eq_map (children : List GuardAstNode) : simplifyNodes children = children.map simplifyNode := by
  induction children with
  | nil => rfl
  | cons child rest ih => rw [simplifyNodes, ih, List.map_cons]

/-- A guard whose atoms have no children and whose negations have one child, or none and a text. -/
def WellFormed (g : GuardAstNode) : Prop :=
  ∀ n ∈ g.subnodes, (n.op = .none → n.children = []) ∧ (n.op = .not → n.children.length ≤ 1)

instance (g : GuardAstNode) : Decidable (WellFormed g) :=
  inferInstanceAs (Decidable (∀ n ∈ g.subnodes,
    (n.op = GuardOp.none → n.children = []) ∧ (n.op = GuardOp.not → n.children.length ≤ 1)))

/-! ## Truth -/

mutual

/-- The truth of a guard, as it is printed: a bare negation negates its text. -/
def truth (v : String → Bool) : GuardAstNode → Bool
  | ⟨.none, expression, _⟩ => v expression
  | ⟨.not, expression, []⟩ => !v expression
  | ⟨.not, _, child :: _⟩ => !truth v child
  | ⟨.and, _, children⟩ => allTrue v children
  | ⟨.or, _, children⟩ => anyTrue v children

def allTrue (v : String → Bool) : List GuardAstNode → Bool
  | [] => true
  | child :: rest => truth v child && allTrue v rest

/-- Some operand is true. -/
def anyTrue (v : String → Bool) : List GuardAstNode → Bool
  | [] => false
  | child :: rest => truth v child || anyTrue v rest

end

/-- A valuation that gives the constants their usual values. -/
structure Usual (v : String → Bool) : Prop where
  isTrue : v "true" = true
  isFalse : v "false" = false

section Truth

variable {v : String → Bool}

theorem allTrue_eq (children : List GuardAstNode) : allTrue v children = children.all (truth v) := by
  induction children with
  | nil => rfl
  | cons child rest ih => rw [allTrue, ih, List.all_cons]

theorem anyTrue_eq (children : List GuardAstNode) : anyTrue v children = children.any (truth v) := by
  induction children with
  | nil => rfl
  | cons child rest ih => rw [anyTrue, ih, List.any_cons]

/-! ## What the loop keeps -/

variable {op : GuardOp}

theorem mem_flatten {item : GuardAstNode} {children : List GuardAstNode} : item ∈ flatten op children ↔
    ∃ child ∈ children, if child.op = op then item ∈ child.children else item = child := by
  unfold flatten
  rw [List.mem_flatMap]
  apply exists_congr
  intro child
  apply and_congr_right
  intro _
  split
  · exact Iff.rfl
  · exact List.mem_singleton

/-- The loop ends early exactly at an absorbing constant; else it keeps one of each operand that is not neutral. -/
theorem clean_spec (absorbing neutral : String) (items : List GuardAstNode) : ∀ cleaned : List GuardAstNode,
    match clean absorbing neutral cleaned items with
    | none => ∃ item ∈ items, isText absorbing item = true
    | some kept => (∀ item ∈ items, isText absorbing item = false) ∧ (cleaned.Nodup → kept.Nodup) ∧
      ∀ n, n ∈ kept ↔ n ∈ cleaned ∨ n ∈ items ∧ isText neutral n = false := by
  induction items with
  | nil => exact fun cleaned => by simp [clean]
  | cons item rest ih =>
    intro cleaned
    unfold clean
    by_cases habsorbing : isText absorbing item = true
    · rw [if_pos habsorbing]
      exact ⟨item, List.mem_cons_self, habsorbing⟩
    · rw [if_neg habsorbing]
      by_cases hneutral : isText neutral item = true
      · rw [if_pos hneutral]
        have hrest := ih cleaned
        split at hrest
        · obtain ⟨n, hn, h⟩ := hrest
          exact ⟨n, List.mem_cons_of_mem _ hn, h⟩
        · obtain ⟨hnone, hnodup, hkept⟩ := hrest
          refine ⟨List.forall_mem_cons.mpr ⟨by simpa using habsorbing, hnone⟩, hnodup, fun n => ?_⟩
          rw [hkept, List.mem_cons]
          constructor
          · rintro (h | ⟨h, hn⟩)
            · exact Or.inl h
            · exact Or.inr ⟨Or.inr h, hn⟩
          · rintro (h | ⟨rfl | h, hn⟩)
            · exact Or.inl h
            · rw [hneutral] at hn
              cases hn
            · exact Or.inr ⟨h, hn⟩
      · rw [if_neg hneutral]
        have hitem : isText neutral item = false := by simpa using hneutral
        -- in both cases the item is kept once
        have hkeep : ∀ next : List GuardAstNode, (∀ n, n ∈ next ↔ n ∈ cleaned ∨ n = item) →
            (cleaned.Nodup → next.Nodup) →
            match clean absorbing neutral next rest with
            | none => ∃ n ∈ item :: rest, isText absorbing n = true
            | some kept => (∀ n ∈ item :: rest, isText absorbing n = false) ∧ (cleaned.Nodup → kept.Nodup) ∧
              ∀ n, n ∈ kept ↔ n ∈ cleaned ∨ n ∈ item :: rest ∧ isText neutral n = false := by
          intro next hnext hnodup
          have hrest := ih next
          split at hrest
          · obtain ⟨n, hn, h⟩ := hrest
            exact ⟨n, List.mem_cons_of_mem _ hn, h⟩
          · obtain ⟨hnone, hkeeps, hkept⟩ := hrest
            refine ⟨List.forall_mem_cons.mpr ⟨by simpa using habsorbing, hnone⟩, hkeeps ∘ hnodup, fun n => ?_⟩
            rw [hkept, hnext, List.mem_cons]
            constructor
            · rintro ((h | rfl) | ⟨h, hn⟩)
              · exact Or.inl h
              · exact Or.inr ⟨Or.inl rfl, hitem⟩
              · exact Or.inr ⟨Or.inr h, hn⟩
            · rintro (h | ⟨rfl | h, hn⟩)
              · exact Or.inl (Or.inl h)
              · exact Or.inl (Or.inr rfl)
              · exact Or.inr ⟨h, hn⟩
        by_cases hmem : item ∈ cleaned
        · rw [if_pos hmem]
          refine hkeep cleaned (fun n => ⟨Or.inl, ?_⟩) id
          rintro (h | rfl)
          · exact h
          · exact hmem
        · rw [if_neg hmem]
          refine hkeep _ (fun n => by simp) fun hnodup => ?_
          exact List.nodup_append.mpr ⟨hnodup, List.nodup_singleton _, by
            rintro a ha b hb rfl
            exact hmem (List.mem_singleton.mp hb ▸ ha)⟩

theorem connect_cases (op : GuardOp) (absorbing neutral : String) (children : List GuardAstNode) :
    (∃ item ∈ flatten op children, isText absorbing item = true) ∧
        connect op absorbing neutral children = atom absorbing ∨
      (∀ item ∈ flatten op children, isText absorbing item = false) ∧ ∃ kept : List GuardAstNode, kept.Nodup ∧
        (∀ n, n ∈ kept ↔ n ∈ flatten op children ∧ isText neutral n = false) ∧
        (kept = [] ∧ connect op absorbing neutral children = atom neutral ∨
          (∃ single, kept = [single] ∧ connect op absorbing neutral children = single) ∨
          2 ≤ kept.length ∧ connect op absorbing neutral children = ⟨op, "", kept⟩) := by
  have hspec := clean_spec absorbing neutral (flatten op children) []
  unfold connect
  cases hclean : clean absorbing neutral [] (flatten op children) with
  | none =>
    rw [hclean] at hspec
    exact Or.inl ⟨hspec, rfl⟩
  | some kept =>
    rw [hclean] at hspec
    obtain ⟨hnone, hnodup, hkept⟩ := hspec
    refine Or.inr ⟨hnone, kept, hnodup List.nodup_nil, fun n => (hkept n).trans (by simp), ?_⟩
    rcases kept with _ | ⟨single, _ | ⟨second, rest⟩⟩
    · exact Or.inl ⟨rfl, rfl⟩
    · exact Or.inr (Or.inl ⟨single, rfl, rfl⟩)
    · exact Or.inr (Or.inr ⟨by simp, rfl⟩)

/-! ## The truth value is kept -/

/-- How a constant is written. -/
def textOf (b : Bool) : String := if b then "true" else "false"

/-- The connective whose neutral constant is `unit`. -/
def connective (unit : Bool) : GuardOp := if unit then .and else .or

theorem truth_connective (unit : Bool) (expression : String) (children : List GuardAstNode) :
    truth v ⟨connective unit, expression, children⟩ = unit ↔ ∀ child ∈ children, truth v child = unit := by
  cases unit with
  | true =>
    show allTrue v children = true ↔ _
    rw [allTrue_eq, List.all_eq_true]
  | false =>
    show anyTrue v children = false ↔ _
    rw [anyTrue_eq, List.any_eq_false]
    simp

theorem truth_isText (hv : Usual v) {b : Bool} {item : GuardAstNode} (h : isText (textOf b) item = true) :
    truth v item = b := by
  obtain ⟨op, expression, children⟩ := item
  simp only [isText, Bool.and_eq_true, decide_eq_true_eq] at h
  obtain ⟨rfl, rfl⟩ := h
  cases b
  · exact hv.isFalse
  · exact hv.isTrue

theorem truth_atom (hv : Usual v) (b : Bool) : truth v (atom (textOf b)) = b :=
  truth_isText hv (by simp [isText, atom])

theorem truth_flatten (unit : Bool) (children : List GuardAstNode) :
    (∀ item ∈ flatten (connective unit) children, truth v item = unit) ↔ ∀ child ∈ children, truth v child = unit := by
  constructor
  · intro h child hchild
    by_cases hop : child.op = connective unit
    · obtain ⟨op, expression, grandchildren⟩ := child
      obtain rfl : op = connective unit := hop
      exact (truth_connective unit expression grandchildren).mpr fun n hn =>
        h n (mem_flatten.mpr ⟨_, hchild, by rw [if_pos rfl]; exact hn⟩)
    · exact h child (mem_flatten.mpr ⟨child, hchild, by rw [if_neg hop]⟩)
  · intro h item hitem
    obtain ⟨child, hchild, hin⟩ := mem_flatten.mp hitem
    split at hin
    · next hop =>
        obtain ⟨op, expression, grandchildren⟩ := child
        obtain rfl : op = connective unit := hop
        exact (truth_connective unit expression grandchildren).mp (h _ hchild) item hin
    · rw [hin]
      exact h child hchild

theorem truth_connect (hv : Usual v) (unit : Bool) (children : List GuardAstNode) :
    truth v (connect (connective unit) (textOf !unit) (textOf unit) children) = unit ↔
      ∀ child ∈ children, truth v child = unit := by
  rw [← truth_flatten]
  rcases connect_cases (connective unit) (textOf !unit) (textOf unit) children with
    ⟨⟨item, hitem, habsorbing⟩, heq⟩ | ⟨-, kept, -, hkept, hform⟩
  · rw [heq, truth_atom hv]
    refine iff_of_false (by simp) fun h => ?_
    have hitem' := h item hitem
    rw [truth_isText hv habsorbing] at hitem'
    simp at hitem'
  · have hall : (∀ n ∈ kept, truth v n = unit) ↔ ∀ n ∈ flatten (connective unit) children, truth v n = unit := by
      constructor
      · intro h n hn
        cases hneutral : isText (textOf unit) n with
        | true => exact truth_isText hv hneutral
        | false => exact h n ((hkept n).mpr ⟨hn, hneutral⟩)
      · exact fun h n hn => h n ((hkept n).mp hn).1
    rw [← hall]
    rcases hform with ⟨rfl, heq⟩ | ⟨single, rfl, heq⟩ | ⟨-, heq⟩
    · rw [heq, truth_atom hv]
      simp
    · rw [heq]
      simp
    · rw [heq, truth_connective]

theorem truth_negate (hv : Usual v) (child : GuardAstNode) : truth v (negate child) = !truth v child := by
  unfold negate
  split
  · exact (Bool.not_not _).symm
  · next expression children =>
      split
      · next htrue =>
          show v "false" = !v expression
          rw [htrue, hv.isTrue, hv.isFalse]
          rfl
      · split
        · next hfalse =>
            show v "true" = !v expression
            rw [hfalse, hv.isTrue, hv.isFalse]
            rfl
        · rfl
  · rfl

end Truth

/-- **The simplification keeps the truth value** of every guard, under every valuation that gives the constants
their usual values. -/
theorem truth_simplifyNode (g : GuardAstNode) (v : String → Bool) (hv : Usual v) :
    truth v (simplifyNode g) = truth v g := by
  induction g using GuardAstNode.induction with
  | h op expression children ih =>
    -- the two connectives differ in their constants only
    have hconnective : ∀ unit : Bool, truth v (connect (connective unit) (textOf !unit) (textOf unit)
        (simplifyNodes children)) = truth v ⟨connective unit, expression, children⟩ := by
      intro unit
      have hiff : truth v (connect (connective unit) (textOf !unit) (textOf unit) (simplifyNodes children)) = unit ↔
          truth v ⟨connective unit, expression, children⟩ = unit := by
        rw [truth_connect hv, truth_connective, simplifyNodes_eq_map, List.forall_mem_map]
        exact forall₂_congr fun child hchild => by rw [ih child hchild]
      revert hiff
      generalize truth v (connect _ _ _ _) = a
      generalize truth v ⟨_, _, _⟩ = b
      cases a <;> cases b <;> cases unit <;> simp
    cases op with
    | none => rfl
    | not =>
      cases children with
      | nil => rfl
      | cons child rest =>
        show truth v (negate (simplifyNode child)) = !truth v child
        rw [truth_negate hv, ih child List.mem_cons_self]
    | and => exact hconnective true
    | or => exact hconnective false

/-- A double negation. -/
theorem truth_simplifyNode_ready : truth (· = "true") (simplifyNode ⟨.not, "", [⟨.not, "", [atom "ready"]⟩]⟩) =
      truth (· = "true") ⟨.not, "", [⟨.not, "", [atom "ready"]⟩]⟩ :=
  truth_simplifyNode _ _ ⟨by decide, by decide⟩

/-! ## Normal forms -/

/-- Whether a text is a constant. -/
def isConstantText (text : String) : Bool := text = "true" || text = "false"

/-- Whether a node is a constant. -/
def isConstant (n : GuardAstNode) : Bool := n.op = .none && isConstantText n.expression

/-- A node at which nothing is left to simplify. -/
structure LocallyNormal (n : GuardAstNode) : Prop where
  nested : n.op = .and ∨ n.op = .or → ∀ child ∈ n.children, child.op ≠ n.op
  several : n.op = .and ∨ n.op = .or → 2 ≤ n.children.length
  distinct : n.children.Nodup
  constants : ∀ child ∈ n.children, isConstant child = false
  texts : n.op = .not → n.children = [] → isConstantText n.expression = false
  negations : n.op = .not → ∀ child ∈ n.children, child.op ≠ .not

/-- A guard in which nothing is left to simplify. -/
def NormalForm (g : GuardAstNode) : Prop := ∀ n ∈ g.subnodes, LocallyNormal n

/-- A node as the pass leaves it: a negation may be above a bare one. -/
structure Reduced (n : GuardAstNode) : Prop where
  atoms : n.op = .none → n.children = []
  single : n.op = .not → n.children.length ≤ 1
  plain : n.children ≠ [] → n.expression = ""
  nested : n.op = .and ∨ n.op = .or → ∀ child ∈ n.children, child.op ≠ n.op
  several : n.op = .and ∨ n.op = .or → 2 ≤ n.children.length
  distinct : n.children.Nodup
  constants : ∀ child ∈ n.children, isConstant child = false
  negations : n.op = .not → ∀ child ∈ n.children, child.op = .not → child.children = []

/-- A guard all of whose nodes are as the pass leaves them. -/
def ReducedForm (g : GuardAstNode) : Prop := ∀ n ∈ g.subnodes, Reduced n

/-- A bare negation of a constant, or a negation of a negation. -/
def LeftOver (n : GuardAstNode) : Prop :=
  n.op = .not ∧ ((n.children = [] ∧ isConstantText n.expression = true) ∨ ∃ child ∈ n.children, child.op = .not)

theorem locallyNormal_iff {n : GuardAstNode} (h : Reduced n) : LocallyNormal n ↔ ¬ LeftOver n := by
  constructor
  · rintro hn ⟨hop, ⟨hnil, htext⟩ | ⟨child, hchild, hnot⟩⟩
    · rw [hn.texts hop hnil] at htext
      cases htext
    · exact hn.negations hop child hchild hnot
  · intro hno
    exact
      { nested := h.nested
        several := h.several
        distinct := h.distinct
        constants := h.constants
        texts := fun hop hnil => Bool.eq_false_iff.mpr fun htext => hno ⟨hop, Or.inl ⟨hnil, htext⟩⟩
        negations := fun hop child hchild hnot => hno ⟨hop, Or.inr ⟨child, hchild, hnot⟩⟩ }

theorem normalForm_iff {g : GuardAstNode} (h : ReducedForm g) : NormalForm g ↔ ∀ n ∈ g.subnodes, ¬ LeftOver n :=
  forall₂_congr fun n hn => locallyNormal_iff (h n hn)

theorem reducedForm_iff {op : GuardOp} {expression : String} {children : List GuardAstNode} :
    ReducedForm ⟨op, expression, children⟩ ↔
      Reduced ⟨op, expression, children⟩ ∧ ∀ child ∈ children, ReducedForm child :=
  forall_subnodes

theorem ReducedForm.root {g : GuardAstNode} (h : ReducedForm g) : Reduced g := h g g.self_mem_subnodes

theorem ReducedForm.child {g child : GuardAstNode} (h : ReducedForm g) (hchild : child ∈ g.children) :
    ReducedForm child := by
  obtain ⟨op, expression, children⟩ := g
  exact (reducedForm_iff.mp h).2 child hchild

theorem reducedForm_leaf {op : GuardOp} (hop : op = .none ∨ op = .not) (expression : String) :
    ReducedForm ⟨op, expression, []⟩ := by
  refine reducedForm_iff.mpr ⟨?_, fun _ h => absurd h List.not_mem_nil⟩
  constructor <;> rcases hop with rfl | rfl <;> simp

theorem reducedForm_atom (expression : String) : ReducedForm (atom expression) :=
  reducedForm_leaf (Or.inl rfl) expression

/-! ## What the pass leaves -/

theorem isConstant_eq_false_iff {item : GuardAstNode} (unit : Bool) :
    isConstant item = false ↔ isText (textOf !unit) item = false ∧ isText (textOf unit) item = false := by
  cases unit <;> cases item.op <;> simp [isConstant, isConstantText, isText, textOf] <;> tauto

theorem reducedForm_flatten (unit : Bool) {children : List GuardAstNode} (h : ∀ child ∈ children, ReducedForm child) :
    ∀ item ∈ flatten (connective unit) children, ReducedForm item ∧ item.op ≠ connective unit := by
  have hkind : connective unit = .and ∨ connective unit = .or := by cases unit <;> simp [connective]
  intro item hitem
  obtain ⟨child, hchild, hin⟩ := mem_flatten.mp hitem
  have hreduced := h child hchild
  split at hin
  · next hop => exact ⟨hreduced.child hin, hop ▸ hreduced.root.nested (hop.symm ▸ hkind) item hin⟩
  · next hop => exact hin ▸ ⟨hreduced, hop⟩

theorem reducedForm_connect (unit : Bool) {children : List GuardAstNode} (h : ∀ child ∈ children, ReducedForm child) :
    ReducedForm (connect (connective unit) (textOf !unit) (textOf unit) children) := by
  have hitems := reducedForm_flatten unit h
  rcases connect_cases (connective unit) (textOf !unit) (textOf unit) children with
    ⟨-, heq⟩ | ⟨hnone, kept, hnodup, hkept, hform⟩
  · exact heq ▸ reducedForm_atom _
  · rcases hform with ⟨-, heq⟩ | ⟨single, rfl, heq⟩ | ⟨hlength, heq⟩
    · exact heq ▸ reducedForm_atom _
    · exact heq ▸ (hitems single ((hkept single).mp List.mem_cons_self).1).1
    · rw [heq]
      refine reducedForm_iff.mpr ⟨?_, fun n hn => (hitems n ((hkept n).mp hn).1).1⟩
      exact
        { atoms := by cases unit <;> simp [connective]
          single := by cases unit <;> simp [connective]
          plain := fun _ => rfl
          nested := fun _ n hn => (hitems n ((hkept n).mp hn).1).2
          several := fun _ => hlength
          distinct := hnodup
          constants := fun n hn =>
            (isConstant_eq_false_iff unit).mpr ⟨hnone n ((hkept n).mp hn).1, ((hkept n).mp hn).2⟩
          negations := by cases unit <;> simp [connective] }

theorem reducedForm_not {child : GuardAstNode} (h : ReducedForm child) (hconstant : isConstant child = false)
    (hbare : child.op = .not → child.children = []) : ReducedForm ⟨.not, "", [child]⟩ := by
  refine reducedForm_iff.mpr ⟨?_, by simpa using h⟩
  constructor <;> simp [hconstant]
  exact hbare

theorem reducedForm_negate {child : GuardAstNode} (h : ReducedForm child) : ReducedForm (negate child) := by
  unfold negate
  split
  · exact h.child List.mem_cons_self
  · next expression children =>
      split
      · exact reducedForm_atom _
      · split
        · exact reducedForm_atom _
        · next htrue hfalse => exact reducedForm_not h (by simp [isConstant, isConstantText, htrue, hfalse]) (by simp)
  · next hnot hnone =>
      obtain ⟨op, expression, children⟩ := child
      refine reducedForm_not h ?_ ?_
      · cases op with
        | none => exact absurd rfl (hnone expression children)
        | _ => rfl
      · rintro rfl
        cases children with
        | nil => rfl
        | cons grandchild rest => exact absurd rfl (hnot expression grandchild rest)

theorem WellFormed.child {op : GuardOp} {expression : String} {children : List GuardAstNode}
    (h : WellFormed ⟨op, expression, children⟩) : ∀ child ∈ children, WellFormed child :=
  (forall_subnodes.mp h).2

theorem reducedForm_simplifyNode {g : GuardAstNode} (h : WellFormed g) : ReducedForm (simplifyNode g) := by
  induction g using GuardAstNode.induction with
  | h op expression children ih =>
    have hchildren : ∀ child ∈ simplifyNodes children, ReducedForm child := by
      rw [simplifyNodes_eq_map, List.forall_mem_map]
      exact fun child hchild => ih child hchild (h.child child hchild)
    cases op with
    | none =>
      obtain rfl : children = [] := (h _ (self_mem_subnodes _)).1 rfl
      exact reducedForm_leaf (Or.inl rfl) expression
    | not =>
      cases children with
      | nil => exact reducedForm_leaf (Or.inr rfl) expression
      | cons child rest => exact reducedForm_negate (hchildren _ List.mem_cons_self)
    | and => exact reducedForm_connect true hchildren
    | or => exact reducedForm_connect false hchildren

/-! ## A second run -/

/-- The loop keeps operands among which there is no constant and no repetition. -/
theorem clean_eq (absorbing neutral : String) {items : List GuardAstNode} : ∀ {cleaned : List GuardAstNode},
    (∀ item ∈ items, isText absorbing item = false ∧ isText neutral item = false) → (cleaned ++ items).Nodup →
      clean absorbing neutral cleaned items = some (cleaned ++ items) := by
  induction items with
  | nil => exact fun _ _ => by rw [clean, List.append_nil]
  | cons item rest ih =>
    intro cleaned hitems hnodup
    obtain ⟨⟨habsorbing, hneutral⟩, hrest⟩ := List.forall_mem_cons.mp hitems
    have hnot : item ∉ cleaned := fun hmem =>
      (List.nodup_append.mp hnodup).2.2 item hmem item List.mem_cons_self rfl
    have hsplit : cleaned ++ item :: rest = cleaned ++ [item] ++ rest := by simp
    rw [hsplit] at hnodup ⊢
    rw [clean, if_neg (by simp [habsorbing]), if_neg (by simp [hneutral]), if_neg hnot]
    exact ih hrest hnodup

theorem flatten_eq {op : GuardOp} {children : List GuardAstNode} (h : ∀ child ∈ children, child.op ≠ op) :
    flatten op children = children := by
  unfold flatten
  rw [List.flatMap_congr fun child hchild => if_neg (h child hchild), List.flatMap_singleton']

theorem connect_of_reduced (unit : Bool) {children : List GuardAstNode}
    (h : Reduced ⟨connective unit, "", children⟩) :
    connect (connective unit) (textOf !unit) (textOf unit) children = ⟨connective unit, "", children⟩ := by
  have hkind : connective unit = .and ∨ connective unit = .or := by cases unit <;> simp [connective]
  have hclean : clean (textOf !unit) (textOf unit) [] children = some children :=
    clean_eq _ _ (fun item hitem => (isConstant_eq_false_iff unit).mp (h.constants item hitem)) h.distinct
  have hlength : 2 ≤ children.length := h.several hkind
  unfold connect
  rw [flatten_eq (h.nested hkind), hclean]
  rcases children with _ | ⟨first, _ | ⟨second, rest⟩⟩
  · simp at hlength
  · simp at hlength
  · rfl

theorem negate_of_reduced {child : GuardAstNode} (h : Reduced ⟨.not, "", [child]⟩) :
    negate child = ⟨.not, "", [child]⟩ := by
  have hconstant := h.constants child List.mem_cons_self
  have hbare := h.negations rfl child List.mem_cons_self
  unfold negate
  split
  · exact absurd (hbare rfl) (by simp)
  · next expression children =>
      have htexts : isConstantText expression = false := hconstant
      simp only [isConstantText, Bool.or_eq_false_iff, decide_eq_false_iff_not] at htexts
      rw [if_neg htexts.1, if_neg htexts.2]
  · rfl

theorem simplifyNode_of_reducedForm {g : GuardAstNode} (h : ReducedForm g) : simplifyNode g = g := by
  induction g using GuardAstNode.induction with
  | h op expression children ih =>
    obtain ⟨hroot, hbelow⟩ := reducedForm_iff.mp h
    have hchildren : simplifyNodes children = children := by
      rw [simplifyNodes_eq_map, List.map_congr_left fun child hchild => ih child hchild (hbelow child hchild),
        List.map_id']
    have hplain : children ≠ [] → expression = "" := hroot.plain
    have hconnective : ∀ unit : Bool, op = connective unit →
        connect (connective unit) (textOf !unit) (textOf unit) (simplifyNodes children) =
          ⟨op, expression, children⟩ := by
      rintro unit rfl
      have hkind : connective unit = .and ∨ connective unit = .or := by cases unit <;> simp [connective]
      have hlength : 2 ≤ children.length := hroot.several hkind
      obtain rfl := hplain (by rintro rfl; simp at hlength)
      rw [hchildren]
      exact connect_of_reduced unit hroot
    cases op with
    | none => rfl
    | not =>
      have hsingle : children.length ≤ 1 := hroot.single rfl
      rcases children with _ | ⟨child, _ | ⟨second, rest⟩⟩
      · rfl
      · obtain rfl := hplain (by simp)
        show negate (simplifyNode child) = _
        rw [ih child List.mem_cons_self (hbelow child List.mem_cons_self)]
        exact negate_of_reduced hroot
      · simp at hsingle
    | and => exact hconnective true rfl
    | or => exact hconnective false rfl

theorem simplifyNode_idem {g : GuardAstNode} (h : WellFormed g) : simplifyNode (simplifyNode g) = simplifyNode g :=
  simplifyNode_of_reducedForm (reducedForm_simplifyNode h)

end Fsmc.Passes.GuardSimplification
