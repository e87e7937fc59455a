/-
# Fsmc.Ir.AssignmentText — assignment statements as texts.

A statement is split at an operator that is searched in the whole text, the operators in a fixed order. The parts
of a statement come back exactly when no operator that is searched earlier is in its sides, the operator itself is
not in the target, and the expression has no white space around it and no semicolon at its end.
-/
import Fsmc.Cpp.Search
import Fsmc.Ir.ExpressionText
import Fsmc.Ir.TargetText

namespace Fsmc.Ir

open Fsmc.Cpp LValueTarget

/-- How an assignment operator is written. -/
def AssignmentOp.text : AssignmentOp → List Char
  | .assign => ['=']
  | .addAssign => ['+', '=']
  | .subAssign => ['-', '=']
  | .mulAssign => ['*', '=']
  | .divAssign => ['/', '=']
  | .modAssign => ['%', '=']
  | .shlAssign => ['<', '<', '=']
  | .shrAssign => ['>', '>', '=']
  | .andAssign => ['&', '=']
  | .orAssign => ['|', '=']
  | .xorAssign => ['^', '=']

namespace ActionAssignment

/-- `ops`, in the order of the search. -/
def ops : List AssignmentOp :=
  [.shlAssign, .shrAssign, .addAssign, .subAssign, .mulAssign, .divAssign, .modAssign, .andAssign, .orAssign,
    .xorAssign, .assign]

/-- A text without white space before it, and without white space and semicolons behind it. -/
def trimmedRhs (text : List Char) : List Char := (text.dropWhile isSpace).rdropWhile fun c => isSpace c || c = ';'

/-- The assignment of a statement that is split at an operator. -/
def splitAt (statement : List Char) (op : AssignmentOp) (pos : ℕ) : ActionAssignment where
  target := parseFromString (trimmed (statement.take pos))
  op := op
  expression := String.ofList (trimmedRhs (statement.drop (pos + op.text.length)))

def parse (statement : List Char) : ActionAssignment :=
  match ops.findSome? fun op => (findSub op.text statement).map (splitAt statement op) with
  | some assignment => assignment
  | none => { target := parseFromString statement, expression := "" }

example : parse "out.x += y - 1;".toList =
    { target := { name := "x", scope := .outPort }, op := .addAssign, expression := "y - 1" } := by decide +kernel

/-- The statement of two sides and an operator. -/
def statement (l : List Char) (op : AssignmentOp) (e : List Char) : List Char :=
  l ++ ' ' :: (op.text ++ ' ' :: e)

/-- A statement is split into its parts. -/
def Splits (l : List Char) (op : AssignmentOp) (e : List Char) : Prop :=
  parse (statement l op e) = { target := parseFromString l, op, expression := String.ofList e }

/-- The operators that are searched before another one. -/
def before (op : AssignmentOp) : List AssignmentOp := ops.takeWhile (· ≠ op)

/-- No operator before it is in the sides, and it is not in the target itself; the expression has no white space
around it and no semicolon at its end. -/
structure Splittable (l : List Char) (op : AssignmentOp) (e : List Char) : Prop where
  earlier : ∀ op' ∈ before op, ¬ op'.text <:+: l ∧ ¬ op'.text <:+: e
  target : ¬ op.text <:+: l
  first : ∀ c ∈ e.head?, isSpace c = false
  last : ∀ c ∈ e.getLast?, isSpace c = false ∧ c ≠ ';'

variable {l e : List Char} {op op' : AssignmentOp}

/-! ## Operators -/

theorem text_ne_nil (op : AssignmentOp) : op.text ≠ [] := by cases op <;> decide

theorem blank_notMem_text (op : AssignmentOp) : ' ' ∉ op.text := by cases op <;> decide

theorem count_text (op : AssignmentOp) : op.text.count '=' = 1 := by cases op <;> decide

theorem not_infix_text (h : op' ∈ before op) : ¬ op'.text <:+: op.text := by
  revert h
  cases op <;> cases op' <;> decide

theorem infix_statement_iff : op'.text <:+: statement l op e ↔
    op'.text <:+: l ∨ op'.text <:+: op.text ∨ op'.text <:+: e := by
  unfold statement
  rw [infix_append_cons_iff (blank_notMem_text op'), infix_append_cons_iff (blank_notMem_text op')]

theorem infix_statement (l : List Char) (op : AssignmentOp) (e : List Char) : op.text <:+: statement l op e :=
  infix_statement_iff.mpr (Or.inr (Or.inl (List.infix_refl _)))

/-! ## The search -/

theorem ops_eq (op : AssignmentOp) : ∃ after, ops = before op ++ op :: after := by
  cases op <;> exact ⟨_, rfl⟩

theorem parse_of_first {text : List Char} {pos : ℕ} (hbefore : ∀ op' ∈ before op, ¬ op'.text <:+: text)
    (hpos : findSub op.text text = some pos) : parse text = splitAt text op pos := by
  obtain ⟨after, hops⟩ := ops_eq op
  have hnone : (before op).findSome? (fun op' => (findSub op'.text text).map (splitAt text op')) = none := by
    rw [List.findSome?_eq_none_iff]
    intro op' hop'
    rw [findSub_eq_none_iff.mpr (hbefore op' hop')]
    rfl
  unfold parse
  rw [hops, List.findSome?_append, hnone, Option.none_or, List.findSome?_cons, hpos]
  rfl

theorem not_infix_of_parse_op {text : List Char} (h : (parse text).op = op) (hop : op.text <:+: text) :
    ∀ op' ∈ before op, ¬ op'.text <:+: text := by
  intro op' hop' hocc
  obtain ⟨after, hops⟩ := ops_eq op
  obtain ⟨pos, hpos⟩ := Option.isSome_iff_exists.mp (findSub_isSome_iff.mpr hocc)
  have hsome : ((before op).findSome? fun op => (findSub op.text text).map (splitAt text op)).isSome = true := by
    rw [List.findSome?_isSome_iff]
    exact ⟨op', hop', by rw [hpos]; rfl⟩
  obtain ⟨assignment, hfound⟩ := Option.isSome_iff_exists.mp hsome
  obtain ⟨op'', hop'', hsplit⟩ := List.exists_of_findSome?_eq_some hfound
  obtain ⟨pos'', -, rfl⟩ := Option.map_eq_some_iff.mp hsplit
  have hparse : parse text = splitAt text op'' pos'' := by
    unfold parse
    rw [hops, List.findSome?_append, hfound]
    rfl
  rw [hparse] at h
  obtain rfl : op'' = op := h
  exact absurd hop'' (by cases op'' <;> decide)

/-! ## Trimming -/

variable (text : List Char)

theorem trimmed_append_blank : trimmed (text ++ [' ']) = trimmed text := by
  unfold trimmed
  by_cases hall : ∀ c ∈ text, isSpace c = true
  · have hall' : ∀ c ∈ text ++ [' '], isSpace c = true := by
      intro c hc
      rcases List.mem_append.mp hc with hc | hc
      · exact hall c hc
      · obtain rfl := List.mem_singleton.mp hc
        rfl
    rw [List.dropWhile_eq_nil_iff.mpr hall, List.dropWhile_eq_nil_iff.mpr hall']
  · have hne : text.dropWhile isSpace ≠ [] := fun h => hall (List.dropWhile_eq_nil_iff.mp h)
    rw [List.dropWhile_append, if_neg (by simpa using hne), List.rdropWhile_concat_pos _ _ _ rfl]

theorem trimmed_tight : (∀ c ∈ (trimmed text).head?, isSpace c = false) ∧
    ∀ c ∈ (trimmed text).getLast?, isSpace c = false := by
  constructor
  · intro c hc
    obtain ⟨rest, hrest⟩ := List.rdropWhile_prefix isSpace (text.dropWhile isSpace)
    have hhead : (text.dropWhile isSpace).head? = some c := by
      rw [← hrest, List.head?_append, show List.rdropWhile isSpace _ = trimmed text from rfl, hc]
      rfl
    have hnot := List.head?_dropWhile_not isSpace text
    rw [hhead] at hnot
    exact hnot
  · exact rdropWhile_eq_self_iff.mp (List.rdropWhile_idempotent ..)

theorem parseFromString_trimmed : parseFromString (trimmed text) = parseFromString text := by
  have htwice : trimmed (trimmed text) = trimmed text := by
    have h : trimmed ([] ++ trimmed text ++ []) = trimmed text :=
      trim_padded (List.forall_mem_nil _) (List.forall_mem_nil _) (trimmed_tight text).1 (trimmed_tight text).2
    rwa [List.nil_append, List.append_nil] at h
  rw [parseFromString_eq, parseFromString_eq, htwice]

/-- A trimmed right-hand side is the text that was trimmed if nothing could be taken off. -/
theorem trimmedRhs_eq_self_iff {text : List Char} : trimmedRhs text = text ↔
    (∀ c ∈ text.head?, isSpace c = false) ∧ ∀ c ∈ text.getLast?, isSpace c = false ∧ c ≠ ';' := by
  have hlast : text.rdropWhile (fun c => isSpace c || c = ';') = text ↔
      ∀ c ∈ text.getLast?, isSpace c = false ∧ c ≠ ';' := by
    rw [List.rdropWhile_eq_self_iff]
    constructor
    · intro h c hc
      have hne : text ≠ [] := by
        rintro rfl
        cases hc
      have hnot := h hne
      rw [List.getLast?_eq_some_getLast hne] at hc
      obtain rfl := Option.some.inj hc
      simpa using hnot
    · intro h hne
      have hnot := h _ (List.getLast?_eq_some_getLast hne)
      simpa using hnot
  have hfirst : text.dropWhile isSpace = text ↔ ∀ c ∈ text.head?, isSpace c = false := by
    cases text with
    | nil => simp
    | cons c text =>
      rw [List.dropWhile_eq_self_iff]
      simp
  rw [← hfirst, ← hlast]
  unfold trimmedRhs
  constructor
  · intro h
    have hsub : (text.dropWhile isSpace).rdropWhile (fun c => isSpace c || c = ';') <+: text.dropWhile isSpace :=
      List.rdropWhile_prefix _ _
    rw [h] at hsub
    have heq : text.dropWhile isSpace = text :=
      ((List.dropWhile_suffix isSpace).eq_of_length_le hsub.length_le)
    exact ⟨heq, by rw [heq] at h; exact h⟩
  · rintro ⟨hdrop, hrdrop⟩
    rw [hdrop, hrdrop]

theorem count_dropWhile {p : Char → Bool} {a : Char} (hp : p a = false) (text : List Char) :
    (text.dropWhile p).count a = text.count a := by
  induction text with
  | nil => rfl
  | cons c text ih =>
    rw [List.dropWhile_cons]
    split
    · next hc =>
        have hne : c ≠ a := by
          rintro rfl
          rw [hp] at hc
          cases hc
        rw [ih, List.count_cons_of_ne hne]
    · rfl

theorem count_trimmedRhs : (trimmedRhs text).count '=' = text.count '=' := by
  unfold trimmedRhs List.rdropWhile
  rw [List.count_reverse, count_dropWhile (by decide), List.count_reverse, count_dropWhile (by decide)]

/-! ## Statements -/

theorem splitAt_statement : splitAt (statement l op e) op (l.length + 1) =
    { target := parseFromString l, op, expression := String.ofList (trimmedRhs e) } := by
  have hstatement : statement l op e = (l ++ [' ']) ++ (op.text ++ ' ' :: e) := by simp [statement]
  have hlen : l.length + 1 = (l ++ [' ']).length := by simp
  have hblank : trimmedRhs (' ' :: e) = trimmedRhs e := rfl
  unfold splitAt
  rw [hstatement, hlen, List.take_left, ← List.drop_drop, List.drop_left, List.drop_left, hblank,
    trimmed_append_blank, parseFromString_trimmed]

/-- A target with the operator is split inside, and then an operator too many is in the expression. -/
theorem expression_ne_of_infix (h : op.text <:+: l) {pos : ℕ} (hpos : findSub op.text (statement l op e) = some pos) :
    trimmedRhs ((statement l op e).drop (pos + op.text.length)) ≠ e := by
  obtain ⟨u, v, rfl⟩ := h
  obtain ⟨n, hle, hn⟩ :
      ∃ n ≤ u.length, findSub op.text (u ++ (op.text ++ (v ++ ' ' :: (op.text ++ ' ' :: e)))) = some n := findSub_le
  have htext : statement (u ++ op.text ++ v) op e = u ++ (op.text ++ (v ++ ' ' :: (op.text ++ ' ' :: e))) := by
    simp [statement]
  rw [htext, hn] at hpos
  obtain rfl := Option.some.inj hpos
  intro heq
  have hcount := congrArg (List.count '=') heq
  have hsplit : statement (u ++ op.text ++ v) op e = (u ++ op.text ++ v) ++ ' ' :: (op.text ++ ' ' :: e) := rfl
  have hlen : n + op.text.length ≤ (u ++ op.text ++ v).length := by
    rw [List.length_append, List.length_append]
    omega
  rw [count_trimmedRhs, hsplit, List.drop_append_of_le_length hlen, List.count_append,
    List.count_cons_of_ne (by decide), List.count_append, count_text, List.count_cons_of_ne (by decide)] at hcount
  omega

/-- **A statement comes apart into its parts** if and only if it is splittable. -/
theorem splits_iff (l : List Char) (op : AssignmentOp) (e : List Char) : Splits l op e ↔ Splittable l op e := by
  constructor
  · intro h
    have hparse : parse (statement l op e) =
        { target := parseFromString l, op, expression := String.ofList e } := h
    have hearlier := not_infix_of_parse_op (congrArg ActionAssignment.op hparse) (infix_statement l op e)
    obtain ⟨pos, hpos⟩ := Option.isSome_iff_exists.mp (findSub_isSome_iff.mpr (infix_statement l op e))
    have hsplit := parse_of_first hearlier hpos
    have htarget : ¬ op.text <:+: l := by
      intro hocc
      have hexpr := congrArg ActionAssignment.expression (hsplit.symm.trans hparse)
      exact expression_ne_of_infix hocc hpos (String.ofList_injective hexpr)
    have hfirst : findSub op.text (statement l op e) = some (l.length + 1) :=
      findSub_separated (text_ne_nil op) (blank_notMem_text op) htarget
    obtain rfl : pos = l.length + 1 := Option.some.inj (hpos.symm.trans hfirst)
    rw [hsplit, splitAt_statement] at hparse
    have hexpr := trimmedRhs_eq_self_iff.mp
      (String.ofList_injective (congrArg ActionAssignment.expression hparse))
    refine ⟨?_, htarget, hexpr.1, hexpr.2⟩
    intro op' hop'
    have hnot := hearlier op' hop'
    rw [infix_statement_iff, not_or, not_or] at hnot
    exact ⟨hnot.1, hnot.2.2⟩
  · intro h
    have hearlier : ∀ op' ∈ before op, ¬ op'.text <:+: statement l op e := by
      intro op' hop'
      rw [infix_statement_iff, not_or, not_or]
      exact ⟨(h.earlier op' hop').1, not_infix_text hop', (h.earlier op' hop').2⟩
    have hfirst : findSub op.text (statement l op e) = some (l.length + 1) :=
      findSub_separated (text_ne_nil op) (blank_notMem_text op) h.target
    show parse (statement l op e) = _
    rw [parse_of_first hearlier hfirst, splitAt_statement, trimmedRhs_eq_self_iff.mpr ⟨h.first, h.last⟩]

/-- So for the texts of a target and of an expression. -/
theorem printed_splits_iff (t : LValueTarget) (op : AssignmentOp) (node : Expression.ExpressionAstNode) :
    Splits t.scopedPath.toList op node.toString ↔ Splittable t.scopedPath.toList op node.toString :=
  splits_iff _ op _

/-- A call with an operator in one of its arguments is split there. -/
theorem operator_in_argument_wins : parse (statement (scopedPath { name := "x" }).toList .assign
      (Expression.ExpressionAstNode.rawExpression "find('+=')".toList).toString) =
        { target := parseFromString "reg.x = find('".toList, op := .addAssign, expression := "')" } ∧
      ¬ Splits (scopedPath { name := "x" }).toList .assign
        (Expression.ExpressionAstNode.rawExpression "find('+=')".toList).toString := by
  refine ⟨by decide +kernel, ?_⟩
  intro h
  exact absurd (congrArg ActionAssignment.op h) (by decide +kernel)

end ActionAssignment

end Fsmc.Ir
