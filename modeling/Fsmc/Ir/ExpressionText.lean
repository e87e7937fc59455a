/-
# Fsmc.Ir.ExpressionText — printing expressions.

Brackets are printed where the grouping needs them, so the text of an expression is read with the grouping of the
expression. A reference is printed without the qualifier that it was read with, and what is left of its name may be
read as another one.
-/
import Fsmc.Ir.Expression
import Mathlib.Data.List.DropRight

namespace Fsmc.Ir.Expression

open Fsmc.Cpp

/-! ## Printing -/

/-- `std::to_string` of a `double`: six digits behind the point. -/
def doubleText : Double → List Char
  | .nan => "nan".toList
  | .posInf => "inf".toList
  | .negInf => "-inf".toList
  | .fin q =>
    let units := roundedQuotient (q.num.natAbs * 10 ^ 6) q.den
    (if q < 0 then ['-'] else []) ++
      (Nat.toDigits 10 (units / 10 ^ 6) ++ '.' :: (Nat.toDigits 10 (units % 10 ^ 6)).leftpad 6 '0')

/-- `std::to_string` of an integer. -/
def integerText (val : ℤ) : List Char := (if val < 0 then ['-'] else []) ++ Nat.toDigits 10 val.natAbs

/-- Takes zeros off, except one behind the point; the text is read from its end. -/
def dropZeros : List Char → List Char
  | '0' :: c :: rest => if c = '.' then '0' :: c :: rest else dropZeros (c :: rest)
  | cs => cs

/-- Brackets around a text if they are needed. -/
def bracketIf (b : Bool) (s : List Char) : List Char := if b then '(' :: (s ++ [')']) else s

namespace ExpressionAstNode

/-- Whether a node is a binary operation. -/
def isBinary : ExpressionAstNode → Bool
  | binaryOp _ _ _ => true
  | _ => false

/-- Whether `format_child` puts brackets around a child. -/
def needsBrackets (myPrec : ℕ) (isRight : Bool) : ExpressionAstNode → Bool
  | binaryOp op _ _ => op.precedence < myPrec || (isRight && op.precedence = myPrec)
  | _ => false

def toString : ExpressionAstNode → List Char
  | integerLiteral val => integerText val
  | floatLiteral val => (dropZeros (doubleText val).reverse).reverse
  | booleanLiteral val => if val then "true".toList else "false".toList
  | enumLiteral symbol | variableRef symbol | portRef symbol | eventParamRef symbol | rawExpression symbol => symbol
  | unaryOp op child => op.text ++ bracketIf child.isBinary child.toString
  | binaryOp op left right =>
    bracketIf (left.needsBrackets op.precedence false) left.toString ++
      (' ' :: (op.text ++ ' ' :: bracketIf (right.needsBrackets op.precedence true) right.toString))

/-- The level at which the text of a node is written. -/
def level : ExpressionAstNode → ℕ
  | binaryOp op _ _ => op.precedence
  | unaryOp _ _ => 7
  | _ => 8

/-- The references and truth values of a node, from left to right. -/
def refs : ExpressionAstNode → List ExpressionAstNode
  | integerLiteral _ | floatLiteral _ => []
  | unaryOp _ child => child.refs
  | binaryOp _ left right => left.refs ++ right.refs
  | leaf => [leaf]

end ExpressionAstNode

open ExpressionAstNode

/-- Printing what was read and reading it again gives it back. -/
def RoundTrips (text : List Char) : Prop := parse (parse text).toString = parse text

instance (text : List Char) : Decidable (RoundTrips text) :=
  inferInstanceAs (Decidable (parse (parse text).toString = parse text))

/-- What is printed for a name is a name again, and read as the same reference. -/
def Kept (id : List Char) : Prop := IsName (readName id).toString ∧ readName (readName id).toString = readName id

/-- If the text is an expression, all its names are kept. -/
def KeepsNames (text : List Char) : Prop := ∀ t, Writes 1 t (trimmed text) → ∀ id ∈ t.names, Kept id

/-! ## Leaves -/

variable (id : List Char) {digits : List Char} {c : Char} (op : ExpressionOp)

theorem readName_cases : (∃ b, readName id = .booleanLiteral b ∧ (readName id).toString = id) ∨
    ∃ symbol, symbol.Sublist id ∧
      (readName id = .portRef symbol ∨ readName id = .variableRef symbol ∨ readName id = .enumLiteral symbol) := by
  unfold readName
  split
  · next h => exact Or.inl ⟨true, rfl, h.symm⟩
  split
  · next h => exact Or.inl ⟨false, rfl, h.symm⟩
  refine Or.inr ?_
  split
  · exact ⟨_, List.drop_sublist 3 id, Or.inl (if_pos rfl)⟩
  split
  · exact ⟨_, List.drop_sublist 4 id, Or.inl (if_pos rfl)⟩
  split
  · exact ⟨_, List.drop_sublist 4 id, Or.inr (Or.inl rfl)⟩
  split
  · exact ⟨id, List.Sublist.refl id, Or.inr (Or.inr rfl)⟩
  split
  · next hdot =>
      unfold makePortRef
      split
      · exact ⟨_, List.takeWhile_sublist _, Or.inl rfl⟩
      · refine ⟨id, List.Sublist.refl id, Or.inl (congrArg portRef ?_)⟩
        exact takeWhile_dot hdot
  · exact ⟨id, List.Sublist.refl id, Or.inr (Or.inl rfl)⟩
where
  /-- A text is what stands before its first dot, the dot, and what stands behind it. -/
  takeWhile_dot {id : List Char} (h : '.' ∈ id) :
      id.takeWhile (· ≠ '.') ++ '.' :: (id.dropWhile (· ≠ '.')).tail = id := by
    conv_rhs => rw [← List.takeWhile_append_dropWhile (p := (· ≠ '.')) (l := id)]
    congr 1
    cases hrest : id.dropWhile (· ≠ '.') with
    | nil => exact absurd (List.dropWhile_eq_nil_iff.mp hrest '.' h) (by decide)
    | cons c rest =>
      have hc := List.head?_dropWhile_not (fun c => decide (c ≠ '.')) id
      rw [hrest] at hc
      rw [← not_ne_iff.mp (of_decide_eq_false hc)]
      rfl

theorem readName_sublist : (readName id).toString.Sublist id := by
  rcases readName_cases id with ⟨b, -, htext⟩ | ⟨symbol, hsub, h | h | h⟩
  · rw [htext]
  all_goals
    rw [h]
    exact hsub

theorem readName_leaf : (readName id).refs = [readName id] ∧ (readName id).level = 8 ∧
    (readName id).isBinary = false ∧ ∀ raw, readName id ≠ .rawExpression raw := by
  rcases readName_cases id with ⟨b, h, -⟩ | ⟨symbol, -, h | h | h⟩ <;>
    rw [h] <;> exact ⟨rfl, rfl, rfl, nofun⟩

variable {e : ExpressionAstNode} {s : List Char} {n : ℕ} {t : Term}

theorem readNumber_integer (h : readNumber digits = some e) (hfloat : e.hasFloat = false) :
    Nat.ofDigitChars 10 digits 0 < 2 ^ 63 ∧ e = .integerLiteral (Nat.ofDigitChars 10 digits 0) ∧ '.' ∉ digits := by
  unfold readNumber at h
  split at h
  · obtain ⟨v, -, rfl⟩ := Option.map_eq_some_iff.mp h
    cases hfloat
  · next hdot =>
      obtain ⟨v, hv, rfl⟩ := Option.map_eq_some_iff.mp h
      unfold stoll at hv
      split at hv
      · next hrange =>
          cases hv
          exact ⟨hrange, rfl, hdot⟩
      · cases hv

theorem readNumber_leaf (h : readNumber digits = some e) :
    e.refs = [] ∧ e.level = 8 ∧ ∀ raw, e ≠ .rawExpression raw := by
  unfold readNumber at h
  split at h <;> obtain ⟨v, -, rfl⟩ := Option.map_eq_some_iff.mp h <;> exact ⟨rfl, rfl, nofun⟩

theorem integerText_natCast (n : ℕ) : integerText n = Nat.toDigits 10 n := by
  unfold integerText
  rw [if_neg (by omega)]
  rfl

theorem length_toDigits_ofDigitChars (hne : digits ≠ [])
    (hdigits : ∀ c ∈ digits, c.isDigit = true) :
    (Nat.toDigits 10 (Nat.ofDigitChars 10 digits 0)).length ≤ digits.length := by
  refine (Nat.length_toDigits_le_iff (by decide) (List.length_pos_iff.mpr hne)).mpr ?_
  clear hne
  induction digits with
  | nil => decide
  | cons c digits ih =>
    have hrest := ih fun d hd => hdigits d (List.mem_cons_of_mem _ hd)
    have hc : c.toNat - '0'.toNat ≤ 9 := by
      have hdigit := hdigits c List.mem_cons_self
      simp only [Char.isDigit, Bool.and_eq_true, decide_eq_true_eq, ge_iff_le, UInt32.le_iff_toNat_le] at hdigit
      have hnine : '9'.val.toNat = 57 := by decide
      have hzero : '0'.toNat = 48 := by decide
      have hval : c.toNat = c.val.toNat := rfl
      omega
    rw [Nat.ofDigitChars_cons, Nat.ofDigitChars_eq_ofDigitChars_zero, List.length_cons, Nat.pow_succ]
    have hmul : 10 ^ digits.length * (10 * 0 + (c.toNat - '0'.toNat)) ≤ 10 ^ digits.length * 9 :=
      Nat.mul_le_mul_left _ (by omega)
    omega

/-! ## How many characters of names a text has -/

/-- The number of characters of numbers and names in a text. -/
def nameLength (s : List Char) : ℕ := s.countP isNameChar

theorem nameLength_append (s s' : List Char) : nameLength (s ++ s') = nameLength s + nameLength s' :=
  List.countP_append

theorem nameLength_cons (hc : isNameChar c = false) (s : List Char) : nameLength (c :: s) = nameLength s :=
  List.countP_cons_of_neg (by rw [hc]; decide)

theorem nameLength_eq_length (h : ∀ c ∈ s, isNameChar c = true) : nameLength s = s.length :=
  List.countP_eq_length.mpr h

theorem nameLength_text : nameLength op.text = 0 := by cases op <;> decide

theorem nameLength_bracketIf (b : Bool) (s : List Char) : nameLength (bracketIf b s) = nameLength s := by
  cases b with
  | false => rfl
  | true =>
    show nameLength ('(' :: (s ++ [')'])) = nameLength s
    rw [nameLength_cons (by decide), nameLength_append, nameLength_cons (by decide)]
    rfl

theorem nameLength_binaryOp (l r : ExpressionAstNode) :
    nameLength (binaryOp op l r).toString = nameLength l.toString + nameLength r.toString := by
  rw [ExpressionAstNode.toString, nameLength_append, nameLength_cons (by decide), nameLength_append, nameLength_text,
    nameLength_cons (by decide), nameLength_bracketIf, nameLength_bracketIf, Nat.zero_add]

theorem nameLength_unaryOp (e : ExpressionAstNode) :
    nameLength (unaryOp op e).toString = nameLength e.toString := by
  rw [ExpressionAstNode.toString, nameLength_append, nameLength_text, nameLength_bracketIf, Nat.zero_add]

/-- The length of the numbers and names of an expression as they are written. -/
def Term.length : Term → ℕ
  | number digits suffix _ => digits.length + suffix.length
  | name id => id.length
  | prefixed _ t | plus t => t.length
  | infixed _ l r => l.length + r.length

theorem isNameChar_of_number (h : isNumberChar c = true) : isNameChar c = true := by
  by_contra hc
  have hnot := (isNumberChar_of_not (Bool.eq_false_iff.mpr hc)).1
  rw [h] at hnot
  cases hnot

theorem isNameChar_of_suffix (h : isSuffix c = true) : isNameChar c = true := by
  by_contra hc
  have hnot := (isNumberChar_of_not (Bool.eq_false_iff.mpr hc)).2
  rw [h] at hnot
  cases hnot

theorem Writes.nameLength_eq (h : Writes n t s) : nameLength s = t.length := by
  induction h with
  | number h =>
    rw [nameLength_append, nameLength_eq_length fun c hc => isNameChar_of_number (h.chars c hc),
      nameLength_eq_length fun c hc => isNameChar_of_suffix (h.letters c hc)]
    rfl
  | name h => exact nameLength_eq_length h.chars
  | parens _ ih => exact (nameLength_bracketIf true _).trans ih
  | @prefixed op c t s hop _ ih =>
    have hc : isNameChar c = false := by
      unfold prefixOperator at hop
      split at hop <;> first | rfl | cases hop
    rw [nameLength_cons hc]
    exact ih
  | plus _ ih => rwa [nameLength_cons (by decide)]
  | infixed _ _ _ ihl ihr =>
    rw [nameLength_append, nameLength_append, nameLength_text, Nat.zero_add, ihl, ihr]
    rfl
  | operand _ _ ih => exact ih
  | blankLeft hc _ ih => rwa [nameLength_cons (isNameChar_of_isSpace hc)]
  | blankRight hc _ ih =>
    rw [nameLength_append, nameLength_cons (isNameChar_of_isSpace hc)]
    exact ih

theorem Writes.nameLength_toString (h : Writes n t s)
    (hfloat : t.node.hasFloat = false) : nameLength t.node.toString ≤ t.length ∧
      (nameLength t.node.toString = t.length → ∀ id ∈ t.names, (readName id).toString = id) := by
  induction h with
  | @number digits suffix e h =>
    obtain ⟨-, rfl, hdot⟩ := readNumber_integer h.value hfloat
    have hdigits : ∀ c ∈ digits, c.isDigit = true := fun c hc =>
      (Bool.or_eq_true_iff.mp (h.chars c hc)).resolve_right fun heq => hdot (of_decide_eq_true heq ▸ hc)
    obtain ⟨c, cs, hcons, -⟩ := h.first
    have hshort := length_toDigits_ofDigitChars (hcons ▸ List.cons_ne_nil c cs) hdigits
    refine ⟨?_, fun _ => nofun⟩
    show nameLength (integerText _) ≤ digits.length + suffix.length
    rw [integerText_natCast]
    have hcount : nameLength (Nat.toDigits 10 (Nat.ofDigitChars 10 digits 0)) ≤ _ := List.countP_le_length
    omega
  | @name id h =>
    have hsub := readName_sublist id
    have hcount : nameLength (readName id).toString ≤ (readName id).toString.length := List.countP_le_length
    have hlength := hsub.length_le
    refine ⟨hcount.trans hlength, fun heq id' hid' => ?_⟩
    obtain rfl := List.mem_singleton.mp hid'
    have heq' : nameLength (readName id').toString = id'.length := heq
    exact hsub.eq_of_length (by omega)
  | prefixed _ _ ih =>
    show nameLength (unaryOp _ _).toString ≤ _ ∧ (nameLength (unaryOp _ _).toString = _ → _)
    rw [nameLength_unaryOp]
    exact ih hfloat
  | @infixed op l r _ _ _ _ _ ihl ihr =>
    obtain ⟨hfloatl, hfloatr⟩ := Bool.or_eq_false_iff.mp hfloat
    obtain ⟨hl, hkeepl⟩ := ihl hfloatl
    obtain ⟨hr, hkeepr⟩ := ihr hfloatr
    show nameLength (binaryOp _ _ _).toString ≤ l.length + r.length ∧
      (nameLength (binaryOp _ _ _).toString = l.length + r.length → ∀ id ∈ l.names ++ r.names, _)
    rw [nameLength_binaryOp]
    refine ⟨Nat.add_le_add hl hr, fun heq id hid => ?_⟩
    rcases List.mem_append.mp hid with hid | hid
    · exact hkeepl (by omega) id hid
    · exact hkeepr (by omega) id hid
  | plus _ ih | parens _ ih | operand _ _ ih | blankLeft _ _ ih | blankRight _ _ ih => exact ih hfloat

theorem Writes.isName (h : Writes n t s) : ∀ id ∈ t.names, IsName id := by
  induction h with
  | number _ => exact nofun
  | name h =>
    intro id hid
    rw [List.mem_singleton.mp hid]
    exact h
  | infixed _ _ _ ihl ihr => exact fun id hid => (List.mem_append.mp hid).elim (ihl id) (ihr id)
  | prefixed _ _ ih | plus _ ih | parens _ ih | operand _ _ ih | blankLeft _ _ ih | blankRight _ _ ih => exact ih

theorem Writes.refs_eq (h : Writes n t s) : t.node.refs = t.names.map readName := by
  induction h with
  | number h => exact (readNumber_leaf h.value).1
  | name h => exact (readName_leaf _).1
  | infixed _ _ _ ihl ihr =>
    show _ ++ _ = List.map readName (_ ++ _)
    rw [List.map_append, ihl, ihr]
  | prefixed _ _ ih | plus _ ih | parens _ ih | operand _ _ ih | blankLeft _ _ ih | blankRight _ _ ih => exact ih

theorem Writes.node_ne_raw (h : Writes n t s) (raw : List Char) : t.node ≠ .rawExpression raw := by
  induction h with
  | number h => exact (readNumber_leaf h.value).2.2 raw
  | name h => exact (readName_leaf _).2.2.2 raw
  | infixed _ _ _ _ _ | prefixed _ _ _ => exact nofun
  | plus _ ih | parens _ ih | operand _ _ ih | blankLeft _ _ ih | blankRight _ _ ih => exact ih

/-! ## What is printed is written so -/

/-- A text that `parse` takes as it stands. -/
structure Tight (s : List Char) : Prop where
  nonempty : s ≠ []
  breaks : ∀ c ∈ s, (c ≠ '\r' && c ≠ '\n') = true
  first : ∀ c ∈ s.head?, isSpace c = false
  last : ∀ c ∈ s.getLast?, (isSpace c || c = ';') = false

theorem Tight.trimmed_eq (h : Tight s) : trimmed s = s := by
  unfold trimmed
  rw [List.filter_eq_self.mpr h.breaks, List.rdropWhile_eq_self_iff.mpr]
  · obtain ⟨c, cs, rfl⟩ := List.exists_cons_of_ne_nil h.nonempty
    exact skipWs_of_first (h.first c rfl) cs
  · intro hne
    rw [h.last _ (List.getLast?_eq_some_getLast hne)]
    decide

theorem Tight.append {a b c : List Char} (ha : Tight a) (hb : ∀ x ∈ b, (x ≠ '\r' && x ≠ '\n') = true) (hc : Tight c) :
    Tight (a ++ (b ++ c)) where
  nonempty := List.append_ne_nil_of_left_ne_nil ha.nonempty _
  breaks := fun x hx => by
    rcases List.mem_append.mp hx with hx | hx
    · exact ha.breaks x hx
    · rcases List.mem_append.mp hx with hx | hx
      · exact hb x hx
      · exact hc.breaks x hx
  first := by
    rw [List.head?_append_of_ne_nil _ ha.nonempty]
    exact ha.first
  last := by
    rw [← List.append_assoc, List.getLast?_append_of_ne_nil _ hc.nonempty]
    exact hc.last

theorem tight_singleton (hspace : isSpace c = false) (hsemicolon : c ≠ ';') : Tight [c] where
  nonempty := List.cons_ne_nil _ _
  breaks := fun x hx => by
    obtain rfl := List.mem_singleton.mp hx
    have hr : x ≠ '\r' := by rintro rfl; exact absurd hspace (by decide)
    have hn : x ≠ '\n' := by rintro rfl; exact absurd hspace (by decide)
    simp [hr, hn]
  first := fun x hx => by
    obtain rfl := Option.some.inj hx
    exact hspace
  last := fun x hx => by
    obtain rfl : c = x := Option.some.inj hx
    rw [hspace]
    simp [hsemicolon]

theorem tight_word (hne : s ≠ []) (h : ∀ c ∈ s, isNameChar c = true) : Tight s := by
  have hno : ∀ c ∈ s, isSpace c = false ∧ c ≠ ';' := by
    intro c hc
    constructor
    · rw [Bool.eq_false_iff]
      intro hspace
      have hnot := isNameChar_of_isSpace hspace
      rw [h c hc] at hnot
      cases hnot
    · rintro rfl
      exact absurd (h ';' hc) (by decide)
  refine ⟨hne, fun c hc => ?_, fun c hc => (hno c (List.mem_of_mem_head? hc)).1, fun c hc => ?_⟩
  · exact (tight_singleton (hno c hc).1 (hno c hc).2).breaks c List.mem_cons_self
  · obtain ⟨hspace, hsemicolon⟩ := hno c (List.mem_of_getLast? hc)
    exact (tight_singleton hspace hsemicolon).last c rfl

theorem Tight.bracketIf (h : Tight s) (b : Bool) : Tight (bracketIf b s) := by
  cases b with
  | false => exact h
  | true =>
    have hopen : Tight ['('] := tight_singleton (by decide) (by decide)
    exact hopen.append h.breaks (tight_singleton (by decide) (by decide))

theorem Writes.one_le_level (h : Writes n t s) : 1 ≤ t.node.level ∧ t.node.level ≤ 8 := by
  induction h with
  | @number digits suffix e h =>
    have hlevel := (readNumber_leaf h.value).2.1
    show 1 ≤ e.level ∧ e.level ≤ 8
    rw [hlevel]
    decide
  | @name id h =>
    have hlevel := (readName_leaf id).2.1
    show 1 ≤ (readName id).level ∧ (readName id).level ≤ 8
    rw [hlevel]
    decide
  | @infixed op _ _ _ _ hop _ _ _ _ =>
    show 1 ≤ op.precedence ∧ op.precedence ≤ 8
    cases op <;> first | exact absurd rfl hop | decide
  | prefixed _ _ _ =>
    show 1 ≤ 7 ∧ 7 ≤ 8
    decide
  | plus _ ih | parens _ ih | operand _ _ ih | blankLeft _ _ ih | blankRight _ _ ih => exact ih

theorem seven_le_level (h : e.isBinary = false) : 7 ≤ e.level := by
  cases e with
  | binaryOp _ _ _ => cases h
  | unaryOp _ _ => exact le_rfl
  | _ =>
    show 7 ≤ 8
    decide

theorem level_of_not_needsBrackets (hn : n ≤ 6) (isRight : Bool)
    (h : e.needsBrackets n isRight = false) : (if isRight then n + 1 else n) ≤ e.level := by
  cases e with
  | binaryOp op _ _ =>
    show _ ≤ op.precedence
    unfold needsBrackets at h
    cases isRight <;> simp at h ⊢ <;> omega
  | unaryOp _ _ =>
    show _ ≤ 7
    split <;> omega
  | _ =>
    show _ ≤ 8
    split <;> omega

theorem Writes.child (hn : n ≤ 6) (isRight : Bool)
    (hlevel : e.level ≤ 8 ∧ 1 ≤ e.level) (h : Writes e.level t e.toString) :
    Writes (if isRight then n + 1 else n) t (bracketIf (e.needsBrackets n isRight) e.toString) := by
  have hplace : (if isRight then n + 1 else n) ≤ 8 := by split <;> omega
  cases hneeds : e.needsBrackets n isRight with
  | true => exact .lower (.parens (h.lower hlevel.2 hlevel.1)) hplace le_rfl
  | false => exact h.lower (level_of_not_needsBrackets hn isRight hneeds) hlevel.1

/-- **What is printed of an expression** whose names are kept is written so. -/
theorem Writes.print (h : Writes n t s) (hfloat : t.node.hasFloat = false) (hkept : ∀ id ∈ t.names, Kept id) :
    ∃ t', Writes t.node.level t' t.node.toString ∧ t'.node = t.node ∧ Tight t.node.toString := by
  induction h with
  | @number digits suffix e h =>
    obtain ⟨hrange, rfl, -⟩ := readNumber_integer h.value hfloat
    exact printed_number hrange
  | @name id h =>
    obtain ⟨hname, hsame⟩ := hkept id List.mem_cons_self
    refine ⟨.name (readName id).toString, ?_, hsame, ?_⟩
    · show Writes (readName id).level _ (readName id).toString
      rw [(readName_leaf id).2.1]
      exact .name hname
    · obtain ⟨c, cs, hcons, -⟩ := hname.first
      exact tight_word (hcons ▸ List.cons_ne_nil c cs) hname.chars
  | @prefixed op c t s hop h ih =>
    obtain ⟨t', ht', hnode, htight⟩ := ih hfloat hkept
    obtain ⟨hone, height⟩ := h.one_le_level
    have htext : op.text = [c] ∧ c ≠ ';' := by
      unfold prefixOperator at hop
      split at hop <;> first | (cases hop; exact ⟨rfl, by decide⟩) | cases hop
    have hchild : Writes 7 t' (bracketIf t.node.isBinary t.node.toString) := by
      cases hbinary : t.node.isBinary with
      | true => exact .operand (by decide) (.parens (ht'.lower hone height))
      | false => exact ht'.lower (seven_le_level hbinary) height
    refine ⟨.prefixed op t', ?_, congrArg (unaryOp op) hnode, ?_⟩
    · show Writes 7 _ (op.text ++ bracketIf t.node.isBinary t.node.toString)
      rw [htext.1]
      exact .prefixed hop hchild
    · show Tight (op.text ++ bracketIf t.node.isBinary t.node.toString)
      have hno : ∀ x ∈ ([] : List Char), (x ≠ '\r' && x ≠ '\n') = true := nofun
      rw [htext.1]
      exact (tight_singleton (prefixOperator_first hop).2 htext.2).append hno (htight.bracketIf _)
  | @infixed op l r _ _ hop hl hr ihl ihr =>
    obtain ⟨hfloatl, hfloatr⟩ := Bool.or_eq_false_iff.mp hfloat
    obtain ⟨l', hl', hnodel, htightl⟩ := ihl hfloatl fun id hid => hkept id (List.mem_append_left _ hid)
    obtain ⟨r', hr', hnoder, htightr⟩ := ihr hfloatr fun id hid => hkept id (List.mem_append_right _ hid)
    have hle : op.precedence ≤ 6 := by cases op <;> decide
    have hleft := hl'.child hle false hl.one_le_level.symm
    have hright := hr'.child hle true hr.one_le_level.symm
    have htext : ∀ c ∈ ' ' :: (op.text ++ [' ']), (c ≠ '\r' && c ≠ '\n') = true := by cases op <;> decide
    refine ⟨.infixed op l' r', ?_, ?_, ?_⟩
    · have hspace : isSpace ' ' = true := rfl
      have hboth := Writes.infixed hop (.blankRight hspace hleft) (.blankLeft hspace hright)
      rwa [List.append_assoc] at hboth
    · show binaryOp op l'.node r'.node = binaryOp op l.node r.node
      rw [hnodel, hnoder]
    · have hall := (htightl.bracketIf (l.node.needsBrackets op.precedence false)).append htext
        (htightr.bracketIf (r.node.needsBrackets op.precedence true))
      rwa [List.cons_append, List.append_assoc] at hall
  | plus _ ih | parens _ ih | operand _ _ ih | blankLeft _ _ ih | blankRight _ _ ih => exact ih hfloat hkept
where
  printed_number {n : ℕ} (hrange : n < 2 ^ 63) :
      ∃ t', Writes 8 t' (integerText n) ∧ t'.node = .integerLiteral n ∧ Tight (integerText n) := by
    have hdigits : ∀ c ∈ Nat.toDigits 10 n, c.isDigit = true := fun c hc =>
      Nat.isDigit_of_mem_toDigits (by decide) (by decide) hc
    have hchars : ∀ c ∈ Nat.toDigits 10 n, isNumberChar c = true := fun c hc => by
      unfold isNumberChar
      rw [hdigits c hc, Bool.true_or]
    have hdot : '.' ∉ Nat.toDigits 10 n := fun hc => absurd (hdigits _ hc) (by decide)
    have hvalue : readNumber (Nat.toDigits 10 n) = some (.integerLiteral n) := by
      unfold readNumber stoll
      rw [if_neg hdot, Nat.ofDigitChars_ten_toDigits, if_pos hrange]
      rfl
    obtain ⟨c, cs, hcons⟩ := List.exists_cons_of_ne_nil (Nat.toDigits_ne_nil (n := n) (b := 10))
    have hnumber : IsNumber (Nat.toDigits 10 n) [] (.integerLiteral n) :=
      ⟨⟨c, cs, hcons, hdigits c (hcons ▸ List.mem_cons_self)⟩, hchars, nofun, hvalue⟩
    rw [integerText_natCast]
    refine ⟨.number (Nat.toDigits 10 n) [] _, ?_, rfl,
      tight_word Nat.toDigits_ne_nil fun c hc => isNameChar_of_number (hchars c hc)⟩
    have hwritten := Writes.number hnumber
    rwa [List.append_nil] at hwritten

/-! ## Round trips -/

theorem trimmed_sublist (text : List Char) : (trimmed text).Sublist text := by
  have hfilter := List.filter_sublist (p := fun c => c ≠ '\r' && c ≠ '\n') (l := text)
  exact (List.dropWhile_sublist _).trans ((List.rdropWhile_prefix _ _).sublist.trans hfilter)

/-- **A text without floating-point literals comes back** from being printed and read again if and only if it is no
expression or all its names are kept. -/
theorem roundTrips_iff (text : List Char) (h : (parse text).hasFloat = false) :
    RoundTrips text ↔ KeepsNames text := by
  constructor
  · intro hround t ht id hid
    have hparse := parse_of_writes ht
    unfold RoundTrips at hround
    rw [hparse] at hround h
    -- what is printed is read as an expression again, so it has as many characters of names as it needs
    rcases parse_cases t.node.toString with ⟨t', ht', hnode⟩ | hraw | ⟨-, hraw⟩
    · rw [hround] at hnode
      obtain ⟨hle, hkeep⟩ := ht'.nameLength_toString (by rwa [← hnode])
      have hless : nameLength (trimmed t.node.toString) ≤ nameLength t.node.toString :=
        (trimmed_sublist _).countP_le
      rw [ht'.nameLength_eq] at hless
      rw [← hnode] at hle hkeep
      have hmem : readName id ∈ t'.names.map readName := by
        rw [← ht'.refs_eq, ← hnode, ht.refs_eq]
        exact List.mem_map_of_mem hid
      obtain ⟨id', hid', hsame⟩ := List.mem_map.mp hmem
      have htext := hkeep (by omega) id' hid'
      rw [hsame] at htext
      unfold Kept
      rw [htext]
      exact ⟨ht'.isName id' hid', hsame⟩
    · exact absurd (hround.symm.trans hraw) (ht.node_ne_raw _)
    · exact absurd (hround.symm.trans hraw) (ht.node_ne_raw _)
  · intro hkeeps
    unfold RoundTrips
    rcases parse_cases text with ⟨t, ht, hparse⟩ | hraw | ⟨-, hraw⟩
    · rw [hparse] at h ⊢
      obtain ⟨t', ht', hnode, htight⟩ := ht.print h (hkeeps t ht)
      obtain ⟨hone, height⟩ := ht.one_le_level
      rw [← hnode]
      refine parse_of_writes ?_
      rw [hnode, htight.trimmed_eq]
      exact ht'.lower hone height
    · rw [hraw]
      exact hraw
    · rw [hraw]
      rfl

/-- A masked shift of an enumerator and a register comes back. -/
theorem masked_keepsNames : KeepsNames "-(Mode::Idle << +reg.width) & (7u - sensor.value)".toList :=
  (roundTrips_iff _ (by decide +kernel)).mp (by decide +kernel)

/-- The input port of `in.speed + 1` is printed as `speed`, which is read as a variable. -/
theorem port_not_roundTrips : (parse "in.speed + 1".toList).hasFloat = false ∧ ¬RoundTrips "in.speed + 1".toList := by
  decide +kernel

end Fsmc.Ir.Expression
