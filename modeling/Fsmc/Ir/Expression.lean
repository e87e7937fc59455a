/-
# Fsmc.Ir.Expression — expressions of assignments, and the reader of their texts.

The reader goes down six levels of binary operators, all of them grouping to the left, to prefix operators and
operands. A text that it cannot read to the end stays what it is. The qualifier of a name is taken off while it is
read.
-/
import Fsmc.Cpp.Rounding

namespace Fsmc.Ir.Expression

open Fsmc.Cpp

/-! ## Expressions -/

inductive ExpressionOp where
  | none
  | negate | bitwiseNot | logicalNot
  | add | subtract | multiply | divide | modulo
  | shiftLeft | shiftRight | bitwiseAnd | bitwiseOr | bitwiseXor
  deriving DecidableEq, Repr

def ExpressionOp.text : ExpressionOp → List Char
  | none => []
  | negate => ['-']
  | bitwiseNot => ['~']
  | logicalNot => ['!']
  | add => ['+']
  | subtract => ['-']
  | multiply => ['*']
  | divide => ['/']
  | modulo => ['%']
  | shiftLeft => ['<', '<']
  | shiftRight => ['>', '>']
  | bitwiseAnd => ['&']
  | bitwiseOr => ['|']
  | bitwiseXor => ['^']

def ExpressionOp.precedence : ExpressionOp → ℕ
  | multiply | divide | modulo => 6
  | add | subtract => 5
  | shiftLeft | shiftRight => 4
  | bitwiseAnd => 3
  | bitwiseXor => 2
  | bitwiseOr => 1
  | _ => 0

/-- `ExpressionAstNode`, as its factories build it. The other fields of a node follow from those here. -/
inductive ExpressionAstNode where
  | integerLiteral (val : ℤ)
  | floatLiteral (val : Double)
  | booleanLiteral (val : Bool)
  | enumLiteral (symbol : List Char)
  | variableRef (symbol : List Char)
  | portRef (symbol : List Char)
  | eventParamRef (symbol : List Char)
  | unaryOp (op : ExpressionOp) (child : ExpressionAstNode)
  | binaryOp (op : ExpressionOp) (left right : ExpressionAstNode)
  | rawExpression (symbol : List Char)
  deriving DecidableEq

namespace ExpressionAstNode

def makePortRef (portName fieldName : List Char) : ExpressionAstNode :=
  if fieldName = [] then portRef portName else portRef (portName ++ '.' :: fieldName)

/-- Whether a literal with a point occurs. -/
def hasFloat : ExpressionAstNode → Bool
  | floatLiteral _ => true
  | unaryOp _ child => child.hasFloat
  | binaryOp _ left right => left.hasFloat || right.hasFloat
  | _ => false

end ExpressionAstNode

open ExpressionAstNode

/-! ## Numbers and names -/

/-- A character of a name behind its first one. -/
def isNameChar (c : Char) : Bool := c.isAlphanum || c = '_' || c = '.' || c = ':'

/-- The first character of a name. -/
def isNameStart (c : Char) : Bool := c.isAlpha || c = '_'

def isNumberChar (c : Char) : Bool := c.isDigit || c = '.'

/-- A letter behind a number. -/
def isSuffix (c : Char) : Bool := c = 'f' || c = 'F' || c = 'u' || c = 'U' || c = 'l' || c = 'L'

/-- `std::stoll` of digits, `none` where it throws. -/
def stoll (digits : List Char) : Option ℤ :=
  if Nat.ofDigitChars 10 digits 0 < 2 ^ 63 then some (Nat.ofDigitChars 10 digits 0) else none

/-- The literal of a number without its suffix. -/
def readNumber (digits : List Char) : Option ExpressionAstNode :=
  if '.' ∈ digits then (stod (String.ofList digits)).map .floatLiteral
  else (stoll digits).map .integerLiteral

/-- The literal or reference of a name. -/
def readName (id : List Char) : ExpressionAstNode :=
  if id = "true".toList then .booleanLiteral true
  else if id = "false".toList then .booleanLiteral false
  -- the qualifiers
  else if "in.".toList <+: id then makePortRef (id.drop 3) []
  else if "out.".toList <+: id then makePortRef (id.drop 4) []
  else if "reg.".toList <+: id then .variableRef (id.drop 4)
  else if findSub "::".toList id ≠ none then .enumLiteral id
  else if '.' ∈ id then makePortRef (id.takeWhile (· ≠ '.')) (id.dropWhile (· ≠ '.')).tail
  else .variableRef id

/-! ## The parser -/

def skipWs (src : List Char) : List Char := src.dropWhile isSpace

/-- The operator that the loop of a level finds at the front, and what follows it. -/
def operatorAt : ℕ → List Char → Option (ExpressionOp × List Char)
  | 1, '|' :: rest => if rest.head? = some '|' then none else some (.bitwiseOr, rest)
  | 2, '^' :: rest => some (.bitwiseXor, rest)
  | 3, '&' :: rest => if rest.head? = some '&' then none else some (.bitwiseAnd, rest)
  | 4, '<' :: '<' :: rest => some (.shiftLeft, rest)
  | 4, '>' :: '>' :: rest => some (.shiftRight, rest)
  | 5, '+' :: rest => some (.add, rest)
  | 5, '-' :: rest => some (.subtract, rest)
  | 6, '*' :: rest => some (.multiply, rest)
  | 6, '/' :: rest => some (.divide, rest)
  | 6, '%' :: rest => some (.modulo, rest)
  | _, _ => none

/-- The operators of `parse_unary`. -/
def prefixOperator : Char → Option ExpressionOp
  | '-' => some .negate
  | '~' => some .bitwiseNot
  | '!' => some .logicalNot
  | _ => none

mutual

/-- The functions `parse_bitwise_or` to `parse_multiplicative` at the levels 1 to 6, `parse_unary` at level 7 and
`parse_primary` above; `fuel` bounds the nesting of calls. -/
def parseAt : ℕ → ℕ → List Char → Option (ExpressionAstNode × List Char)
  | 0, _, _ => none
  | fuel + 1, level, src =>
    if level ≤ 6 then
      (parseAt fuel (level + 1) src).bind fun left => parseLoop fuel level left.1 (skipWs left.2)
    else match skipWs src with
      | [] => none
      | c :: rest =>
        if level = 7 then
          match prefixOperator c with
          | some op => (parseAt fuel 7 rest).map fun child => (.unaryOp op child.1, child.2)
          | none =>
            -- a plus sign leaves no trace
            if c = '+' then parseAt fuel 7 rest else parseAt fuel 8 (c :: rest)
        else if c = '(' then
          (parseAt fuel 1 rest).bind fun inside =>
            match skipWs inside.2 with
            | ')' :: rest => some (inside.1, rest)
            | _ => none
        else if c.isDigit then
          (readNumber ((c :: rest).takeWhile isNumberChar)).map fun e =>
            (e, ((c :: rest).dropWhile isNumberChar).dropWhile isSuffix)
        else if isNameStart c then
          some (readName ((c :: rest).takeWhile isNameChar), (c :: rest).dropWhile isNameChar)
        else none

/-- The loop of a binary level, with the expression read so far. -/
def parseLoop : ℕ → ℕ → ExpressionAstNode → List Char → Option (ExpressionAstNode × List Char)
  | 0, _, _, _ => none
  | fuel + 1, level, left, src =>
    match operatorAt level src with
    | none => some (left, src)
    | some (op, rest) =>
      (parseAt fuel (level + 1) rest).bind fun right =>
        parseLoop fuel level (.binaryOp op left right.1) (skipWs right.2)

end

def parseBitwiseOr (fuel : ℕ) : List Char → Option (ExpressionAstNode × List Char) := parseAt fuel 1

def parseBitwiseXor (fuel : ℕ) : List Char → Option (ExpressionAstNode × List Char) := parseAt fuel 2

def parseBitwiseAnd (fuel : ℕ) : List Char → Option (ExpressionAstNode × List Char) := parseAt fuel 3

def parseShift (fuel : ℕ) : List Char → Option (ExpressionAstNode × List Char) := parseAt fuel 4

def parseAdditive (fuel : ℕ) : List Char → Option (ExpressionAstNode × List Char) := parseAt fuel 5

def parseMultiplicative (fuel : ℕ) : List Char → Option (ExpressionAstNode × List Char) := parseAt fuel 6

def parseUnary (fuel : ℕ) : List Char → Option (ExpressionAstNode × List Char) := parseAt fuel 7

def parsePrimary (fuel : ℕ) : List Char → Option (ExpressionAstNode × List Char) := parseAt fuel 8

def parseExpression (fuel : ℕ) : List Char → Option (ExpressionAstNode × List Char) := parseBitwiseOr fuel

/-- The text without line breaks, blanks around it and semicolons at its end. -/
def trimmed (text : List Char) : List Char :=
  skipWs ((text.filter fun c => c ≠ '\r' && c ≠ '\n').rdropWhile fun c => isSpace c || c = ';')

/-- As many calls as a text can need. -/
def fuelFor (src : List Char) : ℕ := 10 * src.length + 10

def parse (text : List Char) : ExpressionAstNode :=
  if trimmed text = [] then .rawExpression []
  else match parseExpression (fuelFor (trimmed text)) (trimmed text) with
    | some (e, rest) => if skipWs rest = [] then e else .rawExpression text
    | none => .rawExpression text

example : parse "x + y * 10".toList =
    .binaryOp .add (.variableRef ['x']) (.binaryOp .multiply (.variableRef ['y']) (.integerLiteral 10)) := by
  decide +kernel

/-! ## The grammar -/

/-- An expression as it is written; brackets leave no trace. -/
inductive Term where
  | number (digits suffix : List Char) (e : ExpressionAstNode)
  | name (id : List Char)
  | prefixed (op : ExpressionOp) (t : Term)
  | plus (t : Term)
  | infixed (op : ExpressionOp) (l r : Term)

def Term.node : Term → ExpressionAstNode
  | number _ _ e => e
  | name id => readName id
  | prefixed op t => .unaryOp op t.node
  | plus t => t.node
  | infixed op l r => .binaryOp op l.node r.node

/-- The names that are written, from left to right. -/
def Term.names : Term → List (List Char)
  | number _ _ _ => []
  | name id => [id]
  | prefixed _ t | plus t => t.names
  | infixed _ l r => l.names ++ r.names

/-- A number: what is read before the suffix, and the suffix. -/
structure IsNumber (digits suffix : List Char) (e : ExpressionAstNode) : Prop where
  first : ∃ c cs, digits = c :: cs ∧ c.isDigit = true
  chars : ∀ c ∈ digits, isNumberChar c = true
  letters : ∀ c ∈ suffix, isSuffix c = true
  value : readNumber digits = some e

structure IsName (id : List Char) : Prop where
  first : ∃ c cs, id = c :: cs ∧ isNameStart c = true
  chars : ∀ c ∈ id, isNameChar c = true

/-- The texts of a level, level 1 the loosest. -/
inductive Writes : ℕ → Term → List Char → Prop
  | number {digits suffix : List Char} {e : ExpressionAstNode} (h : IsNumber digits suffix e) :
      Writes 8 (.number digits suffix e) (digits ++ suffix)
  | name {id : List Char} (h : IsName id) : Writes 8 (.name id) id
  | parens {t : Term} {s : List Char} (h : Writes 1 t s) : Writes 8 t ('(' :: (s ++ [')']))
  | prefixed {op : ExpressionOp} {c : Char} {t : Term} {s : List Char} (hop : prefixOperator c = some op)
      (h : Writes 7 t s) : Writes 7 (.prefixed op t) (c :: s)
  | plus {t : Term} {s : List Char} (h : Writes 7 t s) : Writes 7 (.plus t) ('+' :: s)
  | infixed {op : ExpressionOp} {l r : Term} {s s' : List Char} (hop : op.precedence ≠ 0)
      (hl : Writes op.precedence l s) (hr : Writes (op.precedence + 1) r s') :
      Writes op.precedence (.infixed op l r) (s ++ (op.text ++ s'))
  | operand {n : ℕ} {t : Term} {s : List Char} (hn : n ≤ 7) (h : Writes (n + 1) t s) : Writes n t s
  | blankLeft {n : ℕ} {c : Char} {t : Term} {s : List Char} (hc : isSpace c = true) (h : Writes n t s) :
      Writes n t (c :: s)
  | blankRight {n : ℕ} {c : Char} {t : Term} {s : List Char} (hc : isSpace c = true) (h : Writes n t s) :
      Writes n t (s ++ [c])

variable {t : Term}

theorem Writes.blanksLeft {n : ℕ} {s blanks : List Char} (hblanks : ∀ c ∈ blanks, isSpace c = true)
    (h : Writes n t s) : Writes n t (blanks ++ s) := by
  induction blanks with
  | nil => exact h
  | cons c blanks ih =>
    exact .blankLeft (hblanks c List.mem_cons_self) (ih fun d hd => hblanks d (List.mem_cons_of_mem _ hd))

theorem Writes.blanksRight {n : ℕ} {s blanks : List Char} (hblanks : ∀ c ∈ blanks, isSpace c = true)
    (h : Writes n t s) : Writes n t (s ++ blanks) := by
  induction blanks generalizing s with
  | nil => rwa [List.append_nil]
  | cons c blanks ih =>
    have hone := ih (fun d hd => hblanks d (List.mem_cons_of_mem _ hd)) (.blankRight (hblanks c List.mem_cons_self) h)
    rwa [List.append_assoc] at hone

theorem Writes.lower {n m : ℕ} {s : List Char} (h : Writes n t s) (hmn : m ≤ n) (hn : n ≤ 8) : Writes m t s := by
  induction hmn with
  | refl => exact h
  | @step k hmk ih => exact ih (.operand (by omega) h) (by omega)

theorem Writes.ne_nil {n : ℕ} {s : List Char} (h : Writes n t s) : s ≠ [] := by
  induction h with
  | number h =>
    obtain ⟨c, cs, rfl, -⟩ := h.first
    exact List.cons_ne_nil _ _
  | name h =>
    obtain ⟨c, cs, rfl, -⟩ := h.first
    exact List.cons_ne_nil _ _
  | infixed _ _ _ ihl _ => exact List.append_ne_nil_of_left_ne_nil ihl _
  | operand _ _ ih => exact ih
  | blankRight _ _ ih => exact List.append_ne_nil_of_left_ne_nil ih _
  | parens _ | prefixed _ _ | plus _ | blankLeft _ _ => exact List.cons_ne_nil _ _

/-! ## What is read is written so -/

theorem takeWhile_skipWs (src : List Char) : src.takeWhile isSpace ++ skipWs src = src :=
  List.takeWhile_append_dropWhile

theorem blanks_takeWhile (src : List Char) : ∀ c ∈ src.takeWhile isSpace, isSpace c = true :=
  fun _ hc => List.mem_takeWhile_imp hc

variable {op : ExpressionOp}

theorem operatorAt_eq {n : ℕ} {src rest : List Char} (h : operatorAt n src = some (op, rest)) :
    op.precedence = n ∧ n ≠ 0 ∧ src = op.text ++ rest := by
  unfold operatorAt at h
  split at h
  all_goals first
    | (cases h; exact ⟨rfl, by decide, rfl⟩)
    | (split at h <;> first | (cases h; exact ⟨rfl, by decide, rfl⟩) | cases h)
    | cases h

/-- What a call has read off the front of a text is written at its level, and so is what a loop has read, with what
was read before it. -/
theorem writes_of_parse (fuel : ℕ) : (∀ n src r, n ≤ 8 → parseAt fuel n src = some r →
      ∃ t used, src = used ++ r.2 ∧ Writes n t used ∧ t.node = r.1) ∧
    (∀ n t before src r, n ≤ 6 → Writes n t before → parseLoop fuel n t.node src = some r →
      ∃ t' used, before ++ src = used ++ r.2 ∧ Writes n t' used ∧ t'.node = r.1) := by
  induction fuel with
  | zero =>
    refine ⟨fun n src r _ h => ?_, fun n t _ src r _ _ h => ?_⟩
    · rw [parseAt] at h
      cases h
    · rw [parseLoop] at h
      cases h
  | succ fuel ih =>
    obtain ⟨ihAt, ihLoop⟩ := ih
    refine ⟨fun n src r hn h => ?_, fun n t before src r hn ht h => ?_⟩
    · rw [parseAt] at h
      split at h
      · next hbinary =>
          obtain ⟨left, hleft, hloop⟩ := Option.bind_eq_some_iff.mp h
          obtain ⟨t, used, hsrc, ht, hnode⟩ := ihAt _ _ _ (by omega) hleft
          have hfirst : Writes n t (used ++ left.2.takeWhile isSpace) :=
            .blanksRight (blanks_takeWhile _) (.operand (by omega) ht)
          rw [← hnode] at hloop
          obtain ⟨t', used', hsrc', ht', hnode'⟩ := ihLoop _ _ _ _ _ hbinary hfirst hloop
          refine ⟨t', used', ?_, ht', hnode'⟩
          rw [← hsrc', hsrc, List.append_assoc, takeWhile_skipWs]
      · next hbinary =>
          obtain ⟨t, used, hsrc, ht, hnode⟩ :
              ∃ t used, skipWs src = used ++ r.2 ∧ Writes n t used ∧ t.node = r.1 := by
            split at h
            · cases h
            · next c rest hsrc =>
                rw [hsrc]
                split at h
                · next hseven => subst hseven; exact unary ihAt h
                · next hseven =>
                    obtain rfl : n = 8 := by omega
                    exact primary ihAt h
          refine ⟨t, src.takeWhile isSpace ++ used, ?_, .blanksLeft (blanks_takeWhile _) ht, hnode⟩
          rw [List.append_assoc, ← hsrc, takeWhile_skipWs]
    · rw [parseLoop] at h
      split at h
      · cases h
        exact ⟨t, before, rfl, ht, rfl⟩
      · next op rest hop =>
          obtain ⟨rfl, hne, hsrc⟩ := operatorAt_eq hop
          obtain ⟨right, hright, hloop⟩ := Option.bind_eq_some_iff.mp h
          obtain ⟨u, used, hrest, hu, hnode⟩ := ihAt _ _ _ (by omega) hright
          have hboth : Writes op.precedence (.infixed op t u)
              (before ++ (op.text ++ used) ++ right.2.takeWhile isSpace) :=
            .blanksRight (blanks_takeWhile _) (.infixed hne ht hu)
          have hloop' : parseLoop fuel op.precedence (Term.infixed op t u).node (skipWs right.2) = some r := by
            rw [← hloop, ← hnode]
            rfl
          obtain ⟨t', used', hsrc', ht', hnode'⟩ := ihLoop _ _ _ _ _ hn hboth hloop'
          refine ⟨t', used', ?_, ht', hnode'⟩
          rw [← hsrc', hsrc, hrest]
          simp only [List.append_assoc, takeWhile_skipWs]
where
  unary {fuel : ℕ} {c : Char} {rest : List Char} {r : ExpressionAstNode × List Char}
      (ihAt : ∀ n src r, n ≤ 8 → parseAt fuel n src = some r →
        ∃ t used, src = used ++ r.2 ∧ Writes n t used ∧ t.node = r.1)
      (h : (match prefixOperator c with
        | some op => (parseAt fuel 7 rest).map fun child => (ExpressionAstNode.unaryOp op child.1, child.2)
        | none => if c = '+' then parseAt fuel 7 rest else parseAt fuel 8 (c :: rest)) = some r) :
      ∃ t used, c :: rest = used ++ r.2 ∧ Writes 7 t used ∧ t.node = r.1 := by
    split at h
    · next op hop =>
        obtain ⟨child, hchild, rfl⟩ := Option.map_eq_some_iff.mp h
        obtain ⟨t, used, hsrc, ht, hnode⟩ := ihAt _ _ _ (by decide) hchild
        exact ⟨.prefixed op t, c :: used, congrArg (c :: ·) hsrc, .prefixed hop ht, congrArg (unaryOp op) hnode⟩
    · split at h
      · next hplus =>
          subst hplus
          obtain ⟨t, used, hsrc, ht, hnode⟩ := ihAt _ _ _ (by decide) h
          exact ⟨.plus t, '+' :: used, congrArg ('+' :: ·) hsrc, .plus ht, hnode⟩
      · obtain ⟨t, used, hsrc, ht, hnode⟩ := ihAt _ _ _ (by decide) h
        exact ⟨t, used, hsrc, .operand (by decide) ht, hnode⟩
  primary {fuel : ℕ} {c : Char} {rest : List Char} {r : ExpressionAstNode × List Char}
      (ihAt : ∀ n src r, n ≤ 8 → parseAt fuel n src = some r →
        ∃ t used, src = used ++ r.2 ∧ Writes n t used ∧ t.node = r.1)
      (h : (if c = '(' then
          (parseAt fuel 1 rest).bind fun inside =>
            match skipWs inside.2 with
            | ')' :: rest => some (inside.1, rest)
            | _ => none
        else if c.isDigit then
          (readNumber ((c :: rest).takeWhile isNumberChar)).map fun e =>
            (e, ((c :: rest).dropWhile isNumberChar).dropWhile isSuffix)
        else if isNameStart c then
          some (readName ((c :: rest).takeWhile isNameChar), (c :: rest).dropWhile isNameChar)
        else none) = some r) :
      ∃ t used, c :: rest = used ++ r.2 ∧ Writes 8 t used ∧ t.node = r.1 := by
    split at h
    · next hopen =>
        subst hopen
        obtain ⟨inside, hinside, hclose⟩ := Option.bind_eq_some_iff.mp h
        obtain ⟨t, used, hsrc, ht, hnode⟩ := ihAt _ _ _ (by decide) hinside
        split at hclose
        · next rest' hrest =>
            cases hclose
            have hpadded : Writes 1 t (used ++ inside.2.takeWhile isSpace) := .blanksRight (blanks_takeWhile _) ht
            refine ⟨t, _, ?_, .parens hpadded, hnode⟩
            rw [hsrc, List.cons_append, List.append_assoc, List.append_assoc, List.singleton_append, ← hrest,
              takeWhile_skipWs]
        · cases hclose
    · split at h
      · next hdigit =>
          obtain ⟨e, he, rfl⟩ := Option.map_eq_some_iff.mp h
          have hchar : isNumberChar c = true := by
            unfold isNumberChar
            rw [hdigit, Bool.true_or]
          refine ⟨.number _ (((c :: rest).dropWhile isNumberChar).takeWhile isSuffix) e, _, ?_,
            .number ⟨⟨c, rest.takeWhile isNumberChar, ?_, hdigit⟩, fun d hd => List.mem_takeWhile_imp hd,
              fun d hd => List.mem_takeWhile_imp hd, he⟩, rfl⟩
          · rw [List.append_assoc, List.takeWhile_append_dropWhile, List.takeWhile_append_dropWhile]
          · rw [List.takeWhile_cons_of_pos hchar]
      · split at h
        · next hstart =>
            cases h
            have hchar : isNameChar c = true := by
              unfold isNameStart at hstart
              unfold isNameChar Char.isAlphanum
              rcases Bool.or_eq_true_iff.mp hstart with halpha | hunder
              · rw [halpha]; rfl
              · rw [hunder]; simp
            refine ⟨.name _, _, List.takeWhile_append_dropWhile.symm, .name ⟨⟨c, rest.takeWhile isNameChar, ?_, hstart⟩,
              fun d hd => List.mem_takeWhile_imp hd⟩, rfl⟩
            rw [List.takeWhile_cons_of_pos hchar]
        · cases h

/-! ## The fuel is enough -/

theorem length_parseAt {fuel n : ℕ} {src : List Char} {r : ExpressionAstNode × List Char} (hn : n ≤ 8)
    (h : parseAt fuel n src = some r) : r.2.length < src.length := by
  obtain ⟨t, used, hsrc, ht, -⟩ := (writes_of_parse fuel).1 n src r hn h
  have hpos := List.length_pos_iff.mpr ht.ne_nil
  rw [hsrc, List.length_append]
  omega

theorem length_skipWs (src : List Char) : (skipWs src).length ≤ src.length :=
  (List.dropWhile_sublist _).length_le

/-- With as much fuel as the text can need, more makes no difference. -/
theorem succ_fuel (fuel : ℕ) :
    (∀ n src, n ≤ 8 → 10 * src.length + (8 - n) < fuel → parseAt (fuel + 1) n src = parseAt fuel n src) ∧
    (∀ n left src, n ≤ 6 → 10 * src.length + 8 < fuel →
      parseLoop (fuel + 1) n left src = parseLoop fuel n left src) := by
  induction fuel with
  | zero => exact ⟨fun _ _ _ h => absurd h (Nat.not_lt_zero _), fun _ _ _ _ h => absurd h (Nat.not_lt_zero _)⟩
  | succ fuel ih =>
    obtain ⟨ihAt, ihLoop⟩ := ih
    refine ⟨fun n src hn hfuel => ?_, fun n left src hn hfuel => ?_⟩
    · conv_lhs => rw [parseAt]
      conv_rhs => rw [parseAt]
      split
      · next hbinary =>
          rw [ihAt (n + 1) src (by omega) (by omega)]
          cases hleft : parseAt fuel (n + 1) src with
          | none => rfl
          | some left =>
            have hrest := length_parseAt (by omega) hleft
            have hskip := length_skipWs left.2
            exact ihLoop n left.1 _ hbinary (by omega)
      · next hbinary =>
          have hskip := length_skipWs src
          cases hsrc : skipWs src with
          | nil => rfl
          | cons c rest =>
            rw [hsrc, List.length_cons] at hskip
            dsimp only
            rw [ihAt 7 rest (by decide) (by omega), ihAt 1 rest (by decide) (by omega)]
            split
            · next hseven =>
                rw [ihAt 8 (c :: rest) le_rfl (by rw [List.length_cons]; omega)]
            · rfl
    · conv_lhs => rw [parseLoop]
      conv_rhs => rw [parseLoop]
      cases hop : operatorAt n src with
      | none => rfl
      | some found =>
        obtain ⟨op, rest⟩ := found
        obtain ⟨hprecedence, hne, hsrc⟩ := operatorAt_eq hop
        have hlength := congrArg List.length hsrc
        have hpos : 0 < op.text.length := by
          subst hprecedence
          cases op <;> first | exact absurd rfl hne | decide
        rw [List.length_append] at hlength
        dsimp only
        rw [ihAt (n + 1) rest (by omega) (by omega)]
        cases hright : parseAt fuel (n + 1) rest with
        | none => rfl
        | some right =>
          have hrest := length_parseAt (by omega) hright
          have hskip := length_skipWs right.2
          exact ihLoop n _ _ hn (by omega)

theorem parseAt_eq_of_le {n : ℕ} {src : List Char} {fuel fuel' : ℕ} (hn : n ≤ 8)
    (h : 10 * src.length + (8 - n) < fuel) (hle : fuel ≤ fuel') : parseAt fuel' n src = parseAt fuel n src := by
  induction hle with
  | refl => rfl
  | @step m hm ih => rw [(succ_fuel m).1 n src hn (h.trans_le hm), ih]

/-! ## What is written is read so -/

/-- The level of the operators that start with a character. -/
def charLevel : Char → ℕ
  | '|' => 1
  | '^' => 2
  | '&' => 3
  | '<' | '>' => 4
  | '+' | '-' => 5
  | '*' | '/' | '%' => 6
  | _ => 0

theorem text_first (h : op.precedence ≠ 0) :
    ∃ c cs, op.text = c :: cs ∧ charLevel c = op.precedence ∧ isNameChar c = false ∧ isSpace c = false := by
  cases op <;> first | exact absurd rfl h | exact ⟨_, _, rfl, by decide, by decide, by decide⟩

theorem operatorAt_eq_none {n : ℕ} {src : List Char} (h : ∀ c ∈ src.head?, charLevel c ≠ n) :
    operatorAt n src = none := by
  cases hop : operatorAt n src with
  | none => rfl
  | some found =>
    obtain ⟨hprecedence, hne, hsrc⟩ := operatorAt_eq hop
    obtain ⟨c, cs, htext, hlevel, -⟩ := text_first (hprecedence ▸ hne)
    rw [hsrc, htext] at h
    exact absurd (hlevel.trans hprecedence) (h c rfl)

theorem operatorAt_text (h : op.precedence ≠ 0) {rest : List Char}
    (hrest : rest.head? ≠ some '|' ∧ rest.head? ≠ some '&') :
    operatorAt op.precedence (op.text ++ rest) = some (op, rest) := by
  cases op with
  | none | negate | bitwiseNot | logicalNot => exact absurd rfl h
  | bitwiseOr => exact if_neg hrest.1
  | bitwiseAnd => exact if_neg hrest.2
  | add | subtract | multiply | divide | modulo | shiftLeft | shiftRight | bitwiseXor => rfl

/-- What follows does not go on with an expression of a level. -/
structure Ends (n : ℕ) (rest : List Char) : Prop where
  word : ∀ c ∈ rest.head?, isNameChar c = false
  operator : ∀ c ∈ (skipWs rest).head?, charLevel c < n

theorem Ends.mono {n m : ℕ} {rest : List Char} (h : Ends n rest) (hnm : n ≤ m) : Ends m rest :=
  ⟨h.word, fun c hc => (h.operator c hc).trans_le hnm⟩

theorem isNameChar_of_isSpace {c : Char} (h : isSpace c = true) : isNameChar c = false := by
  unfold isSpace at h
  simp only [Bool.or_eq_true, decide_eq_true_eq] at h
  rcases h with ((((rfl | rfl) | rfl) | rfl) | rfl) | rfl <;> decide

theorem skipWs_cons {c : Char} (h : isSpace c = true) (rest : List Char) : skipWs (c :: rest) = skipWs rest :=
  List.dropWhile_cons_of_pos h

theorem skipWs_of_first {c : Char} (h : isSpace c = false) (rest : List Char) : skipWs (c :: rest) = c :: rest :=
  List.dropWhile_cons_of_neg (by rw [h]; decide)

theorem Ends.blank {n : ℕ} {c : Char} {rest : List Char} (hc : isSpace c = true) (h : Ends n rest) :
    Ends n (c :: rest) where
  word := fun d hd => by
    obtain rfl := Option.some.inj hd
    exact isNameChar_of_isSpace hc
  operator := by
    rw [skipWs_cons hc]
    exact h.operator

theorem parseAt_congr {src src' : List Char} (h : skipWs src = skipWs src') :
    ∀ fuel n, parseAt fuel n src = parseAt fuel n src' := by
  intro fuel
  induction fuel with
  | zero => exact fun n => by rw [parseAt, parseAt]
  | succ fuel ih =>
    intro n
    rw [parseAt, parseAt, ih (n + 1), h]

/-- With enough fuel a call reads an expression up to a rest. -/
def Parses (n : ℕ) (src : List Char) (e : ExpressionAstNode) (rest : List Char) : Prop :=
  ∃ enough, ∀ fuel, enough ≤ fuel → ∃ r, parseAt fuel n src = some (e, r) ∧ skipWs r = skipWs rest

/-- With enough fuel a loop does. -/
def Loops (n : ℕ) (left : ExpressionAstNode) (src : List Char) (e : ExpressionAstNode) (rest : List Char) : Prop :=
  ∃ enough, ∀ fuel, enough ≤ fuel → ∃ r, parseLoop fuel n left src = some (e, r) ∧ skipWs r = skipWs rest

section Rules

variable {n : ℕ} {src rest rest' r : List Char} {a b e : ExpressionAstNode}

theorem Loops.stop (h : ∀ c ∈ src.head?, charLevel c < n) (hrest : skipWs src = skipWs rest) :
    Loops n a src a rest := by
  refine ⟨1, fun fuel hfuel => ?_⟩
  obtain ⟨fuel, rfl⟩ : ∃ g, fuel = g + 1 := ⟨fuel - 1, by omega⟩
  rw [parseLoop, operatorAt_eq_none fun c hc => (h c hc).ne]
  exact ⟨src, rfl, hrest⟩

theorem Loops.next {op : ExpressionOp} (hop : operatorAt n src = some (op, rest))
    (hb : Parses (n + 1) rest b rest') (hrest : Loops n (.binaryOp op a b) (skipWs rest') e r) : Loops n a src e r := by
  obtain ⟨N, hN⟩ := hb
  obtain ⟨M, hM⟩ := hrest
  refine ⟨max N M + 1, fun fuel hfuel => ?_⟩
  obtain ⟨fuel, rfl⟩ : ∃ g, fuel = g + 1 := ⟨fuel - 1, by omega⟩
  obtain ⟨q, hq, hskip⟩ := hN fuel (by omega)
  rw [parseLoop, hop]
  dsimp only
  rw [hq, Option.bind_some, hskip]
  exact hM fuel (by omega)

theorem Parses.loop (hn : n ≤ 6) (ha : Parses (n + 1) src a rest) (hrest : Loops n a (skipWs rest) e rest') :
    Parses n src e rest' := by
  obtain ⟨N, hN⟩ := ha
  obtain ⟨M, hM⟩ := hrest
  refine ⟨max N M + 1, fun fuel hfuel => ?_⟩
  obtain ⟨fuel, rfl⟩ : ∃ g, fuel = g + 1 := ⟨fuel - 1, by omega⟩
  obtain ⟨q, hq, hskip⟩ := hN fuel (by omega)
  rw [parseAt, if_pos hn, hq, Option.bind_some, hskip]
  exact hM fuel (by omega)

end Rules

/-! ## The reader reads the texts of the grammar -/

/-- An expression is read off the front of a text, up to what ends it. At a binary level, reading it leaves the loop
to go on with it. -/
structure ReadsAt (n : ℕ) (s : List Char) (e : ExpressionAstNode) : Prop where
  first : ∃ c cs, s = c :: cs ∧ c ≠ '|' ∧ c ≠ '&'
  loop : n ≤ 6 → ∀ rest e' rest', Ends (n + 1) rest → Loops n e (skipWs rest) e' rest' →
    Parses n (s ++ rest) e' rest'
  stop : ∀ rest, Ends n rest → Parses n (s ++ rest) e rest

section ReadsAt

variable {n : ℕ} {s s' : List Char} {a b e : ExpressionAstNode}

theorem skipWs_skipWs (src : List Char) : skipWs (skipWs src) = skipWs src := List.dropWhile_idempotent _ _

theorem ReadsAt.of_loop (hfirst : ∃ c cs, s = c :: cs ∧ c ≠ '|' ∧ c ≠ '&')
    (h : ∀ rest e' rest', Ends (n + 1) rest → Loops n e (skipWs rest) e' rest' → Parses n (s ++ rest) e' rest') :
    ReadsAt n s e where
  first := hfirst
  loop := fun _ => h
  stop := fun rest hrest => h rest e rest (hrest.mono n.le_succ) (.stop hrest.operator (skipWs_skipWs rest))

theorem ReadsAt.of_stop (hn : 7 ≤ n) (hfirst : ∃ c cs, s = c :: cs ∧ c ≠ '|' ∧ c ≠ '&')
    (h : ∀ rest, Ends n rest → Parses n (s ++ rest) e rest) : ReadsAt n s e :=
  ⟨hfirst, fun hle => absurd hle (by omega), h⟩

variable {c : Char}

theorem prefixOperator_cases (h : c = '(' ∨ c.isDigit = true ∨ isNameStart c = true) :
    prefixOperator c = none ∧ c ≠ '+' := by
  have hall : ∀ d ∈ ['-', '~', '!', '+'], ¬(d = '(' ∨ d.isDigit = true ∨ isNameStart d = true) := by decide
  have hno : ∀ d ∈ ['-', '~', '!', '+'], c ≠ d := fun d hd heq => hall d hd (heq ▸ h)
  refine ⟨?_, hno '+' (by decide)⟩
  unfold prefixOperator
  split
  · exact absurd rfl (hno '-' (by decide))
  · exact absurd rfl (hno '~' (by decide))
  · exact absurd rfl (hno '!' (by decide))
  · rfl

theorem parseAt_primary {fuel : ℕ} {src : List Char} {r : ExpressionAstNode × List Char}
    (h : parseAt fuel 8 src = some r) :
    ∃ c rest, skipWs src = c :: rest ∧ prefixOperator c = none ∧ c ≠ '+' := by
  cases fuel with
  | zero =>
    rw [parseAt] at h
    cases h
  | succ fuel =>
    rw [parseAt, if_neg (by decide)] at h
    split at h
    · cases h
    · next c rest hsrc =>
        refine ⟨c, rest, hsrc, prefixOperator_cases ?_⟩
        rw [if_neg (by decide)] at h
        split at h
        · next hopen => exact Or.inl hopen
        · split at h
          · next hdigit => exact Or.inr (Or.inl hdigit)
          · split at h
            · next hstart => exact Or.inr (Or.inr hstart)
            · cases h

theorem Parses.unary {src rest : List Char} (h : Parses 8 src e rest) : Parses 7 src e rest := by
  obtain ⟨N, hN⟩ := h
  refine ⟨N + 1, fun fuel hfuel => ?_⟩
  obtain ⟨fuel, rfl⟩ : ∃ g, fuel = g + 1 := ⟨fuel - 1, by omega⟩
  obtain ⟨q, hq, hskip⟩ := hN fuel (by omega)
  obtain ⟨c, cs, hsrc, hnone, hplus⟩ := parseAt_primary hq
  refine ⟨q, ?_, hskip⟩
  rw [parseAt, if_neg (by decide), hsrc]
  dsimp only
  rw [if_pos rfl, hnone]
  dsimp only
  rw [if_neg hplus, ← hq]
  refine parseAt_congr ?_ fuel 8
  rw [← hsrc, skipWs_skipWs]

theorem ReadsAt.operand (hn : n ≤ 7) (h : ReadsAt (n + 1) s e) : ReadsAt n s e := by
  by_cases hbinary : n ≤ 6
  · exact .of_loop h.first fun rest e' rest' hrest hloop => .loop hbinary (h.stop rest hrest) hloop
  · obtain rfl : n = 7 := by omega
    exact .of_stop le_rfl h.first fun rest hrest => (h.stop rest (hrest.mono (by decide))).unary

theorem ReadsAt.infixed {op : ExpressionOp} (hop : op.precedence ≠ 0) (ha : ReadsAt op.precedence s a)
    (hb : ReadsAt (op.precedence + 1) s' b) :
    ReadsAt op.precedence (s ++ (op.text ++ s')) (.binaryOp op a b) := by
  have hle : op.precedence ≤ 6 := by cases op <;> decide
  obtain ⟨c, cs, hs, hfirst⟩ := ha.first
  refine .of_loop ⟨c, cs ++ (op.text ++ s'), by rw [hs]; rfl, hfirst⟩ fun rest e' rest' hrest hloop => ?_
  obtain ⟨d, ds, htext, hlevel, hchar, hspace⟩ := text_first hop
  obtain ⟨c', cs', hs', hbar, hamp⟩ := hb.first
  have hskip : skipWs (op.text ++ (s' ++ rest)) = op.text ++ (s' ++ rest) := by
    rw [htext]
    exact skipWs_of_first hspace _
  have hends : Ends (op.precedence + 1) (op.text ++ (s' ++ rest)) := by
    refine ⟨fun x hx => ?_, fun x hx => ?_⟩
    · rw [htext] at hx
      obtain rfl := Option.some.inj hx
      exact hchar
    · rw [hskip, htext] at hx
      obtain rfl := Option.some.inj hx
      exact hlevel.trans_lt (Nat.lt_succ_self _)
  have hfound : operatorAt op.precedence (op.text ++ (s' ++ rest)) = some (op, s' ++ rest) := by
    refine operatorAt_text hop ?_
    rw [hs']
    exact ⟨fun h => hbar (Option.some.inj h), fun h => hamp (Option.some.inj h)⟩
  rw [List.append_assoc, List.append_assoc]
  refine ha.loop hle _ _ _ hends ?_
  rw [hskip]
  exact .next hfound (hb.stop rest hrest) hloop

theorem prefixOperator_first {op : ExpressionOp} (h : prefixOperator c = some op) :
    (c ≠ '|' ∧ c ≠ '&') ∧ isSpace c = false := by
  unfold prefixOperator at h
  split at h <;> first | cases h; decide | cases h

theorem ReadsAt.prefixed {op : ExpressionOp} (hop : prefixOperator c = some op) (h : ReadsAt 7 s e) :
    ReadsAt 7 (c :: s) (.unaryOp op e) := by
  obtain ⟨hfirst, hspace⟩ := prefixOperator_first hop
  refine .of_stop le_rfl ⟨c, s, rfl, hfirst⟩ fun rest hrest => ?_
  obtain ⟨N, hN⟩ := h.stop rest hrest
  refine ⟨N + 1, fun fuel hfuel => ?_⟩
  obtain ⟨fuel, rfl⟩ : ∃ g, fuel = g + 1 := ⟨fuel - 1, by omega⟩
  obtain ⟨q, hq, hskip⟩ := hN fuel (by omega)
  refine ⟨q, ?_, hskip⟩
  rw [parseAt, if_neg (by decide), List.cons_append, skipWs_of_first hspace]
  dsimp only
  rw [if_pos rfl, hop]
  dsimp only
  rw [hq]
  rfl

theorem ReadsAt.plus (h : ReadsAt 7 s e) : ReadsAt 7 ('+' :: s) e := by
  refine .of_stop le_rfl ⟨'+', s, rfl, by decide⟩ fun rest hrest => ?_
  obtain ⟨N, hN⟩ := h.stop rest hrest
  refine ⟨N + 1, fun fuel hfuel => ?_⟩
  obtain ⟨fuel, rfl⟩ : ∃ g, fuel = g + 1 := ⟨fuel - 1, by omega⟩
  obtain ⟨q, hq, hskip⟩ := hN fuel (by omega)
  refine ⟨q, ?_, hskip⟩
  rw [parseAt, if_neg (by decide), List.cons_append, skipWs_of_first (by decide)]
  exact hq

theorem ReadsAt.parens (h : ReadsAt 1 s e) : ReadsAt 8 ('(' :: (s ++ [')'])) e := by
  refine .of_stop (by decide) ⟨'(', _, rfl, by decide⟩ fun rest _ => ?_
  have hclose : skipWs (')' :: rest) = ')' :: rest := skipWs_of_first (by decide) rest
  have hends : Ends 1 (')' :: rest) := by
    refine ⟨fun x hx => ?_, fun x hx => ?_⟩
    · obtain rfl := Option.some.inj hx
      decide
    · rw [hclose] at hx
      obtain rfl := Option.some.inj hx
      decide
  obtain ⟨N, hN⟩ := h.stop _ hends
  refine ⟨N + 1, fun fuel hfuel => ?_⟩
  obtain ⟨fuel, rfl⟩ : ∃ g, fuel = g + 1 := ⟨fuel - 1, by omega⟩
  obtain ⟨q, hq, hskip⟩ := hN fuel (by omega)
  refine ⟨rest, ?_, rfl⟩
  rw [parseAt, if_neg (by decide), List.cons_append, List.append_assoc, List.singleton_append,
    skipWs_of_first (by decide)]
  dsimp only
  rw [if_neg (by decide), if_pos rfl, hq, Option.bind_some]
  dsimp only
  rw [hskip, hclose]
  rfl

/-- A run of characters is taken off the front up to the first that does not belong to it. -/
theorem takeWhile_run {p : Char → Bool} {cs rest : List Char} (hcs : ∀ c ∈ cs, p c = true)
    (hrest : ∀ c ∈ rest.head?, p c = false) :
    (cs ++ rest).takeWhile p = cs ∧ (cs ++ rest).dropWhile p = rest := by
  rw [List.takeWhile_append_of_pos hcs, List.dropWhile_append_of_pos hcs]
  cases rest with
  | nil => exact ⟨List.append_nil _, rfl⟩
  | cons c rest =>
    have hc : ¬p c = true := by rw [hrest c rfl]; decide
    rw [List.takeWhile_cons_of_neg hc, List.dropWhile_cons_of_neg hc]
    exact ⟨List.append_nil _, rfl⟩

theorem isNumberChar_of_not (h : isNameChar c = false) : isNumberChar c = false ∧ isSuffix c = false := by
  constructor
  · by_contra hc
    rw [Bool.not_eq_false] at hc
    unfold isNumberChar at hc
    unfold isNameChar Char.isAlphanum at h
    rcases Bool.or_eq_true_iff.mp hc with hdigit | hdot
    · rw [hdigit, Bool.or_true] at h
      cases h
    · obtain rfl := of_decide_eq_true hdot
      exact absurd h (by decide)
  · by_contra hc
    rw [Bool.not_eq_false] at hc
    unfold isSuffix at hc
    simp only [Bool.or_eq_true, decide_eq_true_eq] at hc
    rcases hc with ((((rfl | rfl) | rfl) | rfl) | rfl) | rfl <;> exact absurd h (by decide)

theorem isSuffix_not_number (h : isSuffix c = true) : isNumberChar c = false := by
  unfold isSuffix at h
  simp only [Bool.or_eq_true, decide_eq_true_eq] at h
  rcases h with ((((rfl | rfl) | rfl) | rfl) | rfl) | rfl <;> decide

theorem isDigit_first (h : c.isDigit = true ∨ isNameStart c = true) :
    (c ≠ '|' ∧ c ≠ '&') ∧ isSpace c = false ∧ c ≠ '(' := by
  have hall : ∀ d ∈ ['|', '&', '(', ' ', '\t', '\n', '\x0b', '\x0c', '\r'],
      ¬(d.isDigit = true ∨ isNameStart d = true) := by decide
  have hno : ∀ d ∈ ['|', '&', '(', ' ', '\t', '\n', '\x0b', '\x0c', '\r'], c ≠ d :=
    fun d hd heq => hall d hd (heq ▸ h)
  refine ⟨⟨hno _ (by decide), hno _ (by decide)⟩, ?_, hno _ (by decide)⟩
  rw [Bool.eq_false_iff]
  intro hspace
  unfold isSpace at hspace
  simp only [Bool.or_eq_true, decide_eq_true_eq] at hspace
  rcases hspace with ((((h | h) | h) | h) | h) | h <;> exact hno _ (by decide) h

theorem IsNumber.readsAt {digits suffix : List Char} (h : IsNumber digits suffix e) :
    ReadsAt 8 (digits ++ suffix) e := by
  obtain ⟨c, cs, hdigits, hdigit⟩ := h.first
  obtain ⟨hfirst, hspace, hopen⟩ := isDigit_first (Or.inl hdigit)
  refine .of_stop (by decide) ⟨c, cs ++ suffix, by rw [hdigits]; rfl, hfirst⟩ fun rest hrest => ?_
  refine ⟨1, fun fuel hfuel => ⟨rest, ?_, rfl⟩⟩
  obtain ⟨fuel, rfl⟩ : ∃ g, fuel = g + 1 := ⟨fuel - 1, by omega⟩
  have hafter : ∀ d ∈ (suffix ++ rest).head?, isNumberChar d = false := by
    intro d hd
    cases hsuffix : suffix with
    | nil =>
      rw [hsuffix] at hd
      exact (isNumberChar_of_not (hrest.word d hd)).1
    | cons x xs =>
      rw [hsuffix] at hd
      obtain rfl := Option.some.inj hd
      exact isSuffix_not_number (h.letters x (by rw [hsuffix]; exact List.mem_cons_self))
  obtain ⟨htake, hdrop⟩ := takeWhile_run h.chars hafter
  obtain ⟨-, hletters⟩ := takeWhile_run h.letters fun d hd => (isNumberChar_of_not (hrest.word d hd)).2
  have hsrc : digits ++ (suffix ++ rest) = c :: (cs ++ (suffix ++ rest)) := by rw [hdigits]; rfl
  rw [hsrc] at htake hdrop
  rw [parseAt, if_neg (by decide), List.append_assoc, hsrc, skipWs_of_first hspace]
  dsimp only
  rw [if_neg (by decide), if_neg hopen, if_pos hdigit, htake, hdrop, hletters, h.value]
  rfl

theorem IsName.readsAt {id : List Char} (h : IsName id) : ReadsAt 8 id (readName id) := by
  obtain ⟨c, cs, hid, hstart⟩ := h.first
  obtain ⟨hfirst, hspace, hopen⟩ := isDigit_first (Or.inr hstart)
  refine .of_stop (by decide) ⟨c, cs, hid, hfirst⟩ fun rest hrest => ?_
  refine ⟨1, fun fuel hfuel => ⟨rest, ?_, rfl⟩⟩
  obtain ⟨fuel, rfl⟩ : ∃ g, fuel = g + 1 := ⟨fuel - 1, by omega⟩
  obtain ⟨htake, hdrop⟩ := takeWhile_run h.chars hrest.word
  have hsrc : id ++ rest = c :: (cs ++ rest) := by rw [hid]; rfl
  have hdigit : c.isDigit = false := by
    rw [Bool.eq_false_iff]
    intro hdigit
    exact absurd hdigit (not_digit hstart)
  rw [hsrc] at htake hdrop
  rw [parseAt, if_neg (by decide), hsrc, skipWs_of_first hspace]
  dsimp only
  rw [if_neg (by decide), if_neg hopen, if_neg (by rw [hdigit]; decide), if_pos hstart, htake, hdrop]
where
  not_digit {c : Char} (h : isNameStart c = true) : ¬c.isDigit = true := by
    intro hdigit
    unfold isNameStart at h
    rcases Bool.or_eq_true_iff.mp h with halpha | hunder
    · delta Char.isAlpha Char.isUpper Char.isLower at halpha
      simp only [Char.isDigit, Bool.or_eq_true, Bool.and_eq_true, decide_eq_true_eq, ge_iff_le,
        UInt32.le_iff_toNat_le] at halpha hdigit
      have hvals : 'A'.val.toNat = 65 ∧ 'a'.val.toNat = 97 ∧ '9'.val.toNat = 57 := by decide
      omega
    · obtain rfl := of_decide_eq_true hunder
      exact absurd hdigit (by decide)

theorem ReadsAt.blankLeft (hc : isSpace c = true) (h : ReadsAt n s e) : ReadsAt n (c :: s) e := by
  have hsame : ∀ rest e' rest', Parses n (s ++ rest) e' rest' → Parses n (c :: s ++ rest) e' rest' := by
    rintro rest e' rest' ⟨N, hN⟩
    refine ⟨N, fun fuel hfuel => ?_⟩
    rw [List.cons_append, parseAt_congr (skipWs_cons hc (s ++ rest))]
    exact hN fuel hfuel
  have hfirst : c ≠ '|' ∧ c ≠ '&' := by
    constructor <;> (rintro rfl; exact absurd hc (by decide))
  exact ⟨⟨c, s, rfl, hfirst⟩, fun hn rest e' rest' hrest hloop => hsame _ _ _ (h.loop hn rest e' rest' hrest hloop),
    fun rest hrest => hsame _ _ _ (h.stop rest hrest)⟩

theorem ReadsAt.blankRight (hc : isSpace c = true) (h : ReadsAt n s e) : ReadsAt n (s ++ [c]) e := by
  obtain ⟨d, ds, hs, hfirst⟩ := h.first
  have hsplit : ∀ rest, s ++ [c] ++ rest = s ++ c :: rest := fun rest => by rw [List.append_assoc]; rfl
  refine ⟨⟨d, ds ++ [c], by rw [hs]; rfl, hfirst⟩, fun hn rest e' rest' hrest hloop => ?_, fun rest hrest => ?_⟩
  · rw [hsplit]
    refine h.loop hn _ _ _ (hrest.blank hc) ?_
    rwa [skipWs_cons hc]
  · rw [hsplit]
    obtain ⟨N, hN⟩ := h.stop _ (hrest.blank hc)
    rw [skipWs_cons hc] at hN
    exact ⟨N, hN⟩

end ReadsAt

theorem Writes.readsAt {n : ℕ} {s : List Char} (h : Writes n t s) : ReadsAt n s t.node := by
  induction h with
  | number h => exact h.readsAt
  | name h => exact h.readsAt
  | parens _ ih => exact ih.parens
  | prefixed hop _ ih => exact ih.prefixed hop
  | plus _ ih => exact ih.plus
  | infixed hop _ _ ihl ihr => exact .infixed hop ihl ihr
  | operand hn _ ih => exact ih.operand hn
  | blankLeft hc _ ih => exact ih.blankLeft hc
  | blankRight hc _ ih => exact ih.blankRight hc

/-! ## What `parse` returns -/

theorem parse_of_writes {text : List Char} (h : Writes 1 t (trimmed text)) : parse text = t.node := by
  have hends : Ends 1 [] := ⟨nofun, nofun⟩
  obtain ⟨N, hN⟩ := h.readsAt.stop [] hends
  obtain ⟨r, hr, hskip⟩ := hN (max N (fuelFor (trimmed text))) (Nat.le_max_left _ _)
  have henough : 10 * (trimmed text).length + (8 - 1) < fuelFor (trimmed text) := by
    unfold fuelFor
    omega
  rw [List.append_nil, parseAt_eq_of_le (by decide) henough (Nat.le_max_right _ _)] at hr
  unfold parse
  rw [if_neg h.ne_nil]
  show (match parseAt (fuelFor (trimmed text)) 1 (trimmed text) with
    | some (e, rest) => if skipWs rest = [] then e else ExpressionAstNode.rawExpression text
    | none => .rawExpression text) = t.node
  rw [hr]
  exact if_pos hskip

theorem parse_cases (text : List Char) : (∃ t, Writes 1 t (trimmed text) ∧ parse text = t.node) ∨
    parse text = .rawExpression text ∨ trimmed text = [] ∧ parse text = .rawExpression [] := by
  unfold parse
  split
  · next hempty => exact Or.inr (Or.inr ⟨hempty, rfl⟩)
  · cases hresult : parseExpression (fuelFor (trimmed text)) (trimmed text) with
    | none => exact Or.inr (Or.inl rfl)
    | some r =>
      dsimp only
      split
      · next hrest =>
          obtain ⟨t, used, hsrc, ht, hnode⟩ := (writes_of_parse _).1 1 _ r (by decide) hresult
          refine Or.inl ⟨t, ?_, hnode.symm⟩
          have hblank : ∀ c ∈ r.2, isSpace c = true := by
            intro c hc
            rw [← takeWhile_skipWs r.2, hrest, List.append_nil] at hc
            exact blanks_takeWhile _ c hc
          rw [hsrc]
          exact ht.blanksRight hblank
      · exact Or.inr (Or.inl rfl)

end Fsmc.Ir.Expression
