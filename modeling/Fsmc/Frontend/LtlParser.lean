/-
# Fsmc.Frontend.LtlParser — temporal formulas from text.

A tokenizer splits the text and a recursive descent parser reads a formula from the front of the tokens.
What is left over is not looked at, a closing bracket may be missing, and a missing operand is an atom
without text. The grammar says which token lists a formula accounts for in order; on these the parser
reads the formula of the grammar, to the end.
-/
import Fsmc.Cpp.Text
import Fsmc.Ir.Property
import Mathlib.Data.List.Chain

namespace Fsmc.Frontend.LtlParser

open Fsmc.Cpp Fsmc.Ir

/-! ## Tokens -/

inductive TokenType where
  | atom | globally | finally | next | until | release | implies | equivalent | and | or | not
  | ex | ax | ef | af | eg | ag | eu | au | lBracket | rBracket | lParen | rParen | end
  deriving DecidableEq, Repr

structure Token where
  type : TokenType
  value : String
  deriving DecidableEq, Repr

def isDelim (c : Char) : Bool :=
  isSpace c || c = '(' || c = ')' || c = '[' || c = ']' || c = '!' || c = '&' || c = '|' || c = '-' ||
    c = '=' || c = '<' || c = '>'

/-- A letter stands alone: the text ends after it or goes on with a delimiter. -/
def standsAlone : List Char → Bool
  | [] => true
  | c :: _ => isDelim c

/-- Whether a word ends before a character. -/
def endsWord (ch : Char) (rest : List Char) : Bool :=
  isSpace ch || ch = '(' || ch = ')' || ch = '[' || ch = ']' || ch = '&' || ch = '|' || ch = '!' ||
    (ch = '-' && rest.head? = some '>') || (ch = '=' && rest.head? = some '>') ||
    (ch = '<' && (rest.take 2 = ['-', '>'] || rest.take 2 = ['=', '>']))

/-- The rest of a word, and what follows it. -/
def takeWord : List Char → List Char × List Char
  | [] => ([], [])
  | ch :: rest =>
    if endsWord ch rest then ([], ch :: rest) else (ch :: (takeWord rest).1, (takeWord rest).2)

def trim (text : List Char) : List Char :=
  let blank (c : Char) : Bool := c = ' ' || c = '\t' || c = '\r' || c = '\n'
  (text.dropWhile blank).rdropWhile blank

def wordToken (word : String) : Option Token :=
  if word = "AND" || word = "and" then some ⟨.and, "&&"⟩
  else if word = "OR" || word = "or" then some ⟨.or, "||"⟩
  else if word = "NOT" || word = "not" then some ⟨.not, "!"⟩
  else if word = "EX" then some ⟨.ex, "EX"⟩
  else if word = "AX" then some ⟨.ax, "AX"⟩
  else if word = "EF" then some ⟨.ef, "EF"⟩
  else if word = "AF" then some ⟨.af, "AF"⟩
  else if word = "EG" then some ⟨.eg, "EG"⟩
  else if word = "AG" then some ⟨.ag, "AG"⟩
  else if word = "EU" then some ⟨.eu, "EU"⟩
  else if word = "AU" then some ⟨.au, "AU"⟩
  else if word ≠ "" then some ⟨.atom, word⟩
  else none

/-- One turn of the loop of `tokenize`, for the next character and those after it. -/
def nextToken (c : Char) (rest : List Char) : Option Token × List Char :=
  if isSpace c then (none, rest)
  else if c = '[' && rest.head? = some ']' then (some ⟨.globally, "G"⟩, rest.drop 1)
  else if c = '[' then (some ⟨.lBracket, "["⟩, rest)
  else if c = ']' then (some ⟨.rBracket, "]"⟩, rest)
  else if c = 'G' && standsAlone rest then (some ⟨.globally, "G"⟩, rest)
  else if c = '<' && rest.head? = some '>' then (some ⟨.finally, "F"⟩, rest.drop 1)
  else if c = 'F' && standsAlone rest then (some ⟨.finally, "F"⟩, rest)
  else if c = 'X' && standsAlone rest then (some ⟨.next, "X"⟩, rest)
  else if c = 'U' && standsAlone rest then (some ⟨.until, "U"⟩, rest)
  else if c = 'R' && standsAlone rest then (some ⟨.release, "R"⟩, rest)
  else if c = '<' && (rest.take 2 = ['-', '>'] || rest.take 2 = ['=', '>']) then
    (some ⟨.equivalent, "<->"⟩, rest.drop 2)
  else if (c = '-' || c = '=') && rest.head? = some '>' then (some ⟨.implies, "->"⟩, rest.drop 1)
  else if c = '&' then
    if rest.head? = some '&' then (some ⟨.and, "&&"⟩, rest.drop 1) else (some ⟨.and, "&"⟩, rest)
  else if c = '|' then
    if rest.head? = some '|' then (some ⟨.or, "||"⟩, rest.drop 1) else (some ⟨.or, "|"⟩, rest)
  else if c = '!' then (some ⟨.not, "!"⟩, rest)
  else if c = '(' then (some ⟨.lParen, "("⟩, rest)
  else if c = ')' then (some ⟨.rParen, ")"⟩, rest)
  -- everything else begins a word, and so do letters of operators that do not stand alone
  else (wordToken (String.ofList (trim (c :: (takeWord rest).1))), (takeWord rest).2)

/-- The loop of `tokenize`; each turn reads a character. -/
def tokenizeFrom : ℕ → List Char → List Token
  | 0, _ => []
  | _ + 1, [] => []
  | n + 1, c :: rest => (nextToken c rest).1.toList ++ tokenizeFrom n (nextToken c rest).2

/-- `tokenize`, without the end token. -/
def tokenize (src : List Char) : List Token := tokenizeFrom src.length src

def endToken : Token := ⟨.end, ""⟩

theorem length_takeWord (text : List Char) : (takeWord text).2.length ≤ text.length := by
  induction text with
  | nil => exact Nat.le_refl 0
  | cons ch rest ih =>
    unfold takeWord
    split
    · exact Nat.le_refl _
    · exact Nat.le_succ_of_le ih

theorem length_ite {p : Prop} [Decidable p] {a b : Option Token × List Char} {n : ℕ}
    (ha : a.2.length ≤ n) (hb : b.2.length ≤ n) : (if p then a else b).2.length ≤ n := by
  split
  · exact ha
  · exact hb

theorem length_nextToken (c : Char) (rest : List Char) : (nextToken c rest).2.length ≤ rest.length := by
  have hdrop : ∀ n, (rest.drop n).length ≤ rest.length := by
    intro n
    rw [List.length_drop]
    omega
  unfold nextToken
  repeat' apply length_ite
  all_goals first | exact Nat.le_refl _ | exact hdrop _ | exact length_takeWord rest

theorem tokenizeFrom_eq {n : ℕ} : ∀ {m : ℕ} {text : List Char}, text.length ≤ n → text.length ≤ m →
    tokenizeFrom n text = tokenizeFrom m text := by
  induction n with
  | zero =>
    intro m text hn _
    obtain rfl := List.eq_nil_of_length_eq_zero (Nat.le_zero.mp hn)
    cases m <;> rfl
  | succ n ih =>
    intro m text hn hm
    cases text with
    | nil => cases m <;> rfl
    | cons c rest =>
      obtain ⟨m, rfl⟩ : ∃ k, m = k + 1 := ⟨m - 1, by simp only [List.length_cons] at hm; omega⟩
      have hle := length_nextToken c rest
      simp only [List.length_cons] at hn hm
      show _ ++ tokenizeFrom n _ = _ ++ tokenizeFrom m _
      rw [ih (m := m) (by omega) (by omega)]

/-! ## The parser -/

/-- The levels of precedence, from the loosest on. -/
inductive Level where
  | equivalence | implication | or | and | untilRelease | unary
  deriving DecidableEq, Repr

/-- The level of the operands. -/
def Level.tighter : Level → Level
  | equivalence => implication
  | implication => or
  | or => and
  | and => untilRelease
  | untilRelease => unary
  | unary => unary

/-- The operator of a token that the loop of a level takes. -/
def Level.operator : Level → TokenType → Option TemporalOp
  | equivalence, .equivalent => some .equivalent
  | or, .or => some .or
  | and, .and => some .and
  | untilRelease, .until => some .until
  | untilRelease, .release => some .release
  | untilRelease, .eu => some .eu
  | untilRelease, .au => some .au
  | _, _ => none

/-- The operators of `parse_unary`. -/
def prefixOperator : TokenType → Option TemporalOp
  | .globally => some .globally
  | .finally => some .finally
  | .next => some .next
  | .not => some .not
  | .ex => some .ex
  | .ax => some .ax
  | .ef => some .ef
  | .af => some .af
  | .eg => some .eg
  | .ag => some .ag
  | _ => none

/-- The path quantifier before a bracket. -/
def pathQuantifier (t : Token) : Option TemporalOp :=
  if t.type = .atom ∧ t.value = "E" then some .eu
  else if t.type = .atom ∧ t.value = "A" then some .au
  else none

/-- The formula of a path quantifier and what stands in its brackets. -/
def pathFormula (op : TemporalOp) (inner : PropertyAstNode) : PropertyAstNode :=
  match inner.op, inner.children with
  | .until, c :: d :: _ => .ofOp op [c, d]
  | _, _ => .ofOp op [inner]

/-- Skip a token of some type, if it is next. -/
def skip (type : TokenType) : List Token → List Token
  | t :: rest => if t.type = type then rest else t :: rest
  | [] => []

/-- The atoms at the front, and what follows them. -/
def atomRun : List Token → List Token × List Token
  | t :: rest => if t.type = .atom then (t :: (atomRun rest).1, (atomRun rest).2) else ([], t :: rest)
  | [] => ([], [])

/-- The text of an atom of several words. -/
def joinAtoms (first : Token) (more : List Token) : String :=
  more.foldl (fun text t => text ++ " " ++ t.value) first.value

mutual

/-- The functions `parse_equivalence` to `parse_unary`, by their level; `fuel` bounds the nesting of
calls. -/
def parseAt : ℕ → Level → List Token → Option (PropertyAstNode × List Token)
  | 0, _, _ => none
  -- right associative, so it has no loop
  | fuel + 1, .implication, tokens =>
    (parseAt fuel .or tokens).bind fun left =>
      match left.2 with
      | [] => some left
      | t :: rest =>
        if t.type = .implies then
          (parseAt fuel .implication rest).map fun right => (.binary .implies left.1 right.1, right.2)
        else some left
  | _ + 1, .unary, [] => some (.ofAtom "", [])
  | fuel + 1, .unary, t :: rest =>
    match prefixOperator t.type with
    | some op => (parseAt fuel .unary rest).map fun sub => (.unary op sub.1, sub.2)
    | none =>
      match pathQuantifier t, rest with
      | some op, b :: inside =>
        if b.type = .lBracket then
          (parseAt fuel .equivalence inside).map fun inner =>
            (pathFormula op inner.1, skip .rBracket inner.2)
        else parsePrimary fuel (t :: b :: inside)
      | _, rest => parsePrimary fuel (t :: rest)
  | fuel + 1, level, tokens =>
    (parseAt fuel level.tighter tokens).bind fun left => parseLoop fuel level left.1 left.2

/-- The loop of a level, with the formula read so far. -/
def parseLoop : ℕ → Level → PropertyAstNode → List Token → Option (PropertyAstNode × List Token)
  | 0, _, _, _ => none
  | _ + 1, _, left, [] => some (left, [])
  | fuel + 1, level, left, t :: rest =>
    match level.operator t.type with
    | none => some (left, t :: rest)
    | some op =>
      (parseAt fuel level.tighter rest).bind fun right =>
        parseLoop fuel level (.binary op left right.1) right.2

def parsePrimary : ℕ → List Token → Option (PropertyAstNode × List Token)
  | 0, _ => none
  | _ + 1, [] => some (.ofAtom "", [])
  | fuel + 1, t :: rest =>
    if t.type = .lParen then
      (parseAt fuel .equivalence rest).map fun inner => (inner.1, skip .rParen inner.2)
    else if t.type = .atom then
      some (.ofAtom (joinAtoms t (atomRun rest).1), (atomRun rest).2)
    -- no operand: an empty atom, and the token is left to the callers
    else some (.ofAtom "", t :: rest)

end

abbrev parseEquivalence (fuel : ℕ) := parseAt fuel .equivalence

abbrev parseImplication (fuel : ℕ) := parseAt fuel .implication

abbrev parseOr (fuel : ℕ) := parseAt fuel .or

abbrev parseAnd (fuel : ℕ) := parseAt fuel .and

abbrev parseUntilRelease (fuel : ℕ) := parseAt fuel .untilRelease

abbrev parseUnary (fuel : ℕ) := parseAt fuel .unary

/-- As many nested calls as a list of tokens can need. -/
def enough (tokens : List Token) : ℕ := 9 * tokens.length + 8

def parseFormula (tokens : List Token) : Option PropertyAstNode :=
  (parseEquivalence (enough tokens) tokens).map (·.1)

/-- `LtlPropertyParser::parse`. -/
def parse (rawFormula : String) : Option PropertyAstNode :=
  let expr := trim rawFormula.toList
  if expr.isEmpty then none else parseFormula (tokenize expr ++ [endToken])

/-! ## Enough fuel -/

/-- The levels whose operators are taken by a loop. -/
def Level.loops (level : Level) : Prop := level ≠ .implication ∧ level ≠ .unary

/-- How deep the calls for an operand of a level go. -/
def Level.depth : Level → ℕ
  | equivalence => 7
  | implication => 6
  | or => 5
  | and => 4
  | untilRelease => 3
  | unary => 2

theorem Level.depth_tighter {level : Level} (h : level.loops) :
    level.tighter.depth + 1 = level.depth ∧ 3 ≤ level.depth := by
  cases level with
  | implication => exact absurd rfl h.1
  | unary => exact absurd rfl h.2
  | equivalence | or | and | untilRelease => exact ⟨rfl, by decide⟩

theorem Level.depth_le (level : Level) : level.depth ≤ 7 := by
  cases level <;> decide

theorem parseAt_loops {level : Level} (h : level.loops) (n : ℕ) (tokens : List Token) : parseAt (n + 1) level tokens =
      (parseAt n level.tighter tokens).bind fun left => parseLoop n level left.1 left.2 := by
  cases level with
  | implication => exact absurd rfl h.1
  | unary => exact absurd rfl h.2
  | equivalence | or | and | untilRelease => simp only [parseAt]

theorem length_skip (type : TokenType) (tokens : List Token) : (skip type tokens).length ≤ tokens.length := by
  cases tokens with
  | nil => exact Nat.le_refl 0
  | cons t rest =>
    show (if t.type = type then rest else t :: rest).length ≤ _
    split
    · exact Nat.le_succ _
    · exact Nat.le_refl _

theorem length_atomRun (tokens : List Token) : (atomRun tokens).2.length ≤ tokens.length := by
  induction tokens with
  | nil => exact Nat.le_refl 0
  | cons t rest ih =>
    unfold atomRun
    split
    · exact Nat.le_succ_of_le ih
    · exact Nat.le_refl _

/-- A call returns a formula and leaves no more tokens than it got. -/
def Returns (tokens : List Token) (result : Option (PropertyAstNode × List Token)) : Prop :=
  ∃ r, result = some r ∧ r.2.length ≤ tokens.length

theorem returns_of_fuel (n : ℕ) :
    (∀ level tokens, 9 * tokens.length + level.depth ≤ n → Returns tokens (parseAt n level tokens)) ∧
    (∀ level left tokens, 9 * tokens.length + 1 ≤ n → Returns tokens (parseLoop n level left tokens)) ∧
    (∀ tokens, 9 * tokens.length + 1 ≤ n → Returns tokens (parsePrimary n tokens)) := by
  induction n with
  | zero =>
    refine ⟨fun level tokens h => ?_, fun _ _ tokens h => by omega, fun tokens h => by omega⟩
    cases level <;> simp only [Level.depth] at h <;> omega
  | succ n ih =>
    obtain ⟨ihAt, ihLoop, ihPrimary⟩ := ih
    refine ⟨fun level tokens h => ?_, fun level left tokens h => ?_, fun tokens h => ?_⟩
    · by_cases hloops : level.loops
      · obtain ⟨hdepth, hthree⟩ := level.depth_tighter hloops
        obtain ⟨l, hl, hllen⟩ := ihAt level.tighter tokens (by omega)
        obtain ⟨r, hr, hrlen⟩ := ihLoop level l.1 l.2 (by omega)
        refine ⟨r, ?_, by omega⟩
        rw [parseAt_loops hloops, hl]
        exact hr
      · cases level with
        | equivalence | or | and | untilRelease => exact absurd ⟨nofun, nofun⟩ hloops
        | implication =>
          simp only [Level.depth] at h
          obtain ⟨⟨left, rest⟩, hl, hllen⟩ := ihAt .or tokens (by simp only [Level.depth]; omega)
          cases rest with
          | nil => exact ⟨(left, []), by simp only [parseAt, hl, Option.bind_some], hllen⟩
          | cons t rest =>
            simp only [List.length_cons] at hllen
            by_cases ht : t.type = .implies
            · obtain ⟨r, hr, hrlen⟩ := ihAt .implication rest (by simp only [Level.depth]; omega)
              refine ⟨_, by simp only [parseAt, hl, Option.bind_some, if_pos ht, hr]; rfl, ?_⟩
              show r.2.length ≤ tokens.length
              omega
            · refine ⟨(left, t :: rest), by simp only [parseAt, hl, Option.bind_some, if_neg ht], ?_⟩
              simpa using hllen
        | unary =>
          simp only [Level.depth] at h
          cases tokens with
          | nil => exact ⟨_, rfl, Nat.le_refl 0⟩
          | cons t rest =>
            simp only [List.length_cons] at h
            have hprimary : Returns (t :: rest) (parsePrimary n (t :: rest)) :=
              ihPrimary (t :: rest) (by simp only [List.length_cons]; omega)
            unfold parseAt
            split
            · obtain ⟨r, hr, hrlen⟩ := ihAt .unary rest (by simp only [Level.depth]; omega)
              refine ⟨_, by rw [hr]; rfl, ?_⟩
              show r.2.length ≤ rest.length + 1
              omega
            · split
              · next b inside _ =>
                  simp only [List.length_cons] at h
                  split
                  · obtain ⟨r, hr, hrlen⟩ :=
                      ihAt .equivalence inside (by simp only [Level.depth]; omega)
                    refine ⟨_, by rw [hr]; rfl, ?_⟩
                    have hskip := length_skip .rBracket r.2
                    show (skip .rBracket r.2).length ≤ inside.length + 1 + 1
                    omega
                  · exact hprimary
              · exact hprimary
    · cases tokens with
      | nil => exact ⟨_, rfl, Nat.le_refl 0⟩
      | cons t rest =>
        simp only [List.length_cons] at h
        unfold parseLoop
        split
        · exact ⟨_, rfl, Nat.le_refl _⟩
        · have hdepth := level.tighter.depth_le
          obtain ⟨b, hb, hblen⟩ := ihAt level.tighter rest (by omega)
          obtain ⟨r, hr, hrlen⟩ := ihLoop level _ b.2 (by omega)
          refine ⟨r, by rw [hb]; exact hr, ?_⟩
          show r.2.length ≤ rest.length + 1
          omega
    · cases tokens with
      | nil => exact ⟨_, rfl, Nat.le_refl 0⟩
      | cons t rest =>
        simp only [List.length_cons] at h
        unfold parsePrimary
        split
        · obtain ⟨r, hr, hrlen⟩ := ihAt .equivalence rest (by simp only [Level.depth]; omega)
          refine ⟨_, by rw [hr]; rfl, ?_⟩
          have hskip := length_skip .rParen r.2
          show (skip .rParen r.2).length ≤ rest.length + 1
          omega
        · split
          · refine ⟨_, rfl, ?_⟩
            have hrun := length_atomRun rest
            show (atomRun rest).2.length ≤ rest.length + 1
            omega
          · exact ⟨_, rfl, Nat.le_refl _⟩

theorem exists_parseFormula (tokens : List Token) : ∃ ast, parseFormula tokens = some ast := by
  obtain ⟨r, hr, -⟩ := (returns_of_fuel (enough tokens)).1 .equivalence tokens (by
    unfold enough
    simp only [Level.depth]
    omega)
  exact ⟨r.1, by rw [parseFormula, parseEquivalence, hr]; rfl⟩

theorem succ_fuel (n : ℕ) :
    (∀ level tokens r, parseAt n level tokens = some r → parseAt (n + 1) level tokens = some r) ∧
    (∀ level left tokens r, parseLoop n level left tokens = some r →
      parseLoop (n + 1) level left tokens = some r) ∧
    (∀ tokens r, parsePrimary n tokens = some r → parsePrimary (n + 1) tokens = some r) := by
  induction n with
  | zero =>
    refine ⟨fun level tokens r h => ?_, fun _ _ tokens r h => ?_, fun tokens r h => ?_⟩
    · cases level <;> cases h
    · cases h
    · cases h
  | succ n ih =>
    obtain ⟨ihAt, ihLoop, ihPrimary⟩ := ih
    refine ⟨fun level tokens r h => ?_, fun level left tokens r h => ?_, fun tokens r h => ?_⟩
    · by_cases hloops : level.loops
      · rw [parseAt_loops hloops] at h ⊢
        obtain ⟨l, hl, hr⟩ := Option.bind_eq_some_iff.mp h
        exact Option.bind_eq_some_iff.mpr ⟨l, ihAt _ _ _ hl, ihLoop _ _ _ _ hr⟩
      · cases level with
        | equivalence | or | and | untilRelease => exact absurd ⟨nofun, nofun⟩ hloops
        | implication =>
          rw [parseAt] at h ⊢
          obtain ⟨⟨left, rest⟩, hl, hr⟩ := Option.bind_eq_some_iff.mp h
          refine Option.bind_eq_some_iff.mpr ⟨(left, rest), ihAt _ _ _ hl, ?_⟩
          cases rest with
          | nil => exact hr
          | cons t rest =>
            dsimp only at hr ⊢
            split at hr
            · next ht =>
                rw [if_pos ht]
                obtain ⟨q, hq, rfl⟩ := Option.map_eq_some_iff.mp hr
                exact Option.map_eq_some_iff.mpr ⟨q, ihAt _ _ _ hq, rfl⟩
            · next ht => rwa [if_neg ht]
        | unary =>
          cases tokens with
          | nil => exact h
          | cons t rest =>
            unfold parseAt at h ⊢
            split at h
            · obtain ⟨q, hq, rfl⟩ := Option.map_eq_some_iff.mp h
              exact Option.map_eq_some_iff.mpr ⟨q, ihAt _ _ _ hq, rfl⟩
            · split at h
              · split at h
                · next ht =>
                    rw [if_pos ht]
                    obtain ⟨q, hq, rfl⟩ := Option.map_eq_some_iff.mp h
                    exact Option.map_eq_some_iff.mpr ⟨q, ihAt _ _ _ hq, rfl⟩
                · next ht =>
                    rw [if_neg ht]
                    exact ihPrimary _ _ h
              · exact ihPrimary _ _ h
    · cases tokens with
      | nil => exact h
      | cons t rest =>
        unfold parseLoop at h ⊢
        split at h
        · exact h
        · obtain ⟨b, hb, hr⟩ := Option.bind_eq_some_iff.mp h
          exact Option.bind_eq_some_iff.mpr ⟨b, ihAt _ _ _ hb, ihLoop _ _ _ _ hr⟩
    · cases tokens with
      | nil => exact h
      | cons t rest =>
        unfold parsePrimary at h ⊢
        split at h
        · next ht =>
            rw [if_pos ht]
            obtain ⟨q, hq, rfl⟩ := Option.map_eq_some_iff.mp h
            exact Option.map_eq_some_iff.mpr ⟨q, ihAt _ _ _ hq, rfl⟩
        · next ht =>
            rw [if_neg ht]
            exact h

theorem parseAt_mono {n m : ℕ} (h : n ≤ m) {level : Level} {tokens : List Token}
    {r : PropertyAstNode × List Token} (hr : parseAt n level tokens = some r) :
    parseAt m level tokens = some r := by
  induction h with
  | refl => exact hr
  | step _ ih => exact (succ_fuel _).1 _ _ _ ih

theorem parseLoop_mono {n m : ℕ} (h : n ≤ m) {level : Level} {left : PropertyAstNode} {tokens : List Token}
    {r : PropertyAstNode × List Token} (hr : parseLoop n level left tokens = some r) :
    parseLoop m level left tokens = some r := by
  induction h with
  | refl => exact hr
  | step _ ih => exact (succ_fuel _).2.1 _ _ _ _ ih

/-! ## The grammar -/

/-- The formulas of a level, with the tokens that they account for. -/
inductive Derives : Level → List Token → PropertyAstNode → Prop
  | operand {level : Level} {tokens : List Token} {a : PropertyAstNode} :
      level ≠ .unary → Derives level.tighter tokens a → Derives level tokens a
  | infixLeft {level : Level} {op : TemporalOp} {t : Token} {l r : List Token} {a b : PropertyAstNode} :
      Derives level l a → level.operator t.type = some op → Derives level.tighter r b →
        Derives level (l ++ t :: r) (.binary op a b)
  | implies {t : Token} {l r : List Token} {a b : PropertyAstNode} :
      Derives .or l a → t.type = .implies → Derives .implication r b →
        Derives .implication (l ++ t :: r) (.binary .implies a b)
  | prefixed {op : TemporalOp} {t : Token} {tokens : List Token} {a : PropertyAstNode} :
      prefixOperator t.type = some op → Derives .unary tokens a → Derives .unary (t :: tokens) (.unary op a)
  | path {op : TemporalOp} {t b b' : Token} {tokens : List Token} {a : PropertyAstNode} :
      pathQuantifier t = some op → b.type = .lBracket → Derives .equivalence tokens a →
        b'.type = .rBracket → Derives .unary (t :: b :: tokens ++ [b']) (pathFormula op a)
  | parens {p p' : Token} {tokens : List Token} {a : PropertyAstNode} :
      p.type = .lParen → Derives .equivalence tokens a → p'.type = .rParen →
        Derives .unary (p :: tokens ++ [p']) a
  | atoms {t : Token} {more : List Token} :
      t.type = .atom → (∀ u ∈ more, u.type = .atom) →
        Derives .unary (t :: more) (.ofAtom (joinAtoms t more))

/-- How tightly a token binds what stands before it; what begins an operand binds tightest. -/
def TokenType.binding : TokenType → ℕ
  | .rParen | .rBracket | .end => 0
  | .equivalent => 1
  | .implies => 2
  | .or => 3
  | .and => 4
  | .until | .release | .eu | .au => 5
  | _ => 6

/-- A token that binds less tightly ends a formula of the level. -/
def Level.bound : Level → ℕ
  | equivalence => 1
  | implication => 2
  | or => 3
  | and => 4
  | untilRelease => 5
  | unary => 6

/-- What follows does not go on with a formula that ends below the bound. -/
def Stops (bound : ℕ) (rest : List Token) : Prop := ∀ t ∈ rest.head?, t.type.binding < bound

theorem binding_of_operator {level : Level} {type : TokenType} {op : TemporalOp}
    (h : level.operator type = some op) : level.loops ∧ type.binding = level.bound := by
  cases level <;> cases type <;> first | (cases h; done) | exact ⟨⟨nofun, nofun⟩, rfl⟩

theorem operator_eq_none {level : Level} {type : TokenType} (h : type.binding < level.bound) :
    level.operator type = none := by
  cases hop : level.operator type with
  | none => rfl
  | some op =>
    obtain ⟨-, hbinding⟩ := binding_of_operator hop
    omega

theorem Level.bound_tighter {level : Level} (h : level ≠ .unary) : level.tighter.bound = level.bound + 1 := by
  cases level with
  | unary => exact absurd rfl h
  | equivalence | implication | or | and | untilRelease => rfl

theorem Stops.mono {m n : ℕ} {rest : List Token} (h : Stops m rest) (hmn : m ≤ n) : Stops n rest :=
  fun t ht => Nat.lt_of_lt_of_le (h t ht) hmn

/-! ## The parser reads the formulas of the grammar -/

/-- With some fuel, and so with more, a call gives a result. -/
def Parses (level : Level) (tokens : List Token) (r : PropertyAstNode × List Token) : Prop :=
  ∃ n, parseAt n level tokens = some r

/-- With some fuel the loop gives a result. -/
def Loops (level : Level) (left : PropertyAstNode) (tokens : List Token)
    (r : PropertyAstNode × List Token) : Prop :=
  ∃ n, parseLoop n level left tokens = some r

section Rules

variable {level : Level} {a b : PropertyAstNode} {t : Token} {tokens rest : List Token}
  {r : PropertyAstNode × List Token}

theorem Loops.stop (h : Stops level.bound rest) : Loops level a rest (a, rest) := by
  refine ⟨1, ?_⟩
  cases rest with
  | nil => rfl
  | cons t rest =>
    unfold parseLoop
    rw [operator_eq_none (h t rfl)]

variable {op : TemporalOp}

theorem Loops.next (hop : level.operator t.type = some op)
    (hb : Parses level.tighter tokens (b, rest)) (hrest : Loops level (.binary op a b) rest r) :
    Loops level a (t :: tokens) r := by
  obtain ⟨n, hn⟩ := hb
  obtain ⟨m, hm⟩ := hrest
  refine ⟨max n m + 1, ?_⟩
  unfold parseLoop
  rw [hop]
  show (parseAt (max n m) level.tighter tokens).bind _ = some r
  rw [parseAt_mono (Nat.le_max_left n m) hn]
  exact parseLoop_mono (Nat.le_max_right n m) hm

theorem Parses.loop (h : level.loops) (ha : Parses level.tighter tokens (a, rest))
    (hrest : Loops level a rest r) : Parses level tokens r := by
  obtain ⟨n, hn⟩ := ha
  obtain ⟨m, hm⟩ := hrest
  refine ⟨max n m + 1, ?_⟩
  rw [parseAt_loops h, parseAt_mono (Nat.le_max_left n m) hn]
  exact parseLoop_mono (Nat.le_max_right n m) hm

theorem Parses.implies (ht : t.type = .implies) (ha : Parses .or tokens (a, t :: rest))
    (hb : Parses .implication rest r) :
    Parses .implication tokens (.binary .implies a r.1, r.2) := by
  obtain ⟨n, hn⟩ := ha
  obtain ⟨m, hm⟩ := hb
  refine ⟨max n m + 1, ?_⟩
  rw [parseAt, parseAt_mono (Nat.le_max_left n m) hn, Option.bind_some]
  dsimp only
  rw [if_pos ht, parseAt_mono (Nat.le_max_right n m) hm]
  rfl

theorem Parses.implication (ha : Parses .or tokens (a, rest)) (h : Stops 2 rest) :
    Parses .implication tokens (a, rest) := by
  obtain ⟨n, hn⟩ := ha
  refine ⟨n + 1, ?_⟩
  rw [parseAt, hn, Option.bind_some]
  cases rest with
  | nil => rfl
  | cons t rest =>
    have ht : t.type ≠ .implies := by
      intro ht
      have hlt := h t rfl
      rw [ht] at hlt
      exact absurd hlt (by decide)
    dsimp only
    rw [if_neg ht]

theorem Parses.prefixed (hop : prefixOperator t.type = some op)
    (h : Parses .unary tokens (a, rest)) : Parses .unary (t :: tokens) (.unary op a, rest) := by
  obtain ⟨n, hn⟩ := h
  refine ⟨n + 1, ?_⟩
  unfold parseAt
  rw [hop]
  show (parseAt n .unary tokens).map _ = _
  rw [hn]
  rfl

theorem prefixOperator_of_pathQuantifier (h : pathQuantifier t = some op) : prefixOperator t.type = none := by
  unfold pathQuantifier at h
  split at h
  · next hE => rw [hE.1]; rfl
  · split at h
    · next hA => rw [hA.1]; rfl
    · cases h

theorem Parses.path {bracket bracket' : Token} (hop : pathQuantifier t = some op)
    (hbracket : bracket.type = .lBracket) (hbracket' : bracket'.type = .rBracket)
    (h : Parses .equivalence tokens (a, bracket' :: rest)) :
    Parses .unary (t :: bracket :: tokens) (pathFormula op a, rest) := by
  obtain ⟨n, hn⟩ := h
  refine ⟨n + 1, ?_⟩
  unfold parseAt
  rw [prefixOperator_of_pathQuantifier hop]
  dsimp only
  rw [hop]
  dsimp only
  rw [if_pos hbracket, hn]
  show some (pathFormula op a, if bracket'.type = .rBracket then rest else bracket' :: rest) = _
  rw [if_pos hbracket']

theorem Parses.primary {n : ℕ} (hnone : prefixOperator t.type = none)
    (hbracket : ∀ u ∈ tokens.head?, u.type ≠ .lBracket)
    (h : parsePrimary n (t :: tokens) = some r) : Parses .unary (t :: tokens) r := by
  refine ⟨n + 1, ?_⟩
  unfold parseAt
  rw [hnone]
  dsimp only
  split
  · next u inside _ =>
      rw [if_neg (hbracket u rfl)]
      exact h
  · exact h

theorem atomRun_append (hmore : ∀ u ∈ tokens, u.type = .atom) (h : ∀ u ∈ rest.head?, u.type ≠ .atom) :
    atomRun (tokens ++ rest) = (tokens, rest) := by
  induction tokens with
  | nil =>
    cases rest with
    | nil => rfl
    | cons u rest =>
      show (if u.type = .atom then _ else _) = _
      rw [if_neg (h u rfl)]
  | cons t tokens ih =>
    rw [List.cons_append, atomRun, if_pos (hmore t List.mem_cons_self),
      ih fun u hu => hmore u (List.mem_cons_of_mem _ hu)]

end Rules

/-! ## What a call reads -/

/-- A formula is read off the front of the tokens, up to what ends it. At a level with a loop, reading
its tokens leaves the loop to go on with it. -/
structure ReadsAt (level : Level) (tokens : List Token) (a : PropertyAstNode) : Prop where
  loop : level.loops → ∀ rest r, Stops level.tighter.bound rest → Loops level a rest r →
    Parses level (tokens ++ rest) r
  stop : ∀ rest, Stops level.bound rest → Parses level (tokens ++ rest) (a, rest)

section ReadsAt

variable {level : Level} {tokens l r : List Token} {t : Token} {a b : PropertyAstNode}

theorem ReadsAt.of_loop (hloops : level.loops)
    (h : ∀ rest r, Stops level.tighter.bound rest → Loops level a rest r → Parses level (tokens ++ rest) r) :
    ReadsAt level tokens a where
  loop := fun _ => h
  stop := by
    intro rest hrest
    have hbound := Level.bound_tighter hloops.2
    exact h rest (a, rest) (hrest.mono (by omega)) (.stop hrest)

theorem ReadsAt.of_unary (h : ∀ rest, Stops 6 rest → Parses .unary (tokens ++ rest) (a, rest)) :
    ReadsAt .unary tokens a where
  loop := fun h => absurd rfl h.2
  stop := h

theorem ReadsAt.operand (hne : level ≠ .unary) (h : ReadsAt level.tighter tokens a) : ReadsAt level tokens a := by
  by_cases hloops : level.loops
  · exact .of_loop hloops fun rest r hrest hr => .loop hloops (h.stop rest hrest) hr
  · obtain rfl : level = .implication := by
      by_contra himp
      exact hloops ⟨himp, hne⟩
    exact ⟨fun h => absurd h hloops, fun rest hrest => .implication (h.stop rest (hrest.mono (by decide))) hrest⟩

theorem ReadsAt.infixLeft {op : TemporalOp} (hl : ReadsAt level l a) (hop : level.operator t.type = some op)
    (hr : ReadsAt level.tighter r b) : ReadsAt level (l ++ t :: r) (.binary op a b) := by
  obtain ⟨hloops, hbinding⟩ := binding_of_operator hop
  have hbound := Level.bound_tighter hloops.2
  refine .of_loop hloops fun rest res hrest hres => ?_
  rw [List.append_assoc, List.cons_append]
  refine hl.loop hloops (t :: (r ++ rest)) res ?_ (.next hop (hr.stop rest hrest) hres)
  intro u hu
  obtain rfl := Option.some.inj hu
  omega

theorem ReadsAt.implies (hl : ReadsAt .or l a) (ht : t.type = .implies) (hr : ReadsAt .implication r b) :
    ReadsAt .implication (l ++ t :: r) (.binary .implies a b) := by
  refine ⟨fun h => absurd rfl h.1, fun rest hrest => ?_⟩
  rw [List.append_assoc, List.cons_append]
  refine .implies ht (hl.stop _ ?_) (hr.stop rest hrest)
  intro u hu
  obtain rfl := Option.some.inj hu
  rw [ht]
  decide

theorem ReadsAt.prefixed {op : TemporalOp} (hop : prefixOperator t.type = some op) (h : ReadsAt .unary tokens a) :
    ReadsAt .unary (t :: tokens) (.unary op a) :=
  .of_unary fun rest hrest => .prefixed hop (h.stop rest hrest)

theorem ReadsAt.path {op : TemporalOp} {bracket bracket' : Token} (hop : pathQuantifier t = some op)
    (hbracket : bracket.type = .lBracket) (h : ReadsAt .equivalence tokens a) (hbracket' : bracket'.type = .rBracket) :
    ReadsAt .unary (t :: bracket :: tokens ++ [bracket']) (pathFormula op a) := by
  refine .of_unary fun rest _ => ?_
  have hinner := h.stop (bracket' :: rest) fun u hu => by
    obtain rfl := Option.some.inj hu
    rw [hbracket']
    decide
  rw [List.append_assoc]
  exact .path hop hbracket hbracket' hinner

theorem ReadsAt.parens {paren paren' : Token} (hparen : paren.type = .lParen) (h : ReadsAt .equivalence tokens a)
    (hparen' : paren'.type = .rParen) : ReadsAt .unary (paren :: tokens ++ [paren']) a := by
  refine .of_unary fun rest _ => ?_
  obtain ⟨n, hn⟩ := h.stop (paren' :: rest) fun u hu => by
    obtain rfl := Option.some.inj hu
    rw [hparen']
    decide
  rw [List.append_assoc]
  show Parses .unary (paren :: (tokens ++ paren' :: rest)) (a, rest)
  have hquantifier : pathQuantifier paren = none := by
    unfold pathQuantifier
    rw [hparen]
    simp
  refine ⟨n + 2, ?_⟩
  unfold parseAt
  rw [hparen]
  show (match pathQuantifier paren, tokens ++ paren' :: rest with
    | some op, b :: inside => _
    | _, rest => parsePrimary (n + 1) (paren :: rest)) = _
  rw [hquantifier]
  show parsePrimary (n + 1) (paren :: (tokens ++ paren' :: rest)) = _
  unfold parsePrimary
  rw [if_pos hparen, hn]
  show some (a, if paren'.type = .rParen then rest else paren' :: rest) = _
  rw [if_pos hparen']

theorem ReadsAt.atoms (ht : t.type = .atom) (hmore : ∀ u ∈ tokens, u.type = .atom) :
    ReadsAt .unary (t :: tokens) (.ofAtom (joinAtoms t tokens)) := by
  refine .of_unary fun rest hrest => ?_
  have hnot : ∀ u ∈ rest.head?, u.type ≠ .atom ∧ u.type ≠ .lBracket := by
    intro u hu
    have hlt := hrest u hu
    constructor <;> intro htype <;> rw [htype] at hlt <;> exact absurd hlt (by decide)
  refine .primary (n := 1) (by rw [ht]; rfl) ?_ ?_
  · intro u hu
    cases tokens with
    | nil => exact (hnot u hu).2
    | cons v more =>
      obtain rfl := Option.some.inj hu
      rw [hmore v List.mem_cons_self]
      exact nofun
  · show (if t.type = .lParen then _ else if t.type = .atom then _ else _) = _
    rw [if_neg (by rw [ht]; exact nofun), if_pos ht]
    have hrun := atomRun_append hmore fun u hu => (hnot u hu).1
    exact congrArg (fun run => some (PropertyAstNode.ofAtom (joinAtoms t run.1), run.2)) hrun

theorem ReadsAt.parseFormula (h : ReadsAt .equivalence tokens a) :
    LtlParser.parseFormula (tokens ++ [endToken]) = some a := by
  obtain ⟨n, hn⟩ := h.stop [endToken] fun u hu => by
    obtain rfl := Option.some.inj hu
    decide
  obtain ⟨r, hr, -⟩ := (returns_of_fuel (enough (tokens ++ [endToken]))).1 .equivalence
    (tokens ++ [endToken]) (by
      unfold enough
      simp only [Level.depth]
      omega)
  have hn' := parseAt_mono (Nat.le_max_left n (enough (tokens ++ [endToken]))) hn
  have hr' := parseAt_mono (Nat.le_max_right n (enough (tokens ++ [endToken]))) hr
  rw [hn'] at hr'
  obtain rfl := Option.some.inj hr'
  rw [LtlParser.parseFormula, parseEquivalence, hr]
  rfl

end ReadsAt

theorem Derives.readsAt {level : Level} {tokens : List Token} {a : PropertyAstNode}
    (h : Derives level tokens a) : ReadsAt level tokens a := by
  induction h with
  | operand hne _ ih => exact .operand hne ih
  | infixLeft _ hop _ ihl ihr => exact .infixLeft ihl hop ihr
  | implies _ ht _ ihl ihr => exact .implies ihl ht ihr
  | prefixed hop _ ih => exact .prefixed hop ih
  | path hop hb _ hb' ih => exact .path hop hb ih hb'
  | parens hp _ hp' ih => exact .parens hp ih hp'
  | atoms ht hmore => exact .atoms ht hmore

theorem Derives.parseFormula {tokens : List Token} {a : PropertyAstNode}
    (h : Derives .equivalence tokens a) : parseFormula (tokens ++ [endToken]) = some a :=
  h.readsAt.parseFormula

/-! ## What is read -/

/-- The tokens of a formula text. -/
def tokensOf (rawFormula : String) : List Token := tokenize (trim rawFormula.toList)

/-- The formula that is returned, if any, accounts for all the tokens. -/
def ReadsAll (rawFormula : String) : Prop :=
  ∀ ast, parse rawFormula = some ast → Derives .equivalence (tokensOf rawFormula) ast

/-- The texts that are read completely are those without a formula and those of the grammar. -/
theorem readsAll_iff (rawFormula : String) : ReadsAll rawFormula ↔ trim rawFormula.toList = [] ∨
      ∃ ast, Derives .equivalence (tokensOf rawFormula) ast := by
  by_cases hempty : trim rawFormula.toList = []
  · refine ⟨fun _ => .inl hempty, fun _ ast hast => ?_⟩
    unfold parse at hast
    rw [hempty] at hast
    cases hast
  · have hparse : parse rawFormula = parseFormula (tokensOf rawFormula ++ [endToken]) := by
      have hne : (trim rawFormula.toList).isEmpty = false := by simpa using hempty
      show (if (trim rawFormula.toList).isEmpty then none else _) = _
      rw [hne]
      rfl
    constructor
    · intro h
      obtain ⟨ast, hast⟩ := exists_parseFormula (tokensOf rawFormula ++ [endToken])
      exact .inr ⟨ast, h ast (hparse.trans hast)⟩
    · rintro (h | ⟨a, ha⟩) ast hast
      · exact absurd h hempty
      · rw [hparse, ha.parseFormula] at hast
        obtain rfl := Option.some.inj hast
        exact ha

/-! ## A text that is not read completely -/

/-- No word is followed by a negation. -/
def Apart (t u : Token) : Prop := ¬(t.type = .atom ∧ u.type = .not)

/-- In the tokens of a formula no word is followed by a negation, so that a text which compares a word
with `!=` has no formula. -/
theorem Derives.isChain {level : Level} {tokens : List Token} {a : PropertyAstNode}
    (h : Derives level tokens a) : tokens.IsChain Apart := by
  have hafter : ∀ {t : Token} {l : List Token}, t.type ≠ .atom → l.IsChain Apart →
      (t :: l).IsChain Apart :=
    fun ht hl => List.isChain_cons.mpr ⟨fun _ _ h => ht h.1, hl⟩
  have hbefore : ∀ {t : Token} {l r : List Token}, t.type ≠ .not → l.IsChain Apart →
      (t :: r).IsChain Apart → (l ++ t :: r).IsChain Apart := by
    intro t l r ht hl hr
    refine List.isChain_append.mpr ⟨hl, hr, fun _ _ u hu h => ?_⟩
    obtain rfl := Option.some.inj hu
    exact ht h.2
  induction h with
  | operand _ _ ih => exact ih
  | @infixLeft level op t _ _ _ _ _ hop _ ihl ihr =>
    have htype : t.type ≠ .atom ∧ t.type ≠ .not := by
      constructor <;> intro h <;> rw [h] at hop <;> cases level <;> cases hop
    exact hbefore htype.2 ihl (hafter htype.1 ihr)
  | @implies t _ _ _ _ _ ht _ ihl ihr =>
    have htype : t.type ≠ .atom ∧ t.type ≠ .not := by rw [ht]; exact ⟨nofun, nofun⟩
    exact hbefore htype.2 ihl (hafter htype.1 ihr)
  | @prefixed op t _ _ hop _ ih =>
    have htype : t.type ≠ .atom := fun h => by rw [h] at hop; cases hop
    exact hafter htype ih
  | @path op t b b' tokens _ _ hb _ hb' ih =>
    have hclosed : (b :: tokens).IsChain Apart := hafter (by rw [hb]; exact nofun) ih
    have hall : (b :: tokens ++ [b']).IsChain Apart :=
      hbefore (by rw [hb']; exact nofun) hclosed (List.isChain_singleton b')
    refine List.isChain_cons.mpr ⟨fun u hu h => ?_, hall⟩
    obtain rfl := Option.some.inj hu
    rw [hb] at h
    exact nomatch h.2
  | @parens p p' tokens _ hp _ hp' ih =>
    have hopened : (p :: tokens).IsChain Apart := hafter (by rw [hp]; exact nofun) ih
    exact hbefore (by rw [hp']; exact nofun) hopened (List.isChain_singleton p')
  | @atoms t more ht hmore =>
    have hall : ∀ u ∈ t :: more, u.type = .atom := by
      intro u hu
      rcases List.mem_cons.mp hu with rfl | hu
      · exact ht
      · exact hmore u hu
    exact List.Pairwise.isChain (List.pairwise_of_forall_mem_list fun u _ v hv h => by
      rw [hall v hv] at h
      exact nomatch h.2)

/-- The text compares two names, but the parser stops after the first one. -/
theorem not_readsAll_notEqual : parse "a != b" = some (.ofAtom "a") ∧ ¬ReadsAll "a != b" := by
  have hparse : parse "a != b" = some (.ofAtom "a") := rfl
  refine ⟨hparse, fun h => ?_⟩
  have htokens : tokensOf "a != b" = [⟨.atom, "a"⟩, ⟨.not, "!"⟩, ⟨.atom, "="⟩, ⟨.atom, "b"⟩] := by decide
  have hchain := (h _ hparse).isChain
  rw [htokens] at hchain
  exact (List.isChain_cons.mp hchain).1 _ rfl ⟨rfl, rfl⟩

end Fsmc.Frontend.LtlParser
