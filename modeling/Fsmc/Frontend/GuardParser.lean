/-
# Fsmc.Frontend.GuardParser — reading guard texts.

A guard text is split into connectives, brackets and atoms; an atom goes on until a connective or a bracket
that it has not opened, and never starts with a bracket. The parser returns what it has read when it meets a
token that goes on with nothing, and does not look at the tokens that are left.
-/
import Fsmc.Frontend.GuardNames
import Fsmc.Frontend.LtlParser
import Fsmc.Frontend.PrintedGuards

namespace Fsmc.Frontend.GuardParser

open Fsmc.Cpp Fsmc.Ir Fsmc.Frontend.GuardNames Fsmc.Frontend.PrintedGuards

/-! ## Tokens -/

/-- `Token`; the end is the end of the list. -/
inductive Token where
  | ident (value raw : String)
  | and | or | not | lParen | rParen
  deriving DecidableEq, Repr

/-- Where the tokenizer is: between tokens, behind a first `&` or `|`, or in an atom at a bracket depth. -/
inductive Mode where
  | outside
  | after (c : Char)
  | atom (acc : List Char) (depth : ℕ)
  deriving DecidableEq, Repr

/-- The token of an atom, unless no name is left of it. -/
def atomToken (acc : List Char) : List Token :=
  let raw := String.ofList (LtlParser.trim acc)
  if sanitizeIdentifier raw = "" then [] else [.ident (sanitizeIdentifier raw) raw]

/-- A character between tokens. -/
def stepOutside (c : Char) : List Token × Mode :=
  if isSpace c then ([], .outside)
  else if c = '&' then ([.and], .after '&')
  else if c = '|' then ([.or], .after '|')
  else if c = '!' then ([.not], .outside)
  else if c = '(' then ([.lParen], .outside)
  else if c = ')' then ([.rParen], .outside)
  else ([], .atom [c] 0)

/-- The next character: the tokens that it ends, and where the tokenizer is behind it. -/
def step : Mode → Char → List Token × Mode
  | .outside, c => stepOutside c
  | .after d, c => if c = d then ([], .outside) else stepOutside c
  | .atom acc depth, c =>
    if c = '(' then ([], .atom (acc ++ [c]) (depth + 1))
    else if c = ')' then
      -- a bracket that the atom has not opened ends it and is a token itself
      if depth = 0 then (atomToken acc ++ (stepOutside c).1, (stepOutside c).2)
      else ([], .atom (acc ++ [c]) (depth - 1))
    else if depth = 0 ∧ (c = '&' ∨ c = '|') then (atomToken acc ++ (stepOutside c).1, (stepOutside c).2)
    else ([], .atom (acc ++ [c]) depth)

/-- The tokens of a text, and where the tokenizer is behind it. -/
def scan : Mode → List Char → List Token × Mode
  | m, [] => ([], m)
  | m, c :: cs => ((step m c).1 ++ (scan (step m c).2 cs).1, (scan (step m c).2 cs).2)

/-- The token that the end of the text ends. -/
def closeMode : Mode → List Token
  | .atom acc _ => atomToken acc
  | _ => []

def tokenize (text : List Char) : List Token :=
  (scan .outside text).1 ++ closeMode (scan .outside text).2

/-! ## Parsing -/

/-- The term that is built; `empty` is the empty text. -/
inductive Term where
  | empty
  | atom (name raw : String)
  | not (t : Term)
  | and (l r : Term)
  | or (l r : Term)
  deriving DecidableEq, Repr

def Term.cppType : Term → String
  | empty => ""
  | atom name _ => name
  | not t => "fsm::not_<" ++ t.cppType ++ ">"
  | and l r => "fsm::and_<" ++ l.cppType ++ ", " ++ r.cppType ++ ">"
  | or l r => "fsm::or_<" ++ l.cppType ++ ", " ++ r.cppType ++ ">"

mutual

/-- `parse_or`, with the number of calls that it may nest. -/
def parseOr : ℕ → List Token → Term × List Token
  | 0, ts => (.empty, ts)
  | f + 1, ts => orLoop f (parseAnd f ts).1 (parseAnd f ts).2

def orLoop : ℕ → Term → List Token → Term × List Token
  | f + 1, l, .or :: ts => orLoop f (.or l (parseAnd f ts).1) (parseAnd f ts).2
  | _, l, ts => (l, ts)

def parseAnd : ℕ → List Token → Term × List Token
  | 0, ts => (.empty, ts)
  | f + 1, ts => andLoop f (parseUnary f ts).1 (parseUnary f ts).2

def andLoop : ℕ → Term → List Token → Term × List Token
  | f + 1, l, .and :: ts => andLoop f (.and l (parseUnary f ts).1) (parseUnary f ts).2
  | _, l, ts => (l, ts)

def parseUnary : ℕ → List Token → Term × List Token
  | f + 1, .not :: ts => (.not (parseUnary f ts).1, (parseUnary f ts).2)
  | f + 1, ts => parsePrimary f ts
  | 0, ts => (.empty, ts)

/-- `parse_primary`; a bracket that is not closed is no error. -/
def parsePrimary : ℕ → List Token → Term × List Token
  | f + 1, .lParen :: ts => ((parseOr f ts).1,
    match (parseOr f ts).2 with
    -- a closing bracket that is missing is not reported
    | .rParen :: rest => rest
    | rest => rest)
  | _ + 1, .ident name raw :: ts => (.atom name raw, ts)
  | _, ts => (.empty, ts)

end

/-- What is parsed: the term, and the tokens that nothing has looked at. -/
structure Parsed where
  term : Term
  left : List Token := []

def parseExpression (text : String) : Parsed :=
  let toks := tokenize text.toList
  let result := parseOr (4 * toks.length + 4) toks
  match result.1 with
  | .empty => ⟨.atom (sanitizeIdentifier text) text, result.2⟩
  | t => ⟨t, result.2⟩

/-- The words that stand for a connective are replaced, where no letter stands next to them. -/
def replaceFrom (words : List String) (symbol : List Char) : List Char → List Char → List Char
  | [], run => if String.ofList run ∈ words then symbol else run
  | c :: cs, run =>
    if isIdentChar c then replaceFrom words symbol cs (run ++ [c])
    else (if String.ofList run ∈ words then symbol else run) ++ c :: replaceFrom words symbol cs []

/-- `std::regex_replace` of words. -/
def replaceWords (words : List String) (symbol : String) (text : String) : String :=
  String.ofList (replaceFrom words symbol.toList text.toList [])

/-- The place of the first comma outside angle brackets. -/
def commaAt : List Char → ℤ → Option ℕ
  | [], _ => none
  | c :: cs, depth =>
    if c = '<' then (commaAt cs (depth + 1)).map (· + 1)
    else if c = '>' then (commaAt cs (depth - 1)).map (· + 1)
    else if c = ',' ∧ depth = 0 then some 0
    else (commaAt cs depth).map (· + 1)

/-- The text between a prefix and the last character. -/
def innerOf (length : ℕ) (expr : String) : String := String.ofList ((expr.toList.drop length).dropLast)

def bracketIf (b : Bool) (text : String) : String := if b then "(" ++ text ++ ")" else text

/-- `to_diagram_string` without named guards; a text is shorter than the one it is a part of. -/
def toDiagramString : ℕ → String → String
  | 0, raw => raw
  | f + 1, raw =>
    let expr := String.ofList (LtlParser.trim raw.toList)
    -- `starts_with(trim(s), p)`
    let startsTrimmed := fun (s p : String) => startsWith (String.ofList (LtlParser.trim s.toList)) p
    let closed := expr.toList.getLast? = some '>'
    if expr = "" then ""
    else if find expr "fsm::" = none then expr
    else if startsWith expr "fsm::not_<" && closed then
      let inner := innerOf 10 expr
      "!" ++ bracketIf (startsTrimmed inner "fsm::and_<" || startsTrimmed inner "fsm::or_<")
        (toDiagramString f inner)
    else if startsWith expr "fsm::and_<" && closed then
      match commaAt (innerOf 10 expr).toList 0 with
      | some i =>
        let l := substrTo (innerOf 10 expr) i
        let r := substrFrom (innerOf 10 expr) (i + 1)
        bracketIf (startsTrimmed l "fsm::or_<") (toDiagramString f l) ++ " && " ++
          bracketIf (startsTrimmed r "fsm::or_<") (toDiagramString f r)
      | none => expr
    else if startsWith expr "fsm::or_<" && closed then
      match commaAt (innerOf 9 expr).toList 0 with
      | some i => toDiagramString f (substrTo (innerOf 9 expr) i) ++ " || " ++
          toDiagramString f (substrFrom (innerOf 9 expr) (i + 1))
      | none => expr
    else expr

/-- The text that is parsed: connectives are written as operators. -/
def normalized (raw : String) : String :=
  let expr := toDiagramString (raw.length + 1) raw
  let expr := replaceWords ["not", "NOT"] "!" expr
  let expr := replaceWords ["and", "AND"] "&&" expr
  replaceWords ["or", "OR"] "||" expr

/-- A character that sends a text to the parser. -/
def isLogical (c : Char) : Bool := c = '&' || c = '|' || c = '!' || c = '(' || c = ')'

/-- `GuardExpressionParser::parse`, `none` where the text has no term. -/
def parse (raw : String) : Option Parsed :=
  let expr := normalized raw
  if toDiagramString (raw.length + 1) raw = "" then none
  else if !expr.toList.any isLogical then
    if sanitizeIdentifier expr = "" then none else some ⟨.atom (sanitizeIdentifier expr) expr, []⟩
  else some (parseExpression expr)

/-! ## What a term means -/

/-- The Boolean function of a term, with each atom read as its raw text. -/
noncomputable def denote (M : Meaning) : Term → Bool
  | .empty => false
  | .atom _ raw => textHolds .cpp M raw
  | .not t => !denote M t
  | .and l r => denote M l && denote M r
  | .or l r => denote M l || denote M r

/-- The words that stand for an operator are that operator. -/
def asOperator : Tok → Tok
  | .word w =>
    if w ∈ ["not", "NOT"] then .op "!"
    else if w ∈ ["and", "AND"] then .op "&&"
    else if w ∈ ["or", "OR"] then .op "||"
    else .word w
  | t => t

/-- The tokens of a guard text. -/
def guardLex (raw : String) : List Tok := (lex raw).map asOperator

/-- A text is parsed to the end, and to a term that means what the text means. -/
def Faithful (raw : String) : Prop :=
  ∀ p, parse raw = some p → p.left = [] ∧
    ∀ e, Reads .cpp none 1 (guardLex raw) e [] → ∀ M, denote M p.term = truth .cpp M e

/-! ## Texts of the guard grammar -/

/-- A character that is trimmed. -/
def isBlank (c : Char) : Bool := c = ' ' || c = '\t' || c = '\r' || c = '\n'

/-- The level of an expression that the operands of a level are. -/
def cppLevel : ℕ → ℕ
  | 0 => 1
  | 1 => 2
  | 2 => 3
  | _ => 11

/-- Brackets are closed, and connectives stand between brackets only. -/
def stays : ℕ → List Char → Bool
  | depth, [] => depth = 0
  | depth, c :: cs =>
    if c = '(' then stays (depth + 1) cs
    else if c = ')' then depth ≠ 0 && stays (depth - 1) cs
    else !(depth = 0 && (c = '&' || c = '|')) && stays depth cs

/-- A text that is one atom, and that a level can have as its operand. -/
structure IsAtom (n : ℕ) (raw : String) : Prop where
  closed : stays 0 raw.toList = true
  first : ∀ c ∈ raw.toList.head?, isSpace c = false ∧ c ∉ ['&', '|', '!', '(', ')']
  trimmed : LtlParser.trim raw.toList = raw.toList
  named : sanitizeIdentifier raw ≠ ""
  last : ∀ c ∈ raw.toList.getLast?, isSymbol c = false
  read : ∃ e, ReadsAs .cpp (cppLevel n) raw e

/-- The texts of a level, their terms and their tokens. The levels are those of disjunctions, of
conjunctions, of their operands, and of the operands of negations. -/
inductive Writes : ℕ → Term → List Char → List Token → Prop
  | atom {n : ℕ} {raw : String} (hn : n = 2 ∨ n = 3) (h : IsAtom n raw) :
      Writes n (.atom (sanitizeIdentifier raw) raw) raw.toList [.ident (sanitizeIdentifier raw) raw]
  | blankLeft {n : ℕ} {t : Term} {s : List Char} {toks : List Token} {c : Char} (hc : isBlank c = true)
      (h : Writes n t s toks) : Writes n t (c :: s) toks
  | blankRight {n : ℕ} {t : Term} {s : List Char} {toks : List Token} {c : Char} (hc : isBlank c = true)
      (h : Writes n t s toks) : Writes n t (s ++ [c]) toks
  | bracket {t : Term} {s : List Char} {toks : List Token} (h : Writes 0 t s toks) :
      Writes 3 t ('(' :: (s ++ [')'])) (.lParen :: (toks ++ [.rParen]))
  | not {t : Term} {s : List Char} {toks : List Token} (hs : s.head? ≠ some '=') (h : Writes 3 t s toks) :
      Writes 3 (.not t) ('!' :: s) (.not :: toks)
  | operand {t : Term} {s : List Char} {toks : List Token} (h : Writes 3 t s toks) : Writes 2 t s toks
  | conjunct {t : Term} {s : List Char} {toks : List Token} (h : Writes 2 t s toks) : Writes 1 t s toks
  | disjunct {t : Term} {s : List Char} {toks : List Token} (h : Writes 1 t s toks) : Writes 0 t s toks
  | and {l r : Term} {s s' : List Char} {toks toks' : List Token} (hl : Writes 1 l s toks)
      (hr : Writes 2 r s' toks') : Writes 1 (.and l r) (s ++ '&' :: '&' :: s') (toks ++ .and :: toks')
  | or {l r : Term} {s s' : List Char} {toks toks' : List Token} (hl : Writes 0 l s toks)
      (hr : Writes 1 r s' toks') : Writes 0 (.or l r) (s ++ '|' :: '|' :: s') (toks ++ .or :: toks')

/-! ## The tokens of a text -/

theorem scan_append (ys : List Char) : ∀ (xs : List Char) (m : Mode), scan m (xs ++ ys) =
    ((scan m xs).1 ++ (scan (scan m xs).2 ys).1, (scan (scan m xs).2 ys).2)
  | [], m => by simp [scan]
  | x :: xs, m => by
    rw [List.cons_append]
    simp only [scan, scan_append ys xs, List.append_assoc]

theorem trim_eq (text : List Char) : LtlParser.trim text = (text.dropWhile isBlank).rdropWhile isBlank := rfl

variable {c : Char} {n : ℕ} {s : List Char} {t : Term} {toks : List Token}

theorem trim_append_blank (hc : isBlank c = true) {a : Char} (ha : isBlank a = false)
    (acc : List Char) : LtlParser.trim (a :: acc ++ [c]) = LtlParser.trim (a :: acc) := by
  have hdrop : ∀ l : List Char, (a :: l).dropWhile isBlank = a :: l := fun l =>
    List.dropWhile_cons_of_neg (by rw [ha]; exact Bool.false_ne_true)
  rw [trim_eq, trim_eq, List.cons_append, hdrop, hdrop, ← List.cons_append]
  exact List.rdropWhile_concat_pos _ _ _ hc

theorem isBlank_cases (hc : isBlank c = true) : c = ' ' ∨ c = '\t' ∨ c = '\r' ∨ c = '\n' := by
  simpa [isBlank, or_assoc] using hc

theorem stepOutside_blank (hc : isBlank c = true) : stepOutside c = ([], .outside) := by
  rcases isBlank_cases hc with rfl | rfl | rfl | rfl <;> rfl

/-- Between tokens, or in an atom outside brackets. -/
def Resting (m : Mode) : Prop := m = .outside ∨ ∃ c acc, m = .atom (c :: acc) 0 ∧ isBlank c = false

theorem step_atom (hopen : c ≠ '(') (hclose : c ≠ ')') (hand : c ≠ '&') (hor : c ≠ '|')
    (acc : List Char) (depth : ℕ) : step (.atom acc depth) c = ([], .atom (acc ++ [c]) depth) := by
  simp only [step]
  rw [if_neg hopen, if_neg hclose, if_neg]
  rintro ⟨-, h | h⟩
  · exact hand h
  · exact hor h

theorem step_delimiter (hc : c = '&' ∨ c = '|' ∨ c = ')') (acc : List Char) :
    step (.atom acc 0) c = (atomToken acc ++ (stepOutside c).1, (stepOutside c).2) := by
  have hopen : c ≠ '(' := by rcases hc with rfl | rfl | rfl <;> decide
  simp only [step]
  rw [if_neg hopen]
  by_cases hclose : c = ')'
  · simp only [if_pos hclose, if_true]
  · have hconnective : c = '&' ∨ c = '|' := by tauto
    simp only [if_neg hclose, true_and, if_pos hconnective]

variable {m : Mode} {raw : String} {rest : List Token}

theorem Resting.step_blank (h : Resting m) (hc : isBlank c = true) :
    (step m c).1 = [] ∧ closeMode (step m c).2 = closeMode m ∧ Resting (step m c).2 := by
  rcases h with rfl | ⟨a, acc, rfl, ha⟩
  · have hstep : step .outside c = ([], .outside) := stepOutside_blank hc
    rw [hstep]
    exact ⟨rfl, rfl, Or.inl rfl⟩
  · have hne : c ≠ '(' ∧ c ≠ ')' ∧ c ≠ '&' ∧ c ≠ '|' := by
      rcases isBlank_cases hc with rfl | rfl | rfl | rfl <;> decide
    rw [step_atom hne.1 hne.2.1 hne.2.2.1 hne.2.2.2]
    refine ⟨rfl, ?_, Or.inr ⟨a, acc ++ [c], rfl, ha⟩⟩
    simp only [closeMode, atomToken]
    rw [trim_append_blank hc ha]

theorem Resting.step_delimiter (h : Resting m) (hc : c = '&' ∨ c = '|' ∨ c = ')') :
    step m c = (closeMode m ++ (stepOutside c).1, (stepOutside c).2) := by
  rcases h with rfl | ⟨a, acc, rfl, -⟩
  · simp only [step, closeMode, List.nil_append]
  · exact GuardParser.step_delimiter hc (a :: acc)

theorem scan_connective (h : Resting m) (hc : c = '&' ∨ c = '|') (s : List Char) :
    scan m (c :: c :: s) = (closeMode m ++ (stepOutside c).1 ++ (scan .outside s).1, (scan .outside s).2) := by
  -- The first character ends the atom and is the token, the second one is skipped.
  have hfirst := h.step_delimiter (hc.imp_right Or.inl)
  have hsecond : step (stepOutside c).2 c = ([], .outside) := by rcases hc with rfl | rfl <;> rfl
  simp only [scan, hfirst, hsecond, List.nil_append]

theorem scan_stays : ∀ (cs acc : List Char) (depth : ℕ), stays depth cs = true →
    scan (.atom acc depth) cs = ([], .atom (acc ++ cs) 0)
  | [], acc, depth, h => by
    obtain rfl : depth = 0 := of_decide_eq_true h
    rw [List.append_nil]
    rfl
  | c :: cs, acc, depth, h => by
    rw [stays] at h
    have hstep : ∃ depth', step (.atom acc depth) c = ([], .atom (acc ++ [c]) depth') ∧
        stays depth' cs = true := by
      split at h
      · next hopen =>
          refine ⟨depth + 1, ?_, h⟩
          simp only [step]
          rw [if_pos hopen]
      · next hopen =>
          split at h
          · next hclose =>
              rw [Bool.and_eq_true, decide_eq_true_eq] at h
              refine ⟨depth - 1, ?_, h.2⟩
              simp only [step]
              rw [if_neg hopen, if_pos hclose, if_neg h.1]
          · next hclose =>
              rw [Bool.and_eq_true] at h
              refine ⟨depth, ?_, h.2⟩
              simp only [step]
              rw [if_neg hopen, if_neg hclose, if_neg]
              rintro ⟨hdepth, hc⟩
              have hone := h.1
              rw [Bool.not_eq_true', Bool.and_eq_false_iff, decide_eq_false_iff_not] at hone
              rcases hone with hone | hone
              · exact hone hdepth
              · rcases hc with rfl | rfl <;> exact absurd hone (by decide)
    obtain ⟨depth', hstep, hrest⟩ := hstep
    rw [scan, hstep, scan_stays cs (acc ++ [c]) depth' hrest, List.append_assoc]
    rfl

theorem IsAtom.scan_eq (h : IsAtom n raw) {cs : List Char}
    (hraw : raw.toList = c :: cs) : scan .outside raw.toList = ([], .atom raw.toList 0) := by
  obtain ⟨hspace, hfirst⟩ := h.first c (by rw [hraw]; rfl)
  simp only [List.mem_cons, List.not_mem_nil, or_false, not_or] at hfirst
  obtain ⟨hand, hor, hnot, hopen, hclose⟩ := hfirst
  have hstep : step .outside c = ([], .atom [c] 0) := by
    simp only [step, stepOutside]
    rw [if_neg (by rw [hspace]; exact Bool.false_ne_true), if_neg hand, if_neg hor, if_neg hnot,
      if_neg hopen, if_neg hclose]
  have hstays : stays 0 cs = true := by
    have hclosed := h.closed
    rw [hraw, stays, if_neg hopen, if_neg hclose, Bool.and_eq_true] at hclosed
    exact hclosed.2
  rw [hraw, scan, hstep, scan_stays cs [c] 0 hstays]
  rfl

theorem Writes.scan_spec (h : Writes n t s toks) :
    (scan .outside s).1 ++ closeMode (scan .outside s).2 = toks ∧ Resting (scan .outside s).2 := by
  induction h with
  | @atom n raw _ h =>
    have hname : sanitizeIdentifier (String.ofList (LtlParser.trim raw.toList)) ≠ "" := by
      rw [h.trimmed, String.ofList_toList]
      exact h.named
    cases hraw : raw.toList with
    | nil =>
      rw [h.trimmed, hraw] at hname
      exact absurd (by decide +kernel) hname
    | cons c acc =>
      rw [← hraw, h.scan_eq hraw]
      constructor
      · simp only [closeMode, atomToken, List.nil_append]
        rw [if_neg hname, h.trimmed, String.ofList_toList]
      · have hblank : isBlank c = false := by
          have hspace := (h.first c (by rw [hraw]; rfl)).1
          by_contra hne
          rw [Bool.not_eq_false] at hne
          rcases isBlank_cases hne with rfl | rfl | rfl | rfl <;> exact absurd hspace (by decide)
        exact Or.inr ⟨c, acc, by rw [hraw], hblank⟩
  | @blankLeft n t s toks c hc h ih =>
    have hstep : step .outside c = ([], .outside) := stepOutside_blank hc
    simp only [scan, hstep, List.nil_append]
    exact ih
  | @blankRight n t s toks c hc h ih =>
    obtain ⟨hnone, hclose, hrest⟩ := ih.2.step_blank hc
    rw [scan_append]
    simp only [scan, hnone, List.append_nil, hclose]
    exact ⟨ih.1, hrest⟩
  | @bracket t s toks h ih =>
    have hopen : step .outside '(' = ([.lParen], .outside) := rfl
    have hclose := ih.2.step_delimiter (c := ')') (Or.inr (Or.inr rfl))
    simp only [scan, hopen, scan_append, hclose]
    constructor
    · rw [← ih.1]
      show _ ++ [] = _
      simp [stepOutside]
      rfl
    · exact Or.inl rfl
  | @not t s toks _ h ih =>
    obtain ⟨htoks, hrest⟩ := ih
    exact ⟨by rw [← htoks]; rfl, hrest⟩
  | operand _ ih => exact ih
  | conjunct _ ih => exact ih
  | disjunct _ ih => exact ih
  | @and l r s s' toks toks' _ _ ihl ihr =>
    rw [scan_append, scan_connective ihl.2 (Or.inl rfl)]
    refine ⟨?_, ihr.2⟩
    rw [← ihl.1, ← ihr.1]
    show (_ ++ (_ ++ [Token.and] ++ _)) ++ _ = _
    simp only [List.append_assoc, List.cons_append, List.nil_append]
  | @or l r s s' toks toks' _ _ ihl ihr =>
    rw [scan_append, scan_connective ihl.2 (Or.inr rfl)]
    refine ⟨?_, ihr.2⟩
    rw [← ihl.1, ← ihr.1]
    show (_ ++ (_ ++ [Token.or] ++ _)) ++ _ = _
    simp only [List.append_assoc, List.cons_append, List.nil_append]

theorem Writes.tokenize_eq (h : Writes n t s toks) : tokenize s = toks := h.scan_spec.1

/-! ## Parsing a text of the grammar -/

theorem Writes.length_pos (h : Writes n t s toks) : 1 ≤ toks.length := by
  induction h with
  | blankLeft _ _ ih => exact ih
  | blankRight _ _ ih => exact ih
  | operand _ ih => exact ih
  | conjunct _ ih => exact ih
  | disjunct _ ih => exact ih
  | and _ _ ihl _ => exact ihl.trans (by rw [List.length_append]; exact Nat.le_add_right _ _)
  | or _ _ ihl _ => exact ihl.trans (by rw [List.length_append]; exact Nat.le_add_right _ _)
  | _ => simp

/-- How the tokens of a level are parsed before others. The loops go on behind the operands that they have
read, with the calls that are left. -/
def Parses : ℕ → Term → List Token → Prop
  | 0, t, toks => ∃ k, 1 ≤ k ∧ k ≤ toks.length ∧ ∀ f rest, rest.head? ≠ some .and →
      4 * toks.length ≤ f + k → parseOr (f + k) (toks ++ rest) = orLoop f t rest
  | 1, t, toks => ∃ k, 1 ≤ k ∧ k ≤ toks.length ∧ ∀ f rest,
      4 * toks.length ≤ f + k + 1 → parseAnd (f + k) (toks ++ rest) = andLoop f t rest
  | _, t, toks => ∀ f rest, 4 * toks.length ≤ f + 2 → parseUnary f (toks ++ rest) = (t, rest)

theorem andLoop_stop (h : rest.head? ≠ some .and) (f : ℕ) (t : Term) :
    andLoop f t rest = (t, rest) := by
  cases f with
  | zero => rfl
  | succ f =>
    cases rest with
    | nil => rfl
    | cons a rest =>
      cases a with
      | and => exact absurd rfl h
      | _ => rfl

theorem Parses.operand_eq (hn : n = 2 ∨ n = 3) (h : Parses n t toks) :
    ∀ f rest, 4 * toks.length ≤ f + 2 → parseUnary f (toks ++ rest) = (t, rest) := by
  rcases hn with rfl | rfl <;> exact h

theorem Parses.conjunction_eq (h : Parses 1 t toks) {f : ℕ}
    (hrest : rest.head? ≠ some .and) (hf : 4 * toks.length ≤ f + 1)
    (_ : 1 ≤ toks.length) : parseAnd f (toks ++ rest) = (t, rest) := by
  obtain ⟨k, -, hk, hparse⟩ := h
  obtain ⟨g, rfl⟩ : ∃ g, f = g + k := ⟨f - k, by omega⟩
  rw [hparse g rest hf, andLoop_stop hrest]

theorem Writes.parses (h : Writes n t s toks) : Parses n t toks := by
  induction h with
  | @atom n raw hn h =>
    have hatom : ∀ f rest, 4 * 1 ≤ f + 2 → parseUnary f (.ident (sanitizeIdentifier raw) raw :: rest) =
        (.atom (sanitizeIdentifier raw) raw, rest) := by
      intro f rest hf
      obtain ⟨g, rfl⟩ : ∃ g, f = g + 2 := ⟨f - 2, by omega⟩
      rfl
    rcases hn with rfl | rfl <;> exact hatom
  | blankLeft _ _ ih => exact ih
  | blankRight _ _ ih => exact ih
  | @bracket t s toks h ih =>
    intro f rest hf
    -- The bracket stops the loop of the disjunction, and is then skipped.
    obtain ⟨k, _, hk, hparse⟩ := ih
    simp only [List.length_cons, List.length_append, List.length_nil] at hf
    obtain ⟨g, rfl⟩ : ∃ g, f = g + k + 2 := ⟨f - k - 2, by omega⟩
    have hinner := hparse g (.rParen :: rest) (by simp) (by omega)
    have hstop : orLoop g t (.rParen :: rest) = (t, .rParen :: rest) := by cases g <;> rfl
    rw [hstop] at hinner
    have htoks : Token.lParen :: (toks ++ [Token.rParen]) ++ rest = .lParen :: (toks ++ .rParen :: rest) := by
      simp
    have hunary : parseUnary (g + k + 2) (.lParen :: (toks ++ .rParen :: rest)) =
        parsePrimary (g + k + 1) (.lParen :: (toks ++ .rParen :: rest)) := rfl
    rw [htoks, hunary, parsePrimary, hinner]
  | @not t s toks _ h ih =>
    intro f rest hf
    rw [List.length_cons] at hf
    obtain ⟨g, rfl⟩ : ∃ g, f = g + 1 := ⟨f - 1, by omega⟩
    have hunary := ih.operand_eq (Or.inr rfl) g rest (by omega)
    rw [List.cons_append, parseUnary, hunary]
  | operand _ ih => exact ih
  | @conjunct t s toks h ih =>
    refine ⟨1, le_rfl, h.length_pos, fun f rest hf => ?_⟩
    have hunary := ih.operand_eq (Or.inl rfl) f rest (by omega)
    rw [parseAnd, hunary]
  | @disjunct t s toks h ih =>
    refine ⟨1, le_rfl, h.length_pos, fun f rest hrest hf => ?_⟩
    have hand := ih.conjunction_eq hrest (f := f) (by omega) h.length_pos
    rw [parseOr, hand]
  | @and l r s s' toks toks' hl hr ihl ihr =>
    -- The loop goes on from the left operand for one more turn.
    obtain ⟨k, _, hk, hparse⟩ := ihl
    refine ⟨k + 1, by omega, by simp; omega, fun f rest hf => ?_⟩
    simp only [List.length_cons, List.length_append] at hf
    have hleft := hparse (f + 1) (.and :: (toks' ++ rest)) (by omega)
    have hright := ihr.operand_eq (Or.inl rfl) f rest (by omega)
    have htoks : toks ++ Token.and :: toks' ++ rest = toks ++ Token.and :: (toks' ++ rest) := by simp
    have hfuel : f + (k + 1) = f + 1 + k := by omega
    rw [htoks, hfuel, hleft, andLoop, hright]
  | @or l r s s' toks toks' hl hr ihl ihr =>
    obtain ⟨k, _, hk, hparse⟩ := ihl
    refine ⟨k + 1, by omega, by simp; omega, fun f rest hrest hf => ?_⟩
    simp only [List.length_cons, List.length_append] at hf
    have hleft := hparse (f + 1) (.or :: (toks' ++ rest)) (by simp) (by omega)
    have hright := ihr.conjunction_eq hrest (f := f) (by omega) hr.length_pos
    have htoks : toks ++ Token.or :: toks' ++ rest = toks ++ Token.or :: (toks' ++ rest) := by simp
    have hfuel : f + (k + 1) = f + 1 + k := by omega
    rw [htoks, hfuel, hleft, orLoop, hright]

theorem Writes.ne_empty (h : Writes n t s toks) : t ≠ .empty := by
  induction h with
  | blankLeft _ _ ih => exact ih
  | blankRight _ _ ih => exact ih
  | bracket _ ih => exact ih
  | operand _ ih => exact ih
  | conjunct _ ih => exact ih
  | disjunct _ ih => exact ih
  | _ => simp

theorem Writes.parseExpression_eq {text : String}
    (h : Writes 0 t text.toList toks) : parseExpression text = ⟨t, []⟩ := by
  obtain ⟨k, _, hk, hparse⟩ := h.parses
  obtain ⟨g, hg⟩ : ∃ g, 4 * toks.length + 4 = g + k := ⟨4 * toks.length + 4 - k, by omega⟩
  have hstop : orLoop g t [] = (t, []) := by cases g <;> rfl
  have hresult : parseOr (4 * toks.length + 4) toks = (t, []) := by
    have hall := hparse g [] (by simp) (by omega)
    rw [List.append_nil, hstop] at hall
    rw [hg, hall]
  unfold parseExpression
  simp only [h.tokenize_eq, hresult]
  cases t with
  | empty => exact absurd rfl h.ne_empty
  | _ => rfl

/-! ## Reading a text of the grammar -/

theorem delimiter_blank (hc : isBlank c = true) : delimiter c = some [] := by
  rcases isBlank_cases hc with rfl | rfl | rfl | rfl <;> rfl

/-- A term means what its text is read as. -/
def MeansText (n : ℕ) (t : Term) (s : List Char) : Prop :=
  (∃ e, Reads .cpp none (cppLevel n) (lexFrom s []) e [] ∧ ∀ M, truth .cpp M e = denote M t) ∧
    ∀ c ∈ s.getLast?, isSymbol c = false

theorem MeansText.ne_nil (h : MeansText n t s) : s ≠ [] := by
  rintro rfl
  obtain ⟨⟨e, he, -⟩, -⟩ := h
  exact not_reads_nil he rfl rfl

theorem MeansText.lower {n m : ℕ} (h : MeansText n t s)
    (hlevel : cppLevel m ≤ cppLevel n) (hn : cppLevel n ≤ 11) : MeansText m t s := by
  obtain ⟨⟨e, he, htruth⟩, hlast⟩ := h
  exact ⟨⟨e, he.lower hlevel hn, htruth⟩, hlast⟩

theorem last_append {s s' : List Char} (hne : s' ≠ []) (h : ∀ c ∈ s'.getLast?, isSymbol c = false) :
    ∀ c ∈ (s ++ s').getLast?, isSymbol c = false := by
  rw [List.getLast?_append_of_ne_nil s hne]
  exact h

theorem MeansText.connect (underAnd : Bool) {n m : ℕ} {a : Char} {l r t : Term} {s s' : List Char}
    (hl : MeansText n l s) (hr : MeansText m r s') (hn : cppLevel n = levelOf underAnd)
    (hm : levelOf underAnd ≤ cppLevel m) (hm' : cppLevel m ≤ 11) (ha : a = if underAnd then '&' else '|')
    (ht : ∀ M, denote M t = PrintedGuards.connect underAnd (denote M l) (denote M r)) :
    MeansText n t (s ++ a :: a :: s') := by
  have hne := hr.ne_nil
  obtain ⟨⟨x, hx, htruthx⟩, hlast⟩ := hl
  obtain ⟨⟨y, hy, htruthy⟩, hlast'⟩ := hr
  have hchar : a = '&' ∨ a = '|' := by cases underAnd <;> simp_all
  have hop : String.ofList [a, a] = if underAnd then Lang.cpp.and else Lang.cpp.or := by
    subst ha
    cases underAnd <;> rfl
  rw [hn] at hx
  obtain ⟨c, hc, htruth⟩ := Reads.join (ops_levelOf .cpp underAnd) (connect_assoc underAnd)
    (truth_connective .cpp underAnd) (by cases underAnd <;> decide) hx (hy.lower hm hm')
  constructor
  · refine ⟨c, ?_, fun M => by rw [htruth, htruthx, htruthy, ht]⟩
    -- The connective is a token of its own, as no operator stands before it.
    rw [lexFrom_append_double hchar s' s [] (fun _ => by simp) hlast, hop, hn]
    exact hc
  · have hsplit : s ++ a :: a :: s' = s ++ [a, a] ++ s' := by simp
    rw [hsplit]
    exact last_append hne hlast'

theorem Writes.meansText (h : Writes n t s toks) : MeansText n t s := by
  induction h with
  | @atom n raw hn h =>
    obtain ⟨e, he⟩ := h.read
    have hlow : 1 ≤ cppLevel n ∧ cppLevel n ≤ 11 := by rcases hn with rfl | rfl <;> decide
    exact ⟨⟨e, he, fun M => (textHolds_eq he hlow.1 hlow.2).symm⟩, h.last⟩
  | @blankLeft n t s toks c hc _ ih =>
    have hne := ih.ne_nil
    obtain ⟨⟨e, he, htruth⟩, hlast⟩ := ih
    refine ⟨⟨e, ?_, htruth⟩, last_append (s := [c]) hne hlast⟩
    rw [lexFrom_delimiter (delimiter_blank hc)]
    exact he
  | @blankRight n t s toks c hc _ ih =>
    obtain ⟨⟨e, he, htruth⟩, -⟩ := ih
    constructor
    · refine ⟨e, ?_, htruth⟩
      rw [lexFrom_append (delimiter_blank hc)]
      show Reads .cpp none (cppLevel n) (lexFrom s [] ++ []) e []
      rw [List.append_nil]
      exact he
    · refine last_append (by simp) fun d hd => ?_
      obtain rfl : c = d := by simpa using hd
      rcases isBlank_cases hc with rfl | rfl | rfl | rfl <;> decide
  | @bracket t s toks _ ih =>
    obtain ⟨⟨e, he, htruth⟩, -⟩ := ih
    constructor
    · refine ⟨e, ?_, htruth⟩
      have hopen : delimiter '(' = some [.opening] := rfl
      have hclose : delimiter ')' = some [.closing] := rfl
      rw [lexFrom_delimiter hopen, lexFrom_append hclose]
      exact Reads.bracketed he
    · exact last_append (s := '(' :: s) (by simp) (by simp; rfl)
  | @not t s toks hs _ ih =>
    have hne := ih.ne_nil
    obtain ⟨⟨e, he, htruth⟩, hlast⟩ := ih
    refine ⟨⟨.unary "!" e, ?_, fun M => by rw [truth_not, htruth]; rfl⟩, last_append (s := ['!']) hne hlast⟩
    show Reads .cpp none 11 (lexFrom s ['!']) _ []
    rw [lexFrom_bang hs]
    exact .prefixed (by simp) he
  | operand _ ih => exact ih.lower (by decide) (by decide)
  | conjunct _ ih => exact ih.lower (by decide) (by decide)
  | disjunct _ ih => exact ih.lower (by decide) (by decide)
  | and _ _ ihl ihr =>
    exact ihl.connect true ihr rfl (by decide) (by decide) rfl fun _ => rfl
  | or _ _ ihl ihr =>
    exact ihl.connect false ihr rfl (by decide) (by decide) rfl fun _ => rfl

/-! ## Faithful texts -/

/-- A text whose words, written as operators, join nothing that stands next to them, and which then has no
connectives and brackets, or is one of the grammar. -/
def InGrammar (raw : String) : Prop :=
  lex (normalized raw) = guardLex raw ∧
    ((normalized raw).toList.any isLogical = false ∨ ∃ t toks, Writes 0 t (normalized raw).toList toks)

/-- A text of the grammar is parsed to the end, and to a term that means what the text means. -/
theorem faithful_of_inGrammar {raw : String} (h : InGrammar raw) : Faithful raw := by
  obtain ⟨hlex, hgrammar⟩ := h
  have hreads : ∀ e, Reads .cpp none 1 (guardLex raw) e [] → ReadsAs .cpp 1 (normalized raw) e := by
    intro e he
    rw [← hlex] at he
    exact he
  intro p hp
  simp only [parse] at hp
  split at hp
  · simp at hp
  · split at hp
    · split at hp
      · simp at hp
      · obtain rfl := Option.some.inj hp
        exact ⟨rfl, fun e he M => textHolds_eq (hreads e he) le_rfl (by decide)⟩
    · next hlogical =>
        rcases hgrammar with h | ⟨t, toks, h⟩
        · rw [h] at hlogical
          exact absurd rfl hlogical
        · obtain ⟨⟨e', he', htruth⟩, -⟩ := h.meansText
          obtain rfl := Option.some.inj hp
          rw [h.parseExpression_eq]
          refine ⟨rfl, fun e he M => ?_⟩
          rw [← htruth, ((hreads e he).unique he').1]

theorem letter_toList (h : raw = "a" ∨ raw = "b") : ∃ c, raw.toList = [c] ∧ (c = 'a' ∨ c = 'b') := by
  rcases h with rfl | rfl
  · exact ⟨'a', rfl, Or.inl rfl⟩
  · exact ⟨'b', rfl, Or.inr rfl⟩

theorem letter_isAtom (hn : n = 2 ∨ n = 3) (h : raw = "a" ∨ raw = "b") : IsAtom n raw where
  closed := by rcases h with rfl | rfl <;> decide +kernel
  first := by
    obtain ⟨c, hraw, hc⟩ := letter_toList h
    intro d hd
    rw [hraw] at hd
    obtain rfl : c = d := by simpa using hd
    rcases hc with rfl | rfl <;> decide
  trimmed := by rcases h with rfl | rfl <;> decide +kernel
  named := by rcases h with rfl | rfl <;> decide +kernel
  last := by
    obtain ⟨c, hraw, hc⟩ := letter_toList h
    intro d hd
    rw [hraw] at hd
    obtain rfl : c = d := by simpa using hd
    rcases hc with rfl | rfl <;> decide
  read := by
    have hlex : lex raw = [.word raw] := by rcases h with rfl | rfl <;> decide +kernel
    have hlevel : cppLevel n ≤ 11 := by rcases hn with rfl | rfl <;> decide
    exact ⟨.word raw, (readsAs_word hlex).lower hlevel le_rfl⟩

/-- A negation and a disjunction in brackets. -/
theorem negation_faithful : Faithful "!a and (a || b)" := by
  have ha : ∀ n, n = 2 ∨ n = 3 → Writes n _ "a".toList _ := fun n hn => .atom hn (letter_isAtom hn (Or.inl rfl))
  have hb : Writes 2 _ "b".toList _ := .atom (Or.inl rfl) (letter_isAtom (Or.inl rfl) (Or.inr rfl))
  have hblank : isBlank ' ' = true := rfl
  have hleft := Writes.not (by decide +kernel) (.blankRight hblank (ha 3 (Or.inr rfl)))
  have hor := Writes.or (.disjunct (.conjunct (.blankRight hblank (ha 2 (Or.inl rfl)))))
    (.conjunct (.blankLeft hblank hb))
  have hand := Writes.and (.conjunct (.operand hleft)) (.blankLeft hblank (.operand (.bracket hor)))
  have htext : (normalized "!a and (a || b)").toList = '!' :: ("a".toList ++ [' ']) ++ '&' :: '&' :: ' ' ::
      '(' :: (("a".toList ++ [' '] ++ '|' :: '|' :: ' ' :: "b".toList) ++ [')']) := by
    decide +kernel
  have hall := Writes.disjunct hand
  rw [← htext] at hall
  have hlex : lex (normalized "!a and (a || b)") = guardLex "!a and (a || b)" := by decide +kernel
  exact faithful_of_inGrammar ⟨hlex, Or.inr ⟨_, _, hall⟩⟩

/-- A comparison that begins with a bracket is parsed to what is in the bracket. -/
theorem arithmetic_not_faithful :
    (∃ e, Reads .cpp none 1 (guardLex "(a + b) > c") e []) ∧ ¬ Faithful "(a + b) > c" := by
  have hword : ∀ w : String, Reads .cpp none 11 [.word w] (.word w) [] := fun w =>
    .operand (fun _ _ h => by simp at h) (.word fun _ h => by simp at h)
  constructor
  · have hsum : Reads .cpp none 9 [.word "a", .op "+", .word "b"] _ [] :=
      .infixed (by decide) (by decide) ((hword "a").lower (by decide) le_rfl)
        ((hword "b").lower (by decide) le_rfl)
    have hbracket := (hsum.lower (k := 1) (by decide) (by decide)).bracketed
    have hwhole : Reads .cpp none 7 _ _ [] :=
      .infixed (s := ">") (by decide) (by decide) (hbracket.lower (by decide) le_rfl)
        ((hword "c").lower (by decide) le_rfl)
    have hlex : guardLex "(a + b) > c" =
        [Tok.opening, Tok.word "a", Tok.op "+", Tok.word "b", Tok.closing] ++ [Tok.op ">", Tok.word "c"] := by
      decide +kernel
    rw [hlex]
    exact ⟨_, hwhole.lower (by decide) (by decide)⟩
  · intro h
    have hparse : ∀ p, parse "(a + b) > c" = some p → p.left = [] := fun p hp => (h p hp).1
    have hleft : (parse "(a + b) > c").map Parsed.left = some [.ident "gt_c" "> c"] := by decide +kernel
    obtain ⟨p, hp, hrest⟩ := Option.map_eq_some_iff.mp hleft
    rw [hparse p hp] at hrest
    simp at hrest

end Fsmc.Frontend.GuardParser
