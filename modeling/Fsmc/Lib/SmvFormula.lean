/-
# Fsmc.Lib.SmvFormula — linear temporal formulas as nuXmv reads them.

A text is split into words, brackets and operators; the letters of temporal operators are operators and no
names. Unary operators bind tightest, then the binary temporal operators, `&`, `|`, `<->` and `->`, the last one
to the right. A proposition is a run of words: its own structure is below that of the formula.
-/
import Mathlib.Data.List.Basic

namespace Fsmc.Lib.SmvFormula

inductive Formula where
  | prop (words : List String)
  | unary (op : String) (f : Formula)
  | binary (op : String) (f g : Formula)
  deriving DecidableEq, Repr

inductive Tok where
  | opening | closing
  | unary (op : String)
  | binary (op : String)
  | word (w : String)
  deriving DecidableEq, Repr

/-! ## Tokens -/

/-- The letters that are unary operators. -/
def unaryLetters : List String := ["G", "F", "X", "Y", "Z", "H", "O"]

/-- The letters that are binary operators. -/
def binaryLetters : List String := ["U", "V", "S", "T"]

/-- The token of a run of characters. -/
def flush (run : List Char) : List Tok :=
  if run = [] then []
  else if String.ofList run ∈ unaryLetters then [.unary (String.ofList run)]
  else if String.ofList run ∈ binaryLetters then [.binary (String.ofList run)]
  else [.word (String.ofList run)]

/-- The tokens of a character that ends a word. -/
def single (c : Char) : Option (List Tok) :=
  if c = ' ' ∨ c = '\t' ∨ c = '\r' ∨ c = '\n' then some []
  else if c = '(' then some [.opening]
  else if c = ')' then some [.closing]
  else if c = '!' then some [.unary "!"]
  else if c = '&' then some [.binary "&"]
  else if c = '|' then some [.binary "|"]
  else none

/-- The tokens of a text, behind a run of characters. -/
def lexFrom : List Char → List Char → List Tok
  | [], run => flush run
  | '<' :: '-' :: '>' :: text, run => flush run ++ .binary "<->" :: lexFrom text []
  | '-' :: '>' :: text, run => flush run ++ .binary "->" :: lexFrom text []
  | '!' :: '=' :: text, run => lexFrom text (run ++ ['!', '='])
  | c :: text, run =>
    match single c with
    | some toks => flush run ++ (toks ++ lexFrom text [])
    | none => lexFrom text (run ++ [c])

def lex (text : String) : List Tok := lexFrom text.toList []

/-! ## Formulas -/

/-- How tight a binary operator binds. -/
def level (op : String) : ℕ :=
  if op = "->" then 1 else if op = "<->" then 2 else if op = "|" then 3 else if op = "&" then 4 else 5

/-- The words at the front, and what is left. -/
def wordRun : List Tok → List String × List Tok
  | .word w :: rest => (w :: (wordRun rest).1, (wordRun rest).2)
  | rest => ([], rest)

mutual

/-- An operand, as far as a number of calls goes. -/
def parseUnary : ℕ → List Tok → Option (Formula × List Tok)
  | n + 1, .unary op :: rest => (parseUnary n rest).map fun r => (.unary op r.1, r.2)
  | n + 1, .opening :: rest =>
    (parseBinary n 1 rest).bind fun r =>
      match r.2 with
      | .closing :: rest => some (r.1, rest)
      | _ => none
  | _ + 1, .word w :: rest => some (.prop (w :: (wordRun rest).1), (wordRun rest).2)
  | _, _ => none

/-- A formula of operators that bind at least as tight as a level. -/
def parseBinary : ℕ → ℕ → List Tok → Option (Formula × List Tok)
  | 0, _, _ => none
  | n + 1, least, toks => (parseUnary n toks).bind fun r => parseLoop n least r.1 r.2

/-- What follows an operand. -/
def parseLoop : ℕ → ℕ → Formula → List Tok → Option (Formula × List Tok)
  | 0, _, _, _ => none
  | n + 1, least, left, .binary op :: rest =>
    if least ≤ level op then
      (parseBinary n (if op = "->" then 1 else level op + 1) rest).bind fun r =>
        parseLoop n least (.binary op left r.1) r.2
    else some (left, .binary op :: rest)
  | _ + 1, _, left, rest => some (left, rest)

end

/-- The formula of a text; as many calls as two for each token and two more are enough for a formula in
brackets. -/
def read (text : String) : Option Formula :=
  match parseBinary (2 * (lex text).length + 2) 1 (lex text) with
  | some (f, []) => some f
  | _ => none

/-! ## Operands in brackets -/

/-- The tokens of a formula whose operands are propositions or in brackets. -/
inductive Phrase : List Tok → Formula → Prop
  | words (w : String) (ws : List String) : Phrase ((w :: ws).map .word) (.prop (w :: ws))
  | prefixed {toks : List Tok} {f : Formula} (op : String) (h : Phrase toks f) :
    Phrase (.unary op :: .opening :: (toks ++ [.closing])) (.unary op f)
  | joined {toks toks' : List Tok} {f g : Formula} (op : String) (h : Phrase toks f) (h' : Phrase toks' g) :
    Phrase (.opening :: (toks ++ .binary op :: (toks' ++ [.closing]))) (.binary op f g)

/-- What may follow a run of words. -/
def Stops (rest : List Tok) : Prop := wordRun rest = ([], rest)

theorem stops_nil : Stops [] := rfl

theorem stops_closing (rest : List Tok) : Stops (.closing :: rest) := rfl

theorem stops_binary (op : String) (rest : List Tok) : Stops (.binary op :: rest) := rfl

theorem wordRun_append {rest : List Tok} (h : Stops rest) (ws : List String) :
    wordRun (ws.map .word ++ rest) = (ws, rest) := by
  induction ws with
  | nil => exact h
  | cons w ws ih =>
    rw [List.map_cons, List.cons_append, wordRun, ih]

theorem one_le_level (op : String) : 1 ≤ level op := by
  unfold level
  repeat' split
  all_goals omega

theorem parseLoop_closing (n least : ℕ) (f : Formula) (rest : List Tok) :
    parseLoop (n + 1) least f (.closing :: rest) = some (f, .closing :: rest) := by
  unfold parseLoop
  rfl

theorem Phrase.parseUnary {toks : List Tok} {f : Formula} (h : Phrase toks f) :
    ∀ {n : ℕ} {rest : List Tok}, 2 * toks.length ≤ n → Stops rest →
      SmvFormula.parseUnary n (toks ++ rest) = some (f, rest) := by
  induction h with
  | words w ws =>
    intro n rest hn hrest
    obtain ⟨n, rfl⟩ : ∃ k, n = k + 1 := ⟨n - 1, by simp only [List.length_map, List.length_cons] at hn; omega⟩
    rw [List.map_cons, List.cons_append, SmvFormula.parseUnary, wordRun_append hrest]
  | @prefixed toks f op h ih =>
    intro n rest hn hrest
    simp only [List.length_cons, List.length_append, List.length_nil] at hn
    obtain ⟨n, rfl⟩ : ∃ k, n = k + 4 := ⟨n - 4, by omega⟩
    have hinner := ih (n := n + 1) (by omega) (stops_closing rest)
    rw [List.cons_append, List.cons_append, List.append_assoc, SmvFormula.parseUnary, SmvFormula.parseUnary,
      parseBinary, List.singleton_append, hinner]
    rw [Option.bind_some, parseLoop_closing]
    rfl
  | @joined toks toks' f g op h h' ih ih' =>
    intro n rest hn hrest
    simp only [List.length_cons, List.length_append, List.length_nil] at hn
    obtain ⟨n, rfl⟩ : ∃ k, n = k + 5 := ⟨n - 5, by omega⟩
    have hleft := ih (n := n + 3) (by omega) (stops_binary op (toks' ++ .closing :: rest))
    have hright := ih' (n := n + 1) (by omega) (stops_closing rest)
    rw [List.cons_append, SmvFormula.parseUnary, parseBinary]
    rw [show toks ++ Tok.binary op :: (toks' ++ [Tok.closing]) ++ rest =
      toks ++ Tok.binary op :: (toks' ++ Tok.closing :: rest) by simp, hleft, Option.bind_some, parseLoop,
      if_pos (one_le_level op), parseBinary, hright, Option.bind_some, parseLoop_closing, Option.bind_some,
      parseLoop_closing]
    rfl

theorem read_of_phrase {text : String} {f : Formula} (h : Phrase (lex text) f) : read text = some f := by
  have hunary := h.parseUnary (n := 2 * (lex text).length + 1) (by omega) stops_nil
  rw [List.append_nil] at hunary
  unfold read
  rw [parseBinary, hunary]
  rfl

/-! ## Tokens of concatenated texts -/

/-- A character that ends a word by itself. -/
def Divides (c : Char) : Prop := c = ' ' ∨ c = '(' ∨ c = ')'

theorem lexFrom_divides {c : Char} (hc : Divides c) (text run : List Char) :
    lexFrom (c :: text) run = flush run ++ lexFrom (c :: text) [] := by
  rcases hc with rfl | rfl | rfl <;> rfl

/-- No operator of several characters starts with a character before a text. -/
structure NotOperator (c : Char) (text : List Char) : Prop where
  iff : ∀ rest, c = '<' → text = '-' :: '>' :: rest → False
  implies : ∀ rest, c = '-' → text = '>' :: rest → False
  ne : ∀ rest, c = '!' → text = '=' :: rest → False

theorem lexFrom_cons {c : Char} {text run : List Char} (h : NotOperator c text) : lexFrom (c :: text) run =
      match single c with
      | some toks => flush run ++ (toks ++ lexFrom text [])
      | none => lexFrom text (run ++ [c]) := by
  rw [lexFrom]
  · exact h.iff
  · exact h.implies
  · exact h.ne

theorem notOperator_append {c d : Char} {text : List Char} (hd : Divides d) (h : NotOperator c text)
    (ys : List Char) : NotOperator c (text ++ d :: ys) := by
  have hne : d ≠ '-' ∧ d ≠ '>' ∧ d ≠ '=' := by rcases hd with rfl | rfl | rfl <;> decide
  refine ⟨fun rest hc htext => ?_, fun rest hc htext => ?_, fun rest hc htext => ?_⟩
  · rcases text with _ | ⟨a, _ | ⟨b, text⟩⟩
    · exact hne.1 (List.cons.inj htext).1
    · exact hne.2.1 (List.cons.inj (List.cons.inj htext).2).1
    · obtain ⟨rfl, hrest⟩ := List.cons.inj htext
      obtain ⟨rfl, -⟩ := List.cons.inj hrest
      exact h.iff text hc rfl
  · rcases text with _ | ⟨a, text⟩
    · exact hne.2.1 (List.cons.inj htext).1
    · obtain ⟨rfl, -⟩ := List.cons.inj htext
      exact h.implies text hc rfl
  · rcases text with _ | ⟨a, text⟩
    · exact hne.2.2 (List.cons.inj htext).1
    · obtain ⟨rfl, -⟩ := List.cons.inj htext
      exact h.ne text hc rfl

/-- Texts on both sides of a character that ends words are read on their own. -/
theorem lexFrom_append {d : Char} (hd : Divides d) (ys xs run : List Char) :
    lexFrom (xs ++ d :: ys) run = lexFrom xs run ++ lexFrom (d :: ys) [] := by
  fun_induction lexFrom xs run with
  | case1 run => exact lexFrom_divides hd ys run
  | case2 text run ih => simp [lexFrom, ih]
  | case3 text run ih => simp [lexFrom, ih]
  | case4 text run ih => simp [lexFrom, ih]
  | case5 c text run hiff himplies hne toks hsingle ih =>
    rw [List.cons_append, lexFrom_cons (notOperator_append hd ⟨hiff, himplies, hne⟩ ys), hsingle]
    simp only [ih, List.append_assoc]
  | case6 c text run hiff himplies hne hsingle ih =>
    rw [List.cons_append, lexFrom_cons (notOperator_append hd ⟨hiff, himplies, hne⟩ ys), hsingle]
    exact ih

theorem lex_bracket (text : String) : lex ("(" ++ text ++ ")") = Tok.opening :: (lex text ++ [Tok.closing]) := by
  unfold lex
  rw [String.toList_append, String.toList_append]
  show lexFrom ('(' :: (text.toList ++ ')' :: [])) [] = _
  rw [show lexFrom ('(' :: (text.toList ++ ')' :: [])) [] = .opening :: lexFrom (text.toList ++ ')' :: []) [] from
    rfl, lexFrom_append (Or.inr (Or.inr rfl))]
  rfl

end Fsmc.Lib.SmvFormula
