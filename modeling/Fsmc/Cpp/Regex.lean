/-
# Fsmc.Cpp.Regex — `std::regex_search`.

A match is found by backtracking: alternatives in their order, repetitions as long as possible first, and
the search takes the leftmost position at which there is a match. `ends` lists the ways in which a
pattern matches a beginning of a text, in the order in which they are tried. What a group has matched is
kept under its number. The patterns are those the analyses use; a repetition repeats one character.
-/
import Fsmc.Cpp.Text

namespace Fsmc.Cpp

inductive Regex where
  | empty
  | one (p : Char → Bool)
  | many (p : Char → Bool)
  | seq (a b : Regex)
  | alt (a b : Regex)
  | opt (a : Regex)
  | group (i : Nat) (a : Regex)

/-- `std::smatch`: the texts of the groups that took part in the match. -/
abbrev Captures := List (Nat × String)

namespace Regex

/-- What is left after a run of matching characters, the longest run first. -/
def manyEnds (p : Char → Bool) : List Char → List (List Char)
  | [] => [[]]
  | c :: text => (if p c then manyEnds p text else []) ++ [c :: text]

/-- The matches at the beginning of a text: the groups, and what is left. -/
def ends : Regex → List Char → List (Captures × List Char)
  | empty, text => [([], text)]
  | one _, [] => []
  | one p, c :: text => if p c then [([], text)] else []
  | many p, text => (manyEnds p text).map fun rest => ([], rest)
  | seq a b, text =>
    (a.ends text).flatMap fun (m, rest) => (b.ends rest).map fun (m', rest') => (m ++ m', rest')
  | alt a b, text => a.ends text ++ b.ends text
  | opt a, text => a.ends text ++ [([], text)]
  | group i a, text =>
    (a.ends text).map fun (m, rest) =>
      ((i, String.ofList (text.take (text.length - rest.length))) :: m, rest)

example (a : Regex) (text : List Char) : (opt a).ends text = a.ends text ++ [([], text)] := by rw [ends]

/-- The first match at the leftmost position with one. -/
def searchFrom (r : Regex) : List Char → Option Captures
  | [] => (r.ends []).head?.map (·.1)
  | c :: text =>
    match r.ends (c :: text) with
    | (m, _) :: _ => some m
    | [] => r.searchFrom text

def search (r : Regex) (text : String) : Option Captures := r.searchFrom text.toList

/-! ## Building patterns -/

/-- A text that stands for itself. -/
def literal (s : String) : Regex := s.toList.foldr (fun c r => seq (one (· = c)) r) empty

/-- A sequence of patterns. -/
def concat (l : List Regex) : Regex := l.foldr seq empty

def many1 (p : Char → Bool) : Regex := seq (one p) (many p)

def spaces : Regex := many isSpace

/-- `[a-zA-Z0-9_]+`. -/
def word : Regex := many1 fun c => c.isAlphanum || c = '_'

def digits : Regex := many1 Char.isDigit

end Regex

/-- The text of a group that took part in the match. -/
def Captures.text (m : Captures) (i : Nat) : Option String := m.lookup i

example : ((Regex.concat [.group 1 .word, .spaces, .one (· = '+'), .spaces, .group 2 .digits]).search
    "(ab + 12)").map (fun m => (m.text 1, m.text 2)) = some (some "ab", some "12") := by decide

end Fsmc.Cpp
