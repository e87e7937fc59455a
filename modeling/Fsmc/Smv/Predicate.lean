/-
# Fsmc.Smv.Predicate — names and data predicates in an SMV module.

A name keeps its letters, digits and underscores, and dots and colons become underscores. A predicate is
rewritten as a text: the prefixes of the domains go, guard templates become connectives, C++ operators become
those of SMV, and a decimal fraction is cut off.
-/
import Fsmc.Cpp.Text
import Fsmc.Ir.FsmIr

namespace Fsmc.Smv

open Fsmc.Ir Fsmc.Cpp

/-! ## Names -/

/-- What a character of a name becomes. -/
def smvIdentChar (c : Char) : Option Char :=
  if isIdentChar c then some c else if c = '.' || c = ':' then some '_' else none

def sanitizeSmvIdent (name : String) : String :=
  let res := name.toList.filterMap smvIdentChar
  if res.isEmpty then "ident" else String.ofList res

theorem isIdentChar_of_smvIdentChar {c d : Char} (h : smvIdentChar c = some d) : isIdentChar d = true := by
  unfold smvIdentChar at h
  split at h
  · cases h
    assumption
  · split at h
    · cases h
      rfl
    · cases h

theorem sanitizeSmvIdent_spec (name : String) :
    (sanitizeSmvIdent name).toList ≠ [] ∧ ∀ c ∈ (sanitizeSmvIdent name).toList, isIdentChar c = true := by
  unfold sanitizeSmvIdent
  dsimp only
  split
  · refine ⟨by decide, ?_⟩
    decide
  · rename_i hne
    rw [String.toList_ofList]
    refine ⟨by simpa using hne, fun c hc => ?_⟩
    obtain ⟨b, -, hb⟩ := List.mem_filterMap.mp hc
    exact isIdentChar_of_smvIdentChar hb

/-! ## Predicates -/

/-- Erase a prefix wherever it occurs, as far as a number of turns goes. -/
def eraseAll (pattern : List Char) : ℕ → List Char → List Char
  | 0, text => text
  | _ + 1, [] => []
  | n + 1, c :: text =>
    if pattern <+: c :: text then eraseAll pattern n ((c :: text).drop pattern.length)
    else c :: eraseAll pattern n text

/-- The text up to the bracket that closes one opened before, and what is behind it. -/
def templateBody : ℕ → List Char → Option (List Char × List Char)
  | _, [] => none
  | 0, _ => none
  | depth + 1, c :: text =>
    if c = '>' ∧ depth = 0 then some ([], text)
    else
      (templateBody (if c = '<' then depth + 2 else if c = '>' then depth else depth + 1) text).map fun r =>
        (c :: r.1, r.2)

/-- The arguments of a template, behind those read so far. -/
def templateArgs : ℤ → List Char → List Char → List (List Char)
  | _, [], arg => [arg]
  | depth, c :: text, arg =>
    if c = '<' || c = '(' then templateArgs (depth + 1) text (arg ++ [c])
    else if c = '>' || c = ')' then templateArgs (depth - 1) text (arg ++ [c])
    else if c = ',' && depth = 0 then arg :: templateArgs depth text []
    else templateArgs depth text (arg ++ [c])

/-- An argument without the blanks around it. -/
def trimArg (arg : List Char) : List Char :=
  let blank (c : Char) : Bool := c = ' ' || c = '\t'
  (arg.dropWhile blank).rdropWhile blank

/-- The guard templates, in the order in which they are looked for. -/
def templates : List (List Char × List Char) :=
  [("fsm::not_<".toList, "!".toList), ("fsm::and_<".toList, " & ".toList), ("fsm::or_<".toList, " | ".toList)]

def expandTemplate (op inner : List Char) : List Char :=
  if op = ['!'] then '!' :: '(' :: (inner ++ [')'])
  else '(' :: (op.intercalate ((templateArgs 0 inner []).map trimArg) ++ [')'])

/-- One turn of the loop over the templates: the first one that is there and closed. -/
def expandFirst (text : List Char) : Option (List Char) :=
  templates.findSome? fun template =>
    (findSub template.1 text).bind fun p =>
      (templateBody 1 (text.drop (p + template.1.length))).map fun r =>
        text.take p ++ expandTemplate template.2 r.1 ++ r.2

/-- The loop over the templates; each turn removes one. -/
def expandTemplates : ℕ → List Char → List Char
  | 0, text => text
  | n + 1, text =>
    match expandFirst text with
    | some text => expandTemplates n text
    | none => text

/-- A doubled character becomes a single one. -/
def halve (a : Char) : List Char → List Char
  | c :: d :: text => if c = a ∧ d = a then a :: halve a text else c :: halve a (d :: text)
  | text => text

/-- `regex_replace` of a whole word, behind a character that may be part of a word. -/
def replaceWord (word by' : List Char) : ℕ → Bool → List Char → List Char
  | 0, _, text => text
  | _ + 1, _, [] => []
  | n + 1, inWord, c :: text =>
    if !inWord && word.isPrefixOf (c :: text) && !((c :: text).drop word.length).head?.any isIdentChar then
      by' ++ replaceWord word by' n true ((c :: text).drop word.length)
    else c :: replaceWord word by' n (isIdentChar c) text

/-- `regex_replace` of the decimal fraction of a number. -/
def cutFractions : ℕ → Bool → List Char → List Char
  | 0, _, text => text
  | _ + 1, _, [] => []
  | n + 1, inWord, c :: text =>
    let behind := (c :: text).dropWhile Char.isDigit
    let fraction := (behind.drop 1).takeWhile Char.isDigit
    let rest := (behind.drop 1).dropWhile Char.isDigit
    if !inWord && c.isDigit && behind.head? = some '.' && !fraction.isEmpty && !rest.head?.any isIdentChar then
      (c :: text).takeWhile Char.isDigit ++ cutFractions n true rest
    else c :: cutFractions n (isIdentChar c) text

def toSmvPredicate (expr : String) : String :=
  let stripped := ["in.", "out.", "reg."].foldl (fun s p => eraseAll p.toList (s.length + 1) s) expr.toList
  let expanded := expandTemplates (stripped.length + 1) stripped
  let operators := ['&', '|', '='].foldl (fun s a => halve a s) expanded
  let keywords := replaceWord "false".toList "FALSE".toList (operators.length + 1) false
    (replaceWord "true".toList "TRUE".toList (operators.length + 1) false operators)
  String.ofList (cutFractions (keywords.length + 1) false keywords)

/-! ## Names as predicates -/

variable {text : List Char}

theorem filterMap_smvIdentChar (h : ∀ c ∈ text, isIdentChar c = true) : text.filterMap smvIdentChar = text := by
  induction text with
  | nil => rfl
  | cons c text ih =>
    have hc : smvIdentChar c = some c := if_pos (h c List.mem_cons_self)
    rw [List.filterMap_cons_some hc, ih fun d hd => h d (List.mem_cons_of_mem _ hd)]

theorem sanitizeSmvIdent_self {name : String} (hne : name.toList ≠ [])
    (h : ∀ c ∈ name.toList, isIdentChar c = true) : sanitizeSmvIdent name = name := by
  unfold sanitizeSmvIdent
  rw [filterMap_smvIdentChar h, if_neg (by simpa using hne), String.ofList_toList]

@[simp] theorem sanitizeSmvIdent_idem (name : String) :
    sanitizeSmvIdent (sanitizeSmvIdent name) = sanitizeSmvIdent name :=
  sanitizeSmvIdent_self (sanitizeSmvIdent_spec name).1 (sanitizeSmvIdent_spec name).2

theorem eraseAll_of_notMem {pattern : List Char} {d : Char} (hd : d ∈ pattern) (n : ℕ)
    (h : d ∉ text) : eraseAll pattern n text = text := by
  induction n generalizing text with
  | zero => rfl
  | succ n ih =>
    cases text with
    | nil => rfl
    | cons c text =>
      unfold eraseAll
      rw [if_neg fun hstart => h (hstart.subset hd), ih fun hmem => h (List.mem_cons_of_mem _ hmem)]

theorem halve_of_notMem {a : Char} (h : a ∉ text) : halve a text = text := by
  induction text with
  | nil => rfl
  | cons c text ih =>
    cases text with
    | nil => rfl
    | cons d text =>
      have hfirst : ¬ (c = a ∧ d = a) := by
        rintro ⟨rfl, -⟩
        exact h List.mem_cons_self
      unfold halve
      rw [if_neg hfirst, ih fun hmem => h (List.mem_cons_of_mem _ hmem)]

theorem replaceWord_inside (word by' : List Char) (n : ℕ)
    (h : ∀ c ∈ text, isIdentChar c = true) : replaceWord word by' n true text = text := by
  induction n generalizing text with
  | zero => rfl
  | succ n ih =>
    cases text with
    | nil => rfl
    | cons c text =>
      unfold replaceWord
      rw [if_neg (by simp), h c List.mem_cons_self, ih fun d hd => h d (List.mem_cons_of_mem _ hd)]

theorem replaceWord_name {word by' : List Char} (n : ℕ)
    (h : ∀ c ∈ text, isIdentChar c = true) (hne : text ≠ word) : replaceWord word by' n false text = text := by
  cases n with
  | zero => rfl
  | succ n =>
    cases text with
    | nil => rfl
    | cons c text =>
      have hnot : ¬ ((!false && word.isPrefixOf (c :: text) &&
          !((c :: text).drop word.length).head?.any isIdentChar) = true) := by
        intro hboth
        simp only [Bool.and_eq_true, List.isPrefixOf_iff_prefix, Bool.not_eq_true'] at hboth
        obtain ⟨⟨-, rest, hrest⟩, hend⟩ := hboth
        cases rest with
        | nil => exact hne (by rw [← hrest, List.append_nil])
        | cons d rest =>
          rw [← hrest, List.drop_left] at hend
          have hd : isIdentChar d = true := h d (by rw [← hrest]; simp)
          simp [hd] at hend
      unfold replaceWord
      rw [if_neg hnot, h c List.mem_cons_self,
        replaceWord_inside word by' n fun d hd => h d (List.mem_cons_of_mem _ hd)]

theorem cutFractions_of_notMem (n : ℕ) (inWord : Bool) (h : '.' ∉ text) : cutFractions n inWord text = text := by
  induction n generalizing inWord text with
  | zero => rfl
  | succ n ih =>
    cases text with
    | nil => rfl
    | cons c text =>
      have hbehind : ((c :: text).dropWhile Char.isDigit).head? ≠ some '.' := fun hhead =>
        h ((List.dropWhile_suffix _).subset (List.mem_of_mem_head? hhead))
      unfold cutFractions
      simp only [hbehind, decide_false, Bool.and_false, Bool.false_and, Bool.false_eq_true, if_false]
      rw [ih _ fun hmem => h (List.mem_cons_of_mem _ hmem)]

theorem toSmvPredicate_name {name : String} (h : ∀ c ∈ name.toList, isIdentChar c = true) (htrue : name ≠ "true")
    (hfalse : name ≠ "false") : toSmvPredicate name = name := by
  have hnot : ∀ c, isIdentChar c = false → c ∉ name.toList := by
    intro c hc hmem
    rw [h c hmem] at hc
    exact Bool.noConfusion hc
  have hstripped : ["in.", "out.", "reg."].foldl (fun s p => eraseAll p.toList (s.length + 1) s) name.toList =
      name.toList := by
    simp only [List.foldl_cons, List.foldl_nil]
    have hdot : '.' ∉ name.toList := hnot '.' (by decide)
    rw [eraseAll_of_notMem (by decide +kernel) _ hdot, eraseAll_of_notMem (by decide +kernel) _ hdot,
      eraseAll_of_notMem (by decide +kernel) _ hdot]
  have hexpanded : ∀ n, expandTemplates n name.toList = name.toList := by
    intro n
    have hnone : expandFirst name.toList = none := by
      unfold expandFirst
      rw [List.findSome?_eq_none_iff]
      intro template htemplate
      have hcolon : ':' ∈ template.1 := by
        revert template
        decide +kernel
      rw [findSub_eq_none_of_notMem hcolon (hnot _ (by decide))]
      rfl
    cases n with
    | zero => rfl
    | succ n => rw [expandTemplates, hnone]
  have hwords : ∀ word : String, name ≠ word → name.toList ≠ word.toList := fun word hne heq =>
    hne (String.toList_injective heq)
  unfold toSmvPredicate
  dsimp only
  rw [hstripped, hexpanded]
  simp only [List.foldl_cons, List.foldl_nil]
  rw [halve_of_notMem (hnot '&' (by decide)), halve_of_notMem (hnot '|' (by decide)),
    halve_of_notMem (hnot '=' (by decide)), replaceWord_name _ h (hwords _ htrue),
    replaceWord_name _ h (hwords _ hfalse), cutFractions_of_notMem _ _ (hnot '.' (by decide)),
    String.ofList_toList]

end Fsmc.Smv
