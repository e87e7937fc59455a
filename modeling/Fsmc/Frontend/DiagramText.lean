/-
# Fsmc.Frontend.DiagramText — guard terms as they are shown in diagrams.

The C++ type of a guard is written out as an expression, in which the names of atomic guards are replaced by their
texts. Brackets are put by the kind of the operand in the type, so a text with operators of its own stands in the
expression without them.
-/
import Fsmc.Frontend.GuardParser
import Fsmc.Ir.Guard

namespace Fsmc.Frontend.DiagramText

open Fsmc.Cpp Fsmc.Ir Fsmc.Frontend.PrintedGuards Fsmc.Frontend.GuardParser

/-! ## The text -/

def resolveLeaf (guards : List GuardModel) (name : String) : String :=
  match guards.find? fun g => g.name = name with
  | some g => if g.rawExpression.getD "" = "" then name else g.rawExpression.getD ""
  | none => name

/-- `to_diagram_string`; a text is shorter than the one it is a part of. -/
def diagramText (guards : List GuardModel) : ℕ → String → String
  | 0, raw => raw
  | f + 1, raw =>
    let expr := String.ofList (LtlParser.trim raw.toList)
    -- `starts_with(trim(s), p)`
    let startsTrimmed := fun (s p : String) => startsWith (String.ofList (LtlParser.trim s.toList)) p
    let closed := expr.toList.getLast? = some '>'
    if expr = "" then ""
    else if find expr "fsm::" = none then resolveLeaf guards expr
    else if startsWith expr "fsm::not_<" && closed then
      let inner := innerOf 10 expr
      "!" ++ bracketIf (startsTrimmed inner "fsm::and_<" || startsTrimmed inner "fsm::or_<")
        (diagramText guards f inner)
    else if startsWith expr "fsm::and_<" && closed then
      match commaAt (innerOf 10 expr).toList 0 with
      | some i =>
        let l := substrTo (innerOf 10 expr) i
        let r := substrFrom (innerOf 10 expr) (i + 1)
        bracketIf (startsTrimmed l "fsm::or_<") (diagramText guards f l) ++ " && " ++
          bracketIf (startsTrimmed r "fsm::or_<") (diagramText guards f r)
      | none => resolveLeaf guards expr
    else if startsWith expr "fsm::or_<" && closed then
      match commaAt (innerOf 9 expr).toList 0 with
      | some i => diagramText guards f (substrTo (innerOf 9 expr) i) ++ " || " ++
          diagramText guards f (substrFrom (innerOf 9 expr) (i + 1))
      | none => resolveLeaf guards expr
    else resolveLeaf guards expr

/-- `to_diagram_string`, with as many calls as the text can need. -/
def toDiagramString (guards : List GuardModel) (raw : String) : String := diagramText guards (raw.length + 1) raw

/-! ## Terms -/

/-- A guard term over names. -/
inductive GuardTerm where
  | atom (name : String)
  | not (t : GuardTerm)
  | and (l r : GuardTerm)
  | or (l r : GuardTerm)
  deriving DecidableEq

/-- Whether a term is a disjunction. -/
def GuardTerm.isOr : GuardTerm → Bool
  | or _ _ => true
  | _ => false

/-- Whether a term is a conjunction or a disjunction. -/
def GuardTerm.isConnective : GuardTerm → Bool
  | and _ _ | or _ _ => true
  | _ => false

/-- The name of an atomic guard. -/
structure IsName (name : String) : Prop where
  nonempty : name.toList ≠ []
  chars : ∀ c ∈ name.toList, isBlank c = false ∧ c ≠ '<' ∧ c ≠ '>' ∧ c ≠ ','
  plain : find name "fsm::" = none

/-- How a term is written as a C++ type, with blanks around its parts. -/
inductive Spelled : GuardTerm → List Char → Prop
  | atom {name : String} (h : IsName name) : Spelled (.atom name) name.toList
  | blankLeft {t : GuardTerm} {s : List Char} {c : Char} (hc : isBlank c = true) (h : Spelled t s) : Spelled t (c :: s)
  | blankRight {t : GuardTerm} {s : List Char} {c : Char} (hc : isBlank c = true) (h : Spelled t s) :
      Spelled t (s ++ [c])
  | not {t : GuardTerm} {s : List Char} (h : Spelled t s) :
      Spelled (.not t) ("fsm::not_<".toList ++ (s ++ ['>']))
  | and {l r : GuardTerm} {s s' : List Char} (hl : Spelled l s) (hr : Spelled r s') :
      Spelled (.and l r) ("fsm::and_<".toList ++ (s ++ ',' :: s' ++ ['>']))
  | or {l r : GuardTerm} {s s' : List Char} (hl : Spelled l s) (hr : Spelled r s') :
      Spelled (.or l r) ("fsm::or_<".toList ++ (s ++ ',' :: s' ++ ['>']))

/-- The text of a term with the texts of its atoms. -/
def GuardTerm.text (texts : String → String) : GuardTerm → String
  | atom name => texts name
  | not t => "!" ++ bracketIf t.isConnective (t.text texts)
  | and l r => bracketIf l.isOr (l.text texts) ++ " && " ++ bracketIf r.isOr (r.text texts)
  | or l r => l.text texts ++ " || " ++ r.text texts

/-- The Boolean function of a term with the texts of its atoms. -/
noncomputable def GuardTerm.holds (texts : String → String) (M : Meaning) : GuardTerm → Bool
  | atom name => textHolds .cpp M (texts name)
  | not t => !t.holds texts M
  | and l r => l.holds texts M && r.holds texts M
  | or l r => l.holds texts M || r.holds texts M

/-- The text of the term can be read, and means what the term means. -/
def DenotesTerm (guards : List GuardModel) (t : GuardTerm) (raw : String) : Prop :=
  (∃ e, ReadsAs .cpp 1 (toDiagramString guards raw) e) ∧
    ∀ M, textHolds .cpp M (toDiagramString guards raw) = t.holds (resolveLeaf guards) M

/-- The texts of the atoms bind at least as strongly as their places need: those under a negation are operands of
one, those under a conjunction have no disjunction outside brackets. -/
def LeavesFit (texts : String → String) : ℕ → GuardTerm → Prop
  | n, .atom name => ∃ e, ReadsAs .cpp n (texts name) e
  | _, .not (.atom name) => IsOperand .cpp (texts name)
  | _, .not t => LeavesFit texts 1 t
  | _, .and l r => LeavesFit texts 2 l ∧ LeavesFit texts 2 r
  | _, .or l r => LeavesFit texts 1 l ∧ LeavesFit texts 1 r

/-! ## What is shown of a term -/

theorem trim_cons_blank {c : Char} (hc : isBlank c = true) (s : List Char) :
    LtlParser.trim (c :: s) = LtlParser.trim s := by
  rw [trim_eq, trim_eq, List.dropWhile_cons_of_pos hc]

theorem trim_concat_blank {c : Char} (hc : isBlank c = true) (s : List Char) :
    LtlParser.trim (s ++ [c]) = LtlParser.trim s := by
  rw [trim_eq, trim_eq, List.dropWhile_append]
  split
  · next hnil =>
      rw [List.isEmpty_iff.mp hnil, List.dropWhile_cons_of_pos hc]
      rfl
  · exact List.rdropWhile_concat_pos _ _ _ hc

variable {s : List Char} {t : GuardTerm}

theorem trim_of_ends (hfirst : ∀ c ∈ s.head?, isBlank c = false)
    (hlast : ∀ c ∈ s.getLast?, isBlank c = false) : LtlParser.trim s = s := by
  have h := trim_padded (List.forall_mem_nil _) (List.forall_mem_nil _) hfirst hlast
  rwa [List.nil_append, List.append_nil] at h

theorem trim_compound {word s : List Char} (hword : word.head?.any (fun c => !isBlank c) = true) :
    LtlParser.trim (word ++ (s ++ ['>'])) = word ++ (s ++ ['>']) := by
  obtain ⟨d, hd, hblank⟩ := (Option.any_eq_true _ _).mp hword
  refine trim_of_ends ?_ ?_
  · rw [List.head?_append, hd]
    intro c hc
    obtain rfl := Option.some.inj hc
    rwa [Bool.not_eq_true'] at hblank
  · rw [← List.append_assoc, List.getLast?_concat]
    intro c hc
    obtain rfl := Option.some.inj hc
    rfl

theorem diagramText_congr (guards : List GuardModel) (f : ℕ) {s s' : List Char}
    (h : LtlParser.trim s = LtlParser.trim s') :
    diagramText guards (f + 1) (String.ofList s) = diagramText guards (f + 1) (String.ofList s') := by
  rw [diagramText, diagramText]
  simp only [String.toList_ofList, h]

theorem commaAt_plain {cs : List Char} (h : ∀ c ∈ cs, c ≠ '<' ∧ c ≠ '>' ∧ c ≠ ',') (rest : List Char) (depth : ℤ) :
    commaAt (cs ++ rest) depth = (commaAt rest depth).map (· + cs.length) := by
  induction cs with
  | nil => simp
  | cons c cs ih =>
    obtain ⟨hopen, hclose, hcomma⟩ := h c List.mem_cons_self
    rw [List.cons_append, commaAt, if_neg hopen, if_neg hclose, if_neg fun hc => hcomma hc.1,
      ih fun d hd => h d (List.mem_cons_of_mem _ hd), Option.map_map]
    rfl

theorem commaAt_open (rest : List Char) (depth : ℤ) :
    commaAt ('<' :: rest) depth = (commaAt rest (depth + 1)).map (· + 1) := by
  rw [commaAt, if_pos rfl]

theorem commaAt_close (rest : List Char) (depth : ℤ) :
    commaAt ('>' :: rest) depth = (commaAt rest (depth - 1)).map (· + 1) := by
  rw [commaAt, if_neg (by decide), if_pos rfl]

theorem commaAt_comma (rest : List Char) {depth : ℤ} (h : depth ≠ 0) :
    commaAt (',' :: rest) depth = (commaAt rest depth).map (· + 1) := by
  rw [commaAt, if_neg (by decide), if_neg (by decide), if_neg fun hc => h hc.2]

theorem isBlank_plain {c : Char} (hc : isBlank c = true) : c ≠ '<' ∧ c ≠ '>' ∧ c ≠ ',' := by
  rcases isBlank_cases hc with rfl | rfl | rfl | rfl <;> decide

theorem commaAt_bracket {word inner : List Char} (hword : ∀ c ∈ word, c ≠ '<' ∧ c ≠ '>' ∧ c ≠ ',') {depth : ℤ}
    (hinner : ∀ rest, commaAt (inner ++ rest) (depth + 1) = (commaAt rest (depth + 1)).map (· + inner.length))
    (rest : List Char) : commaAt ((word ++ ['<']) ++ (inner ++ ['>']) ++ rest) depth =
      (commaAt rest depth).map (· + ((word ++ ['<']) ++ (inner ++ ['>'])).length) := by
  have hsplit : (word ++ ['<']) ++ (inner ++ ['>']) ++ rest = word ++ ('<' :: (inner ++ '>' :: rest)) := by simp
  rw [hsplit, commaAt_plain hword, commaAt_open, hinner, commaAt_close, add_sub_cancel_right]
  simp only [Option.map_map]
  congr 1
  funext i
  simp only [Function.comp, List.length_append, List.length_singleton]
  omega

theorem commaAt_pair {s s' : List Char} {depth : ℤ}
    (hs : ∀ rest, commaAt (s ++ rest) depth = (commaAt rest depth).map (· + s.length))
    (hs' : ∀ rest, commaAt (s' ++ rest) depth = (commaAt rest depth).map (· + s'.length)) (hdepth : depth ≠ 0)
    (rest : List Char) : commaAt ((s ++ ',' :: s') ++ rest) depth =
      (commaAt rest depth).map (· + (s ++ ',' :: s').length) := by
  rw [List.append_assoc, List.cons_append, hs, commaAt_comma _ hdepth, hs']
  simp only [Option.map_map]
  congr 1
  funext i
  simp only [Function.comp, List.length_append, List.length_cons]
  omega

theorem Spelled.commaAt (h : Spelled t s) : ∀ (rest : List Char) {depth : ℤ},
    0 ≤ depth → GuardParser.commaAt (s ++ rest) depth = (GuardParser.commaAt rest depth).map (· + s.length) := by
  induction h with
  | atom h => exact fun rest depth _ => commaAt_plain (fun c hc => (h.chars c hc).2) rest depth
  | @blankLeft t s c hc _ ih =>
    intro rest depth hdepth
    have hone := @commaAt_plain [c] (fun d hd => by rw [List.mem_singleton.mp hd]; exact isBlank_plain hc)
      (s ++ rest) depth
    rw [List.cons_append]
    refine hone.trans ?_
    rw [ih rest hdepth, Option.map_map]
    congr 1
  | @blankRight t s c hc _ ih =>
    intro rest depth hdepth
    have hone := @commaAt_plain [c] (fun d hd => by rw [List.mem_singleton.mp hd]; exact isBlank_plain hc)
      rest depth
    rw [List.append_assoc, ih _ hdepth, hone, Option.map_map]
    congr 1
    funext i
    simp only [Function.comp, List.length_append, List.length_singleton]
    omega
  | not _ ih =>
    exact fun rest depth hdepth => @commaAt_bracket "fsm::not_".toList _ (by decide) _
      (fun rest => ih rest (by omega)) rest
  | @and l r s s' _ _ ihl ihr =>
    exact fun rest depth hdepth => @commaAt_bracket "fsm::and_".toList _ (by decide) _
      (commaAt_pair (fun rest => ihl rest (by omega)) (fun rest => ihr rest (by omega)) (by omega)) rest
  | @or l r s s' _ _ ihl ihr =>
    exact fun rest depth hdepth => @commaAt_bracket "fsm::or_".toList _ (by decide) _
      (commaAt_pair (fun rest => ihl rest (by omega)) (fun rest => ihr rest (by omega)) (by omega)) rest

theorem Spelled.commaAt_pair {l : GuardTerm} (h : Spelled l s) (s' : List Char) :
    GuardParser.commaAt (s ++ ',' :: s') 0 = some s.length := by
  rw [h.commaAt _ le_rfl, GuardParser.commaAt, if_neg (by decide), if_neg (by decide), if_pos ⟨rfl, rfl⟩]
  simp

/-! ## What a term starts with -/

theorem find_of_prefix (rest : List Char) : find (String.ofList ("fsm::".toList ++ rest)) "fsm::" ≠ none := by
  have hfind := @findSub_append "fsm::".toList rest (by decide) [] (by simp)
  have htext : (String.ofList ("fsm::".toList ++ rest)).toList = "fsm::".toList ++ rest := String.toList_ofList
  unfold find
  rw [htext]
  exact ne_of_eq_of_ne hfind (Option.some_ne_none _)

theorem startsWith_ofList (cs : List Char) (p : String) : startsWith (String.ofList cs) p = p.toList.isPrefixOf cs :=
  congrArg p.toList.isPrefixOf String.toList_ofList

theorem startsWith_of_plain {name : String} (h : find name "fsm::" = none) (word : List Char) :
    startsWith name (String.ofList ("fsm::".toList ++ word)) = false := by
  rw [Bool.eq_false_iff]
  intro hstart
  unfold startsWith at hstart
  rw [String.toList_ofList, List.isPrefixOf_iff_prefix] at hstart
  obtain ⟨rest, hrest⟩ := hstart
  refine find_of_prefix (word ++ rest) ?_
  rw [← List.append_assoc, hrest, String.ofList_toList]
  exact h

theorem Spelled.starts (h : Spelled t s) : startsWith (String.ofList (LtlParser.trim s)) "fsm::or_<" = t.isOr ∧
      (startsWith (String.ofList (LtlParser.trim s)) "fsm::and_<" ||
        startsWith (String.ofList (LtlParser.trim s)) "fsm::or_<") = t.isConnective := by
  induction h with
  | @atom name h =>
    have htrim : LtlParser.trim name.toList = name.toList :=
      trim_of_ends (fun c hc => (h.chars c (List.mem_of_mem_head? hc)).1)
        fun c hc => (h.chars c (List.mem_of_getLast? hc)).1
    have hor : startsWith name "fsm::or_<" = false := startsWith_of_plain h.plain "or_<".toList
    have hand : startsWith name "fsm::and_<" = false := startsWith_of_plain h.plain "and_<".toList
    rw [htrim, String.ofList_toList, hor, hand]
    exact ⟨rfl, rfl⟩
  | blankLeft hc _ ih => rwa [trim_cons_blank hc]
  | blankRight hc _ ih => rwa [trim_concat_blank hc]
  | not _ _ =>
    rw [trim_compound (by decide), startsWith_ofList, startsWith_ofList]
    exact ⟨rfl, rfl⟩
  | and _ _ _ _ =>
    rw [trim_compound (by decide), startsWith_ofList, startsWith_ofList]
    exact ⟨rfl, rfl⟩
  | or _ _ _ _ =>
    rw [trim_compound (by decide), startsWith_ofList, startsWith_ofList]
    exact ⟨rfl, rfl⟩

theorem innerOf_compound {word inner : List Char} {n : ℕ} (hn : word.length = n) :
    innerOf n (String.ofList (word ++ (inner ++ ['>']))) = String.ofList inner := by
  unfold innerOf
  rw [String.toList_ofList, List.drop_append_of_le_length (by omega), List.drop_eq_nil_of_le (by omega),
    List.nil_append, List.dropLast_concat]

theorem ofList_ne_empty {c : Char} {cs : List Char} : String.ofList (c :: cs) ≠ "" := by
  intro h
  have hlist := congrArg String.toList h
  rw [String.toList_ofList] at hlist
  cases hlist

theorem closed_compound (word inner : List Char) :
    (String.ofList (word ++ (inner ++ ['>']))).toList.getLast? = some '>' := by
  rw [String.toList_ofList, ← List.append_assoc, List.getLast?_concat]

theorem substrTo_pair (s s' : List Char) : substrTo (String.ofList (s ++ ',' :: s')) s.length = String.ofList s := by
  unfold substrTo
  rw [String.toList_ofList, List.take_left]

theorem substrFrom_pair (s s' : List Char) :
    substrFrom (String.ofList (s ++ ',' :: s')) (s.length + 1) = String.ofList s' := by
  unfold substrFrom
  rw [String.toList_ofList, ← List.drop_drop, List.drop_left]
  rfl

/-- **What is shown of a term** is its text. -/
theorem Spelled.diagramText_eq (guards : List GuardModel) (h : Spelled t s) :
    ∀ {f : ℕ}, s.length < f → diagramText guards f (String.ofList s) = t.text (resolveLeaf guards) := by
  induction h with
  | @atom name h =>
    intro f hf
    obtain ⟨f, rfl⟩ : ∃ g, f = g + 1 := ⟨f - 1, by omega⟩
    have htrim : LtlParser.trim name.toList = name.toList :=
      trim_of_ends (fun c hc => (h.chars c (List.mem_of_mem_head? hc)).1)
        fun c hc => (h.chars c (List.mem_of_getLast? hc)).1
    have hne : name ≠ "" := fun heq => h.nonempty (by rw [heq]; rfl)
    rw [diagramText]
    simp only [htrim, String.ofList_toList]
    rw [if_neg hne, if_pos h.plain]
    rfl
  | @blankLeft t s c hc _ ih =>
    intro f hf
    obtain ⟨f, rfl⟩ : ∃ g, f = g + 1 := ⟨f - 1, by omega⟩
    rw [diagramText_congr guards f (trim_cons_blank hc s)]
    exact ih (by rw [List.length_cons] at hf; omega)
  | @blankRight t s c hc _ ih =>
    intro f hf
    obtain ⟨f, rfl⟩ : ∃ g, f = g + 1 := ⟨f - 1, by omega⟩
    rw [diagramText_congr guards f (trim_concat_blank hc s)]
    exact ih (by rw [List.length_append] at hf; omega)
  | @not t s h ih =>
    intro f hf
    obtain ⟨f, rfl⟩ : ∃ g, f = g + 1 := ⟨f - 1, by omega⟩
    have hne : String.ofList ("fsm::not_<".toList ++ (s ++ ['>'])) ≠ "" := ofList_ne_empty
    have hfind : find (String.ofList ("fsm::not_<".toList ++ (s ++ ['>']))) "fsm::" ≠ none := find_of_prefix _
    have hinner : innerOf 10 (String.ofList ("fsm::not_<".toList ++ (s ++ ['>']))) = String.ofList s :=
      innerOf_compound (by decide)
    have hnot : startsWith (String.ofList ("fsm::not_<".toList ++ (s ++ ['>']))) "fsm::not_<" = true :=
      startsWith_ofList _ _
    have hclosed := closed_compound "fsm::not_<".toList s
    rw [diagramText]
    simp only [String.toList_ofList (l := "fsm::not_<".toList ++ (s ++ ['>'])),
      @trim_compound "fsm::not_<".toList s (by decide)]
    rw [String.toList_ofList] at hclosed
    rw [if_neg hne, if_neg hfind, hnot, hclosed, if_pos (by decide), hinner, String.toList_ofList, h.starts.2,
      ih (by simp at hf; omega)]
    rfl
  | @and l r s s' hl hr ihl ihr =>
    intro f hf
    obtain ⟨f, rfl⟩ : ∃ g, f = g + 1 := ⟨f - 1, by omega⟩
    have hne : String.ofList ("fsm::and_<".toList ++ (s ++ ',' :: s' ++ ['>'])) ≠ "" := ofList_ne_empty
    have hfind : find (String.ofList ("fsm::and_<".toList ++ (s ++ ',' :: s' ++ ['>']))) "fsm::" ≠ none :=
      find_of_prefix _
    have hinner : innerOf 10 (String.ofList ("fsm::and_<".toList ++ (s ++ ',' :: s' ++ ['>']))) =
        String.ofList (s ++ ',' :: s') := innerOf_compound (by decide)
    have hnot : startsWith (String.ofList ("fsm::and_<".toList ++ (s ++ ',' :: s' ++ ['>']))) "fsm::not_<" = false :=
      startsWith_ofList _ _
    have hand : startsWith (String.ofList ("fsm::and_<".toList ++ (s ++ ',' :: s' ++ ['>']))) "fsm::and_<" = true :=
      startsWith_ofList _ _
    have hclosed := closed_compound "fsm::and_<".toList (s ++ ',' :: s')
    rw [diagramText]
    simp only [String.toList_ofList (l := "fsm::and_<".toList ++ (s ++ ',' :: s' ++ ['>'])),
      @trim_compound "fsm::and_<".toList (s ++ ',' :: s') (by decide)]
    rw [String.toList_ofList] at hclosed
    rw [if_neg hne, if_neg hfind, hnot, hand, hclosed, if_neg (by decide), if_pos (by decide), hinner,
      String.toList_ofList, hl.commaAt_pair]
    dsimp only
    rw [substrTo_pair, substrFrom_pair, String.toList_ofList, String.toList_ofList, hl.starts.1, hr.starts.1,
      ihl (by simp at hf; omega), ihr (by simp at hf; omega)]
    rfl
  | @or l r s s' hl hr ihl ihr =>
    intro f hf
    obtain ⟨f, rfl⟩ : ∃ g, f = g + 1 := ⟨f - 1, by omega⟩
    have hne : String.ofList ("fsm::or_<".toList ++ (s ++ ',' :: s' ++ ['>'])) ≠ "" := ofList_ne_empty
    have hfind : find (String.ofList ("fsm::or_<".toList ++ (s ++ ',' :: s' ++ ['>']))) "fsm::" ≠ none :=
      find_of_prefix _
    have hinner : innerOf 9 (String.ofList ("fsm::or_<".toList ++ (s ++ ',' :: s' ++ ['>']))) =
        String.ofList (s ++ ',' :: s') := innerOf_compound (by decide)
    have hnot : startsWith (String.ofList ("fsm::or_<".toList ++ (s ++ ',' :: s' ++ ['>']))) "fsm::not_<" = false :=
      startsWith_ofList _ _
    have hand : startsWith (String.ofList ("fsm::or_<".toList ++ (s ++ ',' :: s' ++ ['>']))) "fsm::and_<" = false :=
      startsWith_ofList _ _
    have hor : startsWith (String.ofList ("fsm::or_<".toList ++ (s ++ ',' :: s' ++ ['>']))) "fsm::or_<" = true :=
      startsWith_ofList _ _
    have hclosed := closed_compound "fsm::or_<".toList (s ++ ',' :: s')
    rw [diagramText]
    simp only [String.toList_ofList (l := "fsm::or_<".toList ++ (s ++ ',' :: s' ++ ['>'])),
      @trim_compound "fsm::or_<".toList (s ++ ',' :: s') (by decide)]
    rw [String.toList_ofList] at hclosed
    rw [if_neg hne, if_neg hfind, hnot, hand, hor, hclosed, if_neg (by decide), if_neg (by decide),
      if_pos (by decide), hinner, String.toList_ofList, hl.commaAt_pair]
    dsimp only
    rw [substrTo_pair, substrFrom_pair, ihl (by simp at hf; omega), ihr (by simp at hf; omega)]
    rfl

/-! ## What the text means -/

/-- The level that the text of a term has by itself. -/
def GuardTerm.level : GuardTerm → ℕ
  | or _ _ => 1
  | and _ _ => 2
  | _ => 11

theorem GuardTerm.one_le_level (t : GuardTerm) : 1 ≤ t.level := by
  cases t <;> simp [GuardTerm.level]

theorem not_isOr_level (h : t.isOr = false) : 2 ≤ t.level := by
  cases t with
  | or _ _ => cases h
  | atom _ | not _ | and _ _ => simp [GuardTerm.level]

theorem readsAs_connective (underAnd : Bool) {a b : String} {x y : Expr} (hx : ReadsAs .cpp (levelOf underAnd) a x)
    (hy : ReadsAs .cpp (levelOf underAnd) b y) :
    ∃ c, ReadsAs .cpp (levelOf underAnd) (a ++ (if underAnd then " && " else " || ") ++ b) c ∧
      ∀ M, truth .cpp M c = connect underAnd (truth .cpp M x) (truth .cpp M y) := by
  have htext : a ++ (if underAnd then " && " else " || ") ++ b =
      a ++ ((" " ++ (if underAnd then Lang.cpp.and else Lang.cpp.or) ++ " ") ++ b) := by
    rw [String.append_assoc]
    cases underAnd <;> rfl
  rw [htext]
  exact hx.connect hy

variable {texts : String → String}

theorem reads_text : ∀ (t : GuardTerm) (n : ℕ), LeavesFit texts n t → 1 ≤ n → n ≤ t.level →
    ∃ e, ReadsAs .cpp n (t.text texts) e ∧ ∀ M, truth .cpp M e = t.holds texts M
  | .atom name, n, hfit, hlow, hhigh => by
    obtain ⟨e, he⟩ := hfit
    exact ⟨e, he, fun M => (textHolds_eq he hlow hhigh).symm⟩
  | .not (.atom name), n, hfit, _, hhigh => by
    obtain ⟨hhead, e, he⟩ := hfit
    refine ⟨.unary "!" e, (he.negated hhead).lower hhigh le_rfl, fun M => ?_⟩
    rw [truth_not, ← textHolds_eq he (by omega) le_rfl]
    rfl
  | .not (.not t), n, hfit, _, hhigh => by
    have hinner : LeavesFit texts 11 (.not t) := by
      unfold LeavesFit at hfit
      cases t <;> exact hfit
    obtain ⟨e, he, htruth⟩ := reads_text (.not t) 11 hinner (by omega) le_rfl
    have hhead : ((GuardTerm.not t).text texts).toList.head? ≠ some '=' := by
      rw [GuardTerm.text, String.toList_append]
      exact fun h => absurd (Option.some.inj h) (by decide)
    refine ⟨.unary "!" e, (he.negated hhead).lower hhigh le_rfl, fun M => ?_⟩
    rw [truth_not, htruth]
    rfl
  | .not (.and l r), n, hfit, _, hhigh => by
    obtain ⟨e, he, htruth⟩ := reads_text (.and l r) 1 hfit le_rfl (GuardTerm.one_le_level _)
    exact negated_bracket he htruth hhigh
  | .not (.or l r), n, hfit, _, hhigh => by
    obtain ⟨e, he, htruth⟩ := reads_text (.or l r) 1 hfit le_rfl le_rfl
    exact negated_bracket he htruth hhigh
  | .and l r, n, hfit, hlow, hhigh => by
    obtain ⟨x, hx, htruthx⟩ := bracketed_operand l hfit.1 (reads_text l)
    obtain ⟨y, hy, htruthy⟩ := bracketed_operand r hfit.2 (reads_text r)
    obtain ⟨c, hc, htruth⟩ := readsAs_connective true hx hy
    refine ⟨c, hc.lower hhigh (by decide), fun M => ?_⟩
    rw [htruth, htruthx, htruthy]
    rfl
  | .or l r, n, hfit, hlow, hhigh => by
    obtain ⟨x, hx, htruthx⟩ := reads_text l 1 hfit.1 le_rfl l.one_le_level
    obtain ⟨y, hy, htruthy⟩ := reads_text r 1 hfit.2 le_rfl r.one_le_level
    obtain ⟨c, hc, htruth⟩ := readsAs_connective false hx hy
    refine ⟨c, hc.lower hhigh (by decide), fun M => ?_⟩
    rw [htruth, htruthx, htruthy]
    rfl
where
  negated_bracket {t : GuardTerm} {e : Expr} {n : ℕ} (he : ReadsAs .cpp 1 (t.text texts) e)
      (htruth : ∀ M, truth .cpp M e = t.holds texts M) (hn : n ≤ 11) :
      ∃ e, ReadsAs .cpp n ("!" ++ bracketIf true (t.text texts)) e ∧ ∀ M, truth .cpp M e = !t.holds texts M := by
    have hhead : ("(" ++ t.text texts ++ ")").toList.head? ≠ some '=' := by
      rw [String.toList_append, String.toList_append]
      exact fun h => absurd (Option.some.inj h) (by decide)
    refine ⟨.unary "!" e, (he.bracketed.negated hhead).lower hn le_rfl, fun M => ?_⟩
    rw [truth_not, htruth]
  bracketed_operand (t : GuardTerm) (hfit : LeavesFit texts 2 t)
      (hreads : ∀ n, LeavesFit texts n t → 1 ≤ n → n ≤ t.level →
        ∃ e, ReadsAs .cpp n (t.text texts) e ∧ ∀ M, truth .cpp M e = t.holds texts M) :
      ∃ e, ReadsAs .cpp 2 (bracketIf t.isOr (t.text texts)) e ∧ ∀ M, truth .cpp M e = t.holds texts M := by
    cases hor : t.isOr with
    | true =>
      have hone : LeavesFit texts 1 t := by
        cases t with
        | or _ _ => exact hfit
        | atom _ | not _ | and _ _ => cases hor
      obtain ⟨e, he, htruth⟩ := hreads 1 hone le_rfl t.one_le_level
      exact ⟨e, he.bracketed.lower (by decide) le_rfl, htruth⟩
    | false => exact hreads 2 hfit (by decide) (not_isOr_level hor)

/-- **Where the texts of the atoms bind strongly enough**, what is shown of a guard term means what the term means. -/
theorem denotesTerm_of_leavesFit (guards : List GuardModel) (t : GuardTerm) (raw : String) (h : Spelled t raw.toList)
    (hfit : LeavesFit (resolveLeaf guards) 1 t) : DenotesTerm guards t raw := by
  have htext : toDiagramString guards raw = t.text (resolveLeaf guards) := by
    have hshown := h.diagramText_eq guards (f := raw.length + 1) (by rw [String.length_toList]; omega)
    rwa [String.ofList_toList] at hshown
  obtain ⟨e, he, htruth⟩ := reads_text t 1 hfit le_rfl t.one_le_level
  rw [DenotesTerm, htext]
  refine ⟨⟨e, he⟩, fun M => ?_⟩
  rw [textHolds_eq he le_rfl (by decide), htruth]

/-! ## A term whose text fits and one whose text does not -/

def guarded (name text : String) : GuardModel := { name := name, rawExpression := some text }

/-- A disjunction of a disjunction, under a negation. -/
theorem disjunction_denoted :
    DenotesTerm [guarded "busy" "a || b"] (.not (.or (.atom "busy") (.atom "c"))) "fsm::not_<fsm::or_<busy, c>>" := by
  have hname : ∀ name : String, name = "busy" ∨ name = "c" → IsName name := by
    rintro name (rfl | rfl) <;> exact ⟨by decide +kernel, by decide +kernel, by decide +kernel⟩
  have hbusy : Spelled (.atom "busy") "busy".toList := .atom (hname _ (Or.inl rfl))
  have hc : Spelled (.atom "c") (' ' :: "c".toList) := .blankLeft rfl (.atom (hname _ (Or.inr rfl)))
  have htext : "fsm::not_<fsm::or_<busy, c>>".toList = "fsm::not_<".toList ++
      (("fsm::or_<".toList ++ ("busy".toList ++ ',' :: (' ' :: "c".toList) ++ ['>'])) ++ ['>']) := by
    decide +kernel
  refine denotesTerm_of_leavesFit _ _ _ (by rw [htext]; exact .not (.or hbusy hc)) ⟨?_, ?_⟩
  · obtain ⟨e, he, -⟩ := readsAs_or
    exact ⟨e, he⟩
  · exact ⟨.word "c", (readsAs_word (show lex "c" = [.word "c"] by decide +kernel)).lower (by decide) le_rfl⟩

/-- The comparison `a == b` is negated without brackets, and `!a == b` compares the negation of `a`. -/
theorem comparison_not_denoted :
    Spelled (.not (.atom "same")) "fsm::not_<same>".toList ∧ (∃ e, ReadsAs .cpp 1 "a == b" e) ∧
      ¬ DenotesTerm [guarded "same" "a == b"] (.not (.atom "same")) "fsm::not_<same>" := by
  have hword : ∀ w : String, Reads .cpp none 11 [.word w] (.word w) [] := fun w =>
    .operand (fun _ _ h => by simp at h) (.word fun _ h => by simp at h)
  have hcompared : ∀ {A : List Tok} {e : Expr}, Reads .cpp none 11 A e [] →
      Reads .cpp none 1 (A ++ .op "==" :: [.word "b"]) (.binary "==" e (.word "b")) [] := by
    intro A e hA
    have hwhole : Reads .cpp none 6 _ _ [] :=
      .infixed (by decide) (show "==" ∈ Lang.cpp.ops 6 by decide) (hA.lower (by decide) le_rfl)
        ((hword "b").lower (by decide) le_rfl)
    exact hwhole.lower (by decide) (by decide)
  have hraw : ReadsAs .cpp 1 "a == b" (.binary "==" (.word "a") (.word "b")) := by
    have hlex : lex "a == b" = [Tok.word "a"] ++ .op "==" :: [.word "b"] := by decide +kernel
    rw [ReadsAs, hlex]
    exact hcompared (hword "a")
  have hshown : ReadsAs .cpp 1 "!a == b" (.binary "==" (.unary "!" (.word "a")) (.word "b")) := by
    have hlex : lex "!a == b" = [Tok.op "!", .word "a"] ++ .op "==" :: [.word "b"] := by decide +kernel
    rw [ReadsAs, hlex]
    exact hcompared (.prefixed (by decide) (hword "a"))
  have hname : IsName "same" := ⟨by decide +kernel, by decide +kernel, by decide +kernel⟩
  refine ⟨.not (.atom hname), ⟨_, hraw⟩, fun hdenotes => ?_⟩
  -- A comparison that always holds.
  let M : Meaning := ⟨fun _ => 0, fun _ _ => 0, fun _ _ => 0, fun _ _ _ => 1⟩
  have htext : toDiagramString [guarded "same" "a == b"] "fsm::not_<same>" = "!a == b" := by decide +kernel
  have hholds : (GuardTerm.not (.atom "same")).holds (resolveLeaf [guarded "same" "a == b"]) M = false := by
    show (!textHolds .cpp M "a == b") = false
    rw [textHolds_eq hraw le_rfl (by decide)]
    rfl
  have hsame := hdenotes.2 M
  rw [htext, hholds, textHolds_eq hshown le_rfl (by decide)] at hsame
  exact absurd hsame (by decide)

end Fsmc.Frontend.DiagramText
