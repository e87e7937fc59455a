/-
# Fsmc.Analysis.ComparisonSearch — what the patterns find in a comparison.

A comparison of a variable with a number or a truth value, in this order, is read as it stands: as the variable
without its qualifier and as the interval of its operator. Brackets around it are passed over.
-/
import Fsmc.Analysis.GuardComparisons

namespace Fsmc.Analysis.GuardSatisfiability

open Fsmc.Cpp Fsmc.Ir

/-! ## The search in a comparison -/

section Search

open Regex

variable {text rest s : List Char}

def EndsWord (rest : List Char) : Prop := ∀ c ∈ rest.head?, isWordChar c = false

theorem first_identifier {name : List Char} (h : IsIdentifier name) (hrest : EndsWord rest) :
    First identifier (name ++ rest) [] rest := by
  obtain ⟨c, cs, rfl, hc⟩ := h.first
  exact First.seq (First.one hc) (First.many (fun d hd => h.chars d (List.mem_cons_of_mem _ hd)) hrest)

theorem qualifierWords_word : ∀ w ∈ qualifierWords, w.toList ≠ [] ∧ ∀ c ∈ w.toList, isWordChar c = true := by
  decide +kernel

theorem suffixChar {c : Char} (h : EfsmInterval.isSuffixChar c = true) :
    isWordChar c = true ∧ c.isDigit = false ∧ c ≠ '.' ∧ c ≠ '&' ∧ c ≠ 'd' := by
  have hall : ∀ c ∈ "fFuUlL".toList,
      isWordChar c = true ∧ c.isDigit = false ∧ c ≠ '.' ∧ c ≠ '&' ∧ c ≠ 'd' := by decide +kernel
  exact hall c (of_decide_eq_true h)

theorem first_qualifier {w : String} (h : w ∈ qualifierWords) (rest : List Char) :
    First qualifier (w.toList ++ '.' :: rest) [] rest := by
  have hdot : First (.one (· = '.')) ('.' :: rest) [] rest := First.one (decide_eq_true rfl)
  refine First.opt (First.seq (First.oneOf h fun w' hw' hpart => ?_) hdot)
  have hall : ∀ w ∈ qualifierWords, '.' ∉ w.toList ∧
      ∀ w' ∈ qualifierWords.takeWhile (· ≠ w), ¬w'.toList <+: w.toList := by decide +kernel
  have hmem : w' ∈ qualifierWords := (List.takeWhile_sublist _).subset hw'
  exact (hall w h).2 w' hw' (prefix_of_prefix_append hpart (hall w' hmem).1)

theorem first_qualifier_none {name : List Char} (hname : ∀ c ∈ name, isWordChar c = true) (hrest : EndsWord rest)
    (hdot : rest.head? ≠ some '.') : First qualifier (name ++ rest) [] (name ++ rest) := by
  refine First.optNone (ends_eq_nil ?_)
  rintro used more htext ⟨u, v, rfl, hu, d, rfl, hd⟩
  obtain rfl := of_decide_eq_true hd
  obtain ⟨w, hw, rfl⟩ := matches_oneOf.mp hu
  have hname' : (name ++ rest).takeWhile isWordChar = name := by
    rw [List.takeWhile_append_of_pos hname]
    cases rest with
    | nil => exact List.append_nil _
    | cons c rest =>
      rw [List.takeWhile_cons_of_neg (by rw [hrest c rfl]; decide)]
      exact List.append_nil _
  have hsplit : name ++ rest = w.toList ++ '.' :: more := by rw [htext, List.append_assoc]; rfl
  rw [hsplit, List.takeWhile_append_of_pos (qualifierWords_word w hw).2, List.takeWhile_cons_of_neg (by decide),
    List.append_nil] at hname'
  rw [hname'] at hsplit
  rw [List.append_cancel_left hsplit] at hdot
  exact hdot rfl

example : (oneOf operators).ends "<= 30".toList = [([], " 30".toList), ([], "= 30".toList)] := by decide +kernel

theorem first_comparator (op : Comparator) (hrest : rest.head? ≠ some '=') :
    First (oneOf operators) (op.text.toList ++ rest) [] rest := by
  have hmem : op.text ∈ operators := by cases op <;> decide +kernel
  refine First.oneOf hmem fun w hw hfront => ?_
  -- the words before an operator start otherwise, or have two characters
  have hall : ∀ w ∈ operators.takeWhile (· ≠ op.text), w.toList ≠ [] ∧ (w.toList.head? = op.text.toList.head? →
      w.toList.length = 2 ∧ w.toList.getLast? = some '=' ∧ w.toList ≠ op.text.toList) := by
    cases op <;> decide +kernel
  have hhead : w.toList.head? = op.text.toList.head? := by
    obtain ⟨more, hmore⟩ := hfront
    have hnonempty : op.text.toList ≠ [] := by cases op <;> decide
    rw [← List.head?_append_of_ne_nil _ (hall w hw).1, hmore, List.head?_append_of_ne_nil _ hnonempty]
  obtain ⟨hlength, hlast, hne⟩ := (hall w hw).2 hhead
  have htake : w.toList = (op.text.toList ++ rest).take 2 := by
    rw [← hlength]
    exact List.prefix_iff_eq_take.mp hfront
  have hop : op.text.toList.length = 2 ∨ ∃ c, op.text.toList = [c] := by
    cases op <;> first | exact Or.inl rfl | exact Or.inr ⟨_, rfl⟩
  rcases hop with htwo | ⟨c, hone⟩
  · rw [← htwo, List.take_left] at htake
    exact hne htake
  · rw [hone] at htake
    cases rest with
    | nil =>
      rw [htake] at hlength
      cases hlength
    | cons d rest =>
      rw [htake] at hlast
      exact hrest hlast

theorem first_number {value : ℚ} (h : IsNumber s value) (hrest : EndsWord rest) (hdot : rest.head? ≠ some '.') :
    First EfsmInterval.number (s ++ rest) [] rest := by
  obtain ⟨sign, whole, fraction, suffix, rfl, hsign, ⟨hne, hwhole⟩, hfraction, hsuffix⟩ := h.shape
  -- what stands behind the digits is no digit, and a point only if it starts the fraction
  have hafter : ∀ c ∈ (suffix ++ rest).head?, c.isDigit = false ∧ c ≠ '.' := by
    intro c hc
    cases hcs : suffix with
    | nil =>
      rw [hcs] at hc
      refine ⟨?_, fun heq => hdot (heq ▸ hc)⟩
      have hword := hrest c hc
      unfold isWordChar Char.isAlphanum at hword
      rw [Bool.or_eq_false_iff, Bool.or_eq_false_iff] at hword
      exact hword.1.2
    | cons d ds =>
      rw [hcs] at hc
      obtain rfl := Option.some.inj hc
      have hletter : EfsmInterval.isSuffixChar d = true := hsuffix d (by rw [hcs]; exact List.mem_cons_self)
      exact ⟨(suffixChar hletter).2.1, (suffixChar hletter).2.2.1⟩
  have hend : ∀ c ∈ (fraction ++ (suffix ++ rest)).head?, c.isDigit = false := by
    intro c hc
    rcases hfraction with rfl | ⟨digits, rfl, -, -⟩
    · exact (hafter c hc).1
    · obtain rfl := Option.some.inj hc
      rfl
  obtain ⟨d, ds, rfl⟩ := List.exists_cons_of_ne_nil hne
  have hfirst : First (.opt (.one fun c => c = '+' || c = '-')) (sign ++ (d :: ds ++ (fraction ++ (suffix ++ rest))))
      [] (d :: ds ++ (fraction ++ (suffix ++ rest))) := by
    rcases hsign with rfl | ⟨c, rfl, hc⟩
    · refine First.optNone ?_
      have hd : (d = '+' || d = '-') = false := by
        rw [Bool.eq_false_iff]
        intro hd
        have hdigit := hwhole d List.mem_cons_self
        simp only [Bool.or_eq_true, decide_eq_true_eq] at hd
        rcases hd with rfl | rfl <;> exact absurd hdigit (by decide)
      show (if (d = '+' || d = '-') = true then _ else _) = _
      rw [hd]
      rfl
    · exact First.opt (First.one hc)
  have hdigits : ∀ {d : Char} {ds rest : List Char}, (∀ c ∈ d :: ds, c.isDigit = true) →
      (∀ c ∈ rest.head?, c.isDigit = false) → First digits (d :: ds ++ rest) [] rest := fun hds hrest =>
    First.seq (First.one (hds _ List.mem_cons_self)) (First.many (fun c hc => hds c (List.mem_cons_of_mem _ hc)) hrest)
  have hpart : First (.opt (.seq (.one (· = '.')) digits)) (fraction ++ (suffix ++ rest)) [] (suffix ++ rest) := by
    rcases hfraction with rfl | ⟨more, rfl, hmore, hmoredigits⟩
    · refine First.optNone (ends_eq_nil ?_)
      rintro used more htext ⟨u, v, rfl, ⟨c, rfl, hc⟩, -⟩
      exact (hafter c (congrArg List.head? htext)).2 (of_decide_eq_true hc)
    · obtain ⟨e, es, rfl⟩ := List.exists_cons_of_ne_nil hmore
      exact First.opt (First.seq (First.one (decide_eq_true rfl))
        (hdigits hmoredigits fun c hc => (hafter c hc).1))
  have hletters : First (.many EfsmInterval.isSuffixChar) (suffix ++ rest) [] rest := by
    refine First.many hsuffix fun c hc => ?_
    rw [Bool.eq_false_iff]
    intro hletter
    have hword := hrest c hc
    rw [(suffixChar hletter).1] at hword
    cases hword
  rw [List.append_assoc, List.append_assoc, List.append_assoc]
  exact First.seq hfirst (First.seq (hdigits hwhole hend) (First.seq hpart (First.seq hletters First.empty)))

end Search

/-! ## Reading a comparison -/

section Reading

open Regex

variable {c : Comparison} {b b' after : List Char}

theorem isWordChar_of_isSpace {c : Char} (h : isSpace c = true) : isWordChar c = false ∧ c ≠ '.' ∧ c ≠ '=' := by
  unfold isSpace at h
  simp only [Bool.or_eq_true, decide_eq_true_eq] at h
  rcases h with ((((rfl | rfl) | rfl) | rfl) | rfl) | rfl <;> decide

/-- What may stand around a comparison: blanks and brackets. -/
def isOpening (c : Char) : Bool := isSpace c || c = '('

@[inherit_doc isOpening]
def isClosing (c : Char) : Bool := isSpace c || c = ')'

theorem isWordChar_of_isOpening {c : Char} (h : isOpening c = true) : isWordChar c = false := by
  rcases Bool.or_eq_true_iff.mp h with hspace | hbracket
  · exact (isWordChar_of_isSpace hspace).1
  · rw [of_decide_eq_true hbracket]
    decide

theorem isWordChar_of_isClosing {c : Char} (h : isClosing c = true) : isWordChar c = false ∧ c ≠ '.' ∧ c ≠ '=' := by
  rcases Bool.or_eq_true_iff.mp h with hspace | hbracket
  · exact isWordChar_of_isSpace hspace
  · rw [of_decide_eq_true hbracket]
    decide

theorem head?_blanks {p : Char → Prop} {blanks rest : List Char} (hblanks : ∀ c ∈ blanks, isSpace c = true)
    (hspace : ∀ c, isSpace c = true → p c) (hrest : ∀ c ∈ rest.head?, p c) : ∀ c ∈ (blanks ++ rest).head?, p c := by
  cases blanks with
  | nil => exact hrest
  | cons d blanks =>
    intro c hc
    obtain rfl := Option.some.inj hc
    exact hspace d (hblanks d List.mem_cons_self)

variable {front : List Char} {ops : List String} {value : Regex}

theorem first_name (hname : IsIdentifier c.name)
    (hfront : front = [] ∨ ∃ w ∈ qualifierWords, front = w.toList ++ ['.']) {rest : List Char}
    (hrest : EndsWord rest) (hdot : rest.head? ≠ some '.') :
    First qualifier (front ++ (c.name ++ rest)) [] (c.name ++ rest) ∧
      First (.group 1 identifier) (c.name ++ rest) [(1, String.ofList c.name)] rest := by
  refine ⟨?_, First.group (first_identifier hname hrest)⟩
  rcases hfront with rfl | ⟨w, hw, rfl⟩
  · rw [List.nil_append]
    exact first_qualifier_none hname.chars hrest hdot
  · rw [List.append_assoc]
    exact first_qualifier hw _

theorem operator_first (op : Comparator) : ∃ d ds, op.text.toList = d :: ds ∧ isWordChar d = false ∧ d ≠ '.' ∧
    isSpace d = false := by
  cases op <;> exact ⟨_, _, rfl, by decide, by decide, by decide⟩

theorem ends_name (hb : ∀ c ∈ b, isSpace c = true) (op : Comparator) (rest : List Char) :
    EndsWord (b ++ (op.text.toList ++ rest)) ∧ (b ++ (op.text.toList ++ rest)).head? ≠ some '.' := by
  obtain ⟨d, ds, hop, hword, hdot, -⟩ := operator_first op
  have hboth : ∀ c ∈ (b ++ (op.text.toList ++ rest)).head?, isWordChar c = false ∧ c ≠ '.' := by
    refine head?_blanks hb (fun c hc => ⟨(isWordChar_of_isSpace hc).1, (isWordChar_of_isSpace hc).2.1⟩) ?_
    rw [hop]
    intro c hc
    obtain rfl := Option.some.inj hc
    exact ⟨hword, hdot⟩
  exact ⟨fun c hc => (hboth c hc).1, fun hc => (hboth _ hc).2 rfl⟩

theorem first_blanks {rest : List Char} (hb : ∀ c ∈ b, isSpace c = true) (hrest : ∀ c ∈ rest.head?, isSpace c = false) :
    First spaces (b ++ rest) [] rest := First.many hb hrest

theorem isWordChar_of_isDigit {c : Char} (h : c.isDigit = true) : isWordChar c = true := by
  unfold isWordChar Char.isAlphanum
  rw [h, Bool.or_true]
  rfl

/-- A number does not start with a blank, a sign of equality or a truth value. -/
theorem NumberShape.first {s : List Char} (h : NumberShape s) :
    ∃ d ds, s = d :: ds ∧ isSpace d = false ∧ d ≠ '=' ∧ d ≠ 't' ∧ d ≠ 'f' := by
  obtain ⟨sign, whole, fraction, suffix, rfl, hsign, ⟨hne, hwhole⟩, -⟩ := h
  obtain ⟨d, ds, rfl⟩ := List.exists_cons_of_ne_nil hne
  rcases hsign with rfl | ⟨c, rfl, hc⟩
  · have hdigit := hwhole d List.mem_cons_self
    refine ⟨d, ds ++ (fraction ++ suffix), rfl, ?_, ?_, ?_, ?_⟩
    · rw [Bool.eq_false_iff]
      intro hspace
      have hnot := (isWordChar_of_isSpace hspace).1
      rw [isWordChar_of_isDigit hdigit] at hnot
      cases hnot
    all_goals
      rintro rfl
      exact absurd hdigit (by decide)
  · refine ⟨c, d :: ds ++ (fraction ++ suffix), rfl, ?_⟩
    simp only [Bool.or_eq_true, decide_eq_true_eq] at hc
    rcases hc with rfl | rfl <;> decide

/-- The first match of a pattern for comparisons behind one of its qualifiers, or behind none, is the comparison, if its
operator and its value are found where they stand. -/
theorem first_comparison (hname : IsIdentifier c.name)
    (hfront : front = [] ∨ ∃ w ∈ qualifierWords, front = w.toList ++ ['.'])
    (hb : ∀ x ∈ b, isSpace x = true) (hb' : ∀ x ∈ b', isSpace x = true)
    (hop : First (oneOf ops) (c.op.text.toList ++ (b' ++ (c.literal.text ++ after))) []
      (b' ++ (c.literal.text ++ after)))
    (hfirst : ∀ x ∈ (c.literal.text ++ after).head?, isSpace x = false)
    (hvalue : First value (c.literal.text ++ after) [] after) :
    First (comparison ops value) (front ++ (c.unqualified b b' ++ after))
      [(1, String.ofList c.name), (2, c.op.text), (3, String.ofList c.literal.text)] after := by
  obtain ⟨hends, hdot⟩ := ends_name hb c.op (b' ++ (c.literal.text ++ after))
  obtain ⟨hq, hn⟩ := first_name hname hfront hends hdot
  obtain ⟨o, os, ho, -, -, hospace⟩ := operator_first c.op
  have hblanks : First spaces (b ++ (c.op.text.toList ++ (b' ++ (c.literal.text ++ after)))) []
      (c.op.text.toList ++ (b' ++ (c.literal.text ++ after))) := by
    refine first_blanks hb ?_
    rw [ho]
    intro x hx
    obtain rfl := Option.some.inj hx
    exact hospace
  have hoperator := First.group (i := 2) hop
  rw [String.ofList_toList] at hoperator
  have hsplit : c.unqualified b b' ++ after =
      c.name ++ (b ++ (c.op.text.toList ++ (b' ++ (c.literal.text ++ after)))) := by
    unfold Comparison.unqualified
    simp only [List.append_assoc]
  rw [hsplit]
  exact First.seq hq (First.seq hn (First.seq hblanks (First.seq hoperator (First.seq (first_blanks hb' hfirst)
    (First.seq (First.group hvalue) First.empty)))))

theorem first_cmpRe {front text : List Char} {value : ℚ} (h : IsComparison c)
    (hliteral : c.literal = .number text value)
    (hfront : front = [] ∨ ∃ w ∈ qualifierWords, front = w.toList ++ ['.'])
    (hb : ∀ x ∈ b, isSpace x = true) (hb' : ∀ x ∈ b', isSpace x = true) (hafter : ∀ x ∈ after, isClosing x = true) :
    First cmpRe (front ++ (c.unqualified b b' ++ after))
      [(1, String.ofList c.name), (2, c.op.text), (3, String.ofList c.literal.text)] after := by
  have hnumber : IsNumber text value := by
    have hfits := h.literal
    rwa [hliteral] at hfits
  have hshape : c.literal.text = text := by rw [hliteral]; rfl
  obtain ⟨d, ds, htext, hspace, hequal, -⟩ := hnumber.shape.first
  have hend : ∀ x ∈ after.head?, isWordChar x = false ∧ x ≠ '.' := fun x hx =>
    have hx := isWordChar_of_isClosing (hafter x (List.mem_of_mem_head? hx))
    ⟨hx.1, hx.2.1⟩
  have hhead : ∀ x ∈ (c.literal.text ++ after).head?, isSpace x = false ∧ x ≠ '=' := by
    rw [hshape, htext]
    intro x hx
    obtain rfl := Option.some.inj hx
    exact ⟨hspace, hequal⟩
  have hbehind : ∀ x ∈ (b' ++ (c.literal.text ++ after)).head?, x ≠ '=' :=
    head?_blanks hb' (fun x hx => (isWordChar_of_isSpace hx).2.2) fun x hx => (hhead x hx).2
  refine first_comparison h.name hfront hb hb' (first_comparator c.op fun hx => hbehind _ hx rfl)
    (fun x hx => (hhead x hx).1) ?_
  rw [hshape]
  exact first_number hnumber (fun x hx => (hend x hx).1) fun hx => (hend _ hx).2 rfl

theorem first_boolEqRe {v : Bool} (h : IsComparison c) (hliteral : c.literal = .truth v)
    (hfront : front = [] ∨ ∃ w ∈ qualifierWords, front = w.toList ++ ['.']) (hb : ∀ x ∈ b, isSpace x = true)
    (hb' : ∀ x ∈ b', isSpace x = true) : First boolEqRe (front ++ (c.unqualified b b' ++ after))
      [(1, String.ofList c.name), (2, c.op.text), (3, String.ofList c.literal.text)] after := by
  have hequality : c.op = .eq ∨ c.op = .ne := by
    have hfits := h.literal
    rwa [hliteral] at hfits
  have hshape : c.literal.text = (boolText v).toList := by rw [hliteral]; rfl
  refine first_comparison h.name hfront hb hb' ?_ ?_ ?_
  · rcases hequality with heq | heq <;> rw [heq]
    · exact First.altLeft (First.literal "==" _)
    · exact First.altRight rfl (First.altLeft (First.literal "!=" _))
  · rw [hshape]
    cases v <;>
      · intro x hx
        obtain rfl := Option.some.inj hx
        rfl
  · rw [hshape]
    cases v with
    | true => exact First.altLeft (First.literal "true" _)
    | false => exact First.altRight rfl (First.altLeft (First.literal "false" _))

/-- A character of an operator. -/
def isOperatorChar (c : Char) : Bool := c = '=' || c = '!' || c = '>' || c = '<'

/-- The other characters of a comparison, and those around it. -/
def isPlain (c : Char) : Bool := isWordChar c || c = '.' || isSpace c || c = '(' || c = ')'

theorem isOperatorChar_of_isPlain {c : Char} (h : isPlain c = true) : isOperatorChar c = false := by
  rw [Bool.eq_false_iff]
  intro hop
  unfold isOperatorChar at hop
  simp only [Bool.or_eq_true, decide_eq_true_eq] at hop
  rcases hop with ((rfl | rfl) | rfl) | rfl <;> exact absurd h (by decide)

theorem isPlain_of_word {c : Char} (h : (isWordChar c || c = '.') = true) : isPlain c = true := by
  unfold isPlain
  rw [h]
  rfl

theorem isPlain_of_isSpace {c : Char} (h : isSpace c = true) : isPlain c = true := by
  unfold isPlain
  rw [h, Bool.or_true]
  rfl

theorem isPlain_of_isOpening {c : Char} (h : isOpening c = true) : isPlain c = true := by
  rcases Bool.or_eq_true_iff.mp h with hspace | hbracket
  · exact isPlain_of_isSpace hspace
  · rw [of_decide_eq_true hbracket]
    decide

theorem isPlain_of_isClosing {c : Char} (h : isClosing c = true) : isPlain c = true := by
  rcases Bool.or_eq_true_iff.mp h with hspace | hbracket
  · exact isPlain_of_isSpace hspace
  · rw [of_decide_eq_true hbracket]
    decide

theorem numberShape_of_matches {s : List Char} (h : EfsmInterval.number.Matches s) : NumberShape s := by
  obtain ⟨sign, r₁, rfl, hsign, whole, r₂, rfl, hwhole, fraction, r₃, rfl, hfraction, suffix, r₄, rfl, hsuffix,
    rfl⟩ := h
  have hdigits : ∀ {u : List Char}, Regex.digits.Matches u → u ≠ [] ∧ ∀ c ∈ u, c.isDigit = true := by
    rintro u ⟨v, v', rfl, ⟨d, rfl, hd⟩, hv'⟩
    exact ⟨List.cons_ne_nil _ _, List.forall_mem_cons.mpr ⟨hd, hv'⟩⟩
  refine ⟨sign, whole, fraction, suffix, by rw [List.append_nil], hsign.symm, hdigits hwhole, ?_, hsuffix⟩
  rcases hfraction with ⟨v, v', rfl, ⟨c, rfl, hc⟩, hv'⟩ | rfl
  · exact Or.inr ⟨v', by rw [of_decide_eq_true hc]; rfl, hdigits hv'⟩
  · exact Or.inl rfl

theorem matches_comparison {s : List Char} (h : (comparison ops value).Matches s) :
    ∃ front name blanks w blanks' v, s = front ++ (name ++ (blanks ++ (w.toList ++ (blanks' ++ v)))) ∧
      (front = [] ∨ ∃ w' ∈ qualifierWords, front = w'.toList ++ ['.']) ∧
      (name ≠ [] ∧ ∀ c ∈ name, isWordChar c = true) ∧ (∀ c ∈ blanks, isSpace c = true) ∧ w ∈ ops ∧
      (∀ c ∈ blanks', isSpace c = true) ∧ value.Matches v := by
  obtain ⟨q, r₁, rfl, hq, n, r₂, rfl, hn, b, r₃, rfl, hb, o, r₄, rfl, ho, b', r₅, rfl, hb', v, r₆, rfl, hv, rfl⟩ := h
  obtain ⟨w, hw, rfl⟩ := matches_oneOf.mp ho
  refine ⟨q, n, b, w, b', v, by rw [List.append_nil], ?_, ?_, hb, hw, hb', hv⟩
  · rcases hq with ⟨u, u', rfl, hu, x, rfl, hx⟩ | rfl
    · obtain ⟨w', hw', rfl⟩ := matches_oneOf.mp hu
      exact Or.inr ⟨w', hw', by rw [of_decide_eq_true hx]⟩
    · exact Or.inl rfl
  · obtain ⟨u, u', rfl, ⟨x, rfl, hx⟩, hu'⟩ := hn
    refine ⟨List.cons_ne_nil _ _, fun c hc => ?_⟩
    rcases List.mem_cons.mp hc with rfl | hc
    · exact isWordChar_of_first hx
    · exact hu' c hc

theorem isOperatorChar_front {front name blanks : List Char}
    (hfront : front = [] ∨ ∃ w' ∈ qualifierWords, front = w'.toList ++ ['.'])
    (hname : ∀ c ∈ name, isWordChar c = true) (hblanks : ∀ c ∈ blanks, isSpace c = true) :
    ∀ c ∈ front ++ (name ++ blanks), isOperatorChar c = false := by
  intro c hc
  refine isOperatorChar_of_isPlain ?_
  rcases List.mem_append.mp hc with hc | hc
  · rcases hfront with rfl | ⟨w, hw, rfl⟩
    · exact absurd hc List.not_mem_nil
    · refine isPlain_of_word ?_
      rcases List.mem_append.mp hc with hc | hc
      · rw [(qualifierWords_word w hw).2 c hc]
        rfl
      · rw [List.mem_singleton.mp hc]
        rfl
  · rcases List.mem_append.mp hc with hc | hc
    · refine isPlain_of_word ?_
      rw [hname c hc]
      rfl
    · exact isPlain_of_isSpace (hblanks c hc)

/-- A text from its first operator on. -/
def fromOperator (s : List Char) : List Char := s.dropWhile fun c => !isOperatorChar c

theorem fromOperator_append (hfront : ∀ c ∈ front, isOperatorChar c = false) (back : List Char) :
    fromOperator (front ++ back) = fromOperator back :=
  List.dropWhile_append_of_pos fun c hc => by rw [hfront c hc]; rfl

theorem fromOperator_cons {c : Char} (hc : isOperatorChar c = true) (s : List Char) : fromOperator (c :: s) = c :: s :=
  List.dropWhile_cons_of_neg (by rw [hc]; decide)

theorem fromOperator_suffix {front back s : List Char} {o o' : Char} (hfront : ∀ c ∈ front, isOperatorChar c = false)
    (ho : isOperatorChar o = true) (ho' : isOperatorChar o' = true) (hback : ∀ c ∈ back, isOperatorChar c = false)
    (h : s <:+ front ++ o :: o' :: back) :
    fromOperator s = o :: o' :: back ∨ fromOperator s = o' :: back ∨ fromOperator s = [] := by
  induction front with
  | nil =>
    rcases List.suffix_cons_iff.mp h with rfl | h
    · exact Or.inl (fromOperator_cons ho _)
    · rcases List.suffix_cons_iff.mp h with rfl | h
      · exact Or.inr (Or.inl (fromOperator_cons ho' _))
      · refine Or.inr (Or.inr (List.dropWhile_eq_nil_iff.mpr fun c hc => ?_))
        rw [hback c (h.subset hc)]
        rfl
  | cons c front ih =>
    rcases List.suffix_cons_iff.mp h with rfl | h
    · exact Or.inl ((fromOperator_append hfront _).trans (fromOperator_cons ho _))
    · exact ih (fun d hd => hfront d (List.mem_cons_of_mem _ hd)) h

variable {pad : List Char}

theorem search_cmpRe_truth {v : Bool} (h : IsComparison c) (hliteral : c.literal = .truth v)
    (hpad : ∀ x ∈ pad, isOpening x = true) (hb : ∀ x ∈ b, isSpace x = true) (hb' : ∀ x ∈ b', isSpace x = true)
    (hafter : ∀ x ∈ after, isClosing x = true) : cmpRe.searchFrom (pad ++ (c.text b b' ++ after)) = none := by
  have hequality : c.op = .eq ∨ c.op = .ne := by
    have hfits := h.literal
    rwa [hliteral] at hfits
  obtain ⟨o, ho, hoeq⟩ : ∃ o, c.op.text.toList = [o, '='] ∧ (o = '=' ∨ o = '!') := by
    rcases hequality with heq | heq <;> rw [heq]
    · exact ⟨_, rfl, Or.inl rfl⟩
    · exact ⟨_, rfl, Or.inr rfl⟩
  obtain ⟨x, xs, hvalue, hx⟩ : ∃ x xs, c.literal.text = x :: xs ∧ (x = 't' ∨ x = 'f') := by
    rw [hliteral]
    cases v
    · exact ⟨_, _, rfl, Or.inr rfl⟩
    · exact ⟨_, _, rfl, Or.inl rfl⟩
  have hplain : ∀ y ∈ b' ++ (c.literal.text ++ after), isOperatorChar y = false := by
    intro y hy
    refine isOperatorChar_of_isPlain ?_
    rcases List.mem_append.mp hy with hy | hy
    · exact isPlain_of_isSpace (hb' y hy)
    · rcases List.mem_append.mp hy with hy | hy
      · rw [hliteral] at hy
        have hall : ∀ v : Bool, ∀ y ∈ (boolText v).toList, isPlain y = true := by decide +kernel
        exact hall v y hy
      · exact isPlain_of_isClosing (hafter y hy)
  have hfront : ∀ y ∈ pad ++ (c.qualifier ++ (c.name ++ b)), isOperatorChar y = false := by
    intro y hy
    refine isOperatorChar_of_isPlain ?_
    rcases List.mem_append.mp hy with hy | hy
    · exact isPlain_of_isOpening (hpad y hy)
    · rw [← List.append_assoc] at hy
      rcases List.mem_append.mp hy with hy | hy
      · exact isPlain_of_word (h.isVariable.chars y hy)
      · exact isPlain_of_isSpace (hb y hy)
  have htext : pad ++ (c.text b b' ++ after) =
      (pad ++ (c.qualifier ++ (c.name ++ b))) ++ (o :: '=' :: (b' ++ (c.literal.text ++ after))) := by
    unfold Comparison.text Comparison.unqualified
    rw [ho]
    simp only [List.append_assoc, List.cons_append, List.nil_append]
  refine searchFrom_eq_none fun s hs => ends_eq_nil fun used rest hsplit hused => ?_
  obtain ⟨q, name, spaces, w, blanks, value, rfl, hq, ⟨-, hname⟩, hspaces, hw, hblanks, hvalues⟩ :=
    matches_comparison hused
  obtain ⟨d, ds, rfl, hspace, -, ht, hf⟩ := (numberShape_of_matches hvalues).first
  have hnone := isOperatorChar_front hq hname hspaces
  -- from its first operator on, the suffix is the operator of the match and what follows it
  have hall : ∀ w ∈ operators, ∃ u us, w.toList = u :: us ∧ isOperatorChar u = true ∧
      (us = [] ∧ u ≠ '=' ∧ u ≠ '!' ∨ us = ['=']) := by
    intro w hw
    unfold operators at hw
    simp only [List.mem_cons, List.not_mem_nil, or_false] at hw
    rcases hw with rfl | rfl | rfl | rfl | rfl | rfl <;> exact ⟨_, _, rfl, by decide, by decide⟩
  obtain ⟨u, us, hword, huop, hus⟩ := hall w hw
  have hfrom : fromOperator s = u :: (us ++ (blanks ++ d :: (ds ++ rest))) := by
    have hassoc : s = (q ++ (name ++ spaces)) ++ (u :: (us ++ (blanks ++ d :: (ds ++ rest)))) := by
      rw [hsplit, hword]
      simp only [List.append_assoc, List.cons_append]
    rw [hassoc, fromOperator_append hnone, fromOperator_cons huop]
  have hop : isOperatorChar o = true := by rcases hoeq with rfl | rfl <;> decide
  rw [htext] at hs
  rcases fromOperator_suffix hfront hop (by decide) hplain hs with heq | heq | heq
  · rw [hfrom] at heq
    obtain ⟨rfl, hrest⟩ := List.cons.inj heq
    rcases hus with ⟨-, hequal, hbang⟩ | rfl
    · rcases hoeq with hoeq | hoeq
      · exact hequal hoeq
      · exact hbang hoeq
    · have htail : blanks ++ d :: (ds ++ rest) = b' ++ (c.literal.text ++ after) := (List.cons.inj hrest).2
      have hsame := congrArg (List.dropWhile isSpace) htail
      rw [hvalue, List.dropWhile_append_of_pos hblanks, List.dropWhile_append_of_pos hb',
        List.cons_append, List.dropWhile_cons_of_neg (by rw [hspace]; decide)] at hsame
      have hxspace : isSpace x = false := by rcases hx with rfl | rfl <;> decide
      rw [List.dropWhile_cons_of_neg (by rw [hxspace]; decide)] at hsame
      obtain ⟨rfl, -⟩ := List.cons.inj hsame
      rcases hx with hx | hx
      · exact ht hx
      · exact hf hx
  · rw [hfrom] at heq
    obtain ⟨rfl, hrest⟩ := List.cons.inj heq
    rcases hus with ⟨-, hequal, -⟩ | rfl
    · exact hequal rfl
    · have hmem := hplain '=' (by rw [← hrest]; exact List.mem_cons_self)
      exact absurd hmem (by decide)
  · rw [hfrom] at heq
    cases heq

theorem matches_comparison_first {s : List Char}
    (h : (comparison ops value).Matches s) : ∃ d ds, s = d :: ds ∧ isWordChar d = true := by
  obtain ⟨front, name, blanks, w, blanks', v, rfl, hfront, ⟨hne, hname⟩, -⟩ := matches_comparison h
  rcases hfront with rfl | ⟨w', hw', rfl⟩
  · obtain ⟨d, ds, rfl⟩ := List.exists_cons_of_ne_nil hne
    exact ⟨d, _, rfl, hname d List.mem_cons_self⟩
  · obtain ⟨hword, hchars⟩ := qualifierWords_word w' hw'
    obtain ⟨d, ds, hcons⟩ := List.exists_cons_of_ne_nil hword
    rw [hcons] at hchars ⊢
    exact ⟨d, _, rfl, hchars d List.mem_cons_self⟩

theorem searchFrom_opening (hpad : ∀ x ∈ pad, isOpening x = true) (text : List Char) :
    (comparison ops value).searchFrom (pad ++ text) = (comparison ops value).searchFrom text := by
  refine searchFrom_skip fun x hx text => ends_eq_nil fun used rest hsplit hused => ?_
  obtain ⟨d, ds, rfl, hd⟩ := matches_comparison_first hused
  obtain ⟨rfl, -⟩ := List.cons.inj hsplit
  rw [isWordChar_of_isOpening (hpad x hx)] at hd
  cases hd

theorem point_ne_operator {path tail name blanks more : List Char} {u : Char}
    (hpath : ∀ c ∈ path, (isWordChar c || c = '.') = true) (hname : ∀ c ∈ name, isWordChar c = true)
    (hblanks : ∀ c ∈ blanks, isSpace c = true) (hu : isWordChar u = false ∧ u ≠ '.') :
    path ++ '.' :: tail ≠ name ++ (blanks ++ u :: more) := by
  intro heq
  have hleft : ((path ++ '.' :: tail).dropWhile isWordChar).head? = some '.' := by
    clear heq
    induction path with
    | nil => rfl
    | cons c path ih =>
      cases hc : isWordChar c with
      | true =>
        rw [List.cons_append, List.dropWhile_cons_of_pos hc]
        exact ih fun d hd => hpath d (List.mem_cons_of_mem _ hd)
      | false =>
        have hpoint := hpath c List.mem_cons_self
        rw [hc, Bool.false_or] at hpoint
        rw [List.cons_append, List.dropWhile_cons_of_neg (by rw [hc]; decide), of_decide_eq_true hpoint]
        rfl
  have hright : ∀ c ∈ (blanks ++ u :: more).head?, isWordChar c = false ∧ c ≠ '.' := by
    refine head?_blanks hblanks (fun c hc => ⟨(isWordChar_of_isSpace hc).1, (isWordChar_of_isSpace hc).2.1⟩) ?_
    intro c hc
    obtain rfl := Option.some.inj hc
    exact hu
  obtain ⟨d, ds, hcons⟩ : ∃ d ds, blanks ++ u :: more = d :: ds := List.exists_cons_of_ne_nil (by simp)
  rw [hcons] at hright
  obtain ⟨hword, hpoint⟩ := hright d rfl
  rw [heq, List.dropWhile_append_of_pos hname, hcons, List.dropWhile_cons_of_neg (by rw [hword]; decide)] at hleft
  exact hpoint (Option.some.inj hleft)

/-- No match begins in front of the last point of a variable, except with one of the known qualifiers. -/
theorem ends_path {path tail : List Char}
    (hops : ∀ w ∈ ops, ∃ u us, w.toList = u :: us ∧ isWordChar u = false ∧ u ≠ '.')
    (hpath : ∀ c ∈ path, (isWordChar c || c = '.') = true) (hknown : ∀ w ∈ qualifierWords, path ≠ w.toList) :
    (comparison ops value).ends (path ++ '.' :: tail) = [] := by
  refine ends_eq_nil fun used rest hsplit hused => ?_
  obtain ⟨front, name, blanks, w, blanks', v, rfl, hfront, ⟨-, hname⟩, hblanks, hw, -⟩ := matches_comparison hused
  obtain ⟨u, us, hword, hu⟩ := hops w hw
  rcases hfront with rfl | ⟨w', hw', rfl⟩
  · rw [hword] at hsplit
    simp only [List.nil_append, List.append_assoc, List.cons_append] at hsplit
    exact point_ne_operator hpath hname hblanks hu hsplit
  · rw [hword] at hsplit
    simp only [List.append_assoc, List.cons_append, List.nil_append] at hsplit
    rcases List.append_eq_append_iff.mp hsplit with ⟨l, hl, heq⟩ | ⟨l, hl, heq⟩
    · cases l with
      | nil => exact hknown w' hw' (by rw [hl, List.append_nil])
      | cons d l =>
        obtain ⟨rfl, -⟩ := List.cons.inj heq
        have hpoint := (qualifierWords_word w' hw').2 '.' (by rw [hl]; simp)
        exact absurd hpoint (by decide)
    · cases l with
      | nil => exact hknown w' hw' (by rw [hl, List.append_nil])
      | cons d l =>
        obtain ⟨-, hrest⟩ := List.cons.inj heq
        refine point_ne_operator (fun c hc => hpath c ?_) hname hblanks hu hrest.symm
        rw [hl]
        exact List.mem_append_right _ (List.mem_cons_of_mem _ hc)

theorem operators_first : ∀ w ∈ operators, ∃ u us, w.toList = u :: us ∧ isWordChar u = false ∧ u ≠ '.' := by
  intro w hw
  unfold operators at hw
  simp only [List.mem_cons, List.not_mem_nil, or_false] at hw
  rcases hw with rfl | rfl | rfl | rfl | rfl | rfl <;> exact ⟨_, _, rfl, by decide⟩

theorem searchFrom_qualified {q tail rest : List Char} {m : Captures}
    (hops : ∀ w ∈ ops, ∃ u us, w.toList = u :: us ∧ isWordChar u = false ∧ u ≠ '.')
    (hfound : ∀ front, (front = [] ∨ ∃ w ∈ qualifierWords, front = w.toList ++ ['.']) →
      First (comparison ops value) (front ++ tail) m rest)
    (hchars : ∀ c ∈ q, (isWordChar c || c = '.') = true) (hlast : q = [] ∨ q.getLast? = some '.') :
    (comparison ops value).searchFrom (q ++ tail) = some m := by
  induction q with
  | nil => exact (hfound [] (Or.inl rfl)).search
  | cons c q ih =>
    obtain ⟨path, hpath⟩ : ∃ path, c :: q = path ++ ['.'] := by
      obtain ⟨path, hpath⟩ := List.getLast?_eq_some_iff.mp (hlast.resolve_left (List.cons_ne_nil _ _))
      exact ⟨path, hpath⟩
    by_cases hknown : ∃ w ∈ qualifierWords, path = w.toList
    · obtain ⟨w, hw, rfl⟩ := hknown
      rw [hpath]
      exact (hfound _ (Or.inr ⟨w, hw, rfl⟩)).search
    · have hends : (comparison ops value).ends (c :: (q ++ tail)) = [] := by
        have hassoc : c :: (q ++ tail) = path ++ '.' :: tail := by
          rw [← List.cons_append, hpath, List.append_assoc]
          rfl
        rw [hassoc]
        refine ends_path hops (fun d hd => hchars d ?_) fun w hw heq => hknown ⟨w, hw, heq⟩
        rw [hpath]
        exact List.mem_append_left _ hd
      rw [List.cons_append, searchFrom, hends]
      refine ih (fun d hd => hchars d (List.mem_cons_of_mem _ hd)) ?_
      cases q with
      | nil => exact Or.inl rfl
      | cons d q =>
        have hsome := hlast.resolve_left (List.cons_ne_nil _ _)
        rw [List.getLast?_cons_cons] at hsome
        exact Or.inr hsome

theorem IsComparison.searchFrom {pad rest : List Char} {m : Captures}
    (h : IsComparison c) (hpad : ∀ x ∈ pad, isOpening x = true)
    (hops : ∀ w ∈ ops, ∃ u us, w.toList = u :: us ∧ isWordChar u = false ∧ u ≠ '.')
    (hfound : ∀ front, (front = [] ∨ ∃ w ∈ qualifierWords, front = w.toList ++ ['.']) →
      First (comparison ops value) (front ++ (c.unqualified b b' ++ after)) m rest) :
    (comparison ops value).searchFrom (pad ++ (c.text b b' ++ after)) = some m := by
  unfold Comparison.text
  rw [searchFrom_opening hpad, List.append_assoc]
  exact searchFrom_qualified hops hfound (fun x hx => h.isVariable.chars x (List.mem_append_left _ hx))
    (h.qualifier.imp_right fun hqualifier => hqualifier.last)

/-- **A comparison is read** as it stands. -/
theorem readClause_comparison (h : IsComparison c) (hpad : ∀ x ∈ pad, isOpening x = true)
    (hb : ∀ x ∈ b, isSpace x = true) (hb' : ∀ x ∈ b', isSpace x = true) (hafter : ∀ x ∈ after, isClosing x = true) :
    readClause (pad ++ (c.text b b' ++ after)) = some c.reading := by
  unfold readClause search
  rw [String.toList_ofList]
  cases hliteral : c.literal with
  | number text value =>
    have hnumber : IsNumber text value := by
      have hfits := h.literal
      rwa [hliteral] at hfits
    have hfound : cmpRe.searchFrom (pad ++ (c.text b b' ++ after)) = _ :=
      h.searchFrom hpad operators_first fun front hfront => first_cmpRe h hliteral hfront hb hb' hafter
    rw [hfound]
    show (stod (cleanNumber (String.ofList c.literal.text))).map
      (fun val => (String.ofList c.name, clauseInterval c.op.text val)) = _
    have htext : c.literal.text = text := by rw [hliteral]; rfl
    rw [htext, hnumber.value]
    unfold Comparison.reading Comparison.interval
    rw [hliteral]
    rfl
  | truth v =>
    have hequality : ∀ w ∈ ["==", "!="], w ∈ operators := by decide +kernel
    have hfound : boolEqRe.searchFrom (pad ++ (c.text b b' ++ after)) = _ :=
      h.searchFrom hpad (fun w hw => operators_first w (hequality w hw)) fun front hfront =>
        first_boolEqRe h hliteral hfront hb hb'
    rw [search_cmpRe_truth h hliteral hpad hb hb' hafter, hfound]
    show some (String.ofList c.name, boolInterval c.op.text (String.ofList c.literal.text)) = _
    have htext : c.literal.text = (boolText v).toList := by rw [hliteral]; rfl
    rw [htext, String.ofList_toList]
    unfold Comparison.reading Comparison.interval
    rw [hliteral]

end Reading

end Fsmc.Analysis.GuardSatisfiability
