/-
# Fsmc.Passes.FoldedComparisons — folding against arithmetic.

A guard that compares two integer literals is recognised whatever its blanks and digits are. It is folded rightly
where both numbers fit 64 bits, and only there. The pass changes the text of a guard and leaves its structured
copy, which the accessors prefer.
-/
import Mathlib.Data.List.DropRight
import Fsmc.Cpp.RegexSearch
import Fsmc.Passes.ConstantFolding

namespace Fsmc.Passes.ConstantFolding

open Fsmc.Cpp Fsmc.Ir Regex

/-! ## Comparisons of literals -/

inductive Relation where
  | eq | ne | lt | le | gt | ge
  deriving DecidableEq, Repr

namespace Relation

def text : Relation → String
  | eq => "=="
  | ne => "!="
  | lt => "<"
  | le => "<="
  | gt => ">"
  | ge => ">="

/-- What an operator says of two integers. -/
def Holds : Relation → ℤ → ℤ → Prop
  | eq, m, n => m = n
  | ne, m, n => m ≠ n
  | lt, m, n => m < n
  | le, m, n => m ≤ n
  | gt, m, n => m > n
  | ge, m, n => m ≥ n

end Relation

theorem compare_text (o : Relation) (m n : ℤ) : compare o.text m n = true ↔ o.Holds m n := by
  cases o <;> exact decide_eq_true_iff

inductive IsLiteral : List Char → ℤ → Prop where
  | natural {digits : List Char} (hne : digits ≠ []) (hdigits : ∀ c ∈ digits, c.isDigit = true) :
      IsLiteral digits (digitsValue digits)
  | negative {digits : List Char} (hne : digits ≠ []) (hdigits : ∀ c ∈ digits, c.isDigit = true) :
      IsLiteral ('-' :: digits) (-(digitsValue digits : ℤ))

/-- A comparison of two integers. -/
structure Comparison where
  left : ℤ
  relation : Relation
  right : ℤ

def Comparison.Holds (c : Comparison) : Prop := c.relation.Holds c.left c.right

/-- The values of a `long long`. -/
def FitsLongLong (n : ℤ) : Prop := -9223372036854775808 ≤ n ∧ n ≤ 9223372036854775807

instance (n : ℤ) : Decidable (FitsLongLong n) := inferInstanceAs (Decidable (_ ∧ _))

/-- Both numbers fit. -/
def Comparison.Fits (c : Comparison) : Prop := FitsLongLong c.left ∧ FitsLongLong c.right

instance (c : Comparison) : Decidable c.Fits := inferInstanceAs (Decidable (_ ∧ _))

def Blanks (b : List Char) : Prop := ∀ c ∈ b, isSpace c = true

/-- The parts of a comparison's text. -/
structure Parts (c : Comparison) where
  (before l afterLeft beforeRight r after : List Char)
  blanks : Blanks before ∧ Blanks afterLeft ∧ Blanks beforeRight ∧ Blanks after
  leftValue : IsLiteral l c.left
  rightValue : IsLiteral r c.right

def Parts.text {c : Comparison} (p : Parts c) : List Char :=
  p.before ++ (p.l ++ (p.afterLeft ++ (c.relation.text.toList ++ (p.beforeRight ++ (p.r ++ p.after)))))

def Compares (guard : String) (c : Comparison) : Prop := ∃ p : Parts c, guard.toList = p.text

variable {c : Comparison} {s rest : List Char} {n : ℤ}

theorem IsLiteral.cons (h : IsLiteral s n) : ∃ d ds, s = d :: ds ∧ (d = '-' ∨ d.isDigit = true) := by
  cases h with
  | natural hne hdigits =>
    obtain ⟨d, ds, rfl⟩ := List.exists_cons_of_ne_nil hne
    exact ⟨d, ds, rfl, Or.inr (hdigits d List.mem_cons_self)⟩
  | negative hne hdigits => exact ⟨'-', _, rfl, Or.inl rfl⟩

theorem IsLiteral.concat (h : IsLiteral s n) : ∃ ds d, s = ds ++ [d] ∧ d.isDigit = true := by
  have hlast : ∀ digits : List Char, digits ≠ [] → (∀ c ∈ digits, c.isDigit = true) →
      ∃ ds d, digits = ds ++ [d] ∧ d.isDigit = true := by
    intro digits hne hdigits
    refine ⟨digits.dropLast, digits.getLast hne, (List.dropLast_append_getLast hne).symm, ?_⟩
    exact hdigits _ (List.getLast_mem hne)
  cases h with
  | natural hne hdigits => exact hlast _ hne hdigits
  | negative hne hdigits =>
    obtain ⟨ds, d, heq, hd⟩ := hlast _ hne hdigits
    exact ⟨'-' :: ds, d, by rw [heq]; rfl, hd⟩

variable {d : Char} {g : String}

theorem isSpace_of_isDigit (h : d.isDigit = true) : isSpace d = false := by
  refine eq_false_of_ne_true fun hspace => ?_
  simp only [isSpace, Bool.or_eq_true, decide_eq_true_eq] at hspace
  rcases hspace with ((((rfl | rfl) | rfl) | rfl) | rfl) | rfl <;> exact absurd h (by decide)

theorem IsLiteral.head? (h : IsLiteral s n) (more : List Char) :
    ∀ d ∈ (s ++ more).head?, isSpace d = false ∧ d ≠ '=' := by
  obtain ⟨d, ds, rfl, hd⟩ := h.cons
  intro d' hd'
  obtain rfl := Option.some.inj hd'
  rcases hd with rfl | hd
  · exact ⟨by decide, by decide⟩
  · refine ⟨isSpace_of_isDigit hd, ?_⟩
    rintro rfl
    exact absurd hd (by decide)

/-! ## The match -/

theorem first_digits (hne : s ≠ []) (hs : ∀ d ∈ s, d.isDigit = true)
    (hrest : ∀ d ∈ rest.head?, d.isDigit = false) : First .digits (s ++ rest) [] rest := by
  obtain ⟨d, ds, rfl⟩ := List.exists_cons_of_ne_nil hne
  exact First.seq (First.one (hs d List.mem_cons_self))
    (First.many (fun e he => hs e (List.mem_cons_of_mem _ he)) hrest)

theorem first_number (h : IsLiteral s n) (hrest : ∀ d ∈ rest.head?, d.isDigit = false) :
    First number (s ++ rest) [] rest := by
  cases h with
  | natural hne hdigits =>
    refine First.seq (First.optNone (ends_literal_eq_nil ?_)) (first_digits hne hdigits hrest)
    obtain ⟨d, ds, rfl⟩ := List.exists_cons_of_ne_nil hne
    rintro ⟨more, hmore⟩
    obtain ⟨rfl, -⟩ := List.cons.inj hmore
    exact absurd (hdigits _ List.mem_cons_self) (by decide)
  | negative hne hdigits =>
    exact First.seq (First.opt (First.literal "-" _)) (first_digits hne hdigits hrest)

theorem first_relation (o : Relation) (hrest : ∀ d ∈ rest.head?, d ≠ '=') :
    First comparator (o.text.toList ++ rest) [] rest := by
  have hfirst : ∀ {w : String} {a : Char} {t : List Char}, w.toList = a :: t → ∀ {x : Char} {more : List Char},
      a ≠ x → ¬w.toList <+: x :: more := by
    rintro w a t hw x more hne ⟨tail, htail⟩
    rw [hw] at htail
    exact hne (List.cons.inj htail).1
  have hsecond : ∀ {w : String} {a : Char}, w.toList = [a, '='] → ¬w.toList <+: a :: rest := by
    rintro w a hw ⟨tail, htail⟩
    rw [hw] at htail
    obtain ⟨-, htail⟩ := List.cons.inj htail
    rw [← htail] at hrest
    exact hrest '=' rfl rfl
  have hpast : ∀ {w : String} {r : Regex} {text : List Char} {m : Captures}, ¬w.toList <+: text →
      First r text m rest → First (.alt (.literal w) r) text m rest := fun hw h =>
    First.altRight (ends_literal_eq_nil hw) h
  have heq : ∀ {x : Char} {more : List Char}, '=' ≠ x → ¬"==".toList <+: x :: more := fun h => hfirst rfl h
  have hne : ∀ {x : Char} {more : List Char}, '!' ≠ x → ¬"!=".toList <+: x :: more := fun h => hfirst rfl h
  have hle : ∀ {x : Char} {more : List Char}, '<' ≠ x → ¬"<=".toList <+: x :: more := fun h => hfirst rfl h
  have hge : ∀ {x : Char} {more : List Char}, '>' ≠ x → ¬">=".toList <+: x :: more := fun h => hfirst rfl h
  cases o with
  | eq => exact First.altLeft (First.literal "==" rest)
  | ne =>
    show First comparator ('!' :: '=' :: rest) [] rest
    exact hpast (heq (by decide)) (First.altLeft (First.literal "!=" rest))
  | le =>
    show First comparator ('<' :: '=' :: rest) [] rest
    exact hpast (heq (by decide)) (hpast (hne (by decide)) (First.altLeft (First.literal "<=" rest)))
  | ge =>
    show First comparator ('>' :: '=' :: rest) [] rest
    exact hpast (heq (by decide)) (hpast (hne (by decide)) (hpast (hle (by decide))
      (First.altLeft (First.literal ">=" rest))))
  | lt =>
    show First comparator ('<' :: rest) [] rest
    exact hpast (heq (by decide)) (hpast (hne (by decide)) (hpast (hsecond rfl) (hpast (hge (by decide))
      (First.altLeft (First.literal "<" rest)))))
  | gt =>
    show First comparator ('>' :: rest) [] rest
    have hlt : ¬"<".toList <+: '>' :: rest := hfirst rfl (by decide)
    exact hpast (heq (by decide)) (hpast (hne (by decide)) (hpast (hle (by decide)) (hpast (hsecond rfl)
      (hpast hlt (First.literal ">" rest)))))

theorem relation_head? (o : Relation) (more : List Char) :
    ∀ d ∈ (o.text.toList ++ more).head?, isSpace d = false ∧ d.isDigit = false := by
  intro d hd
  cases o <;> (obtain rfl := Option.some.inj hd; exact ⟨by decide, by decide⟩)

theorem blanks_head? {p : Char → Prop} {b more : List Char} (hb : Blanks b) (hspace : ∀ d, isSpace d = true → p d)
    (hmore : ∀ d ∈ more.head?, p d) : ∀ d ∈ (b ++ more).head?, p d := by
  cases b with
  | nil => exact hmore
  | cons x b =>
    intro d hd
    obtain rfl := Option.some.inj hd
    exact hspace _ (hb _ List.mem_cons_self)

theorem isDigit_of_isSpace (h : isSpace d = true) : d.isDigit = false := by
  refine eq_false_of_ne_true fun hdigit => ?_
  rw [isSpace_of_isDigit hdigit] at h
  cases h

theorem first_comparison (p : Parts c) : First numCmpRe p.text
      [(1, String.ofList p.l), (2, String.ofList c.relation.text.toList), (3, String.ofList p.r)] [] := by
  obtain ⟨hbefore, hafterLeft, hbeforeRight, hafter⟩ := p.blanks
  have hspace : ∀ {b more : List Char}, Blanks b → (∀ d ∈ more.head?, isSpace d = false) →
      First .spaces (b ++ more) [] more := fun hb hmore => First.many hb hmore
  -- the parts of the pattern, from the last to the first
  have hend : First (.concat []) [] [] [] := First.empty
  have htail : First (.concat [.spaces]) p.after [] [] := by
    have hblank : First .spaces (p.after ++ []) [] [] := hspace hafter nofun
    have h := First.seq hblank hend
    rwa [List.append_nil] at h
  have hright : First (.concat [.group 3 number, .spaces]) (p.r ++ p.after) [(3, String.ofList p.r)] [] := by
    refine First.seq (First.group (first_number p.rightValue ?_)) htail
    have h := @blanks_head? (fun d => d.isDigit = false) p.after [] hafter (fun _ => isDigit_of_isSpace) nofun
    rwa [List.append_nil] at h
  have hop : First (.concat [.group 2 comparator, .spaces, .group 3 number, .spaces])
      (c.relation.text.toList ++ (p.beforeRight ++ (p.r ++ p.after)))
      [(2, String.ofList c.relation.text.toList), (3, String.ofList p.r)] [] := by
    refine First.seq (First.group (first_relation c.relation ?_))
      (First.seq (hspace hbeforeRight fun d hd => (p.rightValue.head? _ d hd).1) hright)
    refine blanks_head? hbeforeRight ?_ fun d hd => (p.rightValue.head? _ d hd).2
    rintro d hd rfl
    exact absurd hd (by decide)
  refine First.seq (hspace hbefore fun d hd => (p.leftValue.head? _ d hd).1) ?_
  refine First.seq (First.group (first_number p.leftValue ?_))
    (First.seq (hspace hafterLeft fun d hd => (relation_head? c.relation _ d hd).1) hop)
  exact blanks_head? hafterLeft (fun _ => isDigit_of_isSpace) fun d hd => (relation_head? c.relation _ d hd).2

theorem regexMatch_parts (p : Parts c) (hg : g.toList = p.text) : regexMatch numCmpRe g =
      some [(1, String.ofList p.l), (2, String.ofList c.relation.text.toList), (3, String.ofList p.r)] := by
  obtain ⟨more, hmore⟩ := List.head?_eq_some_iff.mp (first_comparison p)
  rw [regexMatch, hg, hmore]
  rfl

/-! ## Trimming -/

theorem dropWhile_append_cons {x : Char} (hx : isBlankChar x = false) (b more : List Char) :
    (b ++ x :: more).dropWhile isBlankChar = b.dropWhile isBlankChar ++ x :: more := by
  induction b with
  | nil => exact List.dropWhile_cons_of_neg (ne_true_of_eq_false hx)
  | cons y b ih =>
    rw [List.cons_append, List.dropWhile_cons, List.dropWhile_cons]
    split
    · exact ih
    · rfl

theorem isBlankChar_of_isDigit (h : d.isDigit = true) : isBlankChar d = false := by
  refine eq_false_of_ne_true fun hblank => ?_
  simp only [isBlankChar, Bool.or_eq_true, decide_eq_true_eq] at hblank
  rcases hblank with rfl | rfl <;> exact absurd h (by decide)

theorem Compares.trimBlanks (h : Compares g c) : Compares (trimBlanks g) c := by
  obtain ⟨p, hg⟩ := h
  obtain ⟨hbefore, hafterLeft, hbeforeRight, hafter⟩ := p.blanks
  obtain ⟨x, xs, hl, hx⟩ := p.leftValue.cons
  obtain ⟨ds, d, hr, hd⟩ := p.rightValue.concat
  have hx' : isBlankChar x = false := by
    rcases hx with rfl | hx
    · decide
    · exact isBlankChar_of_isDigit hx
  -- the literals have no blanks at their ends, so that only the outer blanks are cut
  refine ⟨{ p with
    before := p.before.dropWhile isBlankChar
    after := p.after.rdropWhile isBlankChar
    blanks := ⟨fun y hy => hbefore y ((List.dropWhile_sublist _).subset hy), hafterLeft, hbeforeRight,
      fun y hy => hafter y ((List.rdropWhile_prefix _ _).subset hy)⟩ }, ?_⟩
  show (String.ofList ((g.toList.dropWhile isBlankChar).rdropWhile isBlankChar)).toList =
    p.before.dropWhile isBlankChar ++ (p.l ++ (p.afterLeft ++ (c.relation.text.toList ++ (p.beforeRight ++
      (p.r ++ p.after.rdropWhile isBlankChar)))))
  have hfront : g.toList.dropWhile isBlankChar = p.before.dropWhile isBlankChar ++ (p.l ++ (p.afterLeft ++
      (c.relation.text.toList ++ (p.beforeRight ++ (p.r ++ p.after))))) := by
    rw [hg, Parts.text, hl]
    exact dropWhile_append_cons hx' _ _
  have hsplit : ∀ tail : List Char, p.before.dropWhile isBlankChar ++ (p.l ++ (p.afterLeft ++
      (c.relation.text.toList ++ (p.beforeRight ++ (p.r ++ tail))))) =
        (p.before.dropWhile isBlankChar ++ (p.l ++ (p.afterLeft ++ (c.relation.text.toList ++
          (p.beforeRight ++ ds))))) ++ d :: tail := by
    intro tail
    rw [hr]
    simp only [List.append_assoc, List.cons_append, List.nil_append]
  rw [String.toList_ofList, hfront, hsplit, hsplit, rdropWhile_append_cons (isBlankChar_of_isDigit hd)]

/-! ## What a guard folds to -/

/-- The value of a match; `none` where a number does not fit. -/
def evaluate (m : Captures) : Option Bool := do
  let left ← stoll ((m.text 1).getD "")
  let right ← stoll ((m.text 3).getD "")
  return compare ((m.text 2).getD "") left right

theorem stoll_literal (h : IsLiteral s n) :
    (FitsLongLong n → stoll (String.ofList s) = some n) ∧ (¬FitsLongLong n → stoll (String.ofList s) = none) := by
  have hstoll : stoll (String.ofList s) = if FitsLongLong n then some n else none := by
    unfold stoll
    rw [String.toList_ofList]
    cases h with
    | negative hne hdigits => rfl
    | natural hne hdigits =>
      obtain ⟨d, ds, rfl⟩ := List.exists_cons_of_ne_nil hne
      have hd : d ≠ '-' := by
        rintro rfl
        exact absurd (hdigits '-' List.mem_cons_self) (by decide)
      simp [FitsLongLong, hd]
  rw [hstoll]
  exact ⟨fun hfits => if_pos hfits, fun hfits => if_neg hfits⟩

theorem evaluate_parts (p : Parts c) :
    (c.Fits → ∃ b, evaluate [(1, String.ofList p.l), (2, String.ofList c.relation.text.toList),
        (3, String.ofList p.r)] = some b ∧ (b = true ↔ c.Holds)) ∧
      (¬c.Fits → evaluate [(1, String.ofList p.l), (2, String.ofList c.relation.text.toList),
        (3, String.ofList p.r)] = none) := by
  have hleft := stoll_literal p.leftValue
  have hright := stoll_literal p.rightValue
  have hevaluate : evaluate [(1, String.ofList p.l), (2, String.ofList c.relation.text.toList),
      (3, String.ofList p.r)] = (stoll (String.ofList p.l)).bind fun left =>
        (stoll (String.ofList p.r)).bind fun right => some (compare c.relation.text left right) := by
    simp [evaluate, Captures.text, List.lookup_cons]
  rw [hevaluate]
  constructor
  · rintro ⟨hl, hr⟩
    rw [hleft.1 hl, hright.1 hr]
    exact ⟨_, rfl, compare_text _ _ _⟩
  · intro hnot
    by_cases hl : FitsLongLong c.left
    · rw [hleft.1 hl, hright.2 fun hr => hnot ⟨hl, hr⟩]
      rfl
    · rw [hleft.2 hl]
      rfl

theorem listed_values : (∀ g ∈ trueTexts, ∀ m ∈ regexMatch numCmpRe g, evaluate m = some true) ∧
      ∀ g ∈ falseTexts, ∀ m ∈ regexMatch numCmpRe g, evaluate m = some false := by
  decide +kernel

theorem fold_evaluate (m : Captures) : (do
      let left ← stoll ((m.text 1).getD "")
      let right ← stoll ((m.text 3).getD "")
      if compare ((m.text 2).getD "") left right then some none else some (some "false") :
        Option (Option String)) = (evaluate m).map fun b => if b then none else some "false" := by
  unfold evaluate
  cases stoll ((m.text 1).getD "") with
  | none => rfl
  | some left =>
    cases stoll ((m.text 3).getD "") with
    | none => rfl
    | some right => cases h : compare ((m.text 2).getD "") left right <;> simp [h]

theorem foldGuard_comparison (h : Compares g c) :
    (c.Fits → (c.Holds → foldGuard (some g) = some none) ∧ (¬c.Holds → foldGuard (some g) = some (some "false"))) ∧
      (¬c.Fits → foldGuard (some g) = none) := by
  obtain ⟨p, hp⟩ := h.trimBlanks
  have hmatch := regexMatch_parts p hp
  obtain ⟨hfits, hthrows⟩ := evaluate_parts p
  have hfold : foldGuard (some g) = (evaluate [(1, String.ofList p.l), (2, String.ofList c.relation.text.toList),
      (3, String.ofList p.r)]).map fun b => if b then none else some "false" := by
    unfold foldGuard
    dsimp only
    split
    · next htrue =>
        rw [listed_values.1 _ htrue _ hmatch]
        rfl
    · split
      · next hfalse =>
          rw [listed_values.2 _ hfalse _ hmatch]
          rfl
      · rw [hmatch]
        exact fold_evaluate _
  rw [hfold]
  refine ⟨fun hf => ?_, fun hf => by rw [hthrows hf]; rfl⟩
  obtain ⟨b, hb, hiff⟩ := hfits hf
  rw [hb]
  constructor
  · intro hholds
    rw [hiff.mpr hholds]
    rfl
  · intro hholds
    rw [eq_false_of_ne_true (mt hiff.mp hholds)]
    rfl

/-! ## Machines -/

/-- The guards of a machine are comparisons of literals. -/
def Compared (ir : WholeIr) : Prop := ∀ t ∈ ir.transitions, ∀ g, t.guard = some g → ∃ c, Compares g c

/-- A transition without a guard, or with a true one. -/
def AlwaysTaken (t : TransitionEdge) : Prop := ∀ g c, t.guard = some g → Compares g c → c.Holds

/-- The text of a guard is that of its structured copy, if there is one. -/
def InStep (t : TransitionEdge) : Prop := ∀ ast, t.guardAst = some ast → t.guard = some ast.toCpp

/-- Folding agrees with arithmetic: the transitions that are left are those that are always taken, without a guard,
and the two copies of the guards are in step. -/
structure Agrees (ir ir' : WholeIr) : Prop where
  kept : ∃ keep : TransitionEdge → Bool, (∀ t ∈ ir.transitions, keep t = true ↔ AlwaysTaken t) ∧
    ir'.transitions = (ir.transitions.filter keep).map fun t => { t with guard := none }
  inStep : ∀ t ∈ ir'.transitions, InStep t

/-- All numbers of a machine fit 64 bits. -/
def AllFit (ir : WholeIr) : Prop := ∀ t ∈ ir.transitions, ∀ g c, t.guard = some g → Compares g c → c.Fits

variable {ir ir' : WholeIr} {t : TransitionEdge}

theorem foldGuard_of_alwaysTaken (h : Compared ir) (hfit : AllFit ir) (ht : t ∈ ir.transitions) (htaken : AlwaysTaken t) :
    foldGuard t.guard = some none := by
  cases hguard : t.guard with
  | none => rfl
  | some g =>
    obtain ⟨c, hc⟩ := h t ht g hguard
    exact ((foldGuard_comparison hc).1 (hfit t ht g c hguard hc)).1 (htaken g c hguard hc)

theorem foldGuard_of_not_alwaysTaken (hfit : AllFit ir) (ht : t ∈ ir.transitions) (htaken : ¬AlwaysTaken t) :
    foldGuard t.guard = some (some "false") := by
  unfold AlwaysTaken at htaken
  push Not at htaken
  obtain ⟨g, c, hguard, hc, hfalse⟩ := htaken
  rw [hguard]
  exact ((foldGuard_comparison hc).1 (hfit t ht g c hguard hc)).2 hfalse

theorem run_eq_none_iff : run ir = none ↔ ∃ t ∈ ir.transitions, foldGuard t.guard = none := by
  unfold run
  split
  · next hthrows =>
      obtain ⟨t, ht, hnone⟩ := List.any_eq_true.mp hthrows
      exact ⟨fun _ => ⟨t, ht, of_decide_eq_true hnone⟩, fun _ => rfl⟩
  · next hthrows =>
      refine ⟨nofun, ?_⟩
      rintro ⟨t, ht, hnone⟩
      exact absurd (List.any_eq_true.mpr ⟨t, ht, decide_eq_true hnone⟩) hthrows

theorem isFalse_iff (h : Compared ir) (hfit : AllFit ir) (ht : t ∈ ir.transitions) :
    (!isFalse t) = true ↔ AlwaysTaken t := by
  unfold isFalse
  by_cases htaken : AlwaysTaken t
  · rw [foldGuard_of_alwaysTaken h hfit ht htaken]
    exact ⟨fun _ => htaken, fun _ => rfl⟩
  · rw [foldGuard_of_not_alwaysTaken hfit ht htaken]
    exact ⟨nofun, fun h => absurd h htaken⟩

theorem kept_run (h : Compared ir) (hfit : AllFit ir) (hrun : run ir = some ir') :
    (∀ t ∈ ir.transitions, (!isFalse t) = true ↔ AlwaysTaken t) ∧
      ir'.transitions = (ir.transitions.filter fun t => !isFalse t).map fun t => { t with guard := none } := by
  refine ⟨fun t ht => isFalse_iff h hfit ht, ?_⟩
  rw [transitions_run hrun]
  refine List.map_congr_left fun t ht => ?_
  obtain ⟨ht, hkept⟩ := List.mem_filter.mp ht
  unfold foldTransition
  rw [foldGuard_of_alwaysTaken h hfit ht ((isFalse_iff h hfit ht).mp hkept)]
  rfl

/-- **Constant folding agrees with arithmetic** if and only if all numbers fit 64 bits and no transition that is always
taken has a structured guard. -/
theorem folding_agrees (ir : WholeIr) (h : Compared ir) : (∃ ir', run ir = some ir' ∧ Agrees ir ir') ↔
      AllFit ir ∧ ∀ t ∈ ir.transitions, AlwaysTaken t → t.guardAst = none := by
  constructor
  · rintro ⟨ir', hrun, ⟨keep, hkeep, htransitions⟩, hinStep⟩
    constructor
    · intro t ht g c hguard hc
      by_contra hfits
      have hnone : foldGuard t.guard = none := by
        rw [hguard]
        exact (foldGuard_comparison hc).2 hfits
      rw [run_eq_none_iff.mpr ⟨t, ht, hnone⟩] at hrun
      cases hrun
    · intro t ht htaken
      have hleft : ({ t with guard := none } : TransitionEdge) ∈ ir'.transitions := by
        rw [htransitions]
        exact List.mem_map.mpr ⟨t, List.mem_filter.mpr ⟨ht, (hkeep t ht).mpr htaken⟩, rfl⟩
      cases hast : t.guardAst with
      | none => rfl
      | some ast => cases hinStep _ hleft ast hast
  · rintro ⟨hfit, hast⟩
    cases hrun : run ir with
    | none =>
      obtain ⟨t, ht, hnone⟩ := run_eq_none_iff.mp hrun
      by_cases htaken : AlwaysTaken t
      · rw [foldGuard_of_alwaysTaken h hfit ht htaken] at hnone
        cases hnone
      · rw [foldGuard_of_not_alwaysTaken hfit ht htaken] at hnone
        cases hnone
    | some ir' =>
      obtain ⟨hkeep, htransitions⟩ := kept_run h hfit hrun
      refine ⟨ir', rfl, ⟨⟨_, hkeep, htransitions⟩, fun t' ht' ast hast' => ?_⟩⟩
      rw [htransitions] at ht'
      obtain ⟨t, ht, rfl⟩ := List.mem_map.mp ht'
      obtain ⟨ht, hkept⟩ := List.mem_filter.mp ht
      have hnone := hast t ht ((hkeep t ht).mp hkept)
      rw [show t.guardAst = some ast from hast'] at hnone
      cases hnone

/-- A machine with one guard, which compares a natural number with zero. -/
def guardedBy (digits : String) : WholeIr :=
  { transitions := [{ source := "Idle", target := "Busy", guard := some (digits ++ " > 0") }] }

theorem compared_guardedBy {digits : String} (hne : digits.toList ≠ []) (hdigits : ∀ c ∈ digits.toList, c.isDigit = true) :
    Compared (guardedBy digits) ∧
      Compares (digits ++ " > 0") ⟨digitsValue digits.toList, .gt, digitsValue ['0']⟩ := by
  have hcompares : Compares (digits ++ " > 0") ⟨digitsValue digits.toList, .gt, digitsValue ['0']⟩ := by
    refine ⟨⟨[], digits.toList, [' '], [' '], ['0'], [], ?_, .natural hne hdigits, .natural (by decide) (by decide)⟩, ?_⟩
    · exact ⟨by unfold Blanks; decide, by unfold Blanks; decide, by unfold Blanks; decide, by unfold Blanks; decide⟩
    · rw [String.toList_append]
      show _ = [] ++ (digits.toList ++ ([' '] ++ (Relation.gt.text.toList ++ ([' '] ++ (['0'] ++ [])))))
      rw [List.nil_append]
      exact congrArg _ (by decide)
  refine ⟨fun t ht g hg => ?_, hcompares⟩
  obtain rfl := List.mem_singleton.mp ht
  obtain rfl := Option.some.inj hg
  exact ⟨_, hcompares⟩

/-- A small number is folded. -/
theorem small_folding_agrees : (∃ ir', run (guardedBy "7") = some ir' ∧ Agrees (guardedBy "7") ir') ↔
      AllFit (guardedBy "7") ∧ ∀ t ∈ (guardedBy "7").transitions, AlwaysTaken t → t.guardAst = none :=
  folding_agrees (guardedBy "7") (compared_guardedBy (by decide) (by decide)).1

/-- **A long literal**: a comparison with 2^63 throws. -/
theorem long_literal_throws : ¬∀ ir, Compared ir → ∃ ir', run ir = some ir' ∧ Agrees ir ir' := by
  intro h
  obtain ⟨hcompared, hcompares⟩ := @compared_guardedBy "9223372036854775808" (by decide) (by decide)
  obtain ⟨ir', hrun, -⟩ := h _ hcompared
  have hthrows : foldGuard (some ("9223372036854775808" ++ " > 0")) = none :=
    (foldGuard_comparison hcompares).2 (by decide)
  rw [run_eq_none_iff.mpr ⟨_, List.mem_singleton.mpr rfl, hthrows⟩] at hrun
  cases hrun

end Fsmc.Passes.ConstantFolding
