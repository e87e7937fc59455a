/-
# Fsmc.Smv.Properties — properties as specifications of an SMV module.

A property is a temporal formula over states, events and data. The exporter prints it operand by operand; an
operator that it does not know is printed as a proposition about the state, and so is an atom that is neither a
comparison nor an event. What a line denotes is what nuXmv reads in it; what it should denote is the formula
itself, each atom in one of the readings that its name admits.
-/
import Fsmc.Frontend.LtlParser
import Fsmc.Lib.SmvFormula
import Fsmc.Smv.Predicate

namespace Fsmc.Smv

open Fsmc.Ir Fsmc.Cpp Fsmc.Lib.SmvFormula

/-! ## The exporter -/

/-- What the exporter reads of a machine: its signals stand beside the representation. -/
structure Source where
  ir : FsmIr
  signals : List String := []

/-- `add_state` skips these names. -/
def isStateName (name : String) : Bool := name ≠ "" && name ≠ "[*]" && name ≠ "None" && name ≠ "none"

/-- `state_names`: the constants of `state`. -/
def stateNames (S : Source) : List String :=
  let names := S.ir.states.map (·.name) ++ S.ir.choiceNodes ++
    S.ir.transitions.flatMap fun t => [t.source, t.target]
  let declared := ((names.filter isStateName).map sanitizeSmvIdent).reverse.dedup.reverse
  if declared.isEmpty then ["Idle"] else declared

/-- `event_names`, before they are sanitized. -/
def eventNames (S : Source) : List String :=
  ((S.ir.transitions.map (·.getTriggerName)).filter (fun e => e ≠ "" && e ≠ "none" && e ≠ "Anonymous") ++
    S.signals.filter fun e => e ≠ "" && e ≠ "none").reverse.dedup.reverse

/-- Whether an atom is printed as a data predicate. -/
def isComparison (atom : String) : Bool :=
  atom.toList.contains '=' || atom.toList.contains '<' || atom.toList.contains '>'

/-- Whether an atom is printed as an event. -/
def isEvent (S : Source) (atom : String) : Bool :=
  (eventNames S).contains atom || (eventNames S).contains (sanitizeSmvIdent atom)

/-- A proposition about the state. -/
def stateText (atom : String) : String := "state = " ++ sanitizeSmvIdent atom

/-- A proposition about the event. -/
def eventText (atom : String) : String := "event = " ++ sanitizeSmvIdent atom

/-- `format_ast_for_smv` for an atom. -/
def formatAtom (S : Source) (atom : String) : String :=
  if isComparison atom then toSmvPredicate atom
  else if isEvent S atom then eventText atom
  else stateText atom

/-- What is printed before the operand of an operator. -/
def prefixText : TemporalOp → Option String
  | .not => some "!"
  | .globally => some "G "
  | .finally => some "F "
  | .next => some "X "
  | _ => none

/-- What is printed between the operands of an operator. -/
def infixText : TemporalOp → Option String
  | .until => some " U "
  | .implies => some " -> "
  | .equivalent => some " <-> "
  | .and => some " & "
  | .or => some " | "
  | _ => none

mutual

def formatAst (S : Source) : PropertyAstNode → String
  | .mk op atom children =>
    let texts := formatAll S children
    if op = .atom then formatAtom S atom
    else
      match prefixText op, infixText op with
      | some before, _ => before ++ "(" ++ texts.headD (stateText atom) ++ ")"
      | none, some between => "(" ++ between.intercalate texts ++ ")"
      | none, none => stateText atom

/-- The texts of several formulas. -/
def formatAll (S : Source) : List PropertyAstNode → List String
  | [] => []
  | c :: cs => formatAst S c :: formatAll S cs

end

/-- A text from one position on, without its last character. -/
def withoutEnds (text : String) (pos : ℕ) : String := String.ofList ((text.toList.drop pos).dropLast)

/-- The formula of an `INVARSPEC`: without a leading `G`. -/
def invariantText (text : String) : String :=
  if startsWith text "G (" && text.toList.getLast? = some ')' then withoutEnds text 3
  else if startsWith text "G(" && text.toList.getLast? = some ')' then withoutEnds text 2
  else text

/-- The formula of the line for a property that has a tree. -/
def specText (S : Source) (kind : PropertyKind) (ast : PropertyAstNode) : String :=
  if kind = .invariant then invariantText (formatAst S ast) else formatAst S ast

/-! ## What a line should say -/

/-- The operators with one operand, as nuXmv has them. -/
def unarySymbol : TemporalOp → Option String
  | .not => some "!"
  | .globally => some "G"
  | .finally => some "F"
  | .next => some "X"
  | .ex => some "EX"
  | .ax => some "AX"
  | .ef => some "EF"
  | .af => some "AF"
  | .eg => some "EG"
  | .ag => some "AG"
  | _ => none

/-- The operators with two operands, as nuXmv has them. -/
def binarySymbol : TemporalOp → Option String
  | .until => some "U"
  | .release => some "V"
  | .implies => some "->"
  | .equivalent => some "<->"
  | .and => some "&"
  | .or => some "|"
  | .eu => some "EU"
  | .au => some "AU"
  | _ => none

/-- The constants among the atoms; an operand that is missing is true. -/
def constantText (atom : String) : Option String :=
  if atom = "true" ∨ atom = "1" ∨ atom = "" then some "TRUE"
  else if atom = "false" ∨ atom = "0" then some "FALSE"
  else none

/-- A variable or a port, which is a proposition if it is Boolean. -/
def isData (S : Source) (atom : String) : Bool := (S.ir.findVariable atom).isSome || (S.ir.findPort atom).isSome

/-- The name of a state of the module. -/
def isState (S : Source) (atom : String) : Bool := (stateNames S).contains (sanitizeSmvIdent atom)

/-- The propositions that an atom may stand for; a name that is not known is taken for a state. -/
inductive Reading (S : Source) (atom : String) : String → Prop
  | comparison (h : isComparison atom = true) : Reading S atom (toSmvPredicate atom)
  | event (hc : isComparison atom = false) (h : isEvent S atom = true) : Reading S atom (eventText atom)
  | state (hc : isComparison atom = false) (h : isState S atom = true) : Reading S atom (stateText atom)
  | data (hc : isComparison atom = false) (h : isData S atom = true) :
    Reading S atom (sanitizeSmvIdent atom)
  | constant {value : String} (h : constantText atom = some value) : Reading S atom value
  | unknown (hc : isComparison atom = false) (he : isEvent S atom = false) (hd : isData S atom = false)
    (hconstant : constantText atom = none) : Reading S atom (stateText atom)

/-- The formula of a property, over propositions of the module. -/
inductive Means (S : Source) : PropertyAstNode → Formula → Prop
  | atom {text proposition w : String} {ws : List String} (h : Reading S text proposition)
    (hwords : lex proposition = (w :: ws).map .word) : Means S (.mk .atom text []) (.prop (w :: ws))
  | unary {op : TemporalOp} {symbol : String} {p : PropertyAstNode} {f : Formula}
    (hop : unarySymbol op = some symbol) (hp : Means S p f) : Means S (.mk op "" [p]) (.unary symbol f)
  | binary {op : TemporalOp} {symbol : String} {p q : PropertyAstNode} {f g : Formula}
    (hop : binarySymbol op = some symbol) (hp : Means S p f) (hq : Means S q g) :
    Means S (.mk op "" [p, q]) (.binary symbol f g)

/-- The formula that a line is about: for an invariant, the body of the outermost `G`. -/
def bodyOf (kind : PropertyKind) : PropertyAstNode → PropertyAstNode
  | .mk .globally text [body] => if kind = .invariant then body else .mk .globally text [body]
  | ast => ast

/-- A formula without temporal operators, as an `INVARSPEC` has it. -/
def Propositional : Formula → Prop
  | .prop _ => True
  | .unary op f => op = "!" ∧ Propositional f
  | .binary op f g => op ∈ ["&", "|", "->", "<->"] ∧ Propositional f ∧ Propositional g

/-- What a specification line denotes. -/
def Denotes (kind : PropertyKind) (text : String) (f : Formula) : Prop :=
  read text = some f ∧ (kind = .invariant → Propositional f)

/-- A property is exported with its meaning. -/
def Exports (S : Source) (kind : PropertyKind) (ast : PropertyAstNode) : Prop :=
  ∃ f, Means S (bodyOf kind ast) f ∧ Denotes kind (specText S kind ast) f

/-! ## Which properties are exported with their meaning -/

/-- A proposition that is a run of words. -/
def IsPlain (proposition : String) : Prop := ∃ w ws, lex proposition = (w :: ws).map Tok.word

/-- The letters of temporal operators are no names in a formula. -/
def IsLetter (name : String) : Prop := name ∈ unaryLetters ∨ name ∈ binaryLetters

/-- The exporter prints an atom in one of its readings. -/
def Kept (S : Source) (atom : String) : Prop :=
  if isComparison atom then IsPlain (toSmvPredicate atom)
  else
    ¬ IsLetter (sanitizeSmvIdent atom) ∧
      (isEvent S atom = true ∨ isState S atom = true ∨ (isData S atom = false ∧ constantText atom = none))

/-- All operators are among those that the exporter prints, and all atoms are kept. -/
inductive Exportable (S : Source) : PropertyAstNode → Prop
  | atom {text : String} (h : Kept S text) : Exportable S (.mk .atom text [])
  | unary {op : TemporalOp} {p : PropertyAstNode} (hop : op ∈ [.not, .globally, .finally, .next])
    (hp : Exportable S p) : Exportable S (.mk op "" [p])
  | binary {op : TemporalOp} {p q : PropertyAstNode} (hop : op ∈ [.until, .implies, .equivalent, .and, .or])
    (hp : Exportable S p) (hq : Exportable S q) : Exportable S (.mk op "" [p, q])

/-- A property without temporal operators. -/
inductive Timeless : PropertyAstNode → Prop
  | atom (text : String) : Timeless (.mk .atom text [])
  | not {p : PropertyAstNode} (hp : Timeless p) : Timeless (.mk .not "" [p])
  | binary {op : TemporalOp} {p q : PropertyAstNode} (hop : op ∈ [.implies, .equivalent, .and, .or])
    (hp : Timeless p) (hq : Timeless q) : Timeless (.mk op "" [p, q])

section

variable {S : Source}

/-! ## Texts of atoms -/

theorem single_eq_none {c : Char} (h : isIdentChar c = true) : single c = none ∧ c ≠ '<' ∧ c ≠ '-' ∧ c ≠ '!' := by
  have hne : ∀ d, isIdentChar d = false → c ≠ d := by
    rintro d hd rfl
    rw [h] at hd
    exact Bool.noConfusion hd
  refine ⟨?_, hne _ (by decide), hne _ (by decide), hne _ (by decide)⟩
  unfold single
  simp [hne ' ' (by decide), hne '\t' (by decide), hne '\r' (by decide), hne '\n' (by decide),
    hne '(' (by decide), hne ')' (by decide), hne '!' (by decide), hne '&' (by decide), hne '|' (by decide)]

theorem lexFrom_ident {text run : List Char} (h : ∀ c ∈ text, isIdentChar c = true) :
    lexFrom text run = flush (run ++ text) := by
  induction text generalizing run with
  | nil =>
    rw [List.append_nil]
    rfl
  | cons c text ih =>
    obtain ⟨hsingle, hiff, himplies, hne⟩ := single_eq_none (h c List.mem_cons_self)
    rw [lexFrom_cons ⟨fun _ hc _ => hiff hc, fun _ hc _ => himplies hc, fun _ hc _ => hne hc⟩, hsingle]
    simp only
    rw [ih fun c' hc' => h c' (List.mem_cons_of_mem _ hc'), List.append_assoc]
    rfl

theorem lex_sanitizeSmvIdent (name : String) : lex (sanitizeSmvIdent name) = flush (sanitizeSmvIdent name).toList :=
  lexFrom_ident (sanitizeSmvIdent_spec name).2

variable {name : String} {ws : List String} {f : Formula}

theorem flush_name (hne : name.toList ≠ []) : flush name.toList =
      if name ∈ unaryLetters then [.unary name] else if name ∈ binaryLetters then [.binary name]
      else [.word name] := by
  unfold flush
  rw [if_neg hne, String.ofList_toList]

theorem flush_sanitizeSmvIdent (h : ¬ IsLetter (sanitizeSmvIdent name)) :
    flush (sanitizeSmvIdent name).toList = [.word (sanitizeSmvIdent name)] := by
  obtain ⟨hunary, hbinary⟩ := not_or.mp h
  rw [flush_name (sanitizeSmvIdent_spec name).1, if_neg hunary, if_neg hbinary]

theorem not_isLetter_of_word {toks : List Tok}
    (h : ∀ tok ∈ toks ++ flush (sanitizeSmvIdent name).toList, ∃ w, tok = .word w) :
    ¬ IsLetter (sanitizeSmvIdent name) := by
  rw [flush_name (sanitizeSmvIdent_spec name).1] at h
  rintro (hunary | hbinary)
  · rw [if_pos hunary] at h
    obtain ⟨w, hw⟩ := h _ (List.mem_append_right _ (List.mem_singleton_self _))
    cases hw
  · by_cases hunary : sanitizeSmvIdent name ∈ unaryLetters
    · rw [if_pos hunary] at h
      obtain ⟨w, hw⟩ := h _ (List.mem_append_right _ (List.mem_singleton_self _))
      cases hw
    · rw [if_neg hunary, if_pos hbinary] at h
      obtain ⟨w, hw⟩ := h _ (List.mem_append_right _ (List.mem_singleton_self _))
      cases hw

theorem lex_stateText (atom : String) :
    lex (stateText atom) = ([.word "state", .word "="] : List Tok) ++ flush (sanitizeSmvIdent atom).toList := by
  unfold lex stateText
  rw [String.toList_append]
  show Tok.word "state" :: Tok.word "=" :: lexFrom (sanitizeSmvIdent atom).toList [] = _
  rw [lexFrom_ident (sanitizeSmvIdent_spec atom).2]
  rfl

theorem lex_eventText (atom : String) :
    lex (eventText atom) = ([.word "event", .word "="] : List Tok) ++ flush (sanitizeSmvIdent atom).toList := by
  unfold lex eventText
  rw [String.toList_append]
  show Tok.word "event" :: Tok.word "=" :: lexFrom (sanitizeSmvIdent atom).toList [] = _
  rw [lexFrom_ident (sanitizeSmvIdent_spec atom).2]
  rfl

theorem constantText_spec {atom value : String} (h : constantText atom = some value) :
    isComparison atom = false ∧ ¬ IsLetter (sanitizeSmvIdent atom) ∧ (value = "TRUE" ∨ value = "FALSE") := by
  unfold constantText at h
  split at h
  · rename_i hatom
    cases h
    rcases hatom with rfl | rfl | rfl <;> exact ⟨by decide, by simp [IsLetter]; decide, Or.inl rfl⟩
  · split at h
    · rename_i hatom
      cases h
      rcases hatom with rfl | rfl <;> exact ⟨by decide, by simp [IsLetter]; decide, Or.inr rfl⟩
    · cases h

theorem formatAtom_name {atom : String} (hc : isComparison atom = false)
    (hletter : ¬ IsLetter (sanitizeSmvIdent atom)) :
    lex (formatAtom S atom) =
      [(if isEvent S atom then "event" else "state"), "=", sanitizeSmvIdent atom].map .word := by
  unfold formatAtom
  rw [hc]
  cases hevent : isEvent S atom with
  | true =>
    simp only [Bool.false_eq_true, if_false, if_true]
    rw [lex_eventText, flush_sanitizeSmvIdent hletter]
    rfl
  | false =>
    simp only [Bool.false_eq_true, if_false]
    rw [lex_stateText, flush_sanitizeSmvIdent hletter]
    rfl

theorem words_of_map {toks : List Tok} (h : toks = ws.map .word) :
    ∀ tok ∈ toks, ∃ w, tok = .word w := by
  intro tok htok
  rw [h] at htok
  obtain ⟨w, -, rfl⟩ := List.mem_map.mp htok
  exact ⟨w, rfl⟩

theorem not_isLetter_of_reading {atom proposition : String}
    (h : Reading S atom proposition) (hc : isComparison atom = false)
    (hwords : lex proposition = ws.map .word) : ¬ IsLetter (sanitizeSmvIdent atom) := by
  cases h with
  | comparison h => exact absurd (hc.symm.trans h) (by simp)
  | event _ _ =>
    rw [lex_eventText] at hwords
    exact not_isLetter_of_word (words_of_map hwords)
  | state _ _ | unknown _ _ _ _ =>
    rw [lex_stateText] at hwords
    exact not_isLetter_of_word (words_of_map hwords)
  | data _ _ =>
    rw [lex_sanitizeSmvIdent] at hwords
    have hall := words_of_map hwords
    rw [← List.nil_append (flush _)] at hall
    exact not_isLetter_of_word hall
  | constant h => exact (constantText_spec h).2.1

theorem phrase_atom {atom proposition w : String} (h : Reading S atom proposition)
    (hwords : lex proposition = (w :: ws).map .word) :
    ∃ v vs, lex (formatAtom S atom) = (v :: vs).map .word ∧ (v :: vs = w :: ws → Kept S atom) := by
  cases hc : isComparison atom with
  | true =>
    have hproposition : proposition = toSmvPredicate atom := by
      cases h with
      | comparison _ => rfl
      | event h _ | state h _ | data h _ | unknown h _ _ _ => exact absurd (hc.symm.trans h) (by simp)
      | constant h => exact absurd (hc.symm.trans (constantText_spec h).1) (by simp)
    subst hproposition
    refine ⟨w, ws, ?_, fun _ => ?_⟩
    · unfold formatAtom
      rw [if_pos hc]
      exact hwords
    · unfold Kept
      rw [if_pos hc]
      exact ⟨w, ws, hwords⟩
  | false =>
    have hletter := not_isLetter_of_reading h hc hwords
    refine ⟨_, _, formatAtom_name hc hletter, fun hsame => ?_⟩
    have hlength : (lex proposition).length = 3 := by
      rw [hwords, ← hsame]
      rfl
    unfold Kept
    rw [if_neg (by simp [hc])]
    refine ⟨hletter, ?_⟩
    cases h with
    | comparison h => exact absurd (hc.symm.trans h) (by simp)
    | event _ he => exact Or.inl he
    | state _ hs => exact Or.inr (Or.inl hs)
    | unknown _ _ hd hconstant => exact Or.inr (Or.inr ⟨hd, hconstant⟩)
    | data _ _ =>
      rw [lex_sanitizeSmvIdent, flush_sanitizeSmvIdent hletter] at hlength
      exact absurd hlength (by simp)
    | constant hvalue =>
      rcases (constantText_spec hvalue).2.2 with rfl | rfl <;> exact absurd hlength (by decide)

/-! ## Texts of formulas -/

variable {op : TemporalOp} {ast : PropertyAstNode}

theorem lex_prefixed {before symbol : String} (hbefore : prefixText op = some before)
    (hsymbol : unarySymbol op = some symbol) (text : String) :
    lex (before ++ "(" ++ text ++ ")") = Tok.unary symbol :: .opening :: (lex text ++ [Tok.closing]) := by
  have hassoc : before ++ "(" ++ text ++ ")" = before ++ ("(" ++ text ++ ")") := by
    simp only [String.append_assoc]
  have hbracket : ("(" ++ text ++ ")").toList = '(' :: (text.toList ++ [')']) := by
    rw [String.toList_append, String.toList_append]
    rfl
  rw [← lex_bracket, hassoc]
  unfold lex
  rw [String.toList_append, hbracket]
  cases op <;> cases hbefore <;> cases hsymbol <;> rfl

theorem lex_joined {between symbol : String} (hbetween : infixText op = some between)
    (hsymbol : binarySymbol op = some symbol) (a b : String) :
    lex ("(" ++ (a ++ between ++ b) ++ ")") =
      Tok.opening :: (lex a ++ Tok.binary symbol :: (lex b ++ [Tok.closing])) := by
  have hsplit : lex (a ++ between ++ b) = lex a ++ Tok.binary symbol :: lex b := by
    unfold lex
    rw [String.append_assoc, String.toList_append, String.toList_append]
    cases op <;> cases hbetween <;> cases hsymbol <;> exact lexFrom_append (Or.inl rfl) _ _ _
  rw [lex_bracket, hsplit, List.append_assoc]
  rfl

theorem formatAst_prefixed {before : String} (h : prefixText op = some before)
    (p : PropertyAstNode) : formatAst S (.mk op "" [p]) = before ++ "(" ++ formatAst S p ++ ")" := by
  cases op <;> cases h <;> rfl

theorem formatAst_joined {between : String} (h : infixText op = some between) (p q : PropertyAstNode) :
    formatAst S (.mk op "" [p, q]) = "(" ++ (formatAst S p ++ between ++ formatAst S q) ++ ")" := by
  cases op <;> cases h <;> rfl

theorem formatAst_other (hatom : op ≠ .atom) (hbefore : prefixText op = none)
    (hbetween : infixText op = none) (children : List PropertyAstNode) :
    formatAst S (.mk op "" children) = stateText "" := by
  unfold formatAst
  rw [if_neg hatom, hbefore, hbetween]

/-- What a meaningful property is printed as is a formula; if it is the one that was meant, the property is
exportable. -/
theorem phrase_formatAst (h : Means S ast f) :
    ∃ g, Phrase (lex (formatAst S ast)) g ∧ (g = f → Exportable S ast) ∧
      ((∃ g', g = .unary "G" g') → ast.op = .globally) := by
  have hother : Phrase (lex (stateText "")) (.prop ["state", "=", "ident"]) := .words "state" ["=", "ident"]
  induction h with
  | atom h hwords =>
    obtain ⟨v, vs, hlex, hkept⟩ := phrase_atom h hwords
    refine ⟨.prop (v :: vs), ?_, fun hsame => .atom (hkept (Formula.prop.inj hsame)), ?_⟩
    · show Phrase (lex (formatAtom S _)) _
      rw [hlex]
      exact .words v vs
    · rintro ⟨g', hg'⟩
      cases hg'
  | @unary op symbol p f hop hp ih =>
    obtain ⟨g, hphrase, hexportable, -⟩ := ih
    cases hbefore : prefixText op with
    | some before =>
      refine ⟨.unary symbol g, ?_, fun hsame => ?_, ?_⟩
      · rw [formatAst_prefixed hbefore, lex_prefixed hbefore hop]
        exact .prefixed symbol hphrase
      · refine .unary ?_ (hexportable (Formula.unary.inj hsame).2)
        cases op <;> first | (cases hbefore; done) | decide
      · rintro ⟨g', hg'⟩
        cases hg'
        cases op <;> first | (cases hbefore; done) | exact absurd hop (by decide) | rfl
    | none =>
      have hnone : op ≠ .atom ∧ infixText op = none := by
        cases op <;> first | (cases hop; done) | exact ⟨by decide, rfl⟩
      rw [formatAst_other hnone.1 hbefore hnone.2]
      exact ⟨_, hother, fun hsame => Formula.noConfusion hsame, fun ⟨_, hg'⟩ => Formula.noConfusion hg'⟩
  | @binary op symbol p q f g hop hp hq ihp ihq =>
    obtain ⟨f', hphrase, hexportable, -⟩ := ihp
    obtain ⟨g', hphrase', hexportable', -⟩ := ihq
    cases hbetween : infixText op with
    | some between =>
      refine ⟨.binary symbol f' g', ?_, fun hsame => ?_, fun ⟨_, hg⟩ => Formula.noConfusion hg⟩
      · rw [formatAst_joined hbetween, lex_joined hbetween hop]
        exact .joined symbol hphrase hphrase'
      · obtain ⟨-, hf, hg⟩ := Formula.binary.inj hsame
        refine .binary ?_ (hexportable hf) (hexportable' hg)
        cases op <;> first | (cases hbetween; done) | decide
    | none =>
      have hnone : op ≠ .atom ∧ prefixText op = none := by
        cases op <;> first | (cases hop; done) | exact ⟨by decide, rfl⟩
      rw [formatAst_other hnone.1 hnone.2 hbetween]
      exact ⟨_, hother, fun hsame => Formula.noConfusion hsame, fun ⟨_, hg⟩ => Formula.noConfusion hg⟩

theorem reading_of_kept {atom : String} (h : Kept S atom) :
    Reading S atom (formatAtom S atom) ∧ IsPlain (formatAtom S atom) := by
  unfold Kept at h
  cases hc : isComparison atom with
  | true =>
    rw [if_pos hc] at h
    unfold formatAtom
    rw [if_pos hc]
    exact ⟨.comparison hc, h⟩
  | false =>
    rw [if_neg (by simp [hc])] at h
    obtain ⟨hletter, hknown⟩ := h
    refine ⟨?_, _, _, formatAtom_name hc hletter⟩
    unfold formatAtom
    rw [if_neg (by simp [hc])]
    cases hevent : isEvent S atom with
    | true => exact .event hc hevent
    | false =>
      rcases hknown with he | hs | ⟨hd, hconstant⟩
      · exact absurd (hevent.symm.trans he) (by simp)
      · exact .state hc hs
      · exact .unknown hc hevent hd hconstant

theorem means_of_exportable (h : Exportable S ast) : ∃ f, Means S ast f ∧ Phrase (lex (formatAst S ast)) f := by
  induction h with
  | @atom text h =>
    obtain ⟨hreading, w, ws, hwords⟩ := reading_of_kept h
    refine ⟨_, .atom hreading hwords, ?_⟩
    show Phrase (lex (formatAtom S text)) _
    rw [hwords]
    exact .words w ws
  | @unary op p hop hp ih =>
    obtain ⟨f, hmeans, hphrase⟩ := ih
    obtain ⟨before, symbol, hbefore, hsymbol⟩ :
        ∃ before symbol, prefixText op = some before ∧ unarySymbol op = some symbol := by
      simp only [List.mem_cons, List.not_mem_nil, or_false] at hop
      rcases hop with rfl | rfl | rfl | rfl <;> exact ⟨_, _, rfl, rfl⟩
    refine ⟨_, .unary hsymbol hmeans, ?_⟩
    rw [formatAst_prefixed hbefore, lex_prefixed hbefore hsymbol]
    exact .prefixed symbol hphrase
  | @binary op p q hop hp hq ihp ihq =>
    obtain ⟨f, hmeans, hphrase⟩ := ihp
    obtain ⟨g, hmeans', hphrase'⟩ := ihq
    obtain ⟨between, symbol, hbetween, hsymbol⟩ :
        ∃ between symbol, infixText op = some between ∧ binarySymbol op = some symbol := by
      simp only [List.mem_cons, List.not_mem_nil, or_false] at hop
      rcases hop with rfl | rfl | rfl | rfl | rfl <;> exact ⟨_, _, rfl, rfl⟩
    refine ⟨_, .binary hsymbol hmeans hmeans', ?_⟩
    rw [formatAst_joined hbetween, lex_joined hbetween hsymbol]
    exact .joined symbol hphrase hphrase'

/-! ## The lines of invariants -/

theorem invariantText_formatAst (h : Means S ast f)
    (hop : ast.op ≠ .globally) : invariantText (formatAst S ast) = formatAst S ast := by
  obtain ⟨g, hphrase, -, hglobally⟩ := phrase_formatAst h
  have hhead : ∀ text : List Char, (formatAst S ast).toList ≠ 'G' :: '(' :: text ∧
      (formatAst S ast).toList ≠ 'G' :: ' ' :: '(' :: text := by
    have hlex : ∀ rest, lex (formatAst S ast) ≠ .unary "G" :: rest := by
      intro rest hrest
      rw [hrest] at hphrase
      generalize htoks : Tok.unary "G" :: rest = toks at hphrase
      cases hphrase with
      | words w ws => cases htoks
      | prefixed op hinner =>
        cases htoks
        exact hop (hglobally ⟨_, rfl⟩)
      | joined op hleft hright => cases htoks
    intro text
    constructor
    · intro heq
      refine hlex (lexFrom ('(' :: text) []) ?_
      unfold lex
      rw [heq]
      rfl
    · intro heq
      refine hlex (lexFrom ('(' :: text) []) ?_
      unfold lex
      rw [heq]
      rfl
  have hstarts : startsWith (formatAst S ast) "G (" = false ∧ startsWith (formatAst S ast) "G(" = false := by
    constructor
    · by_contra hne
      obtain ⟨rest, hrest⟩ := List.isPrefixOf_iff_prefix.mp (Bool.not_eq_false _ ▸ hne)
      exact (hhead rest).2 hrest.symm
    · by_contra hne
      obtain ⟨rest, hrest⟩ := List.isPrefixOf_iff_prefix.mp (Bool.not_eq_false _ ▸ hne)
      exact (hhead rest).1 hrest.symm
  unfold invariantText
  rw [hstarts.1, hstarts.2]
  rfl

theorem invariantText_globally (text : String) : invariantText ("G " ++ "(" ++ text ++ ")") = text := by
  have htext : ("G " ++ "(" ++ text ++ ")").toList = 'G' :: ' ' :: '(' :: (text.toList ++ [')']) := by
    simp only [String.toList_append]
    rfl
  unfold invariantText startsWith withoutEnds
  rw [htext]
  have hlast : ('G' :: ' ' :: '(' :: (text.toList ++ [')'])).getLast? = some ')' := by
    rw [show 'G' :: ' ' :: '(' :: (text.toList ++ [')']) = ('G' :: ' ' :: '(' :: text.toList) ++ [')'] from rfl,
      List.getLast?_concat]
  rw [hlast]
  show String.ofList ((text.toList ++ [')']).dropLast) = text
  rw [List.dropLast_concat, String.ofList_toList]

theorem specText_eq {kind : PropertyKind}
    (h : Means S (bodyOf kind ast) f) : specText S kind ast = formatAst S (bodyOf kind ast) := by
  unfold specText
  by_cases hkind : kind = .invariant
  · rw [if_pos hkind]
    by_cases hshape : ∃ text body, ast = .mk .globally text [body]
    · obtain ⟨text, body, rfl⟩ := hshape
      have hbody : bodyOf kind (.mk .globally text [body]) = body := if_pos hkind
      rw [hbody]
      exact invariantText_globally (formatAst S body)
    · have hbody : bodyOf kind ast = ast := by
        unfold bodyOf
        split
        · exact absurd ⟨_, _, rfl⟩ hshape
        · rfl
      rw [hbody] at h ⊢
      refine invariantText_formatAst h fun hop => ?_
      cases h with
      | atom => cases hop
      | unary => exact hshape ⟨_, _, congrArg (fun o => PropertyAstNode.mk o _ _) hop⟩
      | binary hsymbol =>
        obtain rfl : _ = TemporalOp.globally := hop
        cases hsymbol
  · rw [if_neg hkind]
    have hbody : bodyOf kind ast = ast := by
      unfold bodyOf
      split
      · rw [if_neg hkind]
      · rfl
    rw [hbody]

theorem propositional_iff (h : Means S ast f) : Propositional f ↔ Timeless ast := by
  induction h with
  | atom h hwords => exact ⟨fun _ => .atom _, fun _ => trivial⟩
  | @unary op symbol p f hop hp ih =>
    constructor
    · rintro ⟨hsymbol, hf⟩
      subst hsymbol
      have hnot : op = .not := by
        cases op <;> first | rfl | (exact absurd hop (by decide))
      subst hnot
      exact .not (ih.mp hf)
    · intro htimeless
      cases htimeless with
      | not hp => exact ⟨(Option.some.inj hop).symm, ih.mpr hp⟩
  | @binary op symbol p q f g hop hp hq ihp ihq =>
    constructor
    · rintro ⟨hsymbol, hf, hg⟩
      refine .binary ?_ (ihp.mp hf) (ihq.mp hg)
      cases op <;> first | decide | (cases hop; done) | (cases hop; exact absurd hsymbol (by decide))
    · intro htimeless
      cases htimeless with
      | binary hin hp hq =>
        refine ⟨?_, ihp.mpr hp, ihq.mpr hq⟩
        simp only [List.mem_cons, List.not_mem_nil, or_false] at hin
        rcases hin with rfl | rfl | rfl | rfl <;> cases hop <;> decide

end

def twoStates : Source := { ir := { states := [{ name := "A" }, { name := "B" }] } }

end Fsmc.Smv
