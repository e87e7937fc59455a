/-
# Fsmc.Emitter.GuardStructs — conditions on their way to the generated guards.

A front end parses the condition of a transition, puts the type of the term on the transition and registers the
atoms by their names, each with or without its text. The emitter prints a struct for each name, which returns
what it finds as the normalized text of the guard, or else the variable or in-port of that name, or else `true`.
Only the SysML front end gives the atoms a normalized text.
-/
import Fsmc.Emitter.InnerFirst
import Fsmc.Emitter.QualifiedNames
import Fsmc.Frontend.GuardParser

namespace Fsmc.Emitter

open Fsmc.Ir Fsmc.Cpp Fsmc.Frontend.GuardNames Fsmc.Frontend.GuardParser Fsmc.Frontend.PrintedGuards

/-! ## Reading a condition -/

/-- The formats that conditions are read from. -/
inductive Format where
  | sysml2 | scxml | plantUml | mermaid
  deriving DecidableEq, Repr

/-- `atomic_guards` and `atomic_guard_details`: the names of the atoms of a term, and their texts. -/
def atomsOf : Term → List (String × String)
  | .empty => []
  | .atom name raw => [(name, raw)]
  | .not t => atomsOf t
  | .and l r => atomsOf l ++ atomsOf r
  | .or l r => atomsOf l ++ atomsOf r

/-- The texts of the atoms of a condition, as a front end registers them. -/
def registerTexts (format : Format) (guards : List GuardModel) (atoms : List (String × String)) :
    List GuardModel :=
  match format with
  | .sysml2 => atoms.foldl (fun gs a => addGuard gs a.1 (some a.2) (some a.2)) guards
  | .scxml => atoms.foldl (fun gs a => addGuard gs a.1 (some a.2) none) guards
  | .plantUml | .mermaid => guards

/-- The guards of a condition: their texts, where the format has them, and then their names. -/
def registerCondition (format : Format) (guards : List GuardModel) (raw : String) : List GuardModel :=
  match parse raw with
  | some p =>
    (atomsOf p.term).foldl (fun gs a => addGuard gs a.1 none none) (registerTexts format guards (atomsOf p.term))
  | none => guards

/-- The guards of a model with these conditions, in the order in which they are read. -/
def registry (format : Format) (conditions : List String) : List GuardModel :=
  conditions.foldl (registerCondition format) []

/-! ## Printing the guards -/

/-- Names for which no struct is printed. -/
def isSkipped (name : String) : Bool :=
  name = "else" || name = "default" || (find name "::").isSome ||
    name.toList.any fun c => c ∈ ['<', '>', ' ', '&', '|', '!']

/-- Whether a text is printed for a name. -/
def isPrintedText (name text : String) : Bool := text ≠ "" && text ≠ name && name ≠ text ++ "Guard"

/-- What is printed for a name without a text: `in.` or `reg.` in front of it, or `true`. -/
def bareText (model : FsmIr) (name : String) : String :=
  if (model.findPort name).any (·.isIn) then "in." ++ name
  else if (model.findVariable name).isSome then "reg." ++ name
  else "true"

/-- The expression that the struct of a guard returns. -/
def structText (model : FsmIr) (g : GuardModel) : String :=
  match g.normalizedExpression with
  | some text => if isPrintedText g.name text then qualifyExpression text model else bareText model g.name
  | none => bareText model g.name

/-- The struct of a name, where one is printed. -/
def guardStruct (model : FsmIr) (guards : List GuardModel) (name : String) : Option String :=
  ((guards.find? fun g => g.name = name).filter fun g => !isSkipped g.name).map (structText model)

/-! ## What a row asks for -/

/-- The value of a guard type, with the structs of its atoms. -/
noncomputable def typeHolds (M : Frontend.PrintedGuards.Meaning) (structs : String → Option String) : Term → Bool
  | .empty => false
  | .atom name _ => (structs name).any (textHolds .cpp M)
  | .not t => !typeHolds M structs t
  | .and l r => typeHolds M structs l && typeHolds M structs r
  | .or l r => typeHolds M structs l || typeHolds M structs r

/-- The value of the guard column of a row. -/
noncomputable def rowHolds (M : Frontend.PrintedGuards.Meaning) (model : FsmIr) (guards : List GuardModel)
    (t : Term) : Bool :=
  isNoGuard t.cppType || typeHolds M (guardStruct model guards) t

/-- What a condition means: a declared name is the register or in-port of that name. -/
def written (model : FsmIr) (M : Frontend.PrintedGuards.Meaning) : Frontend.PrintedGuards.Meaning :=
  renameMeaning (qualifiedName model) M

/-- The members of the registers and in-ports. -/
def members (model : FsmIr) : List String :=
  (variableNames model).map ("reg." ++ ·) ++ (inPortNames model).map ("in." ++ ·)

/-- A meaning with other values of the registers and in-ports. -/
def withValues (model : FsmIr) (M : Frontend.PrintedGuards.Meaning) (v : String → ℤ) :
    Frontend.PrintedGuards.Meaning :=
  { M with word := fun s => if s ∈ members model then v s else M.word s }

/-! ## What stands for an atom -/

/-- The text that is registered first under a name, where the emitter looks for one. -/
def keptFirst (format : Format) (conditions : List String) (name : String) : Option String :=
  if format = .sysml2 then
    ((conditions.flatMap fun raw => (parse raw).elim [] fun p => atomsOf p.term).find? fun a => a.1 = name).map (·.2)
  else none

/-- What is left of an atom of some name, as it could have been written: the text that was kept, the name if it is
declared, or else `true`. -/
def standIn (format : Format) (model : FsmIr) (conditions : List String) (name : String) : String :=
  match (keptFirst format conditions name).filter (isPrintedText name) with
  | some text => text
  | none => if name ∈ variableNames model ++ inPortNames model then name else "true"

/-- A term with other texts for its atoms. -/
def withTexts (texts : String → String) : Term → Term
  | .empty => .empty
  | .atom name _ => .atom name (texts name)
  | .not t => .not (withTexts texts t)
  | .and l r => .and (withTexts texts l) (withTexts texts r)
  | .or l r => .or (withTexts texts l) (withTexts texts r)

/-! ## What is registered -/

/-- The guards are those of some atoms, with the normalized text of the first of each name. -/
def KeepsFirst (format : Format) (guards : List GuardModel) (atoms : List (String × String)) : Prop :=
  ∀ name, name ≠ "" → (guards.find? fun g => g.name = name).map (·.normalizedExpression) =
    (atoms.find? fun a => a.1 = name).map fun a => if format = .sysml2 then some a.2 else none

variable {format : Format} {guards : List GuardModel} {atoms : List (String × String)}

theorem KeepsFirst.addText (h : KeepsFirst format guards atoms) (a : String × String) (rawExpr : Option String) :
    KeepsFirst format (addGuard guards a.1 rawExpr (if format = .sysml2 then some a.2 else none)) (atoms ++ [a]) := by
  intro name hne
  rw [List.find?_append]
  by_cases hempty : a.1 = ""
  · have hother : ¬ a.1 = name := fun heq => hne (heq.symm.trans hempty)
    rw [addGuard, if_pos hempty, h name hne]
    simp [hother]
  · rw [find?_addGuard hempty]
    by_cases heq : name = a.1
    · subst heq
      have hold := h a.1 hne
      rw [if_pos rfl]
      cases hfind : atoms.find? fun b => b.1 = a.1 with
      | none =>
        rw [hfind] at hold
        rw [Option.map_eq_none_iff.mp hold]
        simp
      | some b =>
        rw [hfind] at hold
        obtain ⟨g, hg, hnormalized⟩ := Option.map_eq_some_iff.mp hold
        rw [hg]
        simp only [Option.map_some, Option.some_or, fillGuard, hnormalized]
        split <;> rfl
    · have hother : ¬ a.1 = name := fun h => heq h.symm
      rw [if_neg heq, h name hne]
      simp [hother]

variable {a : String × String} {t : Term}

theorem KeepsFirst.addName (h : KeepsFirst format guards atoms) (ha : a ∈ atoms) :
    KeepsFirst format (addGuard guards a.1 none none) atoms := by
  intro name hne
  by_cases hempty : a.1 = ""
  · rw [addGuard, if_pos hempty]
    exact h name hne
  · rw [find?_addGuard hempty]
    by_cases heq : name = a.1
    · subst heq
      have hold := h a.1 hne
      rw [if_pos rfl]
      cases hfind : atoms.find? fun b => b.1 = a.1 with
      | none => exact absurd (decide_eq_true rfl) (List.find?_eq_none.mp hfind a ha)
      | some b =>
        rw [hfind] at hold
        obtain ⟨g, hg, hnormalized⟩ := Option.map_eq_some_iff.mp hold
        rw [hg]
        simp only [Option.map_some, fillGuard, hnormalized, Option.or_none]
    · rw [if_neg heq]
      exact h name hne

theorem KeepsFirst.addTexts (h : KeepsFirst format guards atoms) (new : List (String × String))
    (rawExpr : String × String → Option String) :
    KeepsFirst format
      (new.foldl (fun gs a => addGuard gs a.1 (rawExpr a) (if format = .sysml2 then some a.2 else none)) guards)
      (atoms ++ new) := by
  induction new generalizing guards atoms with
  | nil => rwa [List.append_nil]
  | cons a new ih =>
    have hrest := ih (h.addText a (rawExpr a))
    rwa [List.append_assoc] at hrest

theorem KeepsFirst.addNames (h : KeepsFirst format guards atoms) {new : List (String × String)}
    (hnew : new ⊆ atoms) : KeepsFirst format (new.foldl (fun gs a => addGuard gs a.1 none none) guards) atoms := by
  induction new generalizing guards with
  | nil => exact h
  | cons a new ih =>
    obtain ⟨ha, hrest⟩ := List.cons_subset.mp hnew
    exact ih (h.addName ha) hrest

theorem KeepsFirst.register (h : KeepsFirst format guards atoms) (raw : String) :
    KeepsFirst format (registerCondition format guards raw)
      (atoms ++ (parse raw).elim [] fun p => atomsOf p.term) := by
  unfold registerCondition
  cases parse raw with
  | none => rwa [Option.elim_none, List.append_nil]
  | some p =>
    have hmem : atomsOf p.term ⊆ atoms ++ atomsOf p.term := List.subset_append_right _ _
    cases format with
    | sysml2 => exact (h.addTexts (atomsOf p.term) fun a => some a.2).addNames hmem
    | scxml => exact (h.addTexts (atomsOf p.term) fun a => some a.2).addNames hmem
    | plantUml => exact h.addTexts (atomsOf p.term) fun _ => none
    | mermaid => exact h.addTexts (atomsOf p.term) fun _ => none

theorem keepsFirst_registry (format : Format) (conditions : List String) :
    KeepsFirst format (registry format conditions)
      (conditions.flatMap fun raw => (parse raw).elim [] fun p => atomsOf p.term) := by
  have hfold : ∀ (conditions : List String) {guards : List GuardModel} {atoms : List (String × String)},
      KeepsFirst format guards atoms → KeepsFirst format (conditions.foldl (registerCondition format) guards)
        (atoms ++ conditions.flatMap fun raw => (parse raw).elim [] fun p => atomsOf p.term) := by
    intro conditions
    induction conditions with
    | nil =>
      intro guards atoms h
      rw [List.flatMap_nil, List.append_nil]
      exact h
    | cons raw conditions ih =>
      intro guards atoms h
      rw [List.foldl_cons, List.flatMap_cons, ← List.append_assoc]
      exact ih (h.register raw)
  have hstart : KeepsFirst format [] [] := fun _ _ => rfl
  have hall := hfold conditions hstart
  rw [List.nil_append] at hall
  exact hall

/-! ## The names of atoms -/

/-- A piece that spells characters of identifiers. -/
def wordPiece : Piece → Bool
  | .letter c => isWordChar c
  | .gap => true
  | .operator spelling => spelling.all isWordChar

theorem all_wordPiece (text : List Char) : (pieces text).all wordPiece = true := by
  have hspelt : [['l', 't'], ['l', 't', 'e'], ['g', 't'], ['g', 't', 'e'], ['e', 'q'], ['n', 'e', 'q']].all
      (·.all isWordChar) = true := by decide +kernel
  simp only [List.all_cons, List.all_nil, Bool.and_true, Bool.and_eq_true] at hspelt
  induction text using pieces.induct <;> simp [pieces, wordPiece, *]

theorem all_spellFrom (ps : List Piece) : ∀ prev, ps.all wordPiece = true →
    (spellFrom prev ps).all isWordChar = true := by
  have hunderscore : isWordChar '_' = true := by decide
  induction ps with
  | nil => exact fun _ _ => rfl
  | cons p ps ih =>
    intro prev h
    rw [List.all_cons, Bool.and_eq_true] at h
    cases p with
    | letter c =>
      rw [spellFrom, List.all_cons, Bool.and_eq_true]
      exact ⟨h.1, ih _ h.2⟩
    | gap =>
      rw [spellFrom]
      split
      · exact ih _ h.2
      · rw [List.all_cons, hunderscore]
        exact ih _ h.2
    | operator w =>
      have hw : w.all isWordChar = true := h.1
      rw [spellFrom, List.all_append, List.all_append, List.all_cons, hw, hunderscore, ih _ h.2]
      split
      · rfl
      · rw [List.all_cons, hunderscore]
        rfl

theorem isWordChar_sanitizeIdentifier (str : String) : (sanitizeIdentifier str).toList.all isWordChar = true := by
  have hspelled := all_spellFrom (pieces str.toList) none (all_wordPiece str.toList)
  rw [sanitizeIdentifier_eq, String.toList_ofList]
  generalize spellFrom none (pieces str.toList) = text at hspelled
  cases text with
  | nil => rfl
  | cons c text =>
    rw [List.all_cons, Bool.and_eq_true] at hspelled
    have hrest : (text.rdropWhile (· = '_')).all isWordChar = true := by
      rw [List.all_eq_true] at hspelled ⊢
      exact fun d hd => hspelled.2 d ((List.rdropWhile_prefix _ _).subset hd)
    rw [finish]
    split
    · rw [List.all_cons, List.all_cons, hspelled.1, hrest]
      decide
    · rw [List.all_cons, hspelled.1, hrest]
      rfl

theorem isSkipped_sanitizeIdentifier {str : String} (helse : sanitizeIdentifier str ≠ "else")
    (hdefault : sanitizeIdentifier str ≠ "default") : isSkipped (sanitizeIdentifier str) = false := by
  have hword := List.all_eq_true.mp (isWordChar_sanitizeIdentifier str)
  have hcolon : ':' ∉ (sanitizeIdentifier str).toList := fun hmem => absurd (hword ':' hmem) (by decide)
  have hnone : find (sanitizeIdentifier str) "::" = none :=
    findSub_eq_none_of_notMem (c := ':') (by decide +kernel) hcolon
  have hspecial : ∀ c ∈ ['<', '>', ' ', '&', '|', '!'], isWordChar c = false := by decide
  have hany : ((sanitizeIdentifier str).toList.any fun c => c ∈ ['<', '>', ' ', '&', '|', '!']) = false := by
    rw [List.any_eq_false]
    intro c hc hmem
    have hno := hspecial c (of_decide_eq_true hmem)
    rw [hword c hc] at hno
    cases hno
  unfold isSkipped
  rw [hany, hnone]
  simp [helse, hdefault]

theorem Writes.named {n : ℕ} {s : List Char} {toks : List Token} (h : Writes n t s toks) :
    ∀ a ∈ atomsOf t, a.1 ≠ "" ∧ a.1 = sanitizeIdentifier a.2 := by
  induction h with
  | atom _ hatom =>
    intro a ha
    rw [List.mem_singleton.mp ha]
    exact ⟨hatom.named, rfl⟩
  | blankLeft _ _ ih => exact ih
  | blankRight _ _ ih => exact ih
  | bracket _ ih => exact ih
  | not _ _ ih => exact ih
  | operand _ ih => exact ih
  | conjunct _ ih => exact ih
  | disjunct _ ih => exact ih
  | and _ _ ihl ihr => exact fun a ha => (List.mem_append.mp ha).elim (ihl a) (ihr a)
  | or _ _ ihl ihr => exact fun a ha => (List.mem_append.mp ha).elim (ihl a) (ihr a)

theorem InGrammar.named {raw : String} (h : InGrammar raw) {p : Parsed} (hparse : parse raw = some p) :
    p.term ≠ .empty ∧ ∀ a ∈ atomsOf p.term, a.1 ≠ "" ∧ a.1 = sanitizeIdentifier a.2 := by
  simp only [parse] at hparse
  split at hparse
  · cases hparse
  · split at hparse
    · split at hparse
      · cases hparse
      · rename_i hne
        obtain rfl := Option.some.inj hparse
        refine ⟨fun h => Term.noConfusion h, fun a ha => ?_⟩
        rw [List.mem_singleton.mp ha]
        exact ⟨hne, rfl⟩
    · rename_i hlogical
      rcases h.2 with hno | ⟨t, toks, hwrites⟩
      · rw [hno] at hlogical
        exact absurd rfl hlogical
      · obtain rfl := Option.some.inj hparse
        rw [hwrites.parseExpression_eq]
        exact ⟨hwrites.ne_empty, Writes.named hwrites⟩

theorem isNoGuard_cppType (hne : t ≠ .empty)
    (hnames : ∀ a ∈ atomsOf t, a.1 ≠ "" ∧ a.1 ≠ "else" ∧ a.1 ≠ "default" ∧ a.1 ≠ "::fsm::no_guard") :
    isNoGuard t.cppType = false := by
  have hcompound : ∀ text : String, text.toList.head? = some 'f' → isNoGuard text = false := by
    intro text hfirst
    have hne : ∀ s : String, s.toList.head? ≠ some 'f' → decide (text = s) = false := by
      rintro s hs
      exact decide_eq_false fun heq => hs (heq ▸ hfirst)
    unfold isNoGuard
    rw [hne "" (by simp), hne "else" (by simp), hne "default" (by simp), hne "::fsm::no_guard" (by simp)]
    rfl
  have hhead : ∀ front text : String, front.toList.head? = some 'f' → (front ++ text).toList.head? = some 'f' := by
    intro front text hfirst
    rw [String.toList_append, List.head?_append, hfirst]
    rfl
  cases t with
  | empty => exact absurd rfl hne
  | atom name raw =>
    obtain ⟨hempty, helse, hdefault, hno⟩ := hnames (name, raw) (List.mem_singleton_self _)
    show isNoGuard name = false
    simp only [ne_eq] at hempty helse hdefault hno
    simp [isNoGuard, hempty, helse, hdefault, hno]
  | not t => exact hcompound _ (hhead _ _ (hhead "fsm::not_<" _ (by simp)))
  | and l r => exact hcompound _ (hhead _ _ (hhead _ _ (hhead _ _ (hhead "fsm::and_<" _ (by simp)))))
  | or l r => exact hcompound _ (hhead _ _ (hhead _ _ (hhead _ _ (hhead "fsm::or_<" _ (by simp)))))

/-! ## What the structs return -/

variable {conditions : List String} {model : FsmIr} {name : String}

theorem guardStruct_registry (model : FsmIr) {raw : String} (hraw : raw ∈ conditions)
    {p : Parsed} (hparse : parse raw = some p) (ha : a ∈ atomsOf p.term) (hne : a.1 ≠ "")
    (hskip : isSkipped a.1 = false) :
    guardStruct model (registry format conditions) a.1 =
      some (match (keptFirst format conditions a.1).filter (isPrintedText a.1) with
        | some text => qualifyExpression text model
        | none => bareText model a.1) := by
  have hkept := keepsFirst_registry format conditions a.1 hne
  have hmem : a ∈ conditions.flatMap fun raw => (parse raw).elim [] fun p => atomsOf p.term :=
    List.mem_flatMap.mpr ⟨raw, hraw, by rw [hparse]; exact ha⟩
  obtain ⟨b, hb⟩ : ∃ b, (conditions.flatMap fun raw => (parse raw).elim [] fun p => atomsOf p.term).find?
      (fun b => b.1 = a.1) = some b :=
    Option.isSome_iff_exists.mp (List.find?_isSome.mpr ⟨a, hmem, decide_eq_true rfl⟩)
  rw [hb, Option.map_some] at hkept
  obtain ⟨g, hg, hnormalized⟩ := Option.map_eq_some_iff.mp hkept
  have hname : g.name = a.1 := by simpa using List.find?_some hg
  unfold guardStruct keptFirst structText
  rw [hg, hb, Option.filter_some, hname, hskip]
  cases format with
  | sysml2 =>
    simp only [if_true, Bool.not_false, Option.map_some, hnormalized, Option.filter_some, hname]
    split <;> rfl
  | _ => simp [hnormalized, hname]

/-- The declarations of a model: names that no pattern takes for something else, and that differ. -/
structure Declares (model : FsmIr) : Prop where
  plain : PlainNames model
  ports : (model.ports.map (·.name)).Nodup
  apart : ∀ n ∈ variableNames model, n ∉ inPortNames model

theorem findVariable_isSome : (model.findVariable name).isSome = true ↔ name ∈ variableNames model := by
  unfold FsmIr.findVariable variableNames
  rw [List.find?_isSome, List.mem_map]
  simp

theorem findPort_isIn (h : (model.ports.map (·.name)).Nodup) :
    (model.findPort name).any (·.isIn) = true ↔ name ∈ inPortNames model := by
  unfold FsmIr.findPort inPortNames
  constructor
  · intro hany
    obtain ⟨p, hp, hin⟩ := (Option.any_eq_true _ _).mp hany
    have hname : p.name = name := by simpa using List.find?_some hp
    exact List.mem_map.mpr ⟨p, List.mem_filter.mpr ⟨List.mem_of_find?_eq_some hp, hin⟩, hname⟩
  · intro hmem
    obtain ⟨p, hp, hname⟩ := List.mem_map.mp hmem
    obtain ⟨hp, hin⟩ := List.mem_filter.mp hp
    cases hfind : model.ports.find? fun q => q.name = name with
    | none => exact absurd (decide_eq_true hname) (List.find?_eq_none.mp hfind p hp)
    | some q =>
      have hq : q.name = name := by simpa using List.find?_some hfind
      have hsame : q = p := List.inj_on_of_nodup_map h (List.mem_of_find?_eq_some hfind) hp (hq.trans hname.symm)
      rw [hsame]
      exact hin

theorem textHolds_word (hne : name ≠ "") (hword : ∀ c ∈ name.toList, joins c = true)
    (M : Frontend.PrintedGuards.Meaning) : textHolds .cpp M name = decide (M.word name ≠ 0) := by
  have hlex : lex name = [.word name] := by
    have hnil : name.toList ≠ [] := by simpa using hne
    have hall := lexFrom_word hnil hword (Or.inl rfl) []
    have hend := @lexFrom_behind _ hnil hword [] (by simp)
    unfold lex
    rw [List.append_nil] at hall
    rw [hall, ← spell_nil, hend, String.ofList_toList]
    rfl
  rw [textHolds_eq (readsAs_word hlex) (by decide) le_rfl]
  rfl

theorem PlainName.joins (h : PlainName name) : ∀ c ∈ name.toList, Emitter.joins c = true :=
  fun c hc => joins_of_isIdentChar (h.isName.2 c hc)

theorem qualifiedName_eq (model : FsmIr) (h : Declares model) : qualifiedName model name =
      if name ∈ inPortNames model then "in." ++ name
      else if name ∈ variableNames model then "reg." ++ name
      else name := by
  unfold qualifiedName qualifiedWord
  by_cases hvar : name ∈ variableNames model
  · have hname := h.plain name (List.mem_append_left _ hvar)
    have hscoped : scopeWord "reg." (variableNames model) name.toList = "reg.".toList ++ name.toList := by
      rw [scopeWord, String.ofList_toList, if_pos hvar]
    have hout : String.ofList ("reg.".toList ++ name.toList) ∉ inPortNames model := fun hin =>
      scope_append_ne isScope_reg.dot (h.plain _ (List.mem_append_right _ hin)).isName _ rfl
    rw [if_neg (h.apart name hvar), if_pos hvar, hscoped, scopeWord, if_neg hout, String.ofList_append,
      String.ofList_toList, String.ofList_toList]
  · have hscoped : scopeWord "reg." (variableNames model) name.toList = name.toList := by
      rw [scopeWord, String.ofList_toList, if_neg hvar]
    rw [hscoped, scopeWord, String.ofList_toList]
    split
    · rw [String.ofList_append, String.ofList_toList, String.ofList_toList]
    · exact String.ofList_toList

theorem textHolds_bareText (h : Declares model) (M : Frontend.PrintedGuards.Meaning) :
    textHolds .cpp M (bareText model name) =
      textHolds .cpp (written model M)
        (if name ∈ variableNames model ++ inPortNames model then name else "true") := by
  have hmember : ∀ {scope : String}, IsScope scope → ∀ {n : String}, PlainName n →
      textHolds .cpp M (scope ++ n) = decide (M.word (scope ++ n) ≠ 0) := by
    intro scope hscope n hn
    refine textHolds_word (fun hempty => ?_) (fun c hc => ?_) M
    · rw [String.append_eq_empty_iff] at hempty
      exact hn.isName.1 (by rw [hempty.2]; rfl)
    · rw [String.toList_append] at hc
      rcases List.mem_append.mp hc with hc | hc
      · exact hscope.joins c hc
      · exact hn.joins c hc
  have hbare : ∀ {n : String}, PlainName n →
      textHolds .cpp (written model M) n = decide (M.word (qualifiedName model n) ≠ 0) := fun hn =>
    textHolds_word (fun hempty => hn.isName.1 (by rw [hempty]; rfl)) hn.joins (written model M)
  unfold bareText
  by_cases hport : name ∈ inPortNames model
  · have hname := h.plain name (List.mem_append_right _ hport)
    rw [if_pos ((findPort_isIn h.ports).mpr hport), if_pos (List.mem_append_right _ hport), hmember isScope_in hname,
      hbare hname, qualifiedName_eq model h, if_pos hport]
  · rw [if_neg (fun hin => hport ((findPort_isIn h.ports).mp hin))]
    by_cases hvar : name ∈ variableNames model
    · have hname := h.plain name (List.mem_append_left _ hvar)
      rw [if_pos (findVariable_isSome.mpr hvar), if_pos (List.mem_append_left _ hvar), hmember isScope_reg hname,
        hbare hname, qualifiedName_eq model h, if_neg hport, if_pos hvar]
    · have htrue : ∀ n ∈ variableNames model ++ inPortNames model, n ≠ "true" := fun n hn => (h.plain n hn).notTrue
      have hword : ∀ c ∈ "true".toList, Emitter.joins c = true := by decide +kernel
      rw [if_neg (fun hin => hvar (findVariable_isSome.mp hin)),
        if_neg (fun hin => (List.mem_append.mp hin).elim hvar hport), textHolds_word (by decide) hword,
        textHolds_word (by decide) hword]
      have hsame : (written model M).word "true" = M.word "true" := by
        show M.word (qualifiedName model "true") = _
        rw [qualifiedName_eq model h, if_neg fun hin => htrue _ (List.mem_append_right _ hin) rfl,
          if_neg fun hin => htrue _ (List.mem_append_left _ hin) rfl]
      rw [hsame]

/-! ## The value of a row -/

/-- The texts that were kept for the atoms of a term can be qualified and read. -/
def KeptTexts (format : Format) (model : FsmIr) (conditions : List String) (t : Term) : Prop :=
  ∀ a ∈ atomsOf t, ∀ text, (keptFirst format conditions a.1).filter (isPrintedText a.1) = some text →
    Qualifiable model text ∧ ∃ e, ReadsAs .cpp 1 text e

theorem typeHolds_eq (hdeclares : Declares model)
    (M : Frontend.PrintedGuards.Meaning) {structs : String → Option String}
    (hstructs : ∀ a ∈ atomsOf t, structs a.1 =
      some (match (keptFirst format conditions a.1).filter (isPrintedText a.1) with
        | some text => qualifyExpression text model
        | none => bareText model a.1))
    (hkept : KeptTexts format model conditions t) :
    typeHolds M structs t = denote (written model M) (withTexts (standIn format model conditions) t) := by
  induction t with
  | empty => rfl
  | atom name raw =>
    have hmem : (name, raw) ∈ atomsOf (.atom name raw) := List.mem_singleton_self _
    rw [typeHolds, withTexts, denote, hstructs _ hmem, Option.any_some]
    unfold standIn
    dsimp only
    cases htext : (keptFirst format conditions name).filter (isPrintedText name) with
    | some text =>
      obtain ⟨hqualifiable, e, he⟩ := hkept _ hmem text htext
      exact textHolds_qualifyExpression hdeclares.plain hqualifiable he M
    | none => exact textHolds_bareText hdeclares M
  | not t ih => rw [typeHolds, withTexts, denote, ih hstructs hkept]
  | and l r ihl ihr =>
    have hl : ∀ a ∈ atomsOf l, a ∈ atomsOf (.and l r) := fun a ha => List.mem_append_left _ ha
    have hr : ∀ a ∈ atomsOf r, a ∈ atomsOf (.and l r) := fun a ha => List.mem_append_right _ ha
    rw [typeHolds, withTexts, denote, ihl (fun a ha => hstructs a (hl a ha)) (fun a ha => hkept a (hl a ha)),
      ihr (fun a ha => hstructs a (hr a ha)) fun a ha => hkept a (hr a ha)]
  | or l r ihl ihr =>
    have hl : ∀ a ∈ atomsOf l, a ∈ atomsOf (.or l r) := fun a ha => List.mem_append_left _ ha
    have hr : ∀ a ∈ atomsOf r, a ∈ atomsOf (.or l r) := fun a ha => List.mem_append_right _ ha
    rw [typeHolds, withTexts, denote, ihl (fun a ha => hstructs a (hl a ha)) (fun a ha => hkept a (hl a ha)),
      ihr (fun a ha => hstructs a (hr a ha)) fun a ha => hkept a (hr a ha)]

/-- For all values of the registers and in-ports, the row of a condition asks for what was written. -/
def ReachesCode (format : Format) (model : FsmIr) (conditions : List String) (M : Frontend.PrintedGuards.Meaning)
    (t : Term) (e : Expr) : Prop :=
  ∀ v, rowHolds (withValues model M v) model (registry format conditions) t =
    truth .cpp (written model (withValues model M v)) e

/-- For all values of the registers and in-ports, a condition has the value that it has with what is left of its
atoms. -/
def Survives (format : Format) (model : FsmIr) (conditions : List String) (M : Frontend.PrintedGuards.Meaning)
    (t : Term) : Prop :=
  ∀ v, denote (written model (withValues model M v)) (withTexts (standIn format model conditions) t) =
    denote (written model (withValues model M v)) t

theorem survives_of_standIn
    (h : ∀ a ∈ atomsOf t, standIn format model conditions a.1 = a.2) (M : Frontend.PrintedGuards.Meaning) :
    Survives format model conditions M t := by
  have hsame : withTexts (standIn format model conditions) t = t := by
    induction t with
    | empty => rfl
    | atom name raw => rw [withTexts, h (name, raw) (List.mem_singleton_self _)]
    | not t ih => rw [withTexts, ih h]
    | and l r ihl ihr =>
      rw [withTexts, ihl fun a ha => h a (List.mem_append_left _ ha),
        ihr fun a ha => h a (List.mem_append_right _ ha)]
    | or l r ihl ihr =>
      rw [withTexts, ihl fun a ha => h a (List.mem_append_left _ ha),
        ihr fun a ha => h a (List.mem_append_right _ ha)]
  intro v
  rw [hsame]

/-! ## A comparison -/

/-- What the constants and the comparison of the example mean. -/
def standard : Frontend.PrintedGuards.Meaning where
  word s := if s = "true" then 1 else if s = "5" then 5 else 0
  call _ _ := 0
  unary _ n := -n
  binary op l r := ofBool (op = ">" && r < l)

/-- A model with one register. -/
def gauge : FsmIr := { vars := [{ name := "x" }] }

example : bareText gauge "x" = "reg.x" := by decide +kernel

def exceeds : Expr := .binary ">" (.word "x") (.word "5")

theorem declares_gauge : Declares gauge where
  plain := by
    intro n hn
    obtain rfl : n = "x" := by simpa [gauge, variableNames, inPortNames] using hn
    exact ⟨⟨by decide +kernel, by decide +kernel⟩, by decide, by decide, by decide⟩
  ports := by decide
  apart := by decide

theorem exceeds_read : InGrammar "x > 5" ∧ parse "x > 5" = some ⟨.atom "x_gt_5" "x > 5", []⟩ ∧
    Reads .cpp none 1 (guardLex "x > 5") exceeds [] := by
  refine ⟨⟨by decide +kernel, Or.inl (by decide +kernel)⟩, ?_, ?_⟩
  · have hparts : (parse "x > 5").map (fun p => (p.term, p.left)) = some (.atom "x_gt_5" "x > 5", []) := by
      decide +kernel
    obtain ⟨⟨term, left⟩, hparse, heq⟩ := Option.map_eq_some_iff.mp hparts
    cases heq
    exact hparse
  · have hlex : guardLex "x > 5" = [Tok.word "x"] ++ [Tok.op ">", Tok.word "5"] := by decide +kernel
    have hword : ∀ w : String, Reads .cpp none 11 [.word w] (.word w) [] := fun w =>
      .operand (fun _ _ h => by simp at h) (.word fun _ h => by simp at h)
    have hwhole : Reads .cpp none 7 _ _ [] :=
      .infixed (s := ">") (by decide) (by decide) ((hword "x").lower (by decide) le_rfl)
        ((hword "5").lower (by decide) le_rfl)
    rw [hlex]
    exact hwhole.lower (by decide) (by decide)

end Fsmc.Emitter
