/-
# Fsmc.Smv.Readable — machines whose text can be read back.

What should come back is the states, the initial state, the formulas of the properties and the transitions in the
order of their priorities, each with an equivalent guard. It comes back when every transition is written as one
statement that says what it is (`Readable`): a comment behind a statement is read as the beginning of the next one,
the formula of a property stands on a line that nobody reads, and a guard that looks like an event, a state or the
last branch is taken for it.
-/
import Fsmc.Smv.Lines
import Mathlib.Data.List.Dedup

namespace Fsmc.Smv.RoundTrip

open Fsmc.Ir Fsmc.Cpp Fsmc.Frontend.GuardNames Fsmc.Lib.Registry
open Fsmc.Frontend.LtlParser (trim)
open Fsmc.Smv.Parser

/-! ## What should come back -/

/-- The text of a guard, looked up when it is a name. -/
def guardExpr (ir : FsmIr) (t : TransitionEdge) : Option String :=
  if t.guard.getD "" = "" then none else some (resolveGuardExpr ir (t.guard.getD ""))

/-- A guard whose predicate differs in the spelling only: domains stand where a name begins, numbers have no
fraction, and a template has no disjunction in it. -/
structure Respellable (expr : String) : Prop where
  domains : ∀ p ∈ ["in.", "out.", "reg."], ∀ before after : List Char,
    expr.toList = before ++ p.toList ++ after → ∀ c ∈ before.getLast?, isIdentChar c = false ∧ c ≠ '.'
  fraction : ∀ a b : Char, a.isDigit = true → b.isDigit = true → ¬ [a, '.', b] <:+: expr.toList
  template : contains expr.toList "fsm::" = true → '|' ∉ expr.toList

/-- Texts of one guard: it may be spelled as in SMV, and blanks and parentheses around it do not matter. -/
inductive SameGuard : List Char → List Char → Prop
  | refl (text : List Char) : SameGuard text text
  | respelled {expr : String} (h : Respellable expr) : SameGuard expr.toList (toSmvPredicate expr).toList
  | trimmed (text : List Char) : SameGuard text (trim text)
  | unwrapped {text : List Char} (h : isWrapped text = true) (hbalanced : balanced 0 text.tail.dropLast = true) :
      SameGuard text text.tail.dropLast
  | trans {a b c : List Char} (h : SameGuard a b) (h' : SameGuard b c) : SameGuard a c

/-- A transition that is read back: its ends, its event unless it has none, its action and its guard. -/
structure SameTransition (ir ir' : FsmIr) (t e : TransitionEdge) : Prop where
  source : e.source = t.source
  target : e.target = t.target
  event : e.getTriggerName = if isEventless t.getTriggerName then "" else t.getTriggerName
  action : e.getAction = t.getAction
  guard : Option.Rel (fun g g' => SameGuard g.toList g'.toList) (guardExpr ir t) (guardExpr ir' e)

def exportedFormula (S : Source) (prop : FormalProperty) : String :=
  if prop.kind = .invariant then invariantText (toSmvFormula S prop) else toSmvFormula S prop

/-- The name of the initial state. -/
def startName (ir : FsmIr) : String :=
  if ir.initialStateId = "" then firstGiven [ir.initialState, (ir.states.head?.map (·.name)).getD ""]
  else ((ir.findStateById ir.initialStateId).map (·.name)).getD ""

/-- A machine that is read back. -/
structure SameMachine (S : Source) (ir' : FsmIr) : Prop where
  states : ∀ name, name ∈ ir'.states.map (·.name) ↔ name ∈ S.ir.states.map (·.name)
  initial : ir'.initialState = startName S.ir
  formulas : ir'.properties.map (·.rawFormula) = S.ir.properties.map (exportedFormula S)
  transitions : List.Forall₂ (SameTransition S.ir ir') (sortedTransitions S.ir) ir'.transitions

/-- The text that is exported is read, and it is the machine. -/
def RoundTrips (directive : List Char → Draft → Draft) (S : TextSource) : Prop :=
  ∃ d, parse directive (serializeText S) = .ok d ∧ SameMachine S.toSource d.toFsmIr

/-! ## When it does -/

/-- A machine whose names are identifiers. -/
structure Named (S : TextSource) : Prop where
  machine : S.name = "" ∨ isIdentifier S.name = true
  states : ∀ s ∈ S.ir.states, isIdentifier s.name = true
  choices : ∀ c ∈ S.ir.choiceNodes, isIdentifier c = true
  vars : ∀ v ∈ S.ir.vars, isIdentifier v.name = true
  ports : ∀ p ∈ S.ir.ports, isIdentifier p.name = true

/-- The event that is written for a transition. -/
def eventOf (t : TransitionEdge) : Option String :=
  if isEventless t.getTriggerName then none else some t.getTriggerName

def printed (predicate : String) : PrintedGuard where
  printed := predicate.toList
  core := stripOuter predicate.toList.length (trim predicate.toList)

@[simp] theorem printed_printed (predicate : String) : (printed predicate).printed = predicate.toList := rfl

/-- A transition whose line is one statement that says what it is. -/
structure ReadableTransition (ir : FsmIr) (t : TransitionEdge) : Prop where
  source : t.source ∈ ir.states.map (·.name)
  target : t.target ∈ ir.states.map (·.name)
  untimed : ticksOf t = none
  silent : t.getAction = ""
  event : ∀ e ∈ eventOf t, KeptName e
  respells : ∀ g ∈ guardExpr ir t, Respellable g
  legible : ∀ p ∈ guardPredicate ir t, (printed p).Legible (eventOf t = none)
  line : Undisturbed t.source (eventOf t) ((guardPredicate ir t).map printed)

/-- A name that no line is read as a specification for. -/
def NoKeyword (name : String) : Prop := ∀ p ∈ ["LTLSPEC", "INVARSPEC"], ¬ p.toList <+: name.toList

/-- A machine whose text is read line by line as it was written. -/
structure Readable (S : TextSource) : Prop where
  states : S.ir.states ≠ []
  names : ∀ s ∈ S.ir.states, KeptName s.name ∧ isStateName s.name = true
  choices : ∀ c ∈ S.ir.choiceNodes, isStateName c = true → c ∈ S.ir.states.map (·.name)
  initial : KeptName (startName S.ir) ∧ initialText S.ir = startName S.ir
  properties : S.ir.properties = []
  transitions : ∀ t ∈ S.ir.transitions, ReadableTransition S.ir t
  vars : ∀ v ∈ S.ir.vars, NoKeyword v.name ∧ v.name ≠ "state" ∧ '\n' ∉ v.initialValue.toList ∧
    contains v.initialValue.toList "next(state)" = false
  ports : ∀ p ∈ S.ir.ports, NoKeyword p.name
  guards : ∀ g ∈ freeGuardVars S.toSource, NoKeyword g
  units : ∀ v ∈ S.ir.vars, ∀ unit ∈ S.physicalUnit v.name,
    '\n' ∉ unit.toList ∧ contains unit.toList "next(state)" = false

/-! ## The lines of a readable machine -/

theorem notMem_toString_int {c : Char} (hdigit : c.isDigit = false) (hminus : c ≠ '-') (n : ℤ) :
    c ∉ (toString n).toList := by
  have hnat : ∀ k : ℕ, c ∉ (toString k).toList := by
    intro k hmem
    rw [show (toString k).toList = Nat.toDigits 10 k from Nat.toList_repr] at hmem
    have hc := Nat.isDigit_of_mem_toDigits (by omega) (by omega) hmem
    rw [hc] at hdigit
    cases hdigit
  cases n with
  | ofNat k => exact hnat k
  | negSucc k =>
    show c ∉ ("-" ++ toString (k + 1)).toList
    rw [String.toList_append]
    exact fun hmem => (List.mem_append.mp hmem).elim (fun h => hminus (List.mem_singleton.mp h)) (hnat (k + 1))

theorem notMem_typeText (boolean : Bool) (lo hi : Option ℤ) :
    ∀ c ∈ ['\n', '(', '{'], c ∉ (typeText (toSmvType boolean lo hi)).toList := by
  intro c hc
  have hchar : c.isDigit = false ∧ c ≠ '-' ∧ c ≠ '.' := by
    revert c
    decide
  have hrange : ∀ a b : ℤ, c ∉ (typeText (.range a b)).toList := by
    intro a b hmem
    simp only [typeText, String.toList_append, List.mem_append] at hmem
    rcases hmem with (hmem | hmem) | hmem
    · exact notMem_toString_int hchar.1 hchar.2.1 a hmem
    · have hdot : ∀ d ∈ "..".toList, d = '.' := by decide
      exact hchar.2.2 (hdot c hmem)
    · exact notMem_toString_int hchar.1 hchar.2.1 b hmem
  unfold toSmvType
  split
  · clear hchar hrange
    revert c
    decide
  · split <;> exact hrange _ _

theorem sanitizeSmvIdent_of_isIdentifier {name : String} (h : isIdentifier name = true) :
    sanitizeSmvIdent name = name :=
  sanitizeSmvIdent_self (toList_ne_nil_of_isIdentifier h) (isIdentChar_of_isIdentifier h)

theorem word_freeGuardVars {S : Source} {g : String} (h : g ∈ freeGuardVars S) :
    g.toList ≠ [] ∧ ∀ c ∈ g.toList, isIdentChar c = true := by
  have hruns : ∀ (text cur : List Char), (∀ c ∈ cur, isIdentChar c = true) →
      ∀ run ∈ identRuns text cur, run ≠ [] ∧ ∀ c ∈ run, isIdentChar c = true := by
    intro text
    induction text with
    | nil =>
      intro cur hcur run hrun
      unfold identRuns at hrun
      split at hrun
      · cases hrun
      · obtain rfl := List.mem_singleton.mp hrun
        exact ⟨by assumption, hcur⟩
    | cons c text ih =>
      intro cur hcur run hrun
      unfold identRuns at hrun
      split at hrun
      · rename_i hc
        refine ih _ (fun d hd => ?_) run hrun
        rcases List.mem_append.mp hd with hd | hd
        · exact hcur d hd
        · rw [List.mem_singleton.mp hd]
          exact hc
      · rcases List.mem_append.mp hrun with hrun | hrun
        · split at hrun
          · cases hrun
          · obtain rfl := List.mem_singleton.mp hrun
            exact ⟨by assumption, hcur⟩
        · exact ih [] (by simp) run hrun
  unfold freeGuardVars at h
  rw [mem_stableSort, List.mem_dedup, List.mem_flatMap] at h
  obtain ⟨t, -, h⟩ := h
  obtain ⟨predicate, -, h⟩ := List.mem_flatMap.mp h
  unfold extractSmvIdentifiers at h
  obtain ⟨run, hrun, rfl⟩ := List.mem_map.mp (List.mem_of_mem_filter h)
  rw [String.toList_ofList]
  exact hruns _ [] (by simp) run (List.mem_of_mem_filter hrun)

theorem portComment_harmless (direction : PortDirection) :
    '\n' ∉ (" -- port (" ++ portDirectionToString direction ++ ")").toList ∧
      contains (" -- port (" ++ portDirectionToString direction ++ ")").toList "next(state)" = false ∧
      '{' ∉ (" -- port (" ++ portDirectionToString direction ++ ")").toList := by
  cases direction <;> decide

theorem toList_enumeration (first : String) (rest : List String) :
    (typeText (.symbols (first :: rest))).toList = '{' :: (enumContent first rest ++ ['}']) := by
  have hjoin : ∀ (l : List Char) (ls : List (List Char)),
      [',', ' '].intercalate (l :: ls) = l ++ ls.flatMap ([',', ' '] ++ ·) := by
    intro l ls
    induction ls generalizing l with
    | nil => simp [List.intercalate]
    | cons l' ls ih => rw [List.intercalate_cons_cons, ih l', List.flatMap_cons, List.append_assoc, List.append_assoc]
  unfold typeText
  rw [String.toList_append, String.toList_append, String.toList_intercalate, List.map_cons]
  show ['{'] ++ [',', ' '].intercalate (first.toList :: rest.map String.toList) ++ ['}'] = _
  rw [hjoin]
  rfl

section Lines

variable {S : TextSource} (hnamed : Named S) (h : Readable S)

include h in
theorem stateMaxTimeouts_eq_nil : stateMaxTimeouts S.ir = [] := by
  have hnone : (S.ir.transitions.filter fun t => t.source ≠ "" && (ticksOf t).isSome) = [] := by
    rw [List.filter_eq_nil_iff]
    intro t ht
    simp [(h.transitions t ht).untimed]
  unfold stateMaxTimeouts
  rw [hnone, List.map_nil, List.dedup_nil, List.map_eq_nil_iff, List.eq_nil_iff_forall_not_mem]
  intro s hs
  rw [mem_stableSort] at hs
  exact List.not_mem_nil hs

include hnamed h in
theorem declarationLines_harmless :
    ∀ l ∈ declarationLines S, ∃ decl : Declared, decl.Harmless ∧ l.toList = decl.text := by
  have hident : ∀ {name : String}, isIdentifier name = true → (sanitizeSmvIdent name).toList ≠ [] ∧
      ∀ c ∈ (sanitizeSmvIdent name).toList, isIdentChar c = true := fun _ => sanitizeSmvIdent_spec _
  intro l hl
  unfold declarationLines at hl
  rw [stateMaxTimeouts_eq_nil h, List.map_nil, List.append_nil, List.mem_append, List.mem_append] at hl
  rcases hl with (hl | hl) | hl
  · obtain ⟨v, hv, rfl⟩ := List.mem_map.mp hl
    have hname := hnamed.vars v hv
    obtain ⟨hkeyword, hstate, -, -⟩ := h.vars v hv
    refine ⟨⟨v.name.toList, (typeText (toSmvType (S.boolean v.name) v.minValue v.maxValue)).toList,
      (((S.physicalUnit v.name).map (" -- physical unit: " ++ ·)).getD "").toList⟩, ?_, ?_⟩
    · refine ⟨toList_ne_nil_of_isIdentifier hname, isIdentChar_of_isIdentifier hname, notMem_typeText _ _ _, hkeyword,
        ?_, ?_, fun heq => absurd (String.toList_inj.mp heq) hstate⟩
      · cases hunit : S.physicalUnit v.name with
        | none => exact List.not_mem_nil
        | some unit =>
          simp only [Option.map_some, Option.getD_some, String.toList_append, List.mem_append, not_or]
          exact ⟨by decide, (h.units v hv unit hunit).1⟩
      · cases hunit : S.physicalUnit v.name with
        | none => rfl
        | some unit =>
          simp only [Option.map_some, Option.getD_some, String.toList_append]
          have hsplit : " -- physical unit: ".toList ++ unit.toList =
              " -- physical unit:".toList ++ ' ' :: unit.toList := rfl
          rw [hsplit, Bool.eq_false_iff, Ne, contains_iff]
          intro hocc
          rcases infix_split (by decide) hocc with hocc | hocc
          · exact absurd (hocc.subset (by decide : '(' ∈ "next(state)".toList)) (by decide)
          · exact absurd (contains_iff.mpr hocc) (by rw [(h.units v hv unit hunit).2]; exact Bool.false_ne_true)
    · unfold variableLine variableDecl Declared.text
      simp only [sanitizeSmvIdent_of_isIdentifier hname, String.toList_append]
      simp
  · obtain ⟨p, hp, rfl⟩ := List.mem_map.mp hl
    have hname := hnamed.ports p hp
    refine ⟨⟨p.name.toList, (typeText (portDecl S.toTypedSource p).2).toList,
      (" -- port (" ++ portDirectionToString p.direction ++ ")").toList⟩, ?_, ?_⟩
    · have hcomment := portComment_harmless p.direction
      exact ⟨toList_ne_nil_of_isIdentifier hname, isIdentChar_of_isIdentifier hname, notMem_typeText _ _ _,
        h.ports p hp, hcomment.1, hcomment.2.1, fun _ => hcomment.2.2⟩
    · unfold portLine Declared.text
      have hfirst : (portDecl S.toTypedSource p).1 = p.name := sanitizeSmvIdent_of_isIdentifier hname
      simp only [hfirst, String.toList_append]
      simp
  · obtain ⟨g, hg, rfl⟩ := List.mem_map.mp hl
    have hword := word_freeGuardVars hg
    refine ⟨⟨g.toList, "boolean".toList, " -- input guard condition".toList⟩, ?_, ?_⟩
    · have htype : ∀ c ∈ ['\n', '(', '{'], c ∉ "boolean".toList := by decide
      have hcomment : '\n' ∉ " -- input guard condition".toList ∧
          contains " -- input guard condition".toList "next(state)" = false ∧
          '{' ∉ " -- input guard condition".toList := by decide
      exact ⟨hword.1, hword.2, htype, h.guards g hg, hcomment.1, hcomment.2.1, fun _ => hcomment.2.2⟩
    · unfold guardVarLine Declared.text
      simp only [String.toList_append]
      simp

include hnamed h in
theorem assignmentLines_init : ∀ l ∈ assignmentLines S, ∃ name value : List Char,
    (∀ c ∈ name, isIdentChar c = true) ∧ name ≠ "state".toList ∧ '\n' ∉ value ∧
      contains value "next(state)" = false ∧ l.toList = initText name value := by
  intro l hl
  unfold assignmentLines at hl
  rw [stateMaxTimeouts_eq_nil h, List.flatMap_nil, List.append_nil] at hl
  obtain ⟨v, hv, rfl⟩ := List.mem_map.mp hl
  have hname := hnamed.vars v hv
  obtain ⟨-, hstate, hnewline, hnext⟩ := h.vars v hv
  have hvalue : '\n' ∉ (if v.initialValue = "" then "0" else v.initialValue).toList ∧
      contains (if v.initialValue = "" then "0" else v.initialValue).toList "next(state)" = false := by
    split
    · decide
    · exact ⟨hnewline, hnext⟩
  refine ⟨v.name.toList, _, isIdentChar_of_isIdentifier hname, fun heq => hstate (String.toList_inj.mp heq), hvalue.1,
    hvalue.2, ?_⟩
  unfold variableInitLine initText
  simp only [sanitizeSmvIdent_of_isIdentifier hname, String.toList_append]
  simp

include h in
theorem keptName_of_mem {name : String} (hname : name ∈ S.ir.states.map (·.name)) : KeptName name := by
  obtain ⟨s, hs, rfl⟩ := List.mem_map.mp hname
  exact (h.names s hs).1

variable {t : TransitionEdge}

include h in
theorem sortedTransitions_readable (ht : t ∈ sortedTransitions S.ir) :
    ReadableTransition S.ir t := h.transitions t (mem_stableSort.mp ht)

theorem triggerText_eq (huntimed : ticksOf t = none) :
    triggerText t = ((eventOf t).map fun e => " & event = " ++ sanitizeSmvIdent e).getD "" := by
  unfold triggerText eventOf
  rw [huntimed]
  cases isEventless t.getTriggerName <;> rfl

theorem toList_triggerText (ht : ReadableTransition S.ir t) :
    (triggerText t).toList = ((eventOf t).toList.map eventClause).flatMap ([' ', '&', ' '] ++ ·) := by
  rw [triggerText_eq ht.untimed]
  cases hevent : eventOf t with
  | none => rfl
  | some e =>
    have hkept := sanitizeSmvIdent_of_isIdentifier (ht.event e hevent).1
    rw [Option.map_some, Option.getD_some, hkept, String.toList_append, Option.toList_some, List.map_singleton,
      List.flatMap_singleton]
    rfl

theorem toList_guardText (t : TransitionEdge) :
    (guardText S.ir t).toList = (((guardPredicate S.ir t).map printed).toList.map fun g => inParens g.printed).flatMap
      ([' ', '&', ' '] ++ ·) := by
  unfold guardText
  cases guardPredicate S.ir t with
  | none => rfl
  | some p =>
    rw [Option.map_some, Option.getD_some, String.toList_append, String.toList_append, Option.map_some,
      Option.toList_some, List.map_singleton, List.flatMap_singleton, List.append_assoc]
    rfl

include h in
theorem toList_transitionLine (ht : ReadableTransition S.ir t) : (transitionLine S.ir t).toList =
      "    ".toList ++ statementText t.source (eventOf t) ((guardPredicate S.ir t).map printed) t.target := by
  have hsource := sanitizeSmvIdent_of_isIdentifier (keptName_of_mem h ht.source).1
  have htarget := sanitizeSmvIdent_of_isIdentifier (keptName_of_mem h ht.target).1
  have haction : actionText t = "" := by
    unfold actionText
    rw [if_pos ht.silent]
  have hhead : "    state = ".toList ++ t.source.toList = "    ".toList ++ sourceClause t.source := rfl
  unfold transitionLine statementText conditionText laterClauses
  rw [hsource, htarget, haction, String.append_empty]
  simp only [String.toList_append, toList_triggerText ht, toList_guardText, hhead, List.flatMap_append,
    List.append_assoc]
  rfl

include h in
theorem transitionLines_eq : transitionLines S.ir = (sortedTransitions S.ir).map (transitionLine S.ir) := by
  unfold transitionLines
  congr 1
  refine List.filter_eq_self.mpr fun t ht => ?_
  have hreadable := sortedTransitions_readable h ht
  have hsource := (keptName_of_mem h hreadable.source).ne_empty
  have htarget := (keptName_of_mem h hreadable.target).ne_empty
  simp [hasEnds, hsource, htarget]

include h in
theorem mem_stateNames_iff {name : String} : name ∈ stateNames S.toSource ↔ name ∈ S.ir.states.map (·.name) := by
  have hself : ∀ {n : String}, n ∈ S.ir.states.map (·.name) → sanitizeSmvIdent n = n := fun hn =>
    sanitizeSmvIdent_of_isIdentifier (keptName_of_mem h hn).1
  have hmem : ∀ n ∈ S.ir.states.map (·.name) ++ S.ir.choiceNodes ++
      S.ir.transitions.flatMap (fun t => [t.source, t.target]), isStateName n = true →
        n ∈ S.ir.states.map (·.name) := by
    intro n hn hstate
    rcases List.mem_append.mp hn with hn | hn
    · exact (List.mem_append.mp hn).elim id fun hn => h.choices n hn hstate
    · obtain ⟨t, ht, hn⟩ := List.mem_flatMap.mp hn
      have hreadable := h.transitions t ht
      rcases List.mem_cons.mp hn with rfl | hn
      · exact hreadable.source
      · rw [List.mem_singleton.mp hn]
        exact hreadable.target
  have hdeclared : ∀ n, n ∈ (((S.ir.states.map (·.name) ++ S.ir.choiceNodes ++
      S.ir.transitions.flatMap (fun t => [t.source, t.target])).filter isStateName).map
        sanitizeSmvIdent).reverse.dedup.reverse ↔ n ∈ S.ir.states.map (·.name) := by
    intro n
    rw [List.mem_reverse, List.mem_dedup, List.mem_reverse, List.mem_map]
    constructor
    · rintro ⟨m, hm, rfl⟩
      obtain ⟨hm, hstate⟩ := List.mem_filter.mp hm
      rw [hself (hmem m hm hstate)]
      exact hmem m hm hstate
    · intro hn
      obtain ⟨s, hs, rfl⟩ := List.mem_map.mp hn
      refine ⟨s.name, List.mem_filter.mpr ⟨?_, (h.names s hs).2⟩, hself hn⟩
      exact List.mem_append_left _ (List.mem_append_left _ hn)
  obtain ⟨s, hs⟩ := List.exists_mem_of_ne_nil _ h.states
  have hne := List.ne_nil_of_mem ((hdeclared s.name).mpr (List.mem_map_of_mem hs))
  unfold stateNames
  dsimp only
  rw [if_neg (by simpa using hne)]
  exact hdeclared name

include h in
theorem exists_stateLine : ∃ first rest, stateNames S.toSource = first :: rest ∧
    (∀ name ∈ first :: rest, KeptName name) ∧ (stateLine S.toSource).toList = enumText "state".toList first rest := by
  have hkept : ∀ name ∈ stateNames S.toSource, KeptName name := fun name hname =>
    keptName_of_mem h ((mem_stateNames_iff h).mp hname)
  have hself : (stateNames S.toSource).map sanitizeSmvIdent = stateNames S.toSource :=
    (List.map_congr_left fun name hname => sanitizeSmvIdent_of_isIdentifier (hkept name hname).1).trans (List.map_id _)
  obtain ⟨s, hs⟩ := List.exists_mem_of_ne_nil _ h.states
  have hne := List.ne_nil_of_mem ((mem_stateNames_iff h).mpr (List.mem_map_of_mem hs))
  obtain ⟨first, rest, hnames⟩ := List.exists_cons_of_ne_nil hne
  rw [hnames] at hself hkept
  refine ⟨first, rest, hnames, hkept, ?_⟩
  unfold stateLine
  rw [hnames, hself, String.toList_append, String.toList_append, toList_enumeration]
  rfl

end Lines

theorem toList_eventLine (S : Source) :
    (eventLine S).toList = enumText "event".toList "none" ((eventNames S).map sanitizeSmvIdent) := by
  unfold eventLine
  rw [String.toList_append, String.toList_append, toList_enumeration]
  rfl

end Fsmc.Smv.RoundTrip
