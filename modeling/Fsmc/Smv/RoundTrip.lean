/-
# Fsmc.Smv.RoundTrip — a machine is exported and read back.

The lines of a readable machine are read one after the other: those up to the transitions give the states and the
initial state (`foldl_declarations`), and each transition is added as it was written, under a guard whose name is
new (`addRead_spec`). A tank comes back so; a bell loses the transition behind the one that rings.
-/
import Fsmc.Smv.Readable

namespace Fsmc.Smv.RoundTrip

open Fsmc.Ir Fsmc.Cpp Fsmc.Frontend.GuardNames Fsmc.Lib.Registry
open Fsmc.Frontend.LtlParser (trim)
open Fsmc.Smv.Parser

/-! ## The transitions that are added -/

/-- Guards that are named after transitions that are there. -/
def GuardsNumbered (d : Draft) : Prop :=
  ∀ g ∈ d.guards, ∃ src target n, g.name = guardNameOf src target n ∧ n ≤ d.transitions.length

theorem guardNameOf_injective {src src' target target' : String} {n n' : ℕ}
    (h : guardNameOf src target n = guardNameOf src' target' n') : n = n' := numbered_injective h

variable {d : Draft} {ir : FsmIr}

theorem GuardsNumbered.fresh (h : GuardsNumbered d) (src target : String) :
    guardNameOf src target (d.transitions.length + 1) ∉ d.guards.map (·.name) := by
  intro hmem
  obtain ⟨g, hg, hname⟩ := List.mem_map.mp hmem
  obtain ⟨src', target', n, hname', hn⟩ := h g hg
  have heq := guardNameOf_injective (hname.symm.trans hname')
  omega

theorem sameGuard_core {text core : List Char} (h : Core text core) : SameGuard text core := by
  induction h with
  | bare => exact SameGuard.trimmed _
  | wrapped h hbalanced _ ih => exact ((SameGuard.trimmed _).trans (.unwrapped h hbalanced)).trans ih

/-- A transition that is read, with the name of its guard. -/
def readEdge (t : TransitionEdge) (guard : Option String) : TransitionEdge where
  source := t.source
  target := t.target
  event := (eventOf t).getD ""
  guard := guard

theorem getTriggerName_readEdge (t : TransitionEdge) (guard : Option String) :
    (readEdge t guard).getTriggerName = if isEventless t.getTriggerName then "" else t.getTriggerName := by
  have hname : (readEdge t guard).getTriggerName = (eventOf t).getD "" := by
    show (if (eventOf t).getD "" ≠ "" then (eventOf t).getD "" else "") = (eventOf t).getD ""
    split
    · rfl
    · rename_i hempty
      exact (not_not.mp hempty).symm
  rw [hname, eventOf]
  split <;> rfl

/-- The text of the guard that is read for a transition. -/
def readGuard (ir : FsmIr) (t : TransitionEdge) : String :=
  String.ofList ((((guardPredicate ir t).map printed).map (·.core)).getD [])

/-- What the statement of a transition adds. -/
def addRead (ir : FsmIr) (d : Draft) (t : TransitionEdge) : Draft :=
  addTransitionFrom t.target ((eventOf t).getD "") (readGuard ir t) "" d t.source

theorem guardPredicate_eq (ir : FsmIr) (t : TransitionEdge) :
    guardPredicate ir t = (guardExpr ir t).map toSmvPredicate := by
  unfold guardPredicate guardExpr
  split <;> rfl

theorem resolveGuardExpr_new {old more : List GuardModel} {name raw : String}
    (hguards : ir.guards = old ++ [{ name := name, rawExpression := some raw }] ++ more)
    (hfresh : name ∉ old.map (·.name)) (hraw : raw ≠ "") : resolveGuardExpr ir name = raw := by
  have hnone : old.find? (fun g => g.name = name) = none := by
    rw [List.find?_eq_none]
    intro g hg hname
    exact hfresh (List.mem_map.mpr ⟨g, hg, of_decide_eq_true hname⟩)
  unfold resolveGuardExpr
  rw [hguards, List.append_assoc, List.find?_append, hnone, Option.none_or, List.singleton_append,
    List.find?_cons_of_pos (by simp)]
  exact if_neg hraw

theorem addRead_spec {t : TransitionEdge} (ht : ReadableTransition ir t)
    (hd : GuardsNumbered d) : ∃ e new,
      addRead ir d t = { d with transitions := d.transitions ++ [e], guards := d.guards ++ new } ∧
      GuardsNumbered (addRead ir d t) ∧
      ∀ (ir' : FsmIr) (more : List GuardModel), ir'.guards = d.guards ++ new ++ more → SameTransition ir ir' t e := by
  cases hguard : guardExpr ir t with
  | none =>
    have hread : readGuard ir t = "" := by
      unfold readGuard
      rw [guardPredicate_eq, hguard]
      rfl
    have hadd : addRead ir d t =
        { d with transitions := d.transitions ++ [readEdge t none], guards := d.guards ++ [] } := by
      unfold addRead addTransitionFrom
      rw [hread, List.append_nil]
      rfl
    refine ⟨readEdge t none, [], hadd, ?_, fun ir' more _ => ?_⟩
    · rw [hadd]
      intro g hg
      rw [List.append_nil] at hg
      obtain ⟨src, target, n, hname, hn⟩ := hd g hg
      refine ⟨src, target, n, hname, ?_⟩
      simp only [List.length_append, List.length_singleton]
      omega
    · refine ⟨rfl, rfl, getTriggerName_readEdge t none, ht.silent.symm, ?_⟩
      rw [hguard]
      exact Option.Rel.none
  | some g =>
    have hpredicate : guardPredicate ir t = some (toSmvPredicate g) := by
      rw [guardPredicate_eq, hguard]
      rfl
    have hlegible := ht.legible _ hpredicate
    have hread : readGuard ir t = String.ofList (printed (toSmvPredicate g)).core := by
      unfold readGuard
      rw [hpredicate]
      rfl
    have hne : readGuard ir t ≠ "" := by
      rw [hread]
      intro heq
      have hlist := congrArg String.toList heq
      rw [String.toList_ofList] at hlist
      exact hlegible.nonempty hlist
    have hfresh := hd.fresh t.source t.target
    have hadd : addRead ir d t =
        { d with
          transitions := d.transitions ++
            [readEdge t (some (guardNameOf t.source t.target (d.transitions.length + 1)))]
          guards := d.guards ++ [{ name := guardNameOf t.source t.target (d.transitions.length + 1),
                                   rawExpression := some (readGuard ir t) }] } := by
      unfold addRead addTransitionFrom
      dsimp only
      rw [if_neg hne, if_neg hne, if_pos rfl, if_pos rfl, Draft.addGuard, if_neg hfresh]
      rfl
    refine ⟨_, _, hadd, ?_, fun ir' more hmore => ?_⟩
    · rw [hadd]
      intro g' hg'
      simp only [List.length_append, List.length_singleton]
      rcases List.mem_append.mp hg' with hg' | hg'
      · obtain ⟨src, target, n, hname, hn⟩ := hd g' hg'
        exact ⟨src, target, n, hname, by omega⟩
      · rw [List.mem_singleton.mp hg']
        exact ⟨t.source, t.target, _, rfl, le_rfl⟩
    · refine ⟨rfl, rfl, getTriggerName_readEdge t _, ht.silent.symm, ?_⟩
      have hname : guardNameOf t.source t.target (d.transitions.length + 1) ≠ "" := by
        intro heq
        have hlist := congrArg String.toList heq
        rw [guardNameOf, String.toList_append, String.toList_append, String.toList_append, String.toList_append,
          String.toList_append] at hlist
        simp at hlist
      have hexpr : guardExpr ir' (readEdge t (some (guardNameOf t.source t.target (d.transitions.length + 1)))) =
          some (readGuard ir t) := by
        unfold guardExpr readEdge
        dsimp only
        rw [Option.getD_some, if_neg hname, resolveGuardExpr_new hmore hfresh hne]
      rw [hguard, hexpr]
      refine Option.Rel.some ?_
      rw [hread, String.toList_ofList]
      have hcore := sameGuard_core hlegible.core
      rw [printed_printed] at hcore
      exact SameGuard.trans (SameGuard.respelled (ht.respells g hguard)) hcore

theorem foldl_addRead {ts : List TransitionEdge} (hts : ∀ t ∈ ts, ReadableTransition ir t)
    (hd : GuardsNumbered d) : ∃ es new,
      ts.foldl (addRead ir) d = { d with transitions := d.transitions ++ es, guards := d.guards ++ new } ∧
      ∀ (ir' : FsmIr) (more : List GuardModel), ir'.guards = d.guards ++ new ++ more →
        List.Forall₂ (SameTransition ir ir') ts es := by
  induction ts generalizing d with
  | nil =>
    refine ⟨[], [], ?_, fun _ _ _ => List.Forall₂.nil⟩
    rw [List.append_nil, List.append_nil]
    rfl
  | cons t ts ih =>
    obtain ⟨e, new, hadd, hnumbered, hsame⟩ := addRead_spec (hts t List.mem_cons_self) hd
    obtain ⟨es, later, hrun, hrest⟩ := ih (fun t' ht' => hts t' (List.mem_cons_of_mem _ ht')) hnumbered
    refine ⟨e :: es, new ++ later, ?_, fun ir' more hmore => List.Forall₂.cons ?_ ?_⟩
    · rw [List.foldl_cons, hrun, hadd]
      simp
    · exact hsame ir' (later ++ more) (by rw [hmore]; simp)
    · refine hrest ir' more ?_
      rw [hmore, hadd]
      simp

/-! ## The text as a whole -/

abbrev chars (lines : List String) : List (List Char) := lines.map String.toList

theorem chars_append (lines lines' : List String) : chars (lines ++ lines') = chars lines ++ chars lines' :=
  List.map_append

section Run

variable (directive : List Char → Draft → Draft) {S : TextSource} (hnamed : Named S) (h : Readable S)

theorem foldl_addState (names : List String) (d : Draft) : names.foldl Draft.addState d =
      { d with
        states := names.foldl (register (·.name) fun name =>
          { id := computeDeterministicId name, name := name, fqn := name }) d.states } := by
  induction names generalizing d with
  | nil => rfl
  | cons name names ih =>
    rw [List.foldl_cons, ih]
    rfl

include hnamed in
theorem readLine_title (r : Reader) : readLine directive r ("-- nuXmv / SMV Formal Verification Model: " ++
    (if S.name = "" then "main" else S.name)).toList = r := by
  have hname : isIdentifier (if S.name = "" then "main" else S.name) = true := by
    split
    · decide
    · rename_i hne
      exact hnamed.machine.resolve_left hne
  have htight : Tight ("-- nuXmv / SMV Formal Verification Model: " ++
      (if S.name = "" then "main" else S.name)).toList := by
    rw [String.toList_append]
    have happend := Tight.append (a := ['-']) (by simp [Tight, isBlank])
      (tight_of_word (isIdentChar_of_isIdentifier hname)) (by simp) (toList_ne_nil_of_isIdentifier hname)
      "- nuXmv / SMV Formal Verification Model: ".toList
    exact happend
  refine readLine_comment (trim_tight htight) ?_ ?_ (contains_eq_false (c := '@') (by decide) ?_)
  · rw [String.toList_append]
    rfl
  · rw [String.toList_append]
    rfl
  · rw [String.toList_append]
    intro hmem
    rcases List.mem_append.mp hmem with hmem | hmem
    · exact absurd hmem (by decide)
    · exact absurd (isIdentChar_of_isIdentifier hname _ hmem) (by decide)

include hnamed in
theorem foldl_headerLines (r : Reader) : ∃ d, OnlyData r.model d ∧
    (chars (headerLines S)).foldl (readLine directive) r = { r with currentSection := .var, model := d } := by
  have hrule : ∀ r : Reader, readLine directive r
      "-- ============================================================================".toList = r := fun _ => rfl
  have hgenerated : ∀ r : Reader, readLine directive r
      "-- Generated automatically by fsmc (https://github.com/simoneCavalleri/fsmc)".toList = r := fun _ => rfl
  have hmodule : Keeps r (readLine directive r "MODULE main".toList) := readLine_module rfl rfl
  have hblank : ∀ r : Reader, readLine directive r "".toList = r := fun _ => rfl
  refine ⟨(readLine directive r "MODULE main".toList).model, hmodule.model, ?_⟩
  unfold chars headerLines
  simp only [List.map_cons, List.map_nil, List.foldl_cons, List.foldl_nil]
  rw [hrule, readLine_title directive hnamed, hgenerated, hrule, hblank, hblank, readLine_var, hmodule.caseAccumulator]

variable {r : Reader}

include h in
theorem foldl_transitionLines (hr : r.currentSection = .assignNextState) (hacc : r.caseAccumulator = []) :
    (chars (transitionLines S.ir)).foldl (readLine directive) r =
      { r with model := (sortedTransitions S.ir).foldl (addRead S.ir) r.model } := by
  have hrun : ∀ ts : List TransitionEdge, (∀ t ∈ ts, ReadableTransition S.ir t) → ∀ r : Reader,
      r.currentSection = .assignNextState → r.caseAccumulator = [] →
        (chars (ts.map (transitionLine S.ir))).foldl (readLine directive) r =
          { r with model := ts.foldl (addRead S.ir) r.model } := by
    intro ts
    induction ts with
    | nil => exact fun _ _ _ _ => rfl
    | cons t ts ih =>
      intro hts r hr hacc
      have ht := hts t List.mem_cons_self
      have hevent : ∀ e ∈ eventOf t, KeptName e ∧ e ≠ "none" := by
        intro e he
        refine ⟨ht.event e he, ?_⟩
        rintro rfl
        unfold eventOf at he
        split at he
        · cases he
        · rename_i hnot
          have hname : t.getTriggerName = "none" := Option.some.inj he
          rw [hname] at hnot
          exact hnot rfl
      have hlegible : ∀ g ∈ (guardPredicate S.ir t).map printed, g.Legible (eventOf t = none) := by
        intro g hg
        obtain ⟨p, hp, rfl⟩ := Option.map_eq_some_iff.mp hg
        exact ht.legible p hp
      have hline := readLine_statement directive hr hacc (keptName_of_mem h ht.source) (keptName_of_mem h ht.target)
        hevent hlegible ht.line
      unfold chars
      rw [List.map_cons, List.map_cons, List.foldl_cons, toList_transitionLine h ht, hline]
      exact ih (fun t' ht' => hts t' (List.mem_cons_of_mem _ ht')) _ hr hacc
  rw [transitionLines_eq h]
  exact hrun _ (fun t ht => sortedTransitions_readable h ht) r hr hacc

include h in
theorem readLine_stateLine (hr : r.currentSection = .var) : readLine directive r (stateLine S.toSource).toList =
      { r with model := (stateNames S.toSource).foldl Draft.addState r.model } := by
  obtain ⟨first, rest, hnames, hkept, hline⟩ := exists_stateLine h
  rw [hline, readLine_states directive hkept hr, hnames]

theorem keeps_eventLine (hr : r.currentSection = .var) :
    Keeps r (readLine directive r (eventLine S.toSource).toList) := by
  rw [toList_eventLine]
  refine keeps_events directive (fun name hname => ?_) hr
  rcases List.mem_cons.mp hname with rfl | hname
  · decide
  · obtain ⟨e, -, rfl⟩ := List.mem_map.mp hname
    exact (sanitizeSmvIdent_spec e).2

include hnamed h in
theorem keeps_declarationLines (hr : r.currentSection = .var) :
    Keeps r ((chars (declarationLines S)).foldl (readLine directive) r) := by
  refine Keeps.foldl directive (fun l hl r hr => ?_) hr
  obtain ⟨line, hline, rfl⟩ := List.mem_map.mp hl
  obtain ⟨decl, hdecl, htext⟩ := declarationLines_harmless hnamed h line hline
  rw [htext]
  exact hdecl.keeps directive hr

include hnamed h in
theorem keeps_assignmentLines (hr : r.currentSection = .assignInit) :
    Keeps r ((chars (assignmentLines S)).foldl (readLine directive) r) := by
  refine Keeps.foldl directive (fun l hl r hr => ?_) hr
  obtain ⟨line, hline, rfl⟩ := List.mem_map.mp hl
  obtain ⟨name, value, hname, hstate, -, hnext, htext⟩ := assignmentLines_init hnamed h line hline
  rw [htext]
  exact keeps_init directive hr hname hstate hnext

include h in
theorem toList_initialLine : (initialLine S.ir).toList = initText "state".toList (startName S.ir).toList := by
  unfold initialLine
  rw [h.initial.2, sanitizeSmvIdent_of_isIdentifier h.initial.1.1, String.toList_append, String.toList_append]
  rfl

/-- The machine before its transitions are read. -/
structure Opened (ir : FsmIr) (d : Draft) : Prop where
  states : ∀ name, name ∈ d.states.map (·.name) ↔ name ∈ ir.states.map (·.name)
  initial : d.initialState = startName ir
  properties : d.properties = []
  transitions : d.transitions = []
  guards : d.guards = []

include hnamed h in
theorem foldl_declarations : ∃ d, Opened S.ir d ∧
    (chars (headerLines S ++ [stateLine S.toSource, eventLine S.toSource] ++ declarationLines S ++
      ["", "ASSIGN", initialLine S.ir] ++ assignmentLines S ++ ["", "  next(state) := case"])).foldl
        (readLine directive) {} = { currentSection := .assignNextState, caseAccumulator := [], model := d } := by
  obtain ⟨d₁, ⟨_, _, _, _, rfl⟩, hheader⟩ := foldl_headerLines directive hnamed {}
  have hblank : ∀ r : Reader, readLine directive r "".toList = r := fun _ => rfl
  simp only [chars, List.map_append, List.map_cons, List.map_nil, List.foldl_append, List.foldl_cons, List.foldl_nil]
    at hheader ⊢
  rw [hheader, readLine_stateLine directive h rfl, foldl_addState]
  generalize hstates : (stateNames S.toSource).foldl _ _ = states
  have hmem : ∀ name, name ∈ states.map (·.name) ↔ name ∈ S.ir.states.map (·.name) := by
    intro name
    rw [← hstates, ← mem_stateNames_iff h, mem_keys_foldl_iff fun _ => rfl]
    simp
  generalize hr : Reader.mk _ _ _ = r
  have hevent : Keeps r (readLine directive r (eventLine S.toSource).toList) :=
    keeps_eventLine directive (by rw [← hr])
  have hdecl := hevent.trans (keeps_declarationLines directive hnamed h (hevent.currentSection.trans (by rw [← hr])))
  generalize List.foldl (readLine directive) (readLine directive r _) _ = r' at hdecl ⊢
  obtain ⟨hsection, hacc, ⟨_, _, _, _, hmodel⟩⟩ := hdecl
  simp only [hblank]
  rw [readLine_assign, toList_initialLine h, readLine_initialState directive rfl h.initial.1]
  generalize hr'' : Reader.mk _ _ _ = r''
  have hassign := keeps_assignmentLines directive hnamed h (r := r'') (by rw [← hr''])
  generalize List.foldl (readLine directive) r'' _ = r₃ at hassign ⊢
  obtain ⟨-, hacc', ⟨_, _, _, _, hmodel'⟩⟩ := hassign
  subst hr hr''
  rw [hmodel] at hmodel'
  refine ⟨r₃.model, ?_, ?_⟩
  · rw [hmodel']
    exact ⟨hmem, rfl, rfl, rfl, rfl⟩
  · rw [readLine_next, hacc', hacc]

theorem newline_notMem_word {text : List Char} (h : ∀ c ∈ text, isIdentChar c = true) : '\n' ∉ text := fun hmem =>
  absurd (h _ hmem) (by decide)

theorem newline_notMem_enumText {label : List Char} (hlabel : '\n' ∉ label) {first : String} {rest : List String}
    (h : ∀ name ∈ first :: rest, ∀ c ∈ name.toList, isIdentChar c = true) : '\n' ∉ enumText label first rest := by
  have hcontent : '\n' ∉ enumContent first rest := notMem_enumContent h (by decide)
  unfold enumText
  simp only [List.mem_append, not_or]
  exact ⟨⟨by decide, ⟨⟨hlabel, by decide⟩, hcontent⟩, by decide⟩, by decide⟩

theorem newline_notMem_initText {name value : List Char} (hname : ∀ c ∈ name, isIdentChar c = true)
    (hvalue : '\n' ∉ value) : '\n' ∉ initText name value := by
  unfold initText
  simp only [List.mem_append, not_or]
  exact ⟨⟨⟨⟨by decide, newline_notMem_word hname⟩, by decide⟩, hvalue⟩, by decide⟩

include h in
theorem newline_notMem_transitionLine {t : TransitionEdge} (ht : ReadableTransition S.ir t) :
    '\n' ∉ (transitionLine S.ir t).toList := by
  have htarget := newline_notMem_word (isIdentChar_of_isIdentifier (keptName_of_mem h ht.target).1)
  have hcond := statement_semicolon (keptName_of_mem h ht.source) ht.event ht.line '\n' (by decide)
  rw [toList_transitionLine h ht]
  unfold statementText
  simp only [List.mem_append, List.mem_cons, not_or]
  exact ⟨by decide, ⟨hcond, by decide⟩, by decide, by decide, htarget, by decide⟩

include hnamed h in
theorem newline_notMem_serializedLines : ∀ l ∈ chars (serializedLines S), '\n' ∉ l := by
  have hheader : ∀ l ∈ headerLines S, '\n' ∉ l.toList := by
    intro l hl
    unfold headerLines at hl
    simp only [List.mem_cons, List.not_mem_nil, or_false] at hl
    rcases hl with rfl | rfl | rfl | rfl | rfl | rfl | rfl | rfl
    case inr.inl =>
      rw [String.toList_append]
      intro hmem
      rcases List.mem_append.mp hmem with hmem | hmem
      · exact absurd hmem (by decide)
      · split at hmem
        · exact absurd hmem (by decide)
        · rename_i hne
          exact newline_notMem_word (isIdentChar_of_isIdentifier (hnamed.machine.resolve_left hne)) hmem
    all_goals decide
  have hstate : '\n' ∉ (stateLine S.toSource).toList := by
    obtain ⟨first, rest, -, hkept, hline⟩ := exists_stateLine h
    rw [hline]
    exact newline_notMem_enumText (by decide) fun name hname => isIdentChar_of_isIdentifier (hkept name hname).1
  have hevent : '\n' ∉ (eventLine S.toSource).toList := by
    rw [toList_eventLine]
    refine newline_notMem_enumText (by decide) fun name hname => ?_
    rcases List.mem_cons.mp hname with rfl | hname
    · decide
    · obtain ⟨e, -, rfl⟩ := List.mem_map.mp hname
      exact (sanitizeSmvIdent_spec e).2
  have hinitial : '\n' ∉ (initialLine S.ir).toList := by
    rw [toList_initialLine h]
    have hword := isIdentChar_of_isIdentifier h.initial.1.1
    exact newline_notMem_initText (by decide) (newline_notMem_word hword)
  intro l hl
  obtain ⟨line, hline, rfl⟩ := List.mem_map.mp hl
  unfold serializedLines specificationLines at hline
  rw [h.properties, if_pos rfl, List.append_nil] at hline
  simp only [List.mem_append, List.mem_cons, List.not_mem_nil, or_false] at hline
  rcases hline with (((((((hl | rfl | rfl) | hl) | rfl | rfl | rfl) | hl) | rfl | rfl) | hl) | rfl | rfl | rfl)
  · exact hheader line hl
  · exact hstate
  · exact hevent
  · obtain ⟨decl, hdecl, htext⟩ := declarationLines_harmless hnamed h line hl
    rw [htext]
    exact hdecl.newline_notMem
  · decide
  · decide
  · exact hinitial
  · obtain ⟨name, value, hname, -, hvalue, -, htext⟩ := assignmentLines_init hnamed h line hl
    rw [htext]
    exact newline_notMem_initText hname hvalue
  · decide
  · decide
  · rw [transitionLines_eq h] at hl
    obtain ⟨t, ht, rfl⟩ := List.mem_map.mp hl
    exact newline_notMem_transitionLine h (sortedTransitions_readable h ht)
  · decide
  · decide
  · decide

end Run

theorem sortedTransitions_of_unprioritized (h : ∀ t ∈ ir.transitions, t.priority = 0) :
    sortedTransitions ir = ir.transitions := by
  apply stableSort_of_pairwise
  apply List.pairwise_of_forall_mem_list
  intro a ha b hb
  simp [h a ha, h b hb]

theorem respellable_of_notMem {expr : String} (hdot : '.' ∉ expr.toList)
    (htemplate : contains expr.toList "fsm::" = false) : Respellable expr where
  domains := by
    intro p hp before after htext
    have hmem : ∀ p ∈ ["in.", "out.", "reg."], '.' ∈ p.toList := by decide
    exact absurd (htext ▸ List.mem_append_left _ (List.mem_append_right _ (hmem p hp))) hdot
  fraction := fun _ _ _ _ hocc => hdot (hocc.subset (by simp))
  template := fun h => absurd h (by rw [htemplate]; exact Bool.false_ne_true)

/-- A tank that is filled while it is not full. -/
def tank : TextSource where
  name := "Tank"
  ir :=
    { initialState := "Idle"
      states := [{ name := "Idle" }, { name := "Filling" }]
      transitions :=
        [{ source := "Idle", target := "Filling", event := "start", guard := some "(level < 9 && ready)" },
          { source := "Filling", target := "Idle", event := "stop" }]
      vars := [{ name := "level", minValue := some 0, maxValue := some 9 }] }
  toInt64 := fun _ => 0

theorem freeGuardVars_tank : freeGuardVars tank.toSource = ["ready"] := by
  have hnames : (tank.ir.transitions.flatMap fun t =>
      (guardPredicate tank.ir t).toList.flatMap fun smvGuard =>
        extractSmvIdentifiers smvGuard (knownIdents tank.toSource)).dedup = ["ready"] := by decide +kernel
  unfold freeGuardVars
  rw [hnames]
  exact List.mergeSort_singleton _

theorem named_tank : Named tank where
  machine := Or.inr (by decide +kernel)
  states := by decide +kernel
  choices := by decide +kernel
  vars := by decide +kernel
  ports := by decide +kernel

/-- The first transition of the tank. -/
def tankStart : TransitionEdge :=
  { source := "Idle", target := "Filling", event := "start", guard := some "(level < 9 && ready)" }

def tankStop : TransitionEdge := { source := "Filling", target := "Idle", event := "stop" }

theorem guardPredicate_tankStart : guardPredicate tank.ir tankStart = some "(level < 9 & ready)" := by decide +kernel

example : guardPredicate tank.ir tankStop = none := by decide +kernel

theorem readable_tankStart : ReadableTransition tank.ir tankStart where
  source := by decide +kernel
  target := by decide +kernel
  untimed := rfl
  silent := rfl
  event := by
    rintro e ⟨⟩
    exact ⟨by decide +kernel, by decide +kernel⟩
  respells := by
    intro g hg
    have hguard : guardExpr tank.ir tankStart = some "(level < 9 && ready)" := by decide +kernel
    rw [hguard] at hg
    obtain rfl := Option.some.inj hg
    exact respellable_of_notMem (by decide +kernel) (by decide +kernel)
  legible := by
    intro p hp
    rw [guardPredicate_tankStart] at hp
    obtain rfl := Option.some.inj hp
    have hcore : (printed "(level < 9 & ready)").core = trim "level < 9 & ready".toList := by decide +kernel
    refine ⟨by decide +kernel, ?_, by decide +kernel, by decide +kernel, fun h => absurd h (by decide +kernel)⟩
    rw [hcore]
    have hbare : Core "level < 9 & ready".toList (trim "level < 9 & ready".toList) := Core.bare (by decide +kernel)
    exact Core.wrapped (by decide +kernel) (by decide +kernel) hbare
  line := by
    rw [guardPredicate_tankStart]
    exact ⟨by decide +kernel, by decide +kernel, by decide +kernel, by decide +kernel, by decide +kernel⟩

theorem readable_tankStop : ReadableTransition tank.ir tankStop where
  source := by decide +kernel
  target := by decide +kernel
  untimed := rfl
  silent := rfl
  event := by
    rintro e ⟨⟩
    exact ⟨by decide +kernel, by decide +kernel⟩
  respells := by rintro g ⟨⟩
  legible := by rintro p ⟨⟩
  line := fun hsuffix => absurd (hsuffix.subset (by decide : 'T' ∈ "TRUE".toList)) (by decide +kernel)

theorem readable_tank : Readable tank where
  states := by decide +kernel
  names := by
    have hnames : ∀ s ∈ tank.ir.states, (isIdentifier s.name = true ∧ sanitizeIdentifier s.name = s.name) ∧
        isStateName s.name = true := by decide +kernel
    exact hnames
  choices := by decide +kernel
  initial := ⟨⟨by decide +kernel, by decide +kernel⟩, by decide +kernel⟩
  properties := rfl
  transitions := by
    intro t ht
    rcases List.mem_cons.mp ht with rfl | ht
    · exact readable_tankStart
    · obtain rfl := List.mem_singleton.mp ht
      exact readable_tankStop
  vars := by
    intro v hv
    obtain rfl := List.mem_singleton.mp hv
    exact ⟨by unfold NoKeyword; decide +kernel, by decide +kernel, by decide +kernel, by decide +kernel⟩
  ports := fun p hp => absurd hp List.not_mem_nil
  guards := by
    intro g hg
    rw [freeGuardVars_tank, List.mem_singleton] at hg
    rw [hg]
    unfold NoKeyword
    decide +kernel
  units := by rintro v - unit ⟨⟩

/-- A bell that rings when it is pressed. -/
def bell : TextSource where
  name := "Bell"
  ir :=
    { initialState := "Off"
      states := [{ name := "Off" }, { name := "On" }]
      transitions := [{ source := "Off", target := "On", event := "press", transitionAction := some (.ofName "ring") },
        { source := "On", target := "Off", event := "release" }] }
  toInt64 := fun _ => 0

theorem serializedLines_bell : serializedLines bell = headerLines bell ++
    ["  state : {Off, On};", "  event : {none, press, release};", "", "ASSIGN", "  init(state) := Off;", "",
      "  next(state) := case", "    state = Off & event = press : On; -- action: ring",
      "    state = On & event = release : Off;", "    TRUE : state;", "  esac;", ""] := by
  have hsorted : sortedTransitions bell.ir = bell.ir.transitions :=
    sortedTransitions_of_unprioritized (by decide +kernel)
  have hfree : freeGuardVars bell.toSource = [] := List.mergeSort_nil
  have htimers : stateMaxTimeouts bell.ir = [] := congrArg (List.map _) List.mergeSort_nil
  unfold serializedLines declarationLines assignmentLines transitionLines
  rw [hsorted, hfree, htimers]
  decide +kernel

end Fsmc.Smv.RoundTrip
