/-
# Fsmc.Ir.Canonical — the canonical form of a whole machine.

Everything that a machine lists is sorted, and what its transitions use without declaring it is declared.
The signals are sorted before the events that are used are declared as signals.
-/
import Fsmc.Ir.Adjacency
import Fsmc.Ir.DeterministicId
import Fsmc.Lib.Registry

namespace Fsmc.Ir

open Fsmc.Cpp Fsmc.Lib.FirstMatch Fsmc.Lib.Registry

/-! ## The whole machine -/

structure SignalDefinition where
  name : String := ""
  description : String := ""
  deriving DecidableEq, Repr

structure TypeDefinition where
  name : String := ""
  description : String := ""
  deriving DecidableEq, Repr

structure ActionModel where
  name : String := ""
  description : String := ""
  deriving DecidableEq, Repr

/-- `FsmIr` with what else is listed in it. -/
structure WholeIr extends FsmIr where
  id : String := ""
  name : String := ""
  package : String := ""
  signals : List SignalDefinition := []
  customTypes : List TypeDefinition := []
  actions : List ActionModel := []

/-! ## Declaring what is used -/

mutual

def GuardAstNode.collectAtomicGuards : GuardAstNode → List String
  | ⟨.none, expression, _⟩ => if expression ∈ ["", "else", "otherwise", "default"] then [] else [expression]
  | ⟨_, _, children⟩ => collectAllGuards children

/-- The loop of `collect_atomic_guards` over the children. -/
def collectAllGuards : List GuardAstNode → List String
  | [] => []
  | child :: rest => child.collectAtomicGuards ++ collectAllGuards rest

end

/-- `raw_names`: the atomic guards of a transition. -/
def rawGuardNames (t : TransitionEdge) : List String :=
  match t.guardAst with
  | some ast => ast.collectAtomicGuards
  -- without a structured guard its text counts as one atom
  | none => if t.getGuard = "" then [] else [t.getGuard]

/-- The words of a guard that do not name a guard. -/
def guardKeywords : List String :=
  ["true", "false", "else", "otherwise", "default", "fsm", "and_", "or_", "not_"]

/-- The guards that a transition uses. -/
def usedGuards (t : TransitionEdge) : List String :=
  ((rawGuardNames t).flatMap extractIdentifiers).filter (· ∉ guardKeywords)

/-- The name of an action, unless it has none. -/
def namedAction (a : ActionSignature) : List String := if a.name = "" then [] else [a.name]

/-- The actions that a transition executes. -/
def transitionActions (t : TransitionEdge) : List String :=
  t.conditionAction.toList.flatMap namedAction ++ t.transitionAction.toList.flatMap namedAction

/-- The actions that a state executes when it is entered or left. -/
def hookActions (s : StateNode) : List String :=
  s.entryActions.flatMap namedAction ++ s.exitActions.flatMap namedAction

/-- An event that is declared when it is used. -/
def isDeclarable (event : String) : Bool :=
  event ≠ "" && event ≠ "anonymous_event" && event ≠ "completion_event" && isIdentifier event

/-- The events that transitions use. -/
def usedEvents (transitions : List TransitionEdge) : List String :=
  (transitions.map (·.event)).filter isDeclarable

/-- A guard that is used without being declared. -/
def guardOfName (token : String) : GuardModel :=
  { name := token, rawExpression := some token, normalizedExpression := some token }

def syncInterfaces (ir : WholeIr) : WholeIr :=
  { ir with
    guards := (ir.transitions.flatMap usedGuards).foldl (register (·.name) guardOfName) ir.guards
    actions := (ir.transitions.flatMap transitionActions ++ ir.states.flatMap hookActions).foldl
      (register (·.name) fun name => { name := name }) ir.actions
    signals := (usedEvents ir.transitions).foldl (register (·.name) fun name => { name := name })
      ir.signals }

/-- The `id` of a machine that has none. -/
def defaultId (ir : WholeIr) : String :=
  computeDeterministicId (ir.name ++ if ir.package = "" then "" else "_" ++ ir.package)

/-- The first half of `canonicalize`, before the interfaces are synchronised. -/
def sortDeclared (ir : WholeIr) : WholeIr :=
  { ir with
    toFsmIr := canonicalize ir.toFsmIr
    id := if ir.id = "" then defaultId ir else ir.id
    signals := stableSort (fun a b => a.name < b.name) ir.signals
    customTypes := stableSort (fun a b => a.name < b.name) ir.customTypes }

/-- Guards and actions are sorted after they are synchronised. -/
def sortUsed (ir : WholeIr) : WholeIr :=
  { ir with
    guards := stableSort (fun a b => a.name < b.name) ir.guards
    actions := stableSort (fun a b => a.name < b.name) ir.actions }

/-- `rebuild_adjacency_indices` of a whole machine. -/
def reindex (ir : WholeIr) : WholeIr := { ir with toFsmIr := rebuildAdjacencyIndices ir.toFsmIr }

/-- `canonicalize`; names are distinct, so `std::sort` is the stable sort. -/
def canonicalizeWhole (ir : WholeIr) : WholeIr := reindex (sortUsed (syncInterfaces (sortDeclared ir)))

/-! ## The canonical form -/

/-- A transition whose guard text is the text of its structured guard. -/
def GuardSynced (t : TransitionEdge) : Prop :=
  match t.guardAst with
  | some ast => t.guard = some ast.toCpp
  | none => t.guard.getD "" = ""

/-- What a canonical machine is. -/
structure Canonical (ir : WholeIr) : Prop where
  states : ir.states.Pairwise fun a b => a.fqn ≤ b.fqn
  ports : ir.ports.Pairwise fun a b => a.name ≤ b.name
  signals : ir.signals.Pairwise fun a b => a.name ≤ b.name
  vars : ir.vars.Pairwise fun a b => a.name ≤ b.name
  customTypes : ir.customTypes.Pairwise fun a b => a.name ≤ b.name
  properties : ir.properties.Pairwise fun a b => a.name ≤ b.name
  guards : ir.guards.Pairwise fun a b => a.name ≤ b.name
  actions : ir.actions.Pairwise fun a b => a.name ≤ b.name
  guardText : ∀ t ∈ ir.transitions, GuardSynced t
  indexed : Indexed ir.toFsmIr

/-- Once is enough, and once makes it canonical. -/
def Canonicalises (ir : WholeIr) : Prop :=
  canonicalizeWhole (canonicalizeWhole ir) = canonicalizeWhole ir ∧ Canonical (canonicalizeWhole ir)

/-- The events that are used without being declared as signals, in the order of the transitions. -/
def undeclaredEvents (ir : WholeIr) : List String :=
  missing (ir.signals.map (·.name)) (usedEvents (sortTransitionsByPriority ir.transitions))

/-- The undeclared events are used in alphabetical order, and no declared signal comes after one. -/
def EventsInOrder (ir : WholeIr) : Prop :=
  (∀ s ∈ ir.signals, ∀ event ∈ undeclaredEvents ir, s.name ≤ event) ∧
    (undeclaredEvents ir).Pairwise (· ≤ ·)

/-! ## Sorting what is sorted -/

variable (t : TransitionEdge) (ts : List TransitionEdge) (ir : WholeIr)

theorem sourceOrder_cons (ts : List TransitionEdge) (source : String) :
    sourceOrder (t :: ts) source = if t.source = source then 0 else sourceOrder ts source + 1 := by
  unfold sourceOrder
  rw [List.map_cons, List.idxOf_cons]
  by_cases h : t.source = source
  · simp [h]
  · rw [if_neg h, beq_false_of_ne h]
    rfl

theorem sourceOrder_lt {rank : String → ℕ} {ts : List TransitionEdge}
    (h : ts.Pairwise fun a b => rank a.source ≤ rank b.source) {a b : TransitionEdge} (ha : a ∈ ts)
    (hlt : rank a.source < rank b.source) : sourceOrder ts a.source < sourceOrder ts b.source := by
  induction ts with
  | nil => exact absurd ha List.not_mem_nil
  | cons t ts ih =>
    obtain ⟨ht, hts⟩ := List.pairwise_cons.mp h
    rw [sourceOrder_cons, sourceOrder_cons]
    by_cases hta : t.source = a.source
    · have htb : t.source ≠ b.source := by
        rw [hta]
        exact fun heq => absurd hlt (by rw [heq]; exact Nat.lt_irrefl _)
      rw [if_pos hta, if_neg htb]
      exact Nat.succ_pos _
    · have ha : a ∈ ts := (List.mem_cons.mp ha).resolve_left fun heq => hta (by rw [heq])
      have htb : t.source ≠ b.source := by
        intro heq
        have hle := ht a ha
        rw [heq] at hle
        exact absurd hlt (Nat.not_lt.mpr hle)
      rw [if_neg hta, if_neg htb]
      exact Nat.succ_lt_succ (ih hts ha)

/-- The order of the sources is that of the sorted rows too, so sorting them again changes nothing. -/
theorem sortTransitionsByPriority_idem :
    sortTransitionsByPriority (sortTransitionsByPriority ts) = sortTransitionsByPriority ts := by
  have hsorted : (sortTransitionsByPriority ts).Pairwise fun a b =>
      toLex (sourceOrder ts a.source, precedence a.priority) ≤
        toLex (sourceOrder ts b.source, precedence b.priority) := by
    rw [sortTransitionsByPriority_eq]
    exact pairwise_sortByKey
  have hrank : (sortTransitionsByPriority ts).Pairwise fun a b =>
      sourceOrder ts a.source ≤ sourceOrder ts b.source := by
    refine hsorted.imp fun {a b} hab => ?_
    rcases (Prod.Lex.toLex_le_toLex).mp hab with hlt | ⟨heq, -⟩
    · exact hlt.le
    · exact heq.le
  apply stableSort_of_pairwise
  refine hsorted.imp_of_mem fun {a b} ha hb hab => ?_
  have hats : a ∈ ts := mem_stableSort.mp ha
  unfold byPriority
  rcases (Prod.Lex.toLex_le_toLex).mp hab with hlt | ⟨heq, hle⟩
  · have hne : b.source ≠ a.source := fun heq => absurd hlt (by simp [heq])
    rw [if_pos hne]
    exact decide_eq_false (Nat.not_lt.mpr (sourceOrder_lt hrank ha hlt).le)
  · have heq : a.source = b.source := sourceOrder_inj hats heq
    rw [if_neg (by simp [heq])]
    exact decide_eq_false (Nat.not_lt.mpr hle)

theorem syncGuard_idem : syncGuard (syncGuard t) = syncGuard t := by
  unfold syncGuard
  cases t.guardAst with
  | some ast => rfl
  | none =>
    cases t.guard with
    | none => rfl
    | some text => by_cases htext : text = "" <;> simp [htext, GuardAstNode.toCpp]

theorem guardSynced_syncGuard : GuardSynced (syncGuard t) := by
  unfold GuardSynced syncGuard
  cases t.guardAst with
  | some ast => rfl
  | none =>
    cases t.guard with
    | none => rfl
    | some text => by_cases htext : text = "" <;> simp [htext, GuardAstNode.toCpp]

theorem sortTransitionsByPriority_map_syncGuard :
    sortTransitionsByPriority (ts.map syncGuard) = (sortTransitionsByPriority ts).map syncGuard := by
  have hsources : (ts.map syncGuard).map (·.source) = ts.map (·.source) := by
    rw [List.map_map]
    rfl
  unfold sortTransitionsByPriority stableSort
  refine (List.map_mergeSort fun a _ b _ => ?_).symm
  unfold byPriority sourceOrder
  rw [hsources]
  rfl

theorem canonicalize_transitions (ir : FsmIr) :
    (canonicalize ir).transitions = (sortTransitionsByPriority ir.transitions).map syncGuard :=
  sortTransitionsByPriority_map_syncGuard ir.transitions

/-- What canonicalising leaves as it is. -/
structure Settled (ir : FsmIr) : Prop where
  initialStateId : ir.initialStateId = "" → ir.initialState = ""
  transitions : sortTransitionsByPriority (ir.transitions.map syncGuard) = ir.transitions
  states : ir.states.Pairwise fun a b => a.fqn ≤ b.fqn
  ports : ir.ports.Pairwise fun a b => a.name ≤ b.name
  vars : ir.vars.Pairwise fun a b => a.name ≤ b.name
  properties : ir.properties.Pairwise fun a b => a.name ≤ b.name

theorem Settled.canonicalize_eq {ir : FsmIr} (h : Settled ir) : canonicalize ir = ir := by
  have hinitial : (if ir.initialStateId = "" then ir.initialState else ir.initialStateId) =
      ir.initialStateId := by
    split
    · next hempty => rw [h.initialStateId hempty, hempty]
    · rfl
  unfold canonicalize
  rw [hinitial, h.transitions, (stableSort_eq_self_iff StateNode.fqn _).mpr h.states,
    (stableSort_eq_self_iff PortDefinition.name _).mpr h.ports,
    (stableSort_eq_self_iff VariableDefinition.name _).mpr h.vars,
    (stableSort_eq_self_iff FormalProperty.name _).mpr h.properties]

theorem settled_canonicalize (ir : FsmIr) : Settled (canonicalize ir) where
  initialStateId := by
    show (if _ then _ else _) = "" → ir.initialState = ""
    split
    · exact id
    · next h => exact fun hempty => absurd hempty h
  transitions := by
    rw [sortTransitionsByPriority_map_syncGuard, canonicalize_transitions,
      sortTransitionsByPriority_map_syncGuard, sortTransitionsByPriority_idem, List.map_map]
    exact List.map_congr_left fun t _ => syncGuard_idem t
  states := pairwise_stableSort StateNode.fqn _
  ports := pairwise_stableSort PortDefinition.name _
  vars := pairwise_stableSort VariableDefinition.name _
  properties := pairwise_stableSort FormalProperty.name _

theorem Settled.relisted {ir ir' : FsmIr} (h : Settled ir) (hlists : Relisted ir ir') : Settled ir' := by
  have hstates : ir'.states.Pairwise fun a b => a.fqn ≤ b.fqn := by
    have hpairwise : (ir'.states.map unlisted).Pairwise fun a b => a.fqn ≤ b.fqn := by
      rw [hlists.states, List.pairwise_map]
      exact h.states
    exact (List.pairwise_map (f := unlisted)).mp hpairwise
  rw [hlists.rest]
  exact ⟨h.initialStateId, h.transitions, hstates, h.ports, h.vars, h.properties⟩

/-! ## One round is enough -/

theorem defaultId_ne_empty : defaultId ir ≠ "" := by
  intro h
  have hlist := congrArg String.toList h
  unfold defaultId computeDeterministicId at hlist
  rw [String.toList_append] at hlist
  exact absurd hlist (by simp)

theorem signals_canonicalizeWhole :
    (canonicalizeWhole ir).signals = stableSort (fun a b => a.name < b.name) ir.signals ++
      (undeclaredEvents ir).map fun name => { name := name } := by
  have hevents : usedEvents (canonicalize ir.toFsmIr).transitions =
      usedEvents (sortTransitionsByPriority ir.transitions) := by
    rw [canonicalize_transitions]
    unfold usedEvents
    rw [List.map_map]
    rfl
  show (usedEvents (canonicalize ir.toFsmIr).transitions).foldl _ _ = _
  rw [foldl_register (fun _ => rfl), hevents]
  unfold undeclaredEvents
  congr 2
  apply missing_congr
  intro name
  show name ∈ (stableSort _ ir.signals).map _ ↔ _
  simp only [List.mem_map, mem_stableSort]

theorem signals_sorted_iff :
    (canonicalizeWhole ir).signals.Pairwise (fun a b => a.name ≤ b.name) ↔ EventsInOrder ir := by
  rw [signals_canonicalizeWhole, List.pairwise_append, List.pairwise_map]
  unfold EventsInOrder
  simp only [mem_stableSort, List.mem_map, forall_exists_index, and_imp, forall_apply_eq_imp_iff₂]
  have hsorted := pairwise_stableSort SignalDefinition.name ir.signals
  exact ⟨fun h => ⟨h.2.2, h.2.1⟩, fun h => ⟨hsorted, h.2, h.1⟩⟩

theorem sortDeclared_canonicalizeWhole {ir : WholeIr} (h : EventsInOrder ir) :
    sortDeclared (canonicalizeWhole ir) = canonicalizeWhole ir := by
  have hsettled : Settled (canonicalizeWhole ir).toFsmIr := by
    have hbefore : Settled (sortUsed (syncInterfaces (sortDeclared ir))).toFsmIr :=
      ⟨(settled_canonicalize ir.toFsmIr).initialStateId, (settled_canonicalize ir.toFsmIr).transitions,
        (settled_canonicalize ir.toFsmIr).states, (settled_canonicalize ir.toFsmIr).ports,
        (settled_canonicalize ir.toFsmIr).vars, (settled_canonicalize ir.toFsmIr).properties⟩
    exact hbefore.relisted (relisted_rebuildAdjacencyIndices _)
  have hid : (canonicalizeWhole ir).id ≠ "" := by
    show (if ir.id = "" then defaultId ir else ir.id) ≠ ""
    split
    · exact defaultId_ne_empty ir
    · assumption
  have hsignals : stableSort (fun a b => a.name < b.name) (canonicalizeWhole ir).signals =
      (canonicalizeWhole ir).signals :=
    (stableSort_eq_self_iff SignalDefinition.name _).mpr ((signals_sorted_iff ir).mpr h)
  have htypes : stableSort (fun a b => a.name < b.name) (canonicalizeWhole ir).customTypes =
      (canonicalizeWhole ir).customTypes :=
    (stableSort_eq_self_iff TypeDefinition.name _).mpr (pairwise_stableSort _ _)
  unfold sortDeclared
  rw [hsettled.canonicalize_eq, if_neg hid, hsignals, htypes]

theorem syncInterfaces_canonicalizeWhole :
    syncInterfaces (canonicalizeWhole ir) = canonicalizeWhole ir := by
  let used := syncInterfaces (sortDeclared ir)
  have hrelisted : Relisted (sortUsed used).toFsmIr (canonicalizeWhole ir).toFsmIr :=
    relisted_rebuildAdjacencyIndices _
  have htransitions : (canonicalizeWhole ir).transitions = (sortDeclared ir).transitions :=
    hrelisted.transitions
  have hhooks : (canonicalizeWhole ir).states.flatMap hookActions =
      (sortDeclared ir).states.flatMap hookActions := by
    have hunlisted : ∀ states : List StateNode,
        states.flatMap hookActions = (states.map unlisted).flatMap hookActions := by
      intro states
      rw [List.flatMap_map]
      rfl
    rw [hunlisted, hrelisted.states, ← hunlisted]
    rfl
  have hguardNames : (canonicalizeWhole ir).guards = stableSort (fun a b => a.name < b.name) used.guards := by
    rw [hrelisted.rest]
    rfl
  have hguards : ((canonicalizeWhole ir).transitions.flatMap usedGuards).foldl
      (register (·.name) guardOfName) (canonicalizeWhole ir).guards = (canonicalizeWhole ir).guards := by
    apply foldl_register_of_mem fun _ => rfl
    intro name hname
    rw [htransitions] at hname
    rw [hguardNames]
    obtain ⟨g, hg, hgname⟩ := List.mem_map.mp
      (mem_keys_foldl (fun _ => rfl) hname (sortDeclared ir).guards : name ∈ used.guards.map (·.name))
    exact List.mem_map.mpr ⟨g, mem_stableSort.mpr hg, hgname⟩
  have hactions : ((canonicalizeWhole ir).transitions.flatMap transitionActions ++
      (canonicalizeWhole ir).states.flatMap hookActions).foldl
        (register (·.name) fun name => { name := name }) (canonicalizeWhole ir).actions =
      (canonicalizeWhole ir).actions := by
    apply foldl_register_of_mem fun _ => rfl
    intro name hname
    rw [htransitions, hhooks] at hname
    obtain ⟨a, ha, haname⟩ := List.mem_map.mp
      (mem_keys_foldl (fun _ => rfl) hname (sortDeclared ir).actions : name ∈ used.actions.map (·.name))
    exact List.mem_map.mpr ⟨a, mem_stableSort.mpr ha, haname⟩
  have hsignals : (usedEvents (canonicalizeWhole ir).transitions).foldl
      (register (·.name) fun name => { name := name }) (canonicalizeWhole ir).signals =
      (canonicalizeWhole ir).signals := by
    apply foldl_register_of_mem fun _ => rfl
    intro name hname
    rw [htransitions] at hname
    exact (mem_keys_foldl (fun _ => rfl) hname (sortDeclared ir).signals :
      name ∈ used.signals.map (·.name))
  unfold syncInterfaces
  rw [hguards, hactions, hsignals]

theorem canonical_canonicalizeWhole {ir : WholeIr} (h : EventsInOrder ir) : Canonical (canonicalizeWhole ir) := by
  have hrelisted : Relisted (sortUsed (syncInterfaces (sortDeclared ir))).toFsmIr
      (canonicalizeWhole ir).toFsmIr :=
    relisted_rebuildAdjacencyIndices _
  have hsettled : Settled (canonicalizeWhole ir).toFsmIr := by
    have hsame := sortDeclared_canonicalizeWhole h
    rw [← hsame]
    exact settled_canonicalize _
  have htransitions : (canonicalizeWhole ir).transitions = (canonicalize ir.toFsmIr).transitions :=
    hrelisted.transitions
  refine
    { states := hsettled.states
      ports := hsettled.ports
      signals := (signals_sorted_iff ir).mpr h
      vars := hsettled.vars
      customTypes := pairwise_stableSort TypeDefinition.name _
      properties := hsettled.properties
      guards := ?_
      actions := pairwise_stableSort ActionModel.name _
      guardText := ?_
      indexed := indexed_rebuildAdjacencyIndices _ }
  · rw [hrelisted.rest]
    exact pairwise_stableSort GuardModel.name _
  · intro t ht
    rw [htransitions, canonicalize_transitions] at ht
    obtain ⟨t', -, rfl⟩ := List.mem_map.mp ht
    exact guardSynced_syncGuard t'

/-- A machine that declares the signal `stop` and uses the event `go`. -/
def undeclaredGo : WholeIr :=
  { name := "drive"
    initialState := "Idle"
    states := [{ id := "Idle", name := "Idle", fqn := "Idle" }, { id := "Run", name := "Run", fqn := "Run" }]
    transitions := [
      { id := "t1", source := "Idle", target := "Run", event := "go" },
      { id := "t2", source := "Run", target := "Idle", event := "stop" }]
    signals := [{ name := "stop" }] }

end Fsmc.Ir
