/-
# Fsmc.Passes.HistoryLowering — replacing history nodes by a register and a choice.

A composite with history gets a register, which each of its sub-states sets when it is left, and a choice
with one branch for each direct sub-state. With deep history all descendants set the register, the direct
sub-state last, so that what the register holds in the end is the direct sub-state all the same. Which
composite a transition to a history node belongs to is decided by a search for its name in the target.
-/
import Fsmc.Ir.DeterministicId
import Fsmc.Ir.GraphOps
import Fsmc.Runtime.HistoryMemory
import Mathlib.Data.List.Infix

namespace Fsmc.Passes.HistoryLowering

open Fsmc.Ir Fsmc.Lib.Ancestry Fsmc.Runtime

/-! ## The pass -/

def isHistory (s : StateNode) : Bool := s.kind = .shallowHistory || s.kind = .deepHistory

/-- The history nodes of a composite. -/
def historyNodes (ir : FsmIr) (parent : String) : List StateNode :=
  ir.states.filter fun s => s.parentState = parent && isHistory s

def compositesWithHistory (ir : FsmIr) : List String :=
  (ir.states.filter fun s => s.hasHistory || s.hasDeepHistory ||
    s.isComposite && !(historyNodes ir s.name).isEmpty).map (·.name)

def historyVar (parent : String) : String := "__history_state_" ++ parent

def restoreName (parent : String) : String := parent ++ "_HistoryRestore"

def quoted (name : String) : String := "\"" ++ name ++ "\""

def isDeep (ir : FsmIr) (parent : String) : Bool :=
  (ir.findState parent).any (·.hasDeepHistory) ||
    (historyNodes ir parent).any fun s => s.kind = .deepHistory

def targetSubstates (ir : FsmIr) (parent : String) : List String :=
  (ir.states.filter fun s => s.parentState = parent && !isHistory s).map (·.name)

/-- Where the transitions lead that leave the history nodes of a composite. -/
def historyDefaults (ir : FsmIr) (parent : String) : List String :=
  (historyNodes ir parent).flatMap fun h =>
    (ir.transitions.filter fun t => t.source = h.name && t.target ≠ "").map (·.target)

/-- `default_substate`: the last target of a history node, or else the initial sub-state, or else the
first sub-state. -/
def defaultSubstate (ir : FsmIr) (parent : String) : String :=
  let default := (historyDefaults ir parent).getLast?.getD
    (((ir.findState parent).map (·.initialSubState)).getD "")
  if default = "" then (targetSubstates ir parent).head?.getD "" else default

def historyVariable (parent default : String) : VariableDefinition :=
  { name := historyVar parent, initialValue := quoted default }

def recordStore (parent name : String) : StoreOp :=
  { target := { name := historyVar parent }, expression := quoted name }

/-- `exit_sig`. -/
def recordAction (parent name : String) : ActionSignature :=
  { ActionSignature.ofName ("__record_history_" ++ name) with
    assignments := [{ target := { name := historyVar parent }, expression := quoted name }]
    instructions := [.store (recordStore parent name)] }

/-- `is_target`: a direct sub-state, or any descendant for deep history, that is no history node. -/
def isTarget (ir : FsmIr) (deep : Bool) (parent : String) (s : StateNode) : Bool :=
  (if deep then parent ∈ chain ir s.parentState else s.parentState = parent) && !isHistory s

/-- Attach the exit action. -/
def recordExit (ir : FsmIr) (deep : Bool) (parent : String) (s : StateNode) : StateNode :=
  if isTarget ir deep parent s then { s with exitActions := s.exitActions ++ [recordAction parent s.name] }
  else s

def restoreNode (parent : String) : StateNode where
  id := computeDeterministicId (restoreName parent)
  name := restoreName parent
  fqn := if parent = "" then restoreName parent else parent ++ "." ++ restoreName parent
  kind := .choice
  parentState := parent
  description := "Choice branch restoring recorded history substate"

/-- `branch` and `fallback`. -/
def restoreEdge (parent target guard : String) : TransitionEdge where
  id := computeDeterministicId (restoreName parent ++ "->" ++ target ++ ":[" ++ guard ++ "]")
  source := restoreName parent
  target := target
  sourceId := computeDeterministicId (restoreName parent)
  targetId := if target = "" then "" else computeDeterministicId target
  sourceIds := [restoreName parent]
  targetIds := if target = "" then [] else [target]
  guard := some guard
  guardAst := some { expression := guard }
  kind := .internal

def restoreGuard (parent name : String) : String := historyVar parent ++ " == " ++ quoted name

/-- The branches of the choice, the fallback last. -/
def restoreEdges (parent : String) (substates : List String) (default : String) : List TransitionEdge :=
  (substates.map fun name => restoreEdge parent name (restoreGuard parent name)) ++
    [restoreEdge parent default "else"]

def targetsHistory (ir : FsmIr) (parent : String) (t : TransitionEdge) : Bool :=
  t.targetIsHistory || t.targetIsDeepHistory ||
    (ir.findState t.target).any fun dst => isHistory dst && dst.parentState = parent

/-- The transitions that are redirected: the name of the composite is found in their target. -/
def captures (ir : FsmIr) (parent : String) (t : TransitionEdge) : Bool :=
  targetsHistory ir parent t && (t.target = parent || parent.toList <:+: t.target.toList)

def retarget (parent : String) (t : TransitionEdge) : TransitionEdge :=
  { t with
    target := restoreName parent
    targetId := computeDeterministicId (restoreName parent)
    targetIds := [restoreName parent]
    targetIsHistory := false
    targetIsDeepHistory := false }

/-- `has_history = false`, `has_deep_history = false`. -/
def clearHistory (s : StateNode) : StateNode := { s with hasHistory := false, hasDeepHistory := false }

/-- The turn of a composite; the exit actions depend on names, parents and kinds only. -/
def lowerComposite (ir : FsmIr) (parent : String) : FsmIr :=
  match ir.findState parent with
  | none => ir
  | some _ =>
    let deep := isDeep ir parent
    let default := defaultSubstate ir parent
    let cleared := ir.modifyState parent clearHistory
    let prepared : FsmIr :=
      { cleared with
        vars :=
          if ir.vars.any (fun v => v.name = historyVar parent) then ir.vars
          else ir.vars ++ [historyVariable parent default]
        states := cleared.states.map (recordExit ir deep parent) ++ [restoreNode parent]
        choiceNodes := ir.choiceNodes ++ [restoreName parent]
        transitions := ir.transitions ++ restoreEdges parent (targetSubstates ir parent) default }
    { prepared with
      transitions := prepared.transitions.map fun t =>
        if captures prepared parent t then retarget parent t else t }

/-- The machine after the turns of all composites. -/
def lowerAll (ir : FsmIr) : FsmIr := (compositesWithHistory ir).foldl lowerComposite ir

/-- `HistoryLoweringPass::run`. -/
def run (ir : FsmIr) : FsmIr :=
  if compositesWithHistory ir = [] then ir
  else { lowerAll ir with states := (lowerAll ir).states.filter fun s => !isHistory s }

/-! ## Machines that can be lowered -/

/-- A name that the pass does not make up. -/
def Plain (ir : FsmIr) (name : String) : Prop := ∀ P ∈ compositesWithHistory ir, name ≠ restoreName P

/-- The names that the pass makes up are not in use, history nodes have no children and nothing enters
them by default, a default sub-state is a child, and the default of a composite is inside it. -/
structure Regular (ir : FsmIr) : Prop where
  acyclic : Acyclic ir
  names : (ir.states.map (·.name)).Nodup
  named : ∀ n ∈ ir.states, n.name ≠ ""
  plain : ∀ n ∈ ir.states, Plain ir n.name ∧ Plain ir n.parentState ∧ Plain ir n.initialSubState
  ends : ∀ t ∈ ir.transitions, Plain ir t.source ∧ Plain ir t.target
  initial : Plain ir ir.initialState
  leaves : ∀ n ∈ ir.states, ∀ h ∈ ir.states, isHistory h = true →
    n.parentState ≠ h.name ∧ n.initialSubState ≠ h.name
  direct : ∀ t ∈ ir.transitions, ∀ h ∈ ir.states, isHistory h = true → t.source = h.name →
    ∀ P ∈ compositesWithHistory ir, targetsHistory ir P t = false
  defaults : ∀ P ∈ compositesWithHistory ir,
    (∃ n, ir.findState (defaultSubstate ir P) = some n ∧ isHistory n = false) ∧
      P ∈ chain ir (defaultSubstate ir P)
  inside : ∀ n ∈ ir.states, n.initialSubState ≠ "" → parentOf ir n.initialSubState = some n.name
  unwritten : ∀ P ∈ compositesWithHistory ir, ∀ act ∈ actionsOf ir, ∀ node ∈ nodesOf act,
    historyVar P ∉ writesOf node
  undeclared : ∀ P ∈ compositesWithHistory ir, ∀ v ∈ ir.vars, v.name ≠ historyVar P

theorem restoreName_inj {P Q : String} (h : restoreName P = restoreName Q) : P = Q :=
  String.append_left_inj _ |>.mp h

theorem toList_historyVar (parent : String) : (historyVar parent).toList = "__history_state_".toList ++ parent.toList :=
  String.toList_append

theorem historyVar_inj {P Q : String} (h : historyVar P = historyVar Q) : P = Q :=
  String.append_right_inj _ |>.mp h

/-! ## After some turns -/

/-- What a composite's turn adds to the exit actions of a state. -/
def recordsOf (ir : FsmIr) (parents : List String) (s : StateNode) : List ActionSignature :=
  (parents.filter fun P => isTarget ir (isDeep ir P) P s).map fun P => recordAction P s.name

/-- A state before and after the turns of some composites. -/
structure Kept (ir : FsmIr) (parents : List String) (s s' : StateNode) : Prop where
  name : s'.name = s.name
  kind : s'.kind = s.kind
  parentState : s'.parentState = s.parentState
  initialSubState : s'.initialSubState = s.initialSubState
  entryActions : s'.entryActions = s.entryActions
  deep : s.name ∉ parents → s'.hasDeepHistory = s.hasDeepHistory
  exitActions : s'.exitActions = s.exitActions ++ recordsOf ir parents s

/-- A choice that a turn has added. -/
structure Added (parents : List String) (r : StateNode) : Prop where
  name : ∃ P ∈ parents, r.name = restoreName P ∧ r.parentState = P
  kind : r.kind = .choice
  entryActions : r.entryActions = []

/-- A transition after the turns: the first composite that captures it redirects it. -/
def redirect (ir : FsmIr) (parents : List String) (t : TransitionEdge) : TransitionEdge :=
  match parents.find? (captures ir · t) with
  | some P => retarget P t
  | none => t

/-- The branches of a composite's choice. -/
def edgesOf (ir : FsmIr) (P : String) : List TransitionEdge :=
  restoreEdges P (targetSubstates ir P) (defaultSubstate ir P)

/-- What a machine is after the turns of some composites. -/
structure Lowered (ir : FsmIr) (parents : List String) (m : FsmIr) : Prop where
  states : ∃ kept added, m.states = kept ++ added ∧ List.Forall₂ (Kept ir parents) ir.states kept ∧
    (∀ r ∈ added, Added parents r) ∧ ∀ P ∈ parents, ∃ r ∈ added, r.name = restoreName P
  transitions : m.transitions = ir.transitions.map (redirect ir parents) ++ parents.flatMap (edgesOf ir)
  vars : m.vars = ir.vars ++ parents.map fun P => historyVariable P (defaultSubstate ir P)
  initialState : m.initialState = ir.initialState

theorem Lowered.refl (ir : FsmIr) : Lowered ir [] ir where
  states := by
    refine ⟨ir.states, [], by simp, List.forall₂_same.mpr fun s _ => ?_, by simp, by simp⟩
    exact ⟨rfl, rfl, rfl, rfl, rfl, fun _ => rfl, by simp [recordsOf]⟩
  transitions := by
    have hsame : ir.transitions.map (redirect ir []) = ir.transitions :=
      List.map_id'' (fun _ => rfl) _
    simp [hsame]
  vars := by simp
  initialState := rfl

@[simp] theorem redirect_source (ir : FsmIr) (parents : List String) (t : TransitionEdge) :
    (redirect ir parents t).source = t.source := by
  unfold redirect
  split <;> rfl

theorem redirect_of_not {ir : FsmIr} {parents : List String} {t : TransitionEdge}
    (h : ∀ P ∈ parents, captures ir P t = false) : redirect ir parents t = t := by
  have hnone : parents.find? (captures ir · t) = none :=
    List.find?_eq_none.mpr fun P hP => by simp [h P hP]
  simp [redirect, hnone]

theorem edgesOf_source {ir : FsmIr} {P : String} {b : TransitionEdge} (h : b ∈ edgesOf ir P) :
    b.source = restoreName P := by
  unfold edgesOf restoreEdges at h
  simp only [List.mem_append, List.mem_map, List.mem_singleton] at h
  rcases h with ⟨name, -, rfl⟩ | rfl <;> rfl

namespace Lowered

variable {ir m : FsmIr} {parents : List String}

theorem findState_forall₂ {R : StateNode → StateNode → Prop} (hR : ∀ s s', R s s' → s'.name = s.name)
    {l l' : List StateNode} (h : List.Forall₂ R l l') (x : String) :
    (l.find? (fun s => s.name = x) = none ∧ l'.find? (fun s => s.name = x) = none) ∨
      ∃ n n', l.find? (fun s => s.name = x) = some n ∧ l'.find? (fun s => s.name = x) = some n' ∧
        R n n' := by
  induction h with
  | nil => exact .inl ⟨rfl, rfl⟩
  | @cons s s' l l' hs _ ih =>
    by_cases hx : s.name = x
    · have hx' : s'.name = x := (hR s s' hs).trans hx
      exact .inr ⟨s, s', by simp [hx], by simp [hx'], hs⟩
    · have hx' : s'.name ≠ x := fun h => hx ((hR s s' hs).symm.trans h)
      rw [List.find?_cons_of_neg (by simpa using hx), List.find?_cons_of_neg (by simpa using hx')]
      exact ih

variable {x : String}

theorem findState_plain (h : Lowered ir parents m) (hsub : parents ⊆ compositesWithHistory ir)
    (hx : Plain ir x) :
    (ir.findState x = none ∧ m.findState x = none) ∨
      ∃ n n', ir.findState x = some n ∧ m.findState x = some n' ∧ Kept ir parents n n' := by
  obtain ⟨kept, added, hstates, hkept, hadded, -⟩ := h.states
  have hrest : added.find? (fun s => s.name = x) = none := by
    apply List.find?_eq_none.mpr
    intro r hr
    obtain ⟨P, hP, hname, -⟩ := (hadded r hr).name
    have hne : r.name ≠ x := fun heq => hx P (hsub hP) (heq.symm.trans hname)
    simpa using hne
  have hfind : m.findState x = kept.find? fun s => s.name = x := by
    unfold FsmIr.findState
    rw [hstates, List.find?_append, hrest, Option.or_none]
  rw [hfind]
  exact findState_forall₂ (fun _ _ hs => hs.name) hkept x

theorem parentOf_plain (h : Lowered ir parents m) (hsub : parents ⊆ compositesWithHistory ir)
    (hx : Plain ir x) : parentOf m x = parentOf ir x := by
  unfold parentOf
  rcases h.findState_plain hsub hx with ⟨hir, hm⟩ | ⟨n, n', hir, hm, hkept⟩
  · rw [hir, hm]
  · rw [hir, hm, Option.map_some, Option.map_some, hkept.parentState]

theorem plain_chain (hir : Regular ir) (hx : Plain ir x) : ∀ y ∈ chain ir x, Plain ir y := by
  by_cases hempty : x = ""
  · simp [chain, hempty]
  · have hchain := isChain_chain hir.acyclic hempty
    generalize chain ir x = p at hchain ⊢
    induction hchain with
    | root _ => simpa using hx
    | cons hparent _ ih =>
      obtain ⟨n, hn, -, rfl, hne⟩ := parentOf_eq_some hparent
      intro y hy
      rcases List.mem_cons.mp hy with rfl | hy
      · exact hx
      · exact ih (hir.plain n hn).2.1 hne y hy

theorem chain_plain (h : Lowered ir parents m) (hsub : parents ⊆ compositesWithHistory ir)
    (hir : Regular ir) (hx : Plain ir x) : chain m x = chain ir x :=
  chain_congr hir.acyclic fun y hy => h.parentOf_plain hsub (plain_chain hir hx y hy)

theorem filter_states (h : Lowered ir parents m) {P : String} (hP : P ∉ parents)
    {p : StateNode → Bool} {β : Type*} {f : StateNode → β}
    (hp : ∀ s s', Kept ir parents s s' → p s' = p s ∧ f s' = f s)
    (hparent : ∀ s, p s = true → s.parentState = P) :
    (m.states.filter p).map f = (ir.states.filter p).map f := by
  obtain ⟨kept, added, hstates, hkept, hadded, -⟩ := h.states
  have hrest : added.filter p = [] := by
    apply List.filter_eq_nil_iff.mpr
    intro r hr hpr
    obtain ⟨Q, hQ, -, hQP⟩ := (hadded r hr).name
    exact hP ((hparent r hpr).symm.trans hQP ▸ hQ)
  rw [hstates, List.filter_append, hrest, List.append_nil]
  generalize ir.states = before at hkept ⊢
  clear hstates
  induction hkept with
  | nil => rfl
  | @cons s s' l l' hs _ ih =>
    obtain ⟨hsame, hf⟩ := hp s s' hs
    cases hps : p s with
    | true => simp [hsame, hps, hf, ih]
    | false => simp [hsame, hps, ih]

theorem isHistory_eq {s s' : StateNode} (h : Kept ir parents s s') : isHistory s' = isHistory s := by
  unfold isHistory
  rw [h.kind]

theorem isDeep_eq (h : Lowered ir parents m) (hsub : parents ⊆ compositesWithHistory ir) {P : String}
    (hP : P ∉ parents) (hplain : Plain ir P) : isDeep m P = isDeep ir P := by
  have hnodes : (historyNodes m P).any (fun s => s.kind = .deepHistory) =
      (historyNodes ir P).any fun s => s.kind = .deepHistory := by
    have hkinds : (historyNodes m P).map (·.kind) = (historyNodes ir P).map (·.kind) := by
      apply h.filter_states hP
      · intro s s' hs
        rw [isHistory_eq hs, hs.parentState]
        exact ⟨rfl, hs.kind⟩
      · intro s hs
        simp only [Bool.and_eq_true, decide_eq_true_eq] at hs
        exact hs.1
    have hany : ∀ l : List StateNode, (l.any fun s => s.kind = .deepHistory) =
        (l.map (·.kind)).any fun k => k = .deepHistory := fun l => by rw [List.any_map]; rfl
    rw [hany, hany, hkinds]
  unfold isDeep
  rw [hnodes]
  rcases h.findState_plain hsub hplain with ⟨hir, hm⟩ | ⟨n, n', hir, hm, hkept⟩
  · rw [hir, hm]
  · have hname : n.name ∉ parents := (FsmIr.findState_spec hir).2.symm ▸ hP
    rw [hir, hm]
    simp [hkept.deep hname]

theorem targetSubstates_eq (h : Lowered ir parents m) {P : String} (hP : P ∉ parents) :
    targetSubstates m P = targetSubstates ir P := by
  apply h.filter_states hP
  · intro s s' hs
    rw [isHistory_eq hs, hs.parentState]
    exact ⟨rfl, hs.name⟩
  · intro s hs
    simp only [Bool.and_eq_true, decide_eq_true_eq] at hs
    exact hs.1

theorem historyDefaults_eq (h : Lowered ir parents m) (hsub : parents ⊆ compositesWithHistory ir)
    (hir : Regular ir) {P : String} (hP : P ∉ parents) : historyDefaults m P = historyDefaults ir P := by
  have hnames : (historyNodes m P).map (·.name) = (historyNodes ir P).map (·.name) := by
    apply h.filter_states hP
    · intro s s' hs
      rw [isHistory_eq hs, hs.parentState]
      exact ⟨rfl, hs.name⟩
    · intro s hs
      simp only [Bool.and_eq_true, decide_eq_true_eq] at hs
      exact hs.1
  have hflat : ∀ (l : List StateNode) (ts : List TransitionEdge),
      (l.flatMap fun n => (ts.filter fun t => t.source = n.name && t.target ≠ "").map (·.target)) =
        (l.map (·.name)).flatMap fun name =>
          (ts.filter fun t => t.source = name && t.target ≠ "").map (·.target) := by
    intro l ts
    rw [List.flatMap_map]
  unfold historyDefaults
  rw [hflat, hflat, hnames]
  apply List.flatMap_congr
  intro name hname
  obtain ⟨n, hn, rfl⟩ := List.mem_map.mp hname
  obtain ⟨hmem, hfilter⟩ := List.mem_filter.mp hn
  have hhistory : isHistory n = true := by
    simp only [Bool.and_eq_true] at hfilter
    exact hfilter.2
  have hadded : (parents.flatMap (edgesOf ir)).filter (fun t => t.source = n.name && t.target ≠ "") = [] := by
    apply List.filter_eq_nil_iff.mpr
    intro b hb
    obtain ⟨Q, hQ, hb⟩ := List.mem_flatMap.mp hb
    have hne : b.source ≠ n.name := fun heq =>
      (hir.plain n hmem).1 Q (hsub hQ) (heq.symm.trans (edgesOf_source hb))
    simp [hne]
  have hkept : ∀ t ∈ ir.transitions, t.source = n.name → redirect ir parents t = t := by
    intro t ht hsource
    apply redirect_of_not
    intro Q hQ
    simp [captures, hir.direct t ht n hmem hhistory hsource Q (hsub hQ)]
  rw [h.transitions, List.filter_append, hadded, List.append_nil, List.filter_map]
  have hsame : ir.transitions.filter
      ((fun t => decide (t.source = n.name) && decide (t.target ≠ "")) ∘ redirect ir parents) =
        ir.transitions.filter fun t => t.source = n.name && t.target ≠ "" := by
    apply List.filter_congr
    intro t ht
    by_cases hsource : t.source = n.name
    · simp [hkept t ht hsource]
    · simp [hsource]
  rw [hsame, List.map_map]
  apply List.map_congr_left
  intro t ht
  obtain ⟨ht, hsource⟩ := List.mem_filter.mp ht
  simp only [Bool.and_eq_true, decide_eq_true_eq] at hsource
  rw [Function.comp_apply, hkept t ht hsource.1]

theorem defaultSubstate_eq (h : Lowered ir parents m) (hsub : parents ⊆ compositesWithHistory ir)
    (hir : Regular ir) {P : String} (hP : P ∉ parents) (hplain : Plain ir P) :
    defaultSubstate m P = defaultSubstate ir P := by
  have hinitial : ((m.findState P).map (·.initialSubState)).getD "" =
      ((ir.findState P).map (·.initialSubState)).getD "" := by
    rcases h.findState_plain hsub hplain with ⟨hnone, hm⟩ | ⟨n, n', hsome, hm, hkept⟩
    · rw [hnone, hm]
    · rw [hsome, hm, Option.map_some, Option.map_some, hkept.initialSubState]
  unfold defaultSubstate
  rw [h.historyDefaults_eq hsub hir hP, h.targetSubstates_eq hP, hinitial]

theorem isTarget_eq (h : Lowered ir parents m) (hsub : parents ⊆ compositesWithHistory ir)
    (hir : Regular ir) {s s' : StateNode} (hs : s ∈ ir.states) (hkept : Kept ir parents s s')
    (deep : Bool) (P : String) : isTarget m deep P s' = isTarget ir deep P s := by
  unfold isTarget
  rw [isHistory_eq hkept, hkept.parentState, h.chain_plain hsub hir (hir.plain s hs).2.1]

theorem findState_restoreName (h : Lowered ir parents m) (hsub : parents ⊆ compositesWithHistory ir)
    (hir : Regular ir) {P : String} (hP : P ∈ parents) :
    ∃ r, m.findState (restoreName P) = some r ∧ r.kind = .choice := by
  obtain ⟨kept, added, hstates, hkept, hadded, hall⟩ := h.states
  have hbefore : kept.find? (fun s => s.name = restoreName P) = none := by
    rcases findState_forall₂ (fun _ _ hs => hs.name) hkept (restoreName P) with ⟨-, hnone⟩ | hsome
    · exact hnone
    · obtain ⟨n, -, hn, -⟩ := hsome
      have hmem := List.mem_of_find?_eq_some hn
      have hname : n.name = restoreName P := by simpa using List.find?_some hn
      exact absurd hname ((hir.plain n hmem).1 P (hsub hP))
  obtain ⟨r, hr, hname⟩ := hall P hP
  have hfound : (added.find? fun s => s.name = restoreName P).isSome = true :=
    List.find?_isSome.mpr ⟨r, hr, by simpa using hname⟩
  obtain ⟨r', hr'⟩ := Option.isSome_iff_exists.mp hfound
  refine ⟨r', ?_, (hadded r' (List.mem_of_find?_eq_some hr')).kind⟩
  unfold FsmIr.findState
  rw [hstates, List.find?_append, hbefore, Option.none_or, hr']

end Lowered

/-! ## One turn -/

section Turn

variable {ir m : FsmIr} {parents : List String} {P : String}

theorem modifyFirst_append {α : Type*} {p : α → Bool} {f : α → α} {l r : List α}
    (h : l.any p = true) : modifyFirst p f (l ++ r) = modifyFirst p f l ++ r := by
  induction l with
  | nil => simp at h
  | cons a l ih =>
    rw [List.cons_append]
    unfold modifyFirst
    cases ha : p a with
    | true => simp
    | false =>
      rw [List.any_cons, ha, Bool.false_or] at h
      simp [ih h]

theorem recordExit_kept (m : FsmIr) (deep : Bool) (P : String) (s : StateNode) :
    (recordExit m deep P s).name = s.name ∧ (recordExit m deep P s).kind = s.kind ∧
      (recordExit m deep P s).parentState = s.parentState ∧
      (recordExit m deep P s).initialSubState = s.initialSubState ∧
      (recordExit m deep P s).entryActions = s.entryActions ∧
      (recordExit m deep P s).hasDeepHistory = s.hasDeepHistory := by
  unfold recordExit
  split <;> exact ⟨rfl, rfl, rfl, rfl, rfl, rfl⟩

theorem Kept.recordExit (h : Lowered ir parents m) (hsub : parents ⊆ compositesWithHistory ir)
    (hir : Regular ir) {s s' : StateNode} (hs : s ∈ ir.states) (hkept : Kept ir parents s s') :
    Kept ir (parents ++ [P]) s (recordExit m (isDeep ir P) P s') := by
  obtain ⟨hname, hkind, hparent, hinitial, hentry, hdeep⟩ :=
    recordExit_kept m (isDeep ir P) P s'
  refine ⟨hname.trans hkept.name, hkind.trans hkept.kind, hparent.trans hkept.parentState,
    hinitial.trans hkept.initialSubState, hentry.trans hkept.entryActions, fun hnot => ?_, ?_⟩
  · exact hdeep.trans (hkept.deep fun hmem => hnot (List.mem_append_left _ hmem))
  · unfold HistoryLowering.recordExit recordsOf
    rw [h.isTarget_eq hsub hir hs hkept]
    cases htarget : isTarget ir (isDeep ir P) P s with
    | true => simp [htarget, hkept.exitActions, hkept.name, recordsOf]
    | false => simp [htarget, hkept.exitActions, recordsOf]

theorem Kept.clearHistory {s s' : StateNode} (hname : s'.name = P)
    (hkept : Kept ir (parents ++ [P]) s s') : Kept ir (parents ++ [P]) s (clearHistory s') :=
  ⟨hkept.name, hkept.kind, hkept.parentState, hkept.initialSubState, hkept.entryActions,
    fun hnot => absurd (by simp [← hname, hkept.name]) hnot, hkept.exitActions⟩

theorem recordExit_clearHistory (deep : Bool) (s : StateNode) :
    recordExit m deep P (clearHistory s) = clearHistory (recordExit m deep P s) := by
  unfold recordExit
  have hsame : isTarget m deep P (clearHistory s) = isTarget m deep P s := rfl
  rw [hsame]
  split <;> rfl

variable {l l' : List StateNode} {b : TransitionEdge}

theorem forall₂_records (h : Lowered ir parents m) (hsub : parents ⊆ compositesWithHistory ir)
    (hir : Regular ir) (hl : ∀ s ∈ l, s ∈ ir.states)
    (hkept : List.Forall₂ (Kept ir parents) l l') :
    List.Forall₂ (Kept ir (parents ++ [P])) l (l'.map (recordExit m (isDeep ir P) P)) := by
  induction hkept with
  | nil => exact .nil
  | @cons s s' l l' hs _ ih =>
    exact .cons (Kept.recordExit h hsub hir (hl s List.mem_cons_self) hs)
      (ih fun s hs => hl s (List.mem_cons_of_mem _ hs))

theorem forall₂_turn (h : Lowered ir parents m) (hsub : parents ⊆ compositesWithHistory ir)
    (hir : Regular ir) (hl : ∀ s ∈ l, s ∈ ir.states)
    (hkept : List.Forall₂ (Kept ir parents) l l') :
    List.Forall₂ (Kept ir (parents ++ [P])) l
      ((modifyFirst (fun s => s.name = P) clearHistory l').map (recordExit m (isDeep ir P) P)) := by
  induction hkept with
  | nil => exact .nil
  | @cons s s' l l' hs hrest ih =>
    have hhead := Kept.recordExit (P := P) h hsub hir (hl s List.mem_cons_self) hs
    unfold modifyFirst
    split
    · next hname =>
        rw [List.map_cons, recordExit_clearHistory]
        refine .cons (Kept.clearHistory ?_ hhead) ?_
        · rw [(recordExit_kept m _ P s').1]
          simpa using hname
        · exact forall₂_records h hsub hir (fun s hs => hl s (List.mem_cons_of_mem _ hs)) hrest
    · rw [List.map_cons]
      exact .cons hhead (ih fun s hs => hl s (List.mem_cons_of_mem _ hs))

theorem Added.mono {r : StateNode} (h : Added parents r) {parents' : List String}
    (hsub : parents ⊆ parents') : Added parents' r := by
  obtain ⟨Q, hQ, hname⟩ := h.name
  exact ⟨⟨Q, hsub hQ, hname⟩, h.kind, h.entryActions⟩

theorem exists_of_mem_composites (hP : P ∈ compositesWithHistory ir) : ∃ n ∈ ir.states, n.name = P := by
  obtain ⟨n, hn, rfl⟩ := List.mem_map.mp hP
  exact ⟨n, (List.mem_filter.mp hn).1, rfl⟩

theorem plain_of_mem_composites (hir : Regular ir) (hP : P ∈ compositesWithHistory ir) : Plain ir P := by
  obtain ⟨n, hn, rfl⟩ := exists_of_mem_composites hP
  exact (hir.plain n hn).1

theorem states_turn (h : Lowered ir parents m) (hsub : parents ⊆ compositesWithHistory ir)
    (hir : Regular ir) (hP : P ∈ compositesWithHistory ir) :
    ∃ kept added,
      ((m.modifyState P clearHistory).states.map (recordExit m (isDeep ir P) P) ++ [restoreNode P]) =
        kept ++ added ∧ List.Forall₂ (Kept ir (parents ++ [P])) ir.states kept ∧
          (∀ r ∈ added, Added (parents ++ [P]) r) ∧
            ∀ Q ∈ parents ++ [P], ∃ r ∈ added, r.name = restoreName Q := by
  obtain ⟨kept, added, hstates, hkept, hadded, hall⟩ := h.states
  have hfound : kept.any (fun s => s.name = P) = true := by
    obtain ⟨n, hn, hname⟩ := exists_of_mem_composites hP
    rcases Lowered.findState_forall₂ (fun _ _ hs => hs.name) hkept P with ⟨hnone, -⟩ | hsome
    · exact absurd hname (by simpa using List.find?_eq_none.mp hnone n hn)
    · obtain ⟨-, n', -, hn', -⟩ := hsome
      have hname' := List.find?_some hn'
      exact List.any_eq_true.mpr ⟨n', List.mem_of_find?_eq_some hn', hname'⟩
  refine ⟨(modifyFirst (fun s => s.name = P) clearHistory kept).map (recordExit m (isDeep ir P) P),
    added.map (recordExit m (isDeep ir P) P) ++ [restoreNode P], ?_,
    forall₂_turn h hsub hir (fun _ hs => hs) hkept, ?_, ?_⟩
  · show (modifyFirst _ clearHistory m.states).map _ ++ _ = _
    rw [hstates, modifyFirst_append hfound, List.map_append, List.append_assoc]
  · intro r hr
    rcases List.mem_append.mp hr with hr | hr
    · obtain ⟨r', hr', rfl⟩ := List.mem_map.mp hr
      obtain ⟨hname, hkind, hparent, -, hentry, -⟩ := recordExit_kept m (isDeep ir P) P r'
      have hold := (hadded r' hr').mono (List.subset_append_left parents [P])
      refine ⟨?_, hkind.trans hold.kind, hentry.trans hold.entryActions⟩
      rw [hname, hparent]
      exact hold.name
    · rw [List.mem_singleton] at hr
      subst hr
      exact ⟨⟨P, by simp, rfl, rfl⟩, rfl, rfl⟩
  · intro Q hQ
    rcases List.mem_append.mp hQ with hQ | hQ
    · obtain ⟨r, hr, hname⟩ := hall Q hQ
      exact ⟨_, List.mem_append_left _ (List.mem_map_of_mem hr), (recordExit_kept m _ P r).1.trans hname⟩
    · rw [List.mem_singleton] at hQ
      subst hQ
      exact ⟨_, List.mem_append_right _ (List.mem_singleton_self _), rfl⟩

theorem edgesOf_target (hir : Regular ir) (hP : P ∈ compositesWithHistory ir)
    (hb : b ∈ edgesOf ir P) :
    b.targetIsHistory = false ∧ b.targetIsDeepHistory = false ∧
      ∃ n, ir.findState b.target = some n ∧ isHistory n = false := by
  unfold edgesOf restoreEdges at hb
  simp only [List.mem_append, List.mem_map, List.mem_singleton] at hb
  rcases hb with ⟨name, hname, rfl⟩ | rfl
  · obtain ⟨n, hn, rfl⟩ := List.mem_map.mp hname
    obtain ⟨hmem, hfilter⟩ := List.mem_filter.mp hn
    simp only [Bool.and_eq_true, Bool.not_eq_true'] at hfilter
    exact ⟨rfl, rfl, n, FsmIr.findState_name hir.names hmem, hfilter.2⟩
  · exact ⟨rfl, rfl, (hir.defaults P hP).1⟩

theorem Lowered.captures_branch (h : Lowered ir parents m) (hsub : parents ⊆ compositesWithHistory ir)
    (hir : Regular ir) {Q : String} (hQ : Q ∈ parents) (hb : b ∈ edgesOf ir Q) :
    captures m P b = false := by
  obtain ⟨hflag, hdeepFlag, n, hn, hhistory⟩ := edgesOf_target hir (hsub hQ) hb
  have hplain : Plain ir b.target := by
    obtain ⟨hmem, hname⟩ := FsmIr.findState_spec hn
    exact hname ▸ (hir.plain n hmem).1
  have hnot : targetsHistory m P b = false := by
    unfold targetsHistory
    rcases h.findState_plain hsub hplain with ⟨hnone, -⟩ | ⟨n', n'', hn', hn'', hkept⟩
    · rw [hn] at hnone
      cases hnone
    · rw [hn] at hn'
      cases hn'
      rw [hn'', hflag, hdeepFlag]
      simp [Lowered.isHistory_eq hkept, hhistory]
  rw [captures, hnot]
  rfl

theorem Lowered.captures_retarget (h : Lowered ir parents m) (hsub : parents ⊆ compositesWithHistory ir)
    (hir : Regular ir) {Q : String} (hQ : Q ∈ parents) (t : TransitionEdge) :
    captures m P (retarget Q t) = false := by
  obtain ⟨r, hr, hkind⟩ := h.findState_restoreName hsub hir hQ
  have hnone : ((m.findState (restoreName Q)).any fun dst =>
      isHistory dst && dst.parentState = P) = false := by
    rw [hr]
    simp [isHistory, hkind]
  show ((false || false || (m.findState (restoreName Q)).any _) && _) = false
  rw [hnone]
  rfl

theorem Lowered.captures_eq (h : Lowered ir parents m) (hsub : parents ⊆ compositesWithHistory ir)
    (hir : Regular ir) {t : TransitionEdge} (ht : t ∈ ir.transitions) :
    captures m P t = captures ir P t := by
  unfold captures targetsHistory
  rcases h.findState_plain hsub (hir.ends t ht).2 with ⟨hnone, hnone'⟩ | ⟨n, n', hn, hn', hkept⟩
  · rw [hnone, hnone']
  · rw [hn, hn', Option.any_some, Option.any_some, Lowered.isHistory_eq hkept, hkept.parentState]

theorem Lowered.map_captures (h : Lowered ir (parents ++ [P]) m)
    (hsub : parents ++ [P] ⊆ compositesWithHistory ir) (hir : Regular ir) :
    ((ir.transitions.map (redirect ir parents) ++ parents.flatMap (edgesOf ir) ++ edgesOf ir P).map
      fun t => if captures m P t then retarget P t else t) =
      ir.transitions.map (redirect ir (parents ++ [P])) ++ (parents ++ [P]).flatMap (edgesOf ir) := by
  have hedge : ∀ t ∈ ir.transitions,
      (if captures m P (redirect ir parents t) then retarget P (redirect ir parents t)
        else redirect ir parents t) = redirect ir (parents ++ [P]) t := by
    intro t ht
    unfold redirect
    rw [List.find?_append]
    cases hcapture : parents.find? (captures ir · t) with
    | some Q =>
      have hQ : Q ∈ parents ++ [P] := List.mem_append_left _ (List.mem_of_find?_eq_some hcapture)
      simp [h.captures_retarget (P := P) hsub hir hQ t]
    | none =>
      have hsame := h.captures_eq (P := P) hsub hir ht
      cases hP : captures ir P t <;> simp [hsame, hP]
  have hall : parents.flatMap (edgesOf ir) ++ edgesOf ir P = (parents ++ [P]).flatMap (edgesOf ir) := by
    simp
  rw [List.append_assoc, hall, List.map_append, List.map_map,
    List.map_congr_left (f := (fun t => if captures m P t then retarget P t else t) ∘
      redirect ir parents) hedge]
  congr 1
  conv_rhs => rw [← List.map_id ((parents ++ [P]).flatMap (edgesOf ir))]
  apply List.map_congr_left
  intro b hb
  obtain ⟨Q, hQ, hb⟩ := List.mem_flatMap.mp hb
  simp [h.captures_branch (P := P) hsub hir hQ hb]

theorem Lowered.undeclared (h : Lowered ir parents m) (hir : Regular ir)
    (hP : P ∈ compositesWithHistory ir) (hnew : P ∉ parents) :
    m.vars.any (fun v => v.name = historyVar P) = false := by
  apply List.any_eq_false.mpr
  intro v hv
  rw [h.vars] at hv
  rcases List.mem_append.mp hv with hv | hv
  · simpa using hir.undeclared P hP v hv
  · obtain ⟨Q, hQ, rfl⟩ := List.mem_map.mp hv
    have hne : historyVar Q ≠ historyVar P := fun heq => hnew (historyVar_inj heq ▸ hQ)
    show decide (historyVar Q = historyVar P) ≠ true
    simpa using hne

theorem Lowered.turn (h : Lowered ir parents m) (hsub : parents ⊆ compositesWithHistory ir)
    (hir : Regular ir) (hP : P ∈ compositesWithHistory ir) (hnew : P ∉ parents) :
    Lowered ir (parents ++ [P]) (lowerComposite m P) := by
  have hplain := plain_of_mem_composites hir hP
  have hsub' : parents ++ [P] ⊆ compositesWithHistory ir := by
    intro Q hQ
    rcases List.mem_append.mp hQ with hQ | hQ
    · exact hsub hQ
    · rw [List.mem_singleton.mp hQ]
      exact hP
  obtain ⟨n, hn⟩ : ∃ n, m.findState P = some n := by
    obtain ⟨n, hn, hname⟩ := exists_of_mem_composites hP
    rcases h.findState_plain hsub hplain with ⟨hnone, -⟩ | ⟨-, n', -, hn', -⟩
    · rw [← hname, FsmIr.findState_name hir.names hn] at hnone
      cases hnone
    · exact ⟨n', hn'⟩
  -- what the invariant says the machine is afterwards
  let final : FsmIr :=
    { m with
      vars := m.vars ++ [historyVariable P (defaultSubstate ir P)]
      states := (m.modifyState P clearHistory).states.map (recordExit m (isDeep ir P) P) ++ [restoreNode P]
      choiceNodes := m.choiceNodes ++ [restoreName P]
      transitions := ir.transitions.map (redirect ir (parents ++ [P])) ++
        (parents ++ [P]).flatMap (edgesOf ir) }
  have hfinal : Lowered ir (parents ++ [P]) final :=
    ⟨states_turn h hsub hir hP, rfl, by simp [final, h.vars], h.initialState⟩
  have hlower : lowerComposite m P =
      { final with
        transitions := (m.transitions ++ edgesOf ir P).map fun t =>
          if captures final P t then retarget P t else t } := by
    unfold lowerComposite
    rw [hn]
    simp only [h.isDeep_eq hsub hnew hplain, h.defaultSubstate_eq hsub hir hnew hplain,
      h.targetSubstates_eq hnew, h.undeclared hir hP hnew]
    rfl
  rw [hlower, h.transitions, hfinal.map_captures hsub' hir]
  exact hfinal

theorem lowered_lowerAll (hir : Regular ir) : Lowered ir (compositesWithHistory ir) (lowerAll ir) := by
  have hnodup : (compositesWithHistory ir).Nodup :=
    hir.names.sublist ((List.filter_sublist).map _)
  have hfold : ∀ (rest done : List String) (m : FsmIr), done ++ rest = compositesWithHistory ir →
      Lowered ir done m → Lowered ir (compositesWithHistory ir) (rest.foldl lowerComposite m) := by
    intro rest
    induction rest with
    | nil =>
      intro done m hsplit h
      rw [List.append_nil] at hsplit
      exact hsplit ▸ h
    | cons P rest ih =>
      intro done m hsplit h
      have hsub : done ⊆ compositesWithHistory ir := hsplit ▸ List.subset_append_left _ _
      have hP : P ∈ compositesWithHistory ir := by simp [← hsplit]
      have hnew : P ∉ done := fun hmem =>
        (List.nodup_append.mp (hsplit ▸ hnodup)).2.2 P hmem P List.mem_cons_self rfl
      exact ih (done ++ [P]) _ (by simp [hsplit]) (h.turn hsub hir hP hnew)
  exact hfold _ [] ir rfl (.refl ir)

end Turn

end Fsmc.Passes.HistoryLowering
