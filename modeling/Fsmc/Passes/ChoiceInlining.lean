/-
# Fsmc.Passes.ChoiceInlining — replacing a choice by compositions of its edges.

The pass composes each transition into a choice with each branch out of it and drops the choice. A
branch without a guard, or guarded by `else`, becomes an edge that only keeps the guard of the
transition it is composed with, so its place among the branches decides what it shadows.
-/
import Fsmc.Ir.DeterministicId
import Fsmc.Lib.DecisionList
import Fsmc.Runtime.Dispatch
import Mathlib.Data.List.Flatten

namespace Fsmc.Passes.ChoiceInlining

open Fsmc.Ir Fsmc.Runtime Fsmc.Lib.DecisionList

/-! ## The pass -/

/-- Append a name that is not yet listed. -/
def pushNew (names : List String) (name : String) : List String :=
  if name ∈ names then names else names ++ [name]

/-- `choice_names`: the choice nodes and then the states that are choices or junctions. -/
def choiceNames (ir : FsmIr) : List String :=
  let pseudoStates := ir.states.filter fun s => s.kind = .choice || s.kind = .junction
  (ir.choiceNodes ++ pseudoStates.map (·.name)).foldl pushNew []

def isElse (guard : Option String) : Bool :=
  match guard with
  | none => true
  | some text => text = "" || text = "else" || text = "otherwise" || text = "default"

/-- The text of a conjunction of two guards. -/
def andGuard (a b : String) : String := "fsm::and_<" ++ a ++ ", " ++ b ++ ">"

def combineGuards (inGuard outGuard : Option String) : Option String :=
  let combined :=
    if !isElse inGuard && !isElse outGuard then andGuard (inGuard.getD "") (outGuard.getD "")
    else if !isElse outGuard then outGuard.getD ""
    else if !isElse inGuard then inGuard.getD ""
    else ""
  if combined ≠ "" then some combined else none

def combineNames (inAct outAct : String) : String :=
  if inAct ≠ "" && outAct ≠ "" then inAct ++ "_" ++ outAct
  else if outAct ≠ "" then outAct
  else inAct

def actionAssignments (t : TransitionEdge) : List ActionAssignment :=
  (t.transitionAction.map (·.assignments)).getD []

/-- The action of a composite transition. -/
def combineActions (inEdge outEdge : TransitionEdge) : Option ActionSignature :=
  let combinedActName := combineNames inEdge.getAction outEdge.getAction
  if inEdge.transitionAction.isSome || outEdge.transitionAction.isSome then
    some { name := if combinedActName = "" then "InlinedAction" else combinedActName,
           assignments := actionAssignments inEdge ++ actionAssignments outEdge }
  else if combinedActName ≠ "" then some (.ofName combinedActName)
  else none

/-- The composition of a transition into a choice with a branch out of it. -/
def composite (inEdge outEdge : TransitionEdge) : TransitionEdge :=
  let event := if inEdge.event = "" then outEdge.event else inEdge.event
  let guard := combineGuards inEdge.guard outEdge.guard
  { id := computeDeterministicId
      (inEdge.source ++ "->" ++ outEdge.target ++ ":" ++ event ++ "[" ++ guard.getD "" ++ "]")
    source := inEdge.source
    sourceIds := inEdge.sourceIds
    target := outEdge.target
    targetIds := outEdge.targetIds
    event := event
    trigger := inEdge.trigger
    targetIsHistory := outEdge.targetIsHistory
    targetIsDeepHistory := outEdge.targetIsDeepHistory
    kind := .external
    priority := if 0 < outEdge.priority then outEdge.priority else inEdge.priority
    guard := guard
    transitionAction := combineActions inEdge outEdge }

/-- The transitions into a choice. -/
def incoming (choice : String) (transitions : List TransitionEdge) : List TransitionEdge :=
  transitions.filter fun t => t.target = choice

/-- The branches of a choice; an edge from the choice to itself is an incoming one. -/
def outgoing (choice : String) (transitions : List TransitionEdge) : List TransitionEdge :=
  transitions.filter fun t => t.target ≠ choice && t.source = choice

def inlinedEdges (inc out : List TransitionEdge) : List TransitionEdge :=
  inc.flatMap fun i => out.map (composite i)

/-- Whether a choice is inlined: it is entered and left. -/
def inlines (choice : String) (transitions : List TransitionEdge) : Bool :=
  !(incoming choice transitions).isEmpty && !(outgoing choice transitions).isEmpty

/-- The transitions after a choice is inlined. -/
def inlineChoice (choice : String) (transitions : List TransitionEdge) : List TransitionEdge :=
  (transitions.filter fun t => !(t.target = choice || t.source = choice)) ++
    inlinedEdges (incoming choice transitions) (outgoing choice transitions)

/-- One turn of the loop over the choices. -/
def inlineStep (acc : FsmIr × Bool) (choice : String) : FsmIr × Bool :=
  if inlines choice acc.1.transitions then
    ({ acc.1 with
        transitions := inlineChoice choice acc.1.transitions
        states := acc.1.states.filter fun s => s.name ≠ choice
        choiceNodes := acc.1.choiceNodes.filter fun c => c ≠ choice }, true)
  else acc

def run (ir : FsmIr) : FsmIr × Bool :=
  if choiceNames ir = [] then (ir, true) else (choiceNames ir).foldl inlineStep (ir, false)

/-! ## The inlined transitions of one incoming transition -/

/-- One turn of the loop, for the transitions of the machine and those made from one of them. -/
def trackStep (acc : List TransitionEdge × List TransitionEdge) (choice : String) :
    List TransitionEdge × List TransitionEdge :=
  if inlines choice acc.1 then
    (inlineChoice choice acc.1,
      (acc.2.filter fun t => t.target ≠ choice) ++
        inlinedEdges (incoming choice acc.2) (outgoing choice acc.1))
  else acc

/-- What the pass makes of one incoming transition. -/
def inlinedFrom (ir : FsmIr) (t : TransitionEdge) : List TransitionEdge :=
  ((choiceNames ir).foldl trackStep (ir.transitions, [t])).2

/-! ## What a transition does -/

/-- The effects that a transition can carry; the name of an action only labels it. -/
inductive Effect where
  | conditionAction (action : ActionSignature)
  | assignment (a : ActionAssignment)
  | instruction (node : ActionAstNode)
  | clockReset (clock : String)
  deriving DecidableEq, Repr

def actionInstructions (t : TransitionEdge) : List ActionAstNode :=
  (t.transitionAction.map (·.instructions)).getD []

/-- The effects of a transition, in order. -/
def effects (t : TransitionEdge) : List Effect :=
  t.conditionAction.toList.map .conditionAction ++ (actionAssignments t).map .assignment ++
    (actionInstructions t).map .instruction ++ t.clockResets.map .clockReset

/-- A valuation under which a composed guard is the conjunction that its text says. -/
def RespectsAnd (v : GuardValuation) : Prop :=
  ∀ a b, v (andGuard a b) = (v a && v b)

/-- Whether a transition can be passed; `else` and its synonyms are no guard. -/
def passes (v : GuardValuation) (t : TransitionEdge) : Bool :=
  isElse t.guard || v (t.guard.getD "")

/-- The first branch that is true, the `else` branch only when no other is. -/
def firstTrueBranch (v : GuardValuation) (branches : List TransitionEdge) :
    Option TransitionEdge :=
  (branches.find? fun b => !isElse b.guard && passes v b).or
    (branches.find? fun b => isElse b.guard)

/-- The transitions that leave a name, when it is a choice. -/
def branches (choices : List String) (transitions : List TransitionEdge) (name : String) :
    List TransitionEdge :=
  if name ∈ choices then transitions.filter fun t => t.source = name else []

/-- Transitions as edges that lead to names; `none` is where an incoming transition starts. -/
def edges (v : GuardValuation) : Edges (Option String) TransitionEdge Effect where
  tgt t := some t.target
  ok := passes v
  eff := effects
  compose := composite

/-- The table of branches, with the transitions `start` at the start. -/
def table (choices : List String) (transitions start : List TransitionEdge) :
    Option String → List TransitionEdge
  | none => start
  | some name => branches choices transitions name

/-- Where a transition into a choice leads, and what it executes on the way. -/
def Resolves (ir : FsmIr) (v : GuardValuation) (t : TransitionEdge)
    (o : Edges.Outcome (Option String) Effect) : Prop :=
  (edges v).Settles (firstTrueBranch v) (table (choiceNames ir) ir.transitions [t]) none o

/-! ## Guards and effects of a composition -/

theorem isElse_eq_false {guard : Option String} (h : isElse guard = false) :
    ∃ text, guard = some text ∧ text ≠ "" := by
  cases guard with
  | none => simp [isElse] at h
  | some text =>
    refine ⟨text, rfl, ?_⟩
    rintro rfl
    simp [isElse] at h

@[simp] theorem isElse_andGuard (a b : String) : isElse (some (andGuard a b)) = false := by
  have hlong : 10 ≤ (andGuard a b).length := by
    have hhead : "fsm::and_<".length = 10 := rfl
    show 10 ≤ ("fsm::and_<" ++ a ++ ", " ++ b ++ ">").length
    simp only [String.length_append, hhead]
    omega
  have hne : ∀ text : String, text.length < 10 → andGuard a b ≠ text := by
    intro text hshort heq
    rw [heq] at hlong
    omega
  simp [isElse, hne "" (by decide), hne "else" (by decide), hne "otherwise" (by decide),
    hne "default" (by decide)]

variable {v : GuardValuation}

theorem passes_composite (hv : RespectsAnd v) (i o : TransitionEdge) :
    passes v (composite i o) = (passes v i && passes v o) := by
  unfold passes
  show (isElse (combineGuards i.guard o.guard) || v ((combineGuards i.guard o.guard).getD "")) = _
  unfold combineGuards
  cases hi : isElse i.guard with
  | true =>
    cases ho : isElse o.guard with
    | true => simp [isElse]
    | false =>
      obtain ⟨text, htext, hne⟩ := isElse_eq_false ho
      rw [htext] at ho
      simp [htext, hne, ho]
  | false =>
    obtain ⟨text, htext, hne⟩ := isElse_eq_false hi
    rw [htext] at hi
    cases ho : isElse o.guard with
    | true => simp [htext, hne, hi]
    | false =>
      obtain ⟨text', htext', hne'⟩ := isElse_eq_false ho
      have hand : andGuard text text' ≠ "" := by
        intro heq
        have hlen := isElse_andGuard text text'
        simp [heq, isElse] at hlen
      simp [htext, htext', hand, hv text text']

theorem actionAssignments_composite (i o : TransitionEdge) :
    actionAssignments (composite i o) = actionAssignments i ++ actionAssignments o := by
  show (((combineActions i o).map (·.assignments)).getD []) = _
  unfold combineActions actionAssignments
  cases hi : i.transitionAction with
  | some a => simp
  | none =>
    cases ho : o.transitionAction with
    | some a => simp
    | none =>
      by_cases hname : combineNames i.getAction o.getAction = "" <;>
        simp [hname, ActionSignature.ofName]

theorem actionInstructions_composite (i o : TransitionEdge) : actionInstructions (composite i o) = [] := by
  show (((combineActions i o).map (·.instructions)).getD []) = _
  unfold combineActions
  dsimp only
  split
  · rfl
  · split <;> rfl

/-- A transition whose effects are all kept: only assignments are copied into a composition. -/
def lossless (t : TransitionEdge) : Bool :=
  t.conditionAction.isNone && (actionInstructions t).isEmpty && t.clockResets.isEmpty

theorem effects_composite_eq (i o : TransitionEdge) : effects (composite i o) =
      (actionAssignments i ++ actionAssignments o).map .assignment := by
  have hcond : (composite i o).conditionAction = none := rfl
  have hresets : (composite i o).clockResets = [] := rfl
  simp [effects, hcond, hresets, actionAssignments_composite, actionInstructions_composite]

theorem lossless_composite (i o : TransitionEdge) : lossless (composite i o) = true := by
  have hcond : (composite i o).conditionAction = none := rfl
  have hresets : (composite i o).clockResets = [] := rfl
  simp [lossless, hcond, hresets, actionInstructions_composite]

theorem effects_composite_iff (i o : TransitionEdge) :
    effects (composite i o) = effects i ++ effects o ↔ lossless i = true ∧ lossless o = true := by
  rw [effects_composite_eq]
  refine ⟨?_, ?_⟩
  · intro h
    have hlen := congrArg List.length h
    simp only [effects, List.length_map, List.length_append] at hlen
    have hzero : ∀ t, t.conditionAction.toList.length = 0 → (actionInstructions t).length = 0 →
        t.clockResets.length = 0 → lossless t = true := by
      intro t hc hi hr
      rw [List.length_eq_zero_iff] at hc hi hr
      have hc' : t.conditionAction = none := by
        cases hca : t.conditionAction with
        | none => rfl
        | some a => simp [hca] at hc
      simp [lossless, hc', hi, hr]
    refine ⟨hzero i ?_ ?_ ?_, hzero o ?_ ?_ ?_⟩ <;> omega
  · rintro ⟨hi, ho⟩
    simp only [lossless, Bool.and_eq_true, List.isEmpty_iff, Option.isNone_iff_eq_none] at hi ho
    simp [effects, hi.1.1, hi.1.2, hi.2, ho.1.1, ho.1.2, ho.2]

theorem edges_lawful (hv : RespectsAnd v) : (edges v).Lawful :=
  ⟨fun _ _ => rfl, passes_composite hv⟩

/-! ## One turn of the loop -/

/-- What the loop keeps of the transitions and of those made from one of them. -/
structure Tracked (choices : List String) (rank : String → ℕ)
    (transitions made : List TransitionEdge) : Prop where
  nonempty : made ≠ []
  sub : ∀ d ∈ made, d ∈ transitions
  source : ∀ d ∈ made, d.source ∉ choices
  chainLast : ∀ n, ∀ b ∈ (table choices transitions made n).dropLast, b.target ∉ choices
  acyclic : ∀ b ∈ transitions, b.source ∈ choices → b.target ∈ choices →
    rank b.target < rank b.source
  lossless : ∀ t ∈ transitions, ∀ b ∈ transitions, t.target ∈ choices → b.source = t.target →
    lossless t = true ∧ lossless b = true

variable {choices : List String} {rank : String → ℕ} {transitions made : List TransitionEdge}
  {choice : String}

variable {b : TransitionEdge} {t : TransitionEdge} {o : Edges.Outcome (Option String) Effect}

theorem mem_inlinedEdges {inc out : List TransitionEdge} :
    b ∈ inlinedEdges inc out ↔ ∃ i ∈ inc, ∃ o ∈ out, composite i o = b := by
  simp [inlinedEdges]

theorem filter_source_inlinedEdges (inc out : List TransitionEdge) (name : String) :
    ((inlinedEdges inc out).filter fun t => t.source = name) =
      inlinedEdges (inc.filter fun t => t.source = name) out := by
  induction inc with
  | nil => rfl
  | cons i inc ih =>
    have hi : ((out.map (composite i)).filter fun t => t.source = name) =
        if i.source = name then out.map (composite i) else [] := by
      rw [List.filter_map]
      have hfun : ((fun t : TransitionEdge => decide (t.source = name)) ∘ composite i) =
          fun _ => decide (i.source = name) := rfl
      rw [hfun]
      by_cases hname : i.source = name <;> simp [hname]
    unfold inlinedEdges at ih ⊢
    rw [List.flatMap_cons, List.filter_append, hi, ih]
    by_cases hname : i.source = name <;> simp [hname]

theorem filter_source_inlineChoice {name : String} (hne : name ≠ choice) :
    ((inlineChoice choice transitions).filter fun t => t.source = name) =
      ((transitions.filter fun t => t.source = name).filter fun t => t.target ≠ choice) ++
        inlinedEdges (incoming choice (transitions.filter fun t => t.source = name))
          (outgoing choice transitions) := by
  rw [inlineChoice, List.filter_append, filter_source_inlinedEdges]
  congr 1
  · rw [List.filter_filter, List.filter_filter]
    apply List.filter_congr
    intro t _
    by_cases hs : t.source = name
    · simp [hs, hne]
    · simp [hs]
  · rw [incoming, incoming, List.filter_filter, List.filter_filter]
    congr 1
    exact List.filter_congr fun t _ => Bool.and_comm _ _

theorem mem_incoming :
    t ∈ incoming choice transitions ↔ t ∈ transitions ∧ t.target = choice := by
  simp [incoming]

theorem mem_outgoing : t ∈ outgoing choice transitions ↔
      t ∈ transitions ∧ t.target ≠ choice ∧ t.source = choice := by
  simp [outgoing]

theorem mem_inlineChoice : b ∈ inlineChoice choice transitions ↔
      (b ∈ transitions ∧ b.target ≠ choice ∧ b.source ≠ choice) ∨
        ∃ i ∈ transitions, i.target = choice ∧ ∃ o ∈ transitions,
          (o.target ≠ choice ∧ o.source = choice) ∧ composite i o = b := by
  simp [inlineChoice, mem_inlinedEdges, mem_incoming, mem_outgoing, and_assoc]

namespace Tracked

variable (h : Tracked choices rank transitions made)
include h

theorem target_ne {b : TransitionEdge} (hb : b ∈ transitions) (hsource : b.source ∈ choices) :
    b.target ≠ b.source := by
  intro heq
  have hlt := h.acyclic b hb hsource (heq ▸ hsource)
  rw [heq] at hlt
  exact lt_irrefl _ hlt

theorem onlyLast (v : GuardValuation) (n : Option String) :
    (edges v).OnlyLast (fun name => ∃ c ∈ choices, name = some c)
      (table choices transitions made n) := by
  rintro b hb ⟨c, hc, heq⟩
  have htarget : b.target = c := Option.some.inj heq
  exact h.chainLast n b hb (htarget ▸ hc)

theorem outgoing_eq (hchoice : choice ∈ choices) :
    outgoing choice transitions = branches choices transitions choice := by
  rw [outgoing, branches, if_pos hchoice]
  apply List.filter_congr
  intro b hb
  by_cases hs : b.source = choice
  · have hne : b.target ≠ choice := hs ▸ h.target_ne hb (hs ▸ hchoice)
    simp [hs, hne]
  · simp [hs]

theorem table_trackStep (v : GuardValuation) (hchoice : choice ∈ choices) {n : Option String}
    (hn : n ≠ some choice) (hinl : inlines choice transitions = true) :
    table choices (trackStep (transitions, made) choice).1
        (trackStep (transitions, made) choice).2 n =
      (edges v).splice (some choice) (table choices transitions made (some choice))
        (table choices transitions made n) := by
  have honly : (edges v).OnlyLast (· = some choice) (table choices transitions made n) :=
    (h.onlyLast v n).mono fun _ heq => ⟨choice, hchoice, heq⟩
  rw [← Edges.filter_append_eq_splice honly]
  have hstep : trackStep (transitions, made) choice =
      (inlineChoice choice transitions, (made.filter fun t => t.target ≠ choice) ++
        inlinedEdges (incoming choice made) (outgoing choice transitions)) := by
    simp [trackStep, hinl]
  rw [hstep]
  have hout : table choices transitions made (some choice) = outgoing choice transitions :=
    (h.outgoing_eq hchoice).symm
  rw [hout]
  cases n with
  | none => simp [table, edges, incoming, inlinedEdges]
  | some name =>
    have hne : name ≠ choice := fun heq => hn (congrArg some heq)
    by_cases hname : name ∈ choices
    · simp only [table, branches, if_pos hname]
      rw [filter_source_inlineChoice hne]
      simp [edges, incoming, inlinedEdges]
    · simp [table, branches, hname]

theorem branches_inlineChoice (hchoice : choice ∈ choices) :
    branches choices (inlineChoice choice transitions) choice = [] := by
  rw [branches, if_pos hchoice, List.filter_eq_nil_iff]
  intro b hb
  rcases mem_inlineChoice.mp hb with ⟨-, -, hs⟩ | ⟨i, hi, hit, o, -, -, rfl⟩
  · simpa using hs
  · have hs : (composite i o).source = i.source := rfl
    have hne : i.source ≠ choice := by
      intro heq
      exact h.target_ne hi (heq ▸ hchoice) (hit.trans heq.symm)
    simpa [hs] using hne

theorem trackStep (hchoice : choice ∈ choices) : Tracked choices rank (trackStep (transitions, made) choice).1
      (trackStep (transitions, made) choice).2 := by
  by_cases hinl : inlines choice transitions = true
  · have htable := fun n (hn : n ≠ some choice) =>
      h.table_trackStep (fun _ => true) hchoice hn hinl
    have hstep : ChoiceInlining.trackStep (transitions, made) choice =
        (inlineChoice choice transitions, (made.filter fun t => t.target ≠ choice) ++
          inlinedEdges (incoming choice made) (outgoing choice transitions)) := by
      simp [ChoiceInlining.trackStep, hinl]
    have hlaw : (edges fun _ => true).Lawful := edges_lawful fun _ _ => rfl
    rw [hstep] at htable ⊢
    refine ⟨?_, ?_, ?_, ?_, ?_, ?_⟩
    · have hmade := htable none (by simp)
      show table choices (inlineChoice choice transitions) _ none ≠ []
      rw [hmade]
      apply Edges.splice_ne_nil ?_ h.nonempty
      show branches choices transitions choice ≠ []
      rw [← h.outgoing_eq hchoice]
      intro hnil
      simp [inlines, hnil] at hinl
    · intro d hd
      rw [mem_inlineChoice]
      rcases List.mem_append.mp hd with hd | hd
      · obtain ⟨hdm, hdt⟩ := List.mem_filter.mp hd
        have hds : d.source ≠ choice := fun heq => h.source d hdm (heq ▸ hchoice)
        exact Or.inl ⟨h.sub d hdm, by simpa using hdt, hds⟩
      · obtain ⟨i, hi, o, ho, rfl⟩ := mem_inlinedEdges.mp hd
        obtain ⟨him, hit⟩ := mem_incoming.mp hi
        obtain ⟨hol, ho⟩ := mem_outgoing.mp ho
        exact Or.inr ⟨i, h.sub i him, hit, o, hol, ho, rfl⟩
    · intro d hd
      rcases List.mem_append.mp hd with hd | hd
      · exact h.source d (List.mem_of_mem_filter hd)
      · obtain ⟨i, hi, o, -, rfl⟩ := mem_inlinedEdges.mp hd
        exact h.source i (mem_incoming.mp hi).1
    · intro n b hb hbc
      by_cases hn : n = some choice
      · subst hn
        have hnil := h.branches_inlineChoice hchoice
        simp only [table] at hb
        rw [hnil] at hb
        simp at hb
      · rw [htable n hn] at hb
        exact (h.onlyLast _ n).splice hlaw (h.onlyLast _ (some choice)) ⟨choice, hchoice, rfl⟩ b hb
          ⟨b.target, hbc, rfl⟩
    · intro b hb hbs hbt
      rcases mem_inlineChoice.mp hb with ⟨hb, -, -⟩ | ⟨i, hi, hit, o, ho, ⟨-, hos⟩, rfl⟩
      · exact h.acyclic b hb hbs hbt
      · have hfirst : rank i.target < rank i.source := h.acyclic i hi hbs (hit ▸ hchoice)
        have hsecond : rank o.target < rank o.source := h.acyclic o ho (hos ▸ hchoice) hbt
        rw [hit] at hfirst
        rw [hos] at hsecond
        exact hsecond.trans hfirst
    · intro t ht b hb htc hbt
      rcases mem_inlineChoice.mp ht with ⟨ht, -, -⟩ | ⟨i, hi, hit, o, ho, ⟨-, hos⟩, rfl⟩
      · rcases mem_inlineChoice.mp hb with ⟨hb, -, -⟩ | ⟨i', hi', -, o', -, -, rfl⟩
        · exact h.lossless t ht b hb htc hbt
        · exact ⟨(h.lossless t ht i' hi' htc hbt).1, lossless_composite i' o'⟩
      · refine ⟨lossless_composite i o, ?_⟩
        rcases mem_inlineChoice.mp hb with ⟨hb, -, -⟩ | ⟨i', -, -, o', -, -, rfl⟩
        · exact (h.lossless o ho b hb htc hbt).2
        · exact lossless_composite i' o'
  · simpa [ChoiceInlining.trackStep, hinl] using h

theorem settles_trackStep {v : GuardValuation} (hv : RespectsAnd v) (hchoice : choice ∈ choices)
    {o : Edges.Outcome (Option String) Effect}
    (hsettles : (edges v).Settles (edges v).first (table choices transitions made) none o) :
    (edges v).Settles (edges v).first
      (table choices (ChoiceInlining.trackStep (transitions, made) choice).1
        (ChoiceInlining.trackStep (transitions, made) choice).2) none o := by
  by_cases hinl : inlines choice transitions = true
  · have hout : table choices transitions made (some choice) = outgoing choice transitions :=
      (h.outgoing_eq hchoice).symm
    refine (hsettles.splice (c := some choice) (edges_lawful hv) ?_ ?_ ?_ ?_ ?_).1 (by simp)
    · rw [hout]
      intro hnil
      simp [inlines, hnil] at hinl
    · intro n hn
      exact h.table_trackStep v hchoice hn hinl
    · intro n
      exact (h.onlyLast v n).mono fun _ heq => ⟨choice, hchoice, heq⟩
    · intro e he heq
      rw [hout] at he
      exact (mem_outgoing.mp he).2.1 (Option.some.inj heq)
    · intro n x hx hxt e he
      rw [hout] at he
      obtain ⟨hel, -, hes⟩ := mem_outgoing.mp he
      have hxt' : x.target = choice := Option.some.inj hxt
      have hxl : x ∈ transitions := by
        cases n with
        | none => exact h.sub x hx
        | some name =>
          simp only [table, branches] at hx
          split at hx
          · exact List.mem_of_mem_filter hx
          · simp at hx
      exact (effects_composite_iff x e).mpr
        (h.lossless x hxl e hel (hxt' ▸ hchoice) (hes.trans hxt'.symm))
  · simpa [ChoiceInlining.trackStep, hinl] using hsettles

end Tracked

/-! ## The whole loop -/

/-- Nothing leads into a name, or nothing leaves it. -/
def Bypassed (transitions : List TransitionEdge) (name : String) : Prop :=
  (∀ b ∈ transitions, b.target ≠ name) ∨ ∀ b ∈ transitions, b.source ≠ name

theorem bypassed_trackStep_of_bypassed {name : String} (hby : Bypassed transitions name) :
    Bypassed (trackStep (transitions, made) choice).1 name := by
  by_cases hinl : inlines choice transitions = true
  · simp only [trackStep, hinl, if_true]
    rcases hby with htarget | hsource
    · left
      intro b hb
      rcases mem_inlineChoice.mp hb with ⟨hb, -, -⟩ | ⟨i, -, -, o, ho, -, rfl⟩
      · exact htarget b hb
      · exact htarget o ho
    · right
      intro b hb
      rcases mem_inlineChoice.mp hb with ⟨hb, -, -⟩ | ⟨i, hi, -, o, -, -, rfl⟩
      · exact hsource b hb
      · exact hsource i hi
  · simpa [trackStep, hinl] using hby

theorem bypassed_trackStep (h : Tracked choices rank transitions made)
    (hchoice : choice ∈ choices) : Bypassed (trackStep (transitions, made) choice).1 choice := by
  by_cases hinl : inlines choice transitions = true
  · simp only [trackStep, hinl, if_true]
    left
    intro b hb
    rcases mem_inlineChoice.mp hb with ⟨-, hbt, -⟩ | ⟨i, -, -, o, -, ⟨hot, -⟩, rfl⟩
    · exact hbt
    · exact hot
  · simp only [trackStep, hinl]
    simp only [inlines, Bool.and_eq_true, Bool.not_eq_true', not_and_or, Bool.not_eq_false,
      List.isEmpty_iff] at hinl
    rcases hinl with hin | hout
    · left
      intro b hb hbt
      have hmem : b ∈ incoming choice transitions := mem_incoming.mpr ⟨hb, hbt⟩
      simp [hin] at hmem
    · right
      intro b hb hbs
      have hne : b.target ≠ choice := hbs ▸ h.target_ne hb (hbs ▸ hchoice)
      have hmem : b ∈ outgoing choice transitions := mem_outgoing.mpr ⟨hb, hne, hbs⟩
      simp [hout] at hmem

theorem foldl_trackStep (hv : RespectsAnd v)
    (cs : List String) (hcs : ∀ c ∈ cs, c ∈ choices)
    (h : Tracked choices rank transitions made)
    (hsettles : (edges v).Settles (edges v).first (table choices transitions made) none o)
    {result : List TransitionEdge × List TransitionEdge}
    (hresult : cs.foldl trackStep (transitions, made) = result) :
    Tracked choices rank result.1 result.2 ∧
      (edges v).Settles (edges v).first (table choices result.1 result.2) none o ∧
      ∀ c, c ∈ cs ∨ Bypassed transitions c → Bypassed result.1 c := by
  induction cs generalizing transitions made with
  | nil =>
    subst hresult
    refine ⟨h, hsettles, ?_⟩
    rintro c (hc | hc)
    · simp at hc
    · exact hc
  | cons c cs ih =>
    have hc : c ∈ choices := hcs c List.mem_cons_self
    obtain ⟨htracked, hsettled, hby⟩ :=
      ih (fun d hd => hcs d (List.mem_cons_of_mem c hd)) (h.trackStep hc)
        (h.settles_trackStep hv hc hsettles) hresult
    refine ⟨htracked, hsettled, ?_⟩
    rintro d (hd | hd)
    · rcases List.mem_cons.mp hd with rfl | hd
      · exact hby d (Or.inr (bypassed_trackStep h hc))
      · exact hby d (Or.inl hd)
    · exact hby d (Or.inr (bypassed_trackStep_of_bypassed hd))

/-! ## The choice that is taken -/

/-- Where the first match among the inlined transitions leads, and what it executes. -/
def taken (v : GuardValuation) (inlined : List TransitionEdge) :
    Edges.Outcome (Option String) Effect :=
  (inlined.find? (passes v)).map fun d => (some d.target, effects d)

/-- For every incoming transition and valuation, the inlined transitions lead where the incoming
transition and the branches of the choices lead, with the same effects. -/
def PreservesChoices (ir : FsmIr) : Prop :=
  ∀ t ∈ ir.transitions, t.source ∉ choiceNames ir → ∀ v, RespectsAnd v →
    ∃ o, Resolves ir v t o ∧ taken v (inlinedFrom ir t) = o

/-- The machines whose choices can be inlined. -/
structure Inlinable (ir : FsmIr) : Prop where
  /-- The `else` branch of a choice is declared after the guarded ones. -/
  elseLast : ∀ c ∈ choiceNames ir, (branches (choiceNames ir) ir.transitions c).Pairwise
    fun a b => isElse a.guard = true → isElse b.guard = true
  /-- A branch that leads to a further choice is the last of its choice. -/
  chainLast : ∀ c ∈ choiceNames ir, ∀ b ∈ (branches (choiceNames ir) ir.transitions c).dropLast,
    b.target ∉ choiceNames ir
  /-- No choice leads back to itself. -/
  acyclic : ∃ rank : String → ℕ, ∀ b ∈ ir.transitions, b.source ∈ choiceNames ir →
    b.target ∈ choiceNames ir → rank b.target < rank b.source
  /-- Composed transitions carry no condition action, instruction or clock reset. -/
  lossless : ∀ t ∈ ir.transitions, ∀ b ∈ ir.transitions, t.target ∈ choiceNames ir →
    b.source = t.target → lossless t = true ∧ lossless b = true

theorem firstTrueBranch_eq {bs : List TransitionEdge}
    (h : bs.Pairwise fun a b => isElse a.guard = true → isElse b.guard = true) :
    firstTrueBranch v bs = bs.find? (passes v) := by
  induction bs with
  | nil => rfl
  | cons b bs ih =>
    obtain ⟨hb, hbs⟩ := List.pairwise_cons.mp h
    by_cases helse : isElse b.guard = true
    · have hnone : bs.find? (fun b => !isElse b.guard && passes v b) = none := by
        rw [List.find?_eq_none]
        intro c hc
        simp [hb c hc helse]
      have hpass : passes v b = true := by simp [passes, helse]
      rw [firstTrueBranch, List.find?_cons_of_neg (by simp [helse]), hnone, Option.none_or]
      simp [helse, hpass]
    · have hpass : passes v b = v (b.guard.getD "") := by simp [passes, helse]
      by_cases hv : v (b.guard.getD "") = true
      · simp [firstTrueBranch, helse, hpass, hv]
      · have ih' := ih hbs
        simp only [firstTrueBranch] at ih' ⊢
        simpa [helse, hpass, hv] using ih'

theorem tracked_start {ir : FsmIr} {rank : String → ℕ} (h : Inlinable ir)
    (hrank : ∀ b ∈ ir.transitions, b.source ∈ choiceNames ir → b.target ∈ choiceNames ir →
      rank b.target < rank b.source)
    (ht : t ∈ ir.transitions) (hsource : t.source ∉ choiceNames ir) :
    Tracked (choiceNames ir) rank ir.transitions [t] where
  nonempty := by simp
  sub := by simpa using ht
  source := by simpa using hsource
  chainLast := by
    intro n b hb
    cases n with
    | none => simp [table] at hb
    | some c =>
      by_cases hc : c ∈ choiceNames ir
      · exact h.chainLast c hc b hb
      · simp [table, branches, hc] at hb
  acyclic := hrank
  lossless := h.lossless

theorem exists_resolves {ir : FsmIr} (v : GuardValuation) {rank : String → ℕ}
    (hrank : ∀ b ∈ ir.transitions, b.source ∈ choiceNames ir → b.target ∈ choiceNames ir →
      rank b.target < rank b.source) (t : TransitionEdge) : ∃ o, Resolves ir v t o := by
  -- the start ranks above every choice that it can lead to
  let rank' : Option String → ℕ := fun n =>
    match n with
    | none => rank t.target + 1
    | some name => rank name
  apply Edges.exists_settles rank'
  · intro xs e he
    rcases Option.or_eq_some_iff.mp he with he | ⟨-, he⟩
    · exact List.mem_of_find?_eq_some he
    · exact List.mem_of_find?_eq_some he
  · intro n e he hne
    have htarget : e.target ∈ choiceNames ir := by
      by_contra hc
      simp [table, edges, branches, hc] at hne
    cases n with
    | none =>
      obtain rfl := List.mem_singleton.mp he
      exact Nat.lt_succ_self _
    | some c =>
      by_cases hc : c ∈ choiceNames ir
      · simp only [table, branches, if_pos hc, List.mem_filter, decide_eq_true_eq] at he
        have hlt := hrank e he.1 (he.2 ▸ hc) htarget
        rwa [he.2] at hlt
      · simp [table, branches, hc] at he

theorem taken_of_settles
    (hne : made ≠ []) (hrest : ∀ d ∈ made, branches choices transitions d.target = [])
    (h : (edges v).Settles (edges v).first (table choices transitions made) none o) :
    taken v made = o := by
  cases h with
  | rest hnil => exact absurd hnil hne
  | stuck _ hnone =>
    have hfind : made.find? (passes v) = none := hnone
    rw [taken, hfind]
    rfl
  | @step _ d o' _ hsome hnext =>
    have hfind : made.find? (passes v) = some d := hsome
    have hnil : table choices transitions made ((edges v).tgt d) = [] :=
      hrest d (List.mem_of_find?_eq_some hfind)
    have ho' := hnext.deterministic (.rest hnil)
    rw [taken, hfind, ho']
    simp [Edges.prepend, edges]

/-- The pass keeps the choice that is taken, and its effects, in every such machine. -/
theorem run_preserves_choices (ir : FsmIr) (h : Inlinable ir) : PreservesChoices ir := by
  intro t ht hsource v hv
  obtain ⟨rank, hrank⟩ := h.acyclic
  have htracked := tracked_start h hrank ht hsource
  obtain ⟨o, ho⟩ := exists_resolves v hrank t
  refine ⟨o, ho, ?_⟩
  have hpick : ∀ n, firstTrueBranch v (table (choiceNames ir) ir.transitions [t] n) =
      (edges v).first (table (choiceNames ir) ir.transitions [t] n) := by
    intro n
    apply firstTrueBranch_eq
    cases n with
    | none => exact List.pairwise_singleton _ _
    | some c =>
      by_cases hc : c ∈ choiceNames ir
      · exact h.elseLast c hc
      · simp [table, branches, hc]
  obtain ⟨hfinal, hsettles, hby⟩ := foldl_trackStep hv (choiceNames ir) (fun c hc => hc) htracked
    (ho.congr hpick) rfl
  -- nothing that was made leads into a choice that could still be left
  have hrest : ∀ d ∈ inlinedFrom ir t, branches (choiceNames ir)
      ((choiceNames ir).foldl trackStep (ir.transitions, [t])).1 d.target = [] := by
    intro d hd
    by_cases hc : d.target ∈ choiceNames ir
    · rcases hby d.target (Or.inl hc) with htarget | hsource'
      · exact absurd rfl (htarget d (hfinal.sub d hd))
      · rw [branches, if_pos hc, List.filter_eq_nil_iff]
        intro b hb
        simpa using hsource' b hb
    · rw [branches, if_neg hc]
  exact taken_of_settles hfinal.nonempty hrest hsettles

/-- A choice that leads to a further choice by its last branch. -/
def heating : FsmIr where
  choiceNodes := ["check", "level"]
  transitions := [{ source := "Idle", target := "check", event := "tick", guard := some "armed" },
    { source := "check", target := "Cold", guard := some "isCold" },
    { source := "check", target := "level", guard := some "else",
      transitionAction := some { assignments := [{ target := { name := "n" }, expression := "1" }] } },
    { source := "level", target := "Hot", guard := some "isHot" },
    { source := "level", target := "Mild" }]

theorem heating_preserves_choices : Inlinable heating ∧ PreservesChoices heating := by
  have h : Inlinable heating :=
    { elseLast := by decide
      chainLast := by decide
      acyclic := ⟨fun name => if name = "check" then 1 else 0, by decide⟩
      lossless := by decide }
  exact ⟨h, run_preserves_choices heating h⟩

/-- A choice whose `else` branch is declared first. -/
def elseFirst : FsmIr where
  choiceNodes := ["check"]
  transitions := [{ source := "Idle", target := "check", event := "tick" },
    { source := "check", target := "Cold", guard := some "else" },
    { source := "check", target := "Hot", guard := some "isHot" }]

/-- The inlined `else` branch shadows the guarded one. -/
theorem elseFirst_not_preserved : ¬ PreservesChoices elseFirst := by
  intro h
  let t : TransitionEdge := { source := "Idle", target := "check", event := "tick" }
  obtain ⟨o, hres, htaken⟩ := h t (by simp [elseFirst, t]) (by decide) (fun _ => true)
    fun _ _ => rfl
  let hot : TransitionEdge := { source := "check", target := "Hot", guard := some "isHot" }
  have hhot : Resolves elseFirst (fun _ => true) t (some (some "Hot", [])) := by
    refine Edges.Settles.step (o := some (some "Hot", [])) (e := t) (by simp [table]) rfl ?_
    refine Edges.Settles.step (o := some (some "Hot", [])) (e := hot) ?_ rfl (.rest rfl)
    simp [table, branches, edges, elseFirst, choiceNames, pushNew, t]
  have ho := hres.deterministic hhot
  rw [ho] at htaken
  revert htaken
  decide

end Fsmc.Passes.ChoiceInlining
