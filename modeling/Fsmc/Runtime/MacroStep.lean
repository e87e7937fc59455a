/-
# Fsmc.Runtime.MacroStep — running a machine to quiescence.

A macro-step takes the transition chosen for an event and then every completion transition that is
chosen after it, until none is. It is observed by the effects that were executed, each kind of effect
in its order. The machine is taken flat: a state is entered and left by its own actions. The guards
may depend on the effects executed so far.
-/
import Fsmc.Ir.GraphOps
import Fsmc.Runtime.Dispatch
import Mathlib.Algebra.BigOperators.Group.List.Basic
import Mathlib.Data.Finset.Lattice.Lemmas
import Mathlib.Data.Finset.Dedup

namespace Fsmc.Runtime

open Fsmc.Ir Fsmc.Lib.FirstMatch

/-! ## What is observed -/

/-- Two callbacks in sequence are named by their names joined with `_`. -/
def joinNames (a b : String) : String :=
  if a = "" then b else if b = "" then a else a ++ "_" ++ b

@[simp] theorem joinNames_empty (a : String) : joinNames a "" = a := by
  by_cases ha : a = "" <;> simp [joinNames, ha]

@[simp] theorem empty_joinNames (a : String) : joinNames "" a = a := by simp [joinNames]

theorem joinNames_assoc (a b c : String) : joinNames (joinNames a b) c = joinNames a (joinNames b c) := by
  by_cases ha : a = ""
  · simp [ha]
  · by_cases hb : b = ""
    · simp [hb]
    · by_cases hc : c = ""
      · simp [hc]
      · have hab : a ++ "_" ++ b ≠ "" := by simp
        have hbc : b ++ "_" ++ c ≠ "" := by simp
        simp [joinNames, ha, hb, hc, String.append_assoc]

/-- The effects executed, each kind in order; resetting a clock again changes nothing. -/
@[ext]
structure Observation where
  callbacks : String := ""
  assignments : List ActionAssignment := []
  instructions : List ActionAstNode := []
  conditionActions : List ActionSignature := []
  clockResets : Finset String := ∅
  deriving DecidableEq

/-- One execution after another. -/
def Observation.append (a b : Observation) : Observation where
  callbacks := joinNames a.callbacks b.callbacks
  assignments := a.assignments ++ b.assignments
  instructions := a.instructions ++ b.instructions
  conditionActions := a.conditionActions ++ b.conditionActions
  clockResets := a.clockResets ∪ b.clockResets

instance : Monoid Observation where
  mul := Observation.append
  one := ⟨"", [], [], [], ∅⟩
  mul_assoc a b c := Observation.ext (joinNames_assoc _ _ _) (List.append_assoc _ _ _)
    (List.append_assoc _ _ _) (List.append_assoc _ _ _) (Finset.union_assoc _ _ _)
  one_mul a := Observation.ext (empty_joinNames _) rfl rfl rfl (Finset.empty_union _)
  mul_one a := Observation.ext (joinNames_empty _) (List.append_nil _) (List.append_nil _)
    (List.append_nil _) (Finset.union_empty _)

def observeAction (a : ActionSignature) : Observation :=
  { callbacks := a.name, assignments := a.assignments, instructions := a.instructions }

/-- Executing the actions of a state in order. -/
def observeActions (actions : List ActionSignature) : Observation :=
  (actions.map observeAction).prod

/-- Executing the action of a transition, if it has one. -/
def observeAction? (action : Option ActionSignature) : Observation :=
  (action.map observeAction).getD 1

/-- Executing the condition action of a transition, if it has one. -/
def observeCondition (action : Option ActionSignature) : Observation :=
  { conditionActions := action.toList }

def observeResets (clocks : List String) : Observation := { clockResets := clocks.toFinset }

def observeEntry (ir : FsmIr) (state : String) : Observation :=
  observeActions (((ir.findState state).map (·.entryActions)).getD [])

def observeExit (ir : FsmIr) (state : String) : Observation :=
  observeActions (((ir.findState state).map (·.exitActions)).getD [])

/-! ## Steps -/

/-- What a transition executes besides the actions of states. -/
def observeEffect (t : TransitionEdge) : Observation :=
  observeCondition t.conditionAction * observeAction? t.transitionAction *
    observeResets t.clockResets

/-- Where a transition leads; an internal transition stays. -/
def nextState (state : String) (t : TransitionEdge) : String :=
  if t.kind = .internal then state else t.target

/-- What taking a transition executes. -/
def observeStep (ir : FsmIr) (state : String) (t : TransitionEdge) : Observation :=
  if t.kind = .internal then observeEffect t
  else observeExit ir state * observeEffect t * observeEntry ir t.target

/-- Guards that depend on the effects executed so far. -/
abbrev GuardHistory := Observation → GuardValuation

/-- A conjunction of structured guards holds when both do. -/
def GuardHistory.Coherent (v : GuardHistory) : Prop :=
  ∀ w a b, v w (GuardAstNode.mk .and "" [a, b]).toCpp = (v w a.toCpp && v w b.toCpp)

/-- Whether a transition fires, by its structured guard when it has one. -/
def ready (source event : String) (v : GuardValuation) (t : TransitionEdge) : Bool :=
  tried source event t && guardPassed v (some t.getGuard)

/-- The transition that is taken: of best precedence, the first declared among equals. -/
def chosen (ir : FsmIr) (source event : String) (v : GuardValuation) : Option TransitionEdge :=
  (ir.transitions.filter (ready source event v)).argmin fun t => precedence t.priority

/-- Taking completion transitions until none is chosen. -/
inductive Quiesces (ir : FsmIr) (v : GuardHistory) :
    String → Observation → String × Observation → Prop where
  | rest {s : String} {w : Observation} : chosen ir s "" (v w) = none → Quiesces ir v s w (s, w)
  | step {s : String} {w : Observation} {t : TransitionEdge} {r : String × Observation} :
      chosen ir s "" (v w) = some t →
      Quiesces ir v (nextState s t) (w * observeStep ir s t) r → Quiesces ir v s w r

variable {r : String × Observation} {v : GuardHistory}

variable {ir : FsmIr} {s event : String} {f : TransitionEdge → TransitionEdge}

theorem Quiesces.eq_of_none {s : String} {w : Observation}
    (h : Quiesces ir v s w r) (hnone : chosen ir s "" (v w) = none) :
    r = (s, w) := by
  cases h with
  | rest _ => rfl
  | step hsome _ => simp [hnone] at hsome

/-- One event is dispatched; an event that no transition fires on is ignored. -/
def dispatch (ir : FsmIr) (v : GuardHistory) (c : String × Observation) (event : String) :
    String × Observation :=
  match chosen ir c.1 event (v c.2) with
  | none => c
  | some t => (nextState c.1 t, c.2 * observeStep ir c.1 t)

/-- Events are dispatched one after the other. -/
def dispatchAll (ir : FsmIr) (v : GuardHistory) (c : String × Observation) (events : List String) :
    String × Observation :=
  events.foldl (dispatch ir v) c

/-- The macro-step for an event; an event that no transition fires on is ignored. -/
def MacroStep (ir : FsmIr) (v : GuardHistory) (s event : String) (r : String × Observation) :
    Prop :=
  match chosen ir s event (v 1) with
  | none => r = (s, 1)
  | some t => Quiesces ir v (nextState s t) (observeStep ir s t) r

/-! ## Observations -/

@[simp] theorem observeActions_nil : observeActions [] = 1 := rfl

theorem observeActions_cons (a : ActionSignature) (actions : List ActionSignature) :
    observeActions (a :: actions) = observeAction a * observeActions actions := by
  simp [observeActions]

theorem observeActions_append (acts acts' : List ActionSignature) :
    observeActions (acts ++ acts') = observeActions acts * observeActions acts' := by
  simp [observeActions]

theorem observeResets_comm (clocks : List String) (w : Observation) :
    observeResets clocks * w = w * observeResets clocks := by
  show Observation.append _ _ = Observation.append _ _
  simp [Observation.append, observeResets, Finset.union_comm]

theorem observeResets_mul (cs ds : List String) : observeResets cs * observeResets ds = observeResets (cs ++ ds) := by
  show Observation.append _ _ = _
  simp [Observation.append, observeResets]

theorem ends_of_chosen {g : GuardValuation} {t : TransitionEdge}
    (h : chosen ir s event g = some t) : t.source = s ∧ t.event = event := by
  have hready := (List.mem_filter.mp (List.argmin_mem h)).2
  simp only [ready, tried, Bool.and_eq_true, decide_eq_true_eq] at hready
  exact hready.1

/-! ## Machines that choose alike -/

/-- Machines whose choices correspond, and lead and execute alike, quiesce alike. -/
theorem quiesces_of_chosen {ir ir' : FsmIr}
    (hchosen : ∀ s e g, chosen ir' s e g = (chosen ir s e g).map f)
    (hnext : ∀ s t, nextState s (f t) = nextState s t)
    (hstep : ∀ s t, observeStep ir' s (f t) = observeStep ir s t)
    {s : String} {w : Observation} :
    Quiesces ir' v s w r ↔ Quiesces ir v s w r := by
  refine ⟨?_, ?_⟩
  · intro h
    induction h with
    | @rest s w hnone =>
      rw [hchosen, Option.map_eq_none_iff] at hnone
      exact .rest hnone
    | @step s w t r hsome _ ih =>
      rw [hchosen] at hsome
      obtain ⟨t', ht', rfl⟩ := Option.map_eq_some_iff.mp hsome
      rw [hnext, hstep] at ih
      exact .step ht' ih
  · intro h
    induction h with
    | @rest s w hnone =>
      apply Quiesces.rest
      rw [hchosen, hnone]
      rfl
    | @step s w t r hsome _ ih =>
      refine Quiesces.step (t := f t) ?_ ?_
      · rw [hchosen, hsome]
        rfl
      · rwa [hnext, hstep]

theorem macroStep_of_chosen {ir ir' : FsmIr}
    (hchosen : ∀ s e g, chosen ir' s e g = (chosen ir s e g).map f)
    (hnext : ∀ s t, nextState s (f t) = nextState s t)
    (hstep : ∀ s t, observeStep ir' s (f t) = observeStep ir s t)
    :
    MacroStep ir' v s event r ↔ MacroStep ir v s event r := by
  unfold MacroStep
  rw [hchosen]
  cases hsome : chosen ir s event (v 1) with
  | none => rfl
  | some t =>
    show Quiesces ir' v (nextState s (f t)) (observeStep ir' s (f t)) r ↔ _
    rw [hnext, hstep]
    exact quiesces_of_chosen hchosen hnext hstep

/-! ## Canonical order -/

theorem find?_name_of_perm {l l' : List StateNode} (hperm : l'.Perm l)
    (hnodup : (l.map (·.name)).Nodup) (name : String) :
    (l'.find? fun s => s.name = name) = l.find? fun s => s.name = name := by
  have hunique : ∀ s ∈ l, ∀ s' ∈ l, s.name = s'.name → s = s' := fun s hs s' hs' heq =>
    List.inj_on_of_nodup_map hnodup hs hs' heq
  cases hfind : l.find? fun s => s.name = name with
  | none =>
    rw [List.find?_eq_none] at hfind ⊢
    exact fun s hs => hfind s (hperm.mem_iff.mp hs)
  | some s =>
    have hs : s ∈ l := List.mem_of_find?_eq_some hfind
    have hname : s.name = name := by simpa using List.find?_some hfind
    cases hfind' : l'.find? fun s => s.name = name with
    | none =>
      rw [List.find?_eq_none] at hfind'
      exact absurd (by simpa using hname) (hfind' s (hperm.mem_iff.mpr hs))
    | some s' =>
      have hs' : s' ∈ l := hperm.mem_iff.mp (List.mem_of_find?_eq_some hfind')
      have hname' : s'.name = name := by simpa using List.find?_some hfind'
      rw [hunique s' hs' s hs (hname'.trans hname.symm)]

theorem find?_name_of_mem {l : List StateNode} (hnames : (l.map (·.name)).Nodup) {s : StateNode}
    (hs : s ∈ l) : (l.find? fun s' => s'.name = s.name) = some s := by
  cases hfind : l.find? fun s' => s'.name = s.name with
  | none =>
    have hnone := List.find?_eq_none.mp hfind s hs
    simp at hnone
  | some s' =>
    have hname : s'.name = s.name := by simpa using List.find?_some hfind
    rw [List.inj_on_of_nodup_map hnames (List.mem_of_find?_eq_some hfind) hs hname]

theorem findState_of_mem (hnames : (ir.states.map (·.name)).Nodup) {s : StateNode}
    (hs : s ∈ ir.states) : ir.findState s.name = some s :=
  find?_name_of_mem hnames hs

theorem ready_syncGuard (source event : String) (g : GuardValuation) (t : TransitionEdge) :
    ready source event g (syncGuard t) = ready source event g t := by
  unfold ready
  rw [syncGuard_getGuard]
  rfl

theorem chosen_canonicalize (ir : FsmIr) (source event : String) (g : GuardValuation) :
    chosen (canonicalize ir) source event g = (chosen ir source event g).map syncGuard := by
  let rows := ir.transitions.map syncGuard
  have hsort : ((sortTransitionsByPriority rows).filter (ready source event g)).argmin
        (fun t => precedence t.priority) =
      (rows.filter (ready source event g)).argmin fun t => precedence t.priority := by
    rw [sortTransitionsByPriority_eq]
    apply argmin_filter_sortByKey (ready source event g)
      (fun p => toLex (sourceOrder rows source, p))
    · intro t _ ht
      have hs : t.source = source := by
        simp only [ready, tried, Bool.and_eq_true, decide_eq_true_eq] at ht
        exact ht.1.1
      rw [hs]
    · intro p q hpq
      exact (Prod.ext_iff.mp (toLex_inj.mp hpq)).2
  have hmap : rows.filter (ready source event g) =
      (ir.transitions.filter (ready source event g)).map syncGuard := by
    rw [List.filter_map]
    congr 1
    exact List.filter_congr fun t _ => ready_syncGuard source event g t
  show ((sortTransitionsByPriority rows).filter (ready source event g)).argmin _ = _
  rw [hsort, hmap, argmin_map]
  rfl

theorem macroStep_canonicalize (hnodup : (ir.states.map (·.name)).Nodup) :
    MacroStep (canonicalize ir) v s event r ↔ MacroStep ir v s event r := by
  have hperm : (canonicalize ir).states.Perm ir.states := List.mergeSort_perm _ _
  have hfind : ∀ name, (canonicalize ir).findState name = ir.findState name :=
    find?_name_of_perm hperm hnodup
  apply macroStep_of_chosen (f := syncGuard) (chosen_canonicalize ir)
  · intro s t
    rfl
  · intro s t
    simp only [observeStep, observeExit, observeEntry, hfind]
    rfl

end Fsmc.Runtime
