/-
# Fsmc.Emitter.Actions — what the action types of a generated header do.

The emitter declares one functor for each action name. Its body has the assignments of every transition that
uses the name, so that a functor does what one transition asks for only if no other transition brings
assignments under that name.
-/
import Fsmc.Emitter.Qualify
import Fsmc.Emitter.TransitionTable

namespace Fsmc.Emitter

open Fsmc.Ir

/-! ## Functors -/

/-- An assignment of a functor body: to an out-port or a register, by its path. -/
structure Statement where
  toOut : Bool
  path : String
  op : AssignmentOp
  expression : String
  deriving DecidableEq, Repr

/-- A line of `emit_assignment_lines`. -/
def assignmentLine (ir : FsmIr) (a : ActionAssignment) : Statement where
  toOut := a.target.scope = .outPort || (ir.findPort a.target.name).any (·.isOut)
  path := a.target.fullPath
  op := a.op
  expression := qualifyExpression a.expression ir

def assignmentsUnder (name : String) (action : Option ActionSignature) : List ActionAssignment :=
  match action with
  | some a => if a.name = name then a.assignments else []
  | none => []

/-- The assignments that a transition brings under a name. -/
def broughtBy (name : String) (t : TransitionEdge) : List ActionAssignment :=
  assignmentsUnder name t.conditionAction ++ assignmentsUnder name t.transitionAction

/-- The assignments that `emit_actions` collects for a functor. -/
def collected (ts : List TransitionEdge) (name : String) : List ActionAssignment :=
  ts.flatMap (broughtBy name)

/-- The body of a functor; one without assignments calls the service of its name instead. -/
def functorBody (ir : FsmIr) (name : String) : List Statement :=
  (collected ir.transitions name).map (assignmentLine ir)

/-! ## Execution -/

section

variable {S : Type} (exec : Statement → S → S)

/-- Execute statements in their order. -/
def runStatements (statements : List Statement) (s : S) : S := statements.foldl (fun s line => exec line s) s

/-- `call_action` for the action type of a row, as far as assignments go. -/
def runActionType (ir : FsmIr) (action : ActionType) (s : S) : S :=
  match action with
  | .noAction => s
  | .named name => runStatements exec (functorBody ir name) s
  | .seq first second => runStatements exec (functorBody ir second) (runStatements exec (functorBody ir first) s)

end

def assignmentsOf (action : Option ActionSignature) : List ActionAssignment := (action.map (·.assignments)).getD []

/-- The assignments of a transition: those of the condition action, then those of the transition action. -/
def ownAssignments (t : TransitionEdge) : List ActionAssignment :=
  assignmentsOf t.conditionAction ++ assignmentsOf t.transitionAction

/-- Whatever the statements do, the action type of the row does what the own assignments do, on any store. -/
def PerformsOwn (ir : FsmIr) (t : TransitionEdge) : Prop :=
  ∀ (S : Type) (exec : Statement → S → S) (s : S),
    runActionType exec ir (actionType t) s = runStatements exec ((ownAssignments t).map (assignmentLine ir)) s

def ActionType.names : ActionType → List String
  | .noAction => []
  | .named name => [name]
  | .seq first second => [first, second]

/-- The statements that an action type executes. -/
def performed (ir : FsmIr) (action : ActionType) : List Statement := action.names.flatMap (functorBody ir)

theorem runActionType_eq {S : Type} (exec : Statement → S → S) (ir : FsmIr) (action : ActionType) (s : S) :
    runActionType exec ir action s = runStatements exec (performed ir action) s := by
  cases action with
  | noAction => rfl
  | named name => simp [runActionType, performed, ActionType.names]
  | seq first second => simp [runActionType, performed, ActionType.names, runStatements]

/-- Statements can be told apart by stores that record them. -/
theorem performsOwn_iff_performed {ir : FsmIr} {t : TransitionEdge} :
    PerformsOwn ir t ↔ performed ir (actionType t) = (ownAssignments t).map (assignmentLine ir) := by
  constructor
  · intro h
    have hrecord : ∀ (l l' : List Statement), runStatements (fun line s => s ++ [line]) l l' = l' ++ l := by
      intro l
      induction l with
      | nil => simp [runStatements]
      | cons line l ih =>
        intro l'
        have hstep := ih (l' ++ [line])
        unfold runStatements at hstep ⊢
        rw [List.foldl_cons, hstep, List.append_assoc]
        rfl
    have hlists := h (List Statement) (fun line s => s ++ [line]) []
    rw [runActionType_eq, hrecord, hrecord] at hlists
    exact hlists
  · intro h S exec s
    rw [runActionType_eq, h]

/-! ## Where a functor does what one transition asks for -/

/-- The assignments of a condition action without a name, which no functor has. -/
def unnamedAssignments (t : TransitionEdge) : List ActionAssignment := assignmentsUnder "" t.conditionAction

/-- No other transition brings assignments under a name. -/
def Alone (before after : List TransitionEdge) (name : String) : Prop :=
  collected before name = [] ∧ collected after name = []

/-- The names of a transition's actions are its own, as far as assignments go, and all of its assignments are
under them. Where some are not, what the other transitions bring under its name is all the same what was lost. -/
def KeepsToItself (ir : FsmIr) (before : List TransitionEdge) (t : TransitionEdge)
    (after : List TransitionEdge) : Prop :=
  match actionType t with
  | .noAction => ownAssignments t = []
  | .named name =>
    (unnamedAssignments t = [] ∧ Alone before after name) ∨
      (unnamedAssignments t ≠ [] ∧
        (collected before name ++ broughtBy name t ++ collected after name).map (assignmentLine ir) =
          (unnamedAssignments t ++ broughtBy name t).map (assignmentLine ir))
  | .seq first second =>
    Alone before after first ∧ Alone before after second ∧ (first = second → broughtBy first t = [])

theorem append_append_eq_self_iff {α : Type*} {l x r : List α} : l ++ x ++ r = x ↔ l = [] ∧ r = [] := by
  constructor
  · intro h
    have hlength := congrArg List.length h
    simp only [List.length_append] at hlength
    exact ⟨List.eq_nil_of_length_eq_zero (by omega), List.eq_nil_of_length_eq_zero (by omega)⟩
  · rintro ⟨rfl, rfl⟩
    simp

section

variable {ir : FsmIr} {before after : List TransitionEdge} {t : TransitionEdge}

theorem functorBody_split (hir : ir.transitions = before ++ t :: after) (name : String) : functorBody ir name =
      (collected before name ++ broughtBy name t ++ collected after name).map (assignmentLine ir) := by
  unfold functorBody collected
  rw [hir, List.flatMap_append, List.flatMap_cons, List.append_assoc]

theorem functorBody_eq_iff (hir : ir.transitions = before ++ t :: after) (name : String) :
    functorBody ir name = (broughtBy name t).map (assignmentLine ir) ↔ Alone before after name := by
  rw [functorBody_split hir, List.map_append, List.map_append, append_append_eq_self_iff, List.map_eq_nil_iff,
    List.map_eq_nil_iff]
  rfl

theorem ownAssignments_of_named {name : String} (h : actionType t = .named name) :
    ownAssignments t = unnamedAssignments t ++ broughtBy name t := by
  unfold actionType at h
  split at h
  · cases h
  · rename_i hnames
    split at h
    · cases h
    · rename_i haction
      obtain ⟨hname, -⟩ := not_or.mp haction
      have haction : t.getAction = name := ActionType.named.inj h
      rw [haction] at hname
      unfold actionNames at hnames
      unfold TransitionEdge.getAction at haction
      unfold ownAssignments unnamedAssignments broughtBy
      cases htransition : t.transitionAction with
      | none =>
        rw [htransition] at haction
        cases hcondition : t.conditionAction with
        | none => rfl
        | some c =>
          rw [hcondition] at haction
          have hc : c.name = name := haction
          simp [assignmentsOf, assignmentsUnder, hc, hname]
      | some a =>
        rw [htransition] at haction hnames
        have ha : a.name = name := haction
        cases hcondition : t.conditionAction with
        | none => simp [assignmentsOf, assignmentsUnder, ha]
        | some c =>
          rw [hcondition] at hnames
          have hc : c.name = "" := by
            by_contra hne
            exact hnames ⟨hne, by simpa [ha] using hname⟩
          simp [assignmentsOf, assignmentsUnder, ha, hc, Ne.symm hname]

theorem ownAssignments_of_seq {first second : String} (h : actionType t = .seq first second) :
    ownAssignments t = assignmentsUnder first t.conditionAction ++ assignmentsUnder second t.transitionAction ∧
      (first ≠ second → broughtBy first t = assignmentsUnder first t.conditionAction ∧
        broughtBy second t = assignmentsUnder second t.transitionAction) := by
  unfold actionType at h
  split at h
  · rename_i hnames
    cases h
    unfold actionNames at hnames ⊢
    unfold ownAssignments broughtBy
    cases hcondition : t.conditionAction with
    | none => simp [hcondition] at hnames
    | some c =>
      cases htransition : t.transitionAction with
      | none => simp [htransition] at hnames
      | some a =>
        refine ⟨by simp [assignmentsOf, assignmentsUnder], fun hne => ?_⟩
        have hne' : c.name ≠ a.name := by simpa using hne
        simp [assignmentsUnder, hne', Ne.symm hne']
  · split at h <;> cases h

/-- An emitted action type performs exactly the assignments of its transition where the transition keeps to
itself. -/
theorem performsOwn_iff (hir : ir.transitions = before ++ t :: after) :
    PerformsOwn ir t ↔ KeepsToItself ir before t after := by
  rw [performsOwn_iff_performed]
  unfold KeepsToItself performed
  cases htype : actionType t with
  | noAction =>
    simp only [ActionType.names, List.flatMap_nil]
    rw [eq_comm, List.map_eq_nil_iff]
  | named name =>
    simp only [ActionType.names, List.flatMap_cons, List.flatMap_nil, List.append_nil]
    rw [ownAssignments_of_named htype]
    by_cases hunnamed : unnamedAssignments t = []
    · rw [hunnamed, List.nil_append, functorBody_eq_iff hir]
      simp
    · rw [functorBody_split hir]
      simp [hunnamed]
  | seq first second =>
    obtain ⟨hown, hdistinct⟩ := ownAssignments_of_seq htype
    simp only [ActionType.names, List.flatMap_cons, List.flatMap_nil, List.append_nil]
    by_cases hsame : first = second
    · subst hsame
      have hbrought : ownAssignments t = broughtBy first t := hown
      rw [hbrought]
      constructor
      · intro h
        have hlength := congrArg List.length h
        rw [functorBody_split hir] at hlength
        simp only [List.length_append, List.length_map] at hlength
        have halone : Alone before after first :=
          ⟨List.eq_nil_of_length_eq_zero (by omega), List.eq_nil_of_length_eq_zero (by omega)⟩
        exact ⟨halone, halone, fun _ => List.eq_nil_of_length_eq_zero (by omega)⟩
      · rintro ⟨halone, -, hnone⟩
        rw [(functorBody_eq_iff hir first).mpr halone, hnone rfl]
        rfl
    · obtain ⟨hfirst, hsecond⟩ := hdistinct hsame
      rw [hown, ← hfirst, ← hsecond, List.map_append]
      constructor
      · intro h
        have hlength := congrArg List.length h
        rw [functorBody_split hir, functorBody_split hir] at hlength
        simp only [List.length_append, List.length_map] at hlength
        exact ⟨⟨List.eq_nil_of_length_eq_zero (by omega), List.eq_nil_of_length_eq_zero (by omega)⟩,
          ⟨List.eq_nil_of_length_eq_zero (by omega), List.eq_nil_of_length_eq_zero (by omega)⟩,
          fun heq => absurd heq hsame⟩
      · rintro ⟨halone, halone', -⟩
        rw [(functorBody_eq_iff hir first).mpr halone, (functorBody_eq_iff hir second).mpr halone']

end

/-! ## A shared name -/

/-- `count := count + 1` under the name `Inc`. -/
def increment : ActionSignature :=
  { name := "Inc", assignments := [{ target := { name := "count" }, expression := "count + 1" }] }

/-- A transition that increments. -/
def stepUp (source target : String) : TransitionEdge :=
  { source := source, target := target, event := "up", transitionAction := some increment }

theorem single_performsOwn : ({ transitions := [stepUp "A" "B"] } : FsmIr).transitions = [] ++ stepUp "A" "B" :: [] ∧
      PerformsOwn { transitions := [stepUp "A" "B"] } (stepUp "A" "B") := by
  have hsplit : ({ transitions := [stepUp "A" "B"] } : FsmIr).transitions = [] ++ stepUp "A" "B" :: [] := rfl
  refine ⟨hsplit, (performsOwn_iff hsplit).mpr ?_⟩
  have htype : actionType (stepUp "A" "B") = .named "Inc" := rfl
  rw [KeepsToItself, htype]
  exact Or.inl ⟨rfl, rfl, rfl⟩

/-- Two transitions with one action: each increments twice. -/
theorem shared_not_performsOwn :
    stepUp "A" "B" ∈ ({ transitions := [stepUp "A" "B", stepUp "B" "C"] } : FsmIr).transitions ∧
      ¬ PerformsOwn { transitions := [stepUp "A" "B", stepUp "B" "C"] } (stepUp "A" "B") := by
  refine ⟨List.mem_cons_self, fun h => ?_⟩
  have hlength := congrArg List.length (performsOwn_iff_performed.mp h)
  revert hlength
  decide

end Fsmc.Emitter
