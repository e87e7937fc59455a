/-
# Fsmc.ModelChecker.Ltl — the checks for the linear-time properties.

Each check looks at the explored states only, in the order in which the container yields them, and
reports the first violation that it meets. The loops that are not bounded by a container are the search
for a response (`responds`), the fixpoint of the until (`goodStates`), the walk that shows why an until
fails (`untilWalk`) and Tarjan's components (`findSccs`); all of them are total.
-/
import Fsmc.Lib.Fixpoint
import Fsmc.Lib.Tarjan
import Fsmc.ModelChecker.Trace

namespace Fsmc

open Fsmc.Lib Fsmc.Cpp Fsmc.Ir

namespace ModelChecker

variable (mc : ModelChecker)

/-- `reachable_states_` in the order of iteration. -/
def reachableIter : List String := mc.order.iter mc.reachableStates

theorem edgesFrom_target_mem (a : String) : ∀ e ∈ mc.edgesFrom a, e.target ∈ mc.targets :=
  fun e he => mc.target_mem_targets a e (List.mem_append_right _ he)

/-! ## Invariants and reachability -/

def checkInvariant (prop : FormalProperty) (predicate : PropertyAstNode) : ModelCheckResult :=
  match mc.reachableIter.find? fun s => !mc.evalPredicate s predicate with
  | some s =>
    let desc := "Invariant '" ++ prop.rawFormula ++ "' evaluated to false in state '" ++ s ++ "'"
    .fail prop desc (mc.reconstructTrace s desc)
  | none => .pass prop

def checkReachability (prop : FormalProperty) (target : PropertyAstNode) : ModelCheckResult :=
  if mc.reachableIter.any fun s => mc.evalPredicate s target then .pass prop
  else
    .fail prop
      ("Target condition '" ++ prop.rawFormula ++ "' is unreachable from initial state '" ++
        mc.rootState ++ "' across all reachable states.") []

/-! ## Response -/

/-- Whether the search along transitions from `s` meets the response target. -/
def responds (responseTarget : PropertyAstNode) (s : String) : Bool :=
  (searchFrom mc.edgesFrom_target_mem (fun c => mc.evalPredicate c responseTarget) s).1

def checkResponse (prop : FormalProperty) (trigger responseTarget : PropertyAstNode) :
    ModelCheckResult :=
  match mc.reachableIter.find? fun s =>
    mc.evalPredicate s trigger && !mc.responds responseTarget s with
  | some s =>
    let desc := "State '" ++ s ++ "' triggered condition '" ++ trigger.toString ++
      "', but response target '" ++ responseTarget.toString ++ "' is unreachable from it."
    .fail prop desc (mc.reconstructTrace s desc)
  | none => .pass prop

/-! ## Until -/

/-- Whether a pass of the until loop adds `s`: the left side holds in it, it has successors, and those
that are explored are good. -/
def untilOk (left : PropertyAstNode) (good : List String) (s : String) : Bool :=
  mc.evalPredicate s left && !(mc.edgesFrom s).isEmpty &&
    (mc.edgesFrom s).all fun e => !(e.target ∈ mc.reachableStates && e.target ∉ good)

/-- `good_states`: the explored states from which the until holds. -/
def goodStates (left right : PropertyAstNode) : List String :=
  (grow (mc.untilOk left) (fun _ => mc.reachableIter) (mc.reachableStates.length + 1)
    (mc.reachableIter.filter fun s => mc.evalPredicate s right)).get
      (grow_isSome (fun _ _ hs => mc.order.mem_iter.mp hs) (Nat.lt_succ_self _) _)

/-- The state that the counterexample goes to next: an explored successor that is not good if there is
one, else the first one. -/
def untilNext (good : List String) (front : GraphEdge) (rest : List GraphEdge) : String :=
  let nextStep := match (front :: rest).find? fun e =>
      e.target ∈ mc.reachableStates && e.target ∉ good with
    | some e => e.target
    | none => ""
  -- the source keeps the choice in a string and takes the empty one for no choice
  if nextStep = "" then front.target else nextStep

/-- The states behind `curr` on the way of the counterexample, and what is wrong at its end. -/
def untilWalk (left right : PropertyAstNode) (good : List String) :
    Nat → String → List String → Option (List String × String)
  | 0, _, _ => none
  | n + 1, curr, visited =>
    if mc.evalPredicate curr right then some ([], "")
    else if !mc.evalPredicate curr left then
      some ([], "State '" ++ curr ++ "' violates condition '" ++ left.toString ++ "' before '" ++
        right.toString ++ "' is satisfied")
    else
      match mc.edgesFrom curr with
      | [] =>
        some ([], "Execution terminated in state '" ++ curr ++ "' without reaching '" ++
          right.toString ++ "'")
      | front :: rest =>
        let next := mc.untilNext good front rest
        if next ∈ visited then
          some ([next], "Execution caught in cycle without reaching '" ++ right.toString ++
            "' (loops back to '" ++ next ++ "')")
        else
          (untilWalk left right good n next (next :: visited)).map fun (path, desc) =>
            (next :: path, desc)

theorem untilNext_mem (good : List String) (front : GraphEdge) (rest : List GraphEdge) :
    ∃ e ∈ front :: rest, mc.untilNext good front rest = e.target := by
  rw [untilNext]
  split
  · next e he =>
      by_cases hempty : e.target = ""
      · exact ⟨front, List.mem_cons_self, if_pos hempty⟩
      · exact ⟨e, List.mem_of_find?_eq_some he, if_neg hempty⟩
  · exact ⟨front, List.mem_cons_self, if_pos rfl⟩

theorem untilWalk_isSome {left right : PropertyAstNode} {good : List String} {n : Nat}
    {curr : String} {visited : List String} (hn : missing mc.targets (· ∈ visited) < n) :
    (mc.untilWalk left right good n curr visited).isSome = true := by
  induction n generalizing curr visited with
  | zero => exact absurd hn (Nat.not_lt_zero _)
  | succ n ih =>
    rw [untilWalk]
    by_cases hright : mc.evalPredicate curr right = true
    · rw [if_pos hright]
      rfl
    · rw [if_neg hright]
      by_cases hleft : (!mc.evalPredicate curr left) = true
      · rw [if_pos hleft]
        rfl
      · rw [if_neg hleft]
        cases hedges : mc.edgesFrom curr with
        | nil => rfl
        | cons front rest =>
          by_cases hvis : mc.untilNext good front rest ∈ visited
          · simp [hvis]
          · obtain ⟨e, he, hnext⟩ := mc.untilNext_mem good front rest
            have hmem : mc.untilNext good front rest ∈ mc.targets := by
              rw [hnext]
              exact mc.edgesFrom_target_mem curr e (hedges ▸ he)
            have hlt : missing mc.targets (· ∈ mc.untilNext good front rest :: visited) <
                missing mc.targets (· ∈ visited) :=
              missing_lt (fun x hx => List.mem_cons_of_mem _ hx) hmem hvis List.mem_cons_self
            simp only [hvis, if_false, Option.isSome_map]
            exact ih (by omega)

/-- The path of the counterexample from the root on, numbered. -/
def untilTrace (violationDesc : String) : Nat → List String → List CounterexampleStep
  | _, [] => []
  | idx, s :: rest =>
    ⟨idx, s, "", "", if rest = [] then violationDesc else "Step towards violation"⟩ ::
      untilTrace violationDesc (idx + 1) rest

def checkUntil (prop : FormalProperty) (left right : PropertyAstNode) : ModelCheckResult :=
  let good := mc.goodStates left right
  if mc.rootState ∈ good then .pass prop
  else
    let (path, desc) :=
      (mc.untilWalk left right good (mc.targets.length + 1) mc.rootState [mc.rootState]).get
        (mc.untilWalk_isSome (lt_of_le_of_lt (missing_le_length _ _) (Nat.lt_succ_self _)))
    let violationDesc :=
      if desc = "" then "Property '" ++ prop.rawFormula ++ "' not satisfied from initial state"
      else desc
    .fail prop violationDesc (untilTrace violationDesc 0 (mc.rootState :: path))

/-! ## Next -/

def checkNext (prop : FormalProperty) (target : PropertyAstNode) : ModelCheckResult :=
  if (mc.edgesFrom mc.rootState).isEmpty then
    let desc := "Initial state '" ++ mc.rootState ++
      "' has no successor transitions for Next operator X"
    .fail prop desc (mc.reconstructTrace mc.rootState desc)
  else
    match (mc.edgesFrom mc.rootState).find? fun e => !mc.evalPredicate e.target target with
    | some e =>
      let desc := "Successor state '" ++ e.target ++ "' does not satisfy condition '" ++
        target.toString ++ "'"
      .fail prop desc
        [⟨0, mc.rootState, e.event, e.guard, "Initial active state"⟩, ⟨1, e.target, "", "", desc⟩]
    | none => .pass prop

/-- What is wrong with the successors of a state that triggers, if anything. -/
def nextViolation (prop : FormalProperty) (trigger nextTarget : PropertyAstNode) (s : String) :
    Option ModelCheckResult :=
  if mc.evalPredicate s trigger then
    if (mc.edgesFrom s).isEmpty then
      let desc := "State '" ++ s ++ "' triggered condition '" ++ trigger.toString ++
        "', but has no successor states for Next operator"
      some (.fail prop desc (mc.reconstructTrace s desc))
    else
      ((mc.edgesFrom s).find? fun e => !mc.evalPredicate e.target nextTarget).map fun e =>
        let desc := "State '" ++ s ++ "' triggered condition '" ++ trigger.toString ++
          "', but successor '" ++ e.target ++ "' does not satisfy '" ++ nextTarget.toString ++ "'"
        let trace := mc.reconstructTrace s "Trigger state"
        .fail prop desc (trace ++ [⟨trace.length, e.target, e.event, e.guard, desc⟩])
  else none

def checkNextResponse (prop : FormalProperty) (trigger nextTarget : PropertyAstNode) :
    ModelCheckResult :=
  match mc.reachableIter.findSome? (mc.nextViolation prop trigger nextTarget) with
  | some result => result
  | none => .pass prop

/-! ## Recurrence and persistence -/

structure SccComponent where
  states : List String
  isCyclic : Bool

/-- The explored successors of a state, one for each edge. -/
def sccSucc (v : String) : List String :=
  ((mc.edgesFrom v).map GraphEdge.target).filter (· ∈ mc.reachableStates)

theorem sccSucc_closed : ∀ a ∈ mc.reachableStates, ∀ w ∈ mc.sccSucc a, w ∈ mc.reachableStates :=
  fun _ _ w hw => by simpa using (List.mem_filter.mp hw).2

/-- Whether a component contains a cycle: it has several states, or one with an edge to itself. -/
def isCyclic (states : List String) : Bool :=
  if 1 < states.length then true
  else
    -- a single state lies on a cycle only by an edge to itself
    match states with
    | [] => false
    | s :: _ => (mc.edgesFrom s).any fun e => e.target = s

theorem components_isSome : (components mc.sccSucc (mc.reachableStates.length + 1)
    mc.reachableIter).isSome = true := by
  obtain ⟨st, hst, _⟩ := components_spec mc.sccSucc_closed
    (fun s hs => mc.order.mem_iter.mp hs) (Nat.lt_succ_self _)
  rw [reachableIter, hst]
  rfl

def findSccs : List SccComponent :=
  ((components mc.sccSucc (mc.reachableStates.length + 1) mc.reachableIter).get
    mc.components_isSome).sccs.map fun states => ⟨states, mc.isCyclic states⟩

/-- An explored state without successors that violates the target. -/
def terminalViolation (target : PropertyAstNode) : Option String :=
  mc.reachableIter.find? fun s => (mc.edgesFrom s).isEmpty && !mc.evalPredicate s target

def checkInfinitelyOften (prop : FormalProperty) (target : PropertyAstNode) : ModelCheckResult :=
  match mc.findSccs.find? fun scc =>
    scc.isCyclic && !scc.states.any fun s => mc.evalPredicate s target with
  | some scc =>
    let rep := scc.states.headD ""
    let desc := "Recurrence property '" ++ prop.rawFormula ++
      "' violated: cycle containing state '" ++ rep ++ "' never visits target condition '" ++
      target.toString ++ "'"
    .fail prop desc (mc.reconstructTrace rep desc)
  | none =>
    match mc.terminalViolation target with
    | some s =>
      let desc := "Terminal deadlock state '" ++ s ++ "' does not satisfy target condition '" ++
        target.toString ++ "' in recurrence property '" ++ prop.rawFormula ++ "'"
      .fail prop desc (mc.reconstructTrace s desc)
    | none => .pass prop

def checkEventuallyAlways (prop : FormalProperty) (target : PropertyAstNode) : ModelCheckResult :=
  match mc.findSccs.findSome? fun scc =>
    if scc.isCyclic then scc.states.find? fun s => !mc.evalPredicate s target else none with
  | some s =>
    let desc := "Persistence property '" ++ prop.rawFormula ++ "' violated: recurrent state '" ++ s ++
      "' does not satisfy condition '" ++ target.toString ++ "'"
    .fail prop desc (mc.reconstructTrace s desc)
  | none =>
    match mc.terminalViolation target with
    | some s =>
      let desc := "Terminal state '" ++ s ++ "' violates condition '" ++ target.toString ++
        "' in persistence property '" ++ prop.rawFormula ++ "'"
      .fail prop desc (mc.reconstructTrace s desc)
    | none => .pass prop

end ModelChecker

end Fsmc
