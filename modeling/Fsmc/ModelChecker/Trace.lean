/-
# Fsmc.ModelChecker.Trace — results and counterexample traces.

`reconstructTrace` follows the predecessor map back from a state. The map is a tree that leads to the
root, but the function does not rely on it: it stops at a state it has met before, and
`walkBack_isSome` is why that always ends.
-/
import Fsmc.ModelChecker.Predicate

namespace Fsmc

open Fsmc.Lib Fsmc.Cpp Fsmc.Ir

structure CounterexampleStep where
  stepIndex : Nat
  stateName : String
  eventName : String
  guardCondition : String
  description : String
  deriving DecidableEq, Repr

structure ModelCheckResult where
  passed : Bool
  propertyName : String
  propertyFormula : String
  kind : PropertyKind
  violationReason : String
  counterexampleTrace : List CounterexampleStep
  deriving DecidableEq, Repr

namespace ModelCheckResult

/-- The result for a property that holds. -/
def pass (prop : FormalProperty) : ModelCheckResult :=
  ⟨true, prop.name, prop.rawFormula, prop.kind, "", []⟩

/-- The result for a property that is violated. -/
def fail (prop : FormalProperty) (reason : String) (trace : List CounterexampleStep) :
    ModelCheckResult :=
  ⟨false, prop.name, prop.rawFormula, prop.kind, reason, trace⟩

variable {prop : FormalProperty}

@[simp] theorem passed_pass : (pass prop).passed = true := rfl

@[simp] theorem passed_fail {reason : String}
    {trace : List CounterexampleStep} : (fail prop reason trace).passed = false := rfl

end ModelCheckResult

namespace ModelChecker

variable (mc : ModelChecker)

/-- The predecessor entries from `curr` back to the root, or to a state in `visited`. -/
def walkBack : Nat → String → List String → Option (List (String × GraphEdge))
  | 0, _, _ => none
  | n + 1, curr, visited =>
    if curr = mc.rootState then some []
    else
      match mc.predecessorMap.lookup curr with
      | none => some []
      | some p =>
        -- the guard of the source against a map with a cycle in it
        if curr ∈ visited then some []
        else (walkBack n p.1 (curr :: visited)).map (p :: ·)

theorem mem_keys_of_lookup {α β : Type} [DecidableEq α] {l : List (α × β)} {k : α} {v : β}
    (h : l.lookup k = some v) : k ∈ l.map Prod.fst := by
  induction l with
  | nil => simp at h
  | cons entry l ih =>
    obtain ⟨k', v'⟩ := entry
    rw [List.lookup_cons] at h
    by_cases hk : k = k'
    · simp [hk]
    · have hbeq : (k == k') = false := by simpa using hk
      rw [hbeq] at h
      exact List.mem_cons_of_mem _ (ih h)

theorem walkBack_isSome {n : Nat} {curr : String} {visited : List String}
    (hn : missing (mc.predecessorMap.map Prod.fst) (· ∈ visited) < n) :
    (mc.walkBack n curr visited).isSome = true := by
  induction n generalizing curr visited with
  | zero => exact absurd hn (Nat.not_lt_zero _)
  | succ n ih =>
    rw [walkBack]
    by_cases hroot : curr = mc.rootState
    · simp [hroot]
    · rw [if_neg hroot]
      cases hp : mc.predecessorMap.lookup curr with
      | none => rfl
      | some p =>
        by_cases hvis : curr ∈ visited
        · simp [hvis]
        · have hlt : missing (mc.predecessorMap.map Prod.fst) (· ∈ curr :: visited) <
              missing (mc.predecessorMap.map Prod.fst) (· ∈ visited) :=
            missing_lt (fun x hx => List.mem_cons_of_mem _ hx) (mem_keys_of_lookup hp) hvis
              List.mem_cons_self
          simp only [hvis, if_false, Option.isSome_map]
          exact ih (by omega)

/-- The predecessor entries on the way from the root to `targetState`. -/
def tracePath (targetState : String) : List (String × GraphEdge) :=
  ((mc.walkBack (mc.predecessorMap.length + 1) targetState []).get
    (mc.walkBack_isSome (lt_of_le_of_lt (missing_le_length _ _) (by simp)))).reverse

/-- The steps behind the first one: each shows the state an edge leads to and the event and guard of
the edge after it. -/
def traceSteps (targetState violationDesc : String) :
    Nat → List (String × GraphEdge) → List CounterexampleStep
  | _, [] => []
  | idx, p :: rest =>
    { stepIndex := idx
      stateName := p.2.target
      eventName := (rest.head?.map (·.2.event)).getD ""
      guardCondition := (rest.head?.map (·.2.guard)).getD ""
      description :=
        if p.2.target = targetState then violationDesc else "Normal transition execution" } ::
      traceSteps targetState violationDesc (idx + 1) rest

def reconstructTrace (targetState violationDesc : String) : List CounterexampleStep :=
  let path := mc.tracePath targetState
  { stepIndex := 0
    stateName := mc.rootState
    eventName := (path.head?.map (·.2.event)).getD ""
    guardCondition := (path.head?.map (·.2.guard)).getD ""
    description :=
      if mc.rootState = targetState then violationDesc else "Initial active state" } ::
    traceSteps targetState violationDesc 1 path

end ModelChecker

end Fsmc
