/-
# Fsmc.Emitter.Generated — the machine that a generated header declares.

State types and events are known by their names. What a guard or an action type does is left open; `history_is`
and `seq_` are the runtime's own.
-/
import Fsmc.Backend.HistoryWalk
import Fsmc.Emitter.TransitionTable
import Fsmc.Runtime.HookTrace

namespace Fsmc.Emitter

open Fsmc.Ir Fsmc.Backend Fsmc.Runtime Fsmc.Lib.Ancestry

/-- The parents of a machine form a hierarchy. -/
structure Hierarchy (ir : FsmIr) where
  depth : String → ℕ
  depth_lt : ∀ {s p : String}, parentOf ir s = some p → depth p < depth s

/-- The types of a generated machine: state objects have no members. -/
abbrev headerSignature (σ : Signature) : Signature :=
  { σ with State := String, EventType := String, Value := Unit,
           decState := inferInstance, decEvent := inferInstance }

/-- What the guard and action types do that a header names. A hook calls an action without an event. -/
structure Meaning (σ : Signature) where
  guard : String → Event (headerSignature σ) → σ.InPorts → σ.Registers → σ.Services → Bool
  action : String → Option (Event (headerSignature σ)) → σ.InPorts → Data (headerSignature σ) →
    Data (headerSignature σ)

/-- `history_is`; a history without cycles has no longer walk than entries. -/
def historyIs (history : List (String × String)) (composite sub : String) : Bool :=
  (historyLoop history sub (history.length + 1) (getHistory history composite)).getD false

namespace Meaning

variable {σ : Signature} (M : Meaning σ)

/-- `call_guard` on the guard column. -/
def evalGuard (guard : GuardType) (event : Event (headerSignature σ)) (input : σ.InPorts) (reg : σ.Registers)
    (srv : σ.Services) (history : List (String × String)) : Bool :=
  match guard with
  | .noGuard => true
  | .named name => M.guard name event input reg srv
  | .historyIs composite sub => historyIs history composite sub
  | .andHistory name composite sub => M.guard name event input reg srv && historyIs history composite sub

/-- `call_action` on the action column. -/
def runAction (action : ActionType) (event : Event (headerSignature σ)) (input : σ.InPorts)
    (d : Data (headerSignature σ)) : Data (headerSignature σ) :=
  match action with
  | .noAction => d
  | .named name => M.action name (some event) input d
  | .seq first second => M.action second (some event) input (M.action first (some event) input d)

/-- The row type of a printed row. -/
def row (r : EmittedRow) : Row (headerSignature σ) where
  source := r.source
  event := r.event
  guard := fun event _ _ input reg srv history => M.evalGuard r.guard event input reg srv history
  effect :=
    match r.target with
    | some target =>
      .external target fun event input _ d => (d.1, d.2.1, M.runAction r.action event input d.2.2)
    | none => .internal fun event input _ d => (d.1, M.runAction r.action event input d.2)

/-- A hook that calls actions one after the other. -/
def hook (names : List String) (input : σ.InPorts) : Hook (headerSignature σ) :=
  fun d => (d.1, names.foldl (fun d name => M.action name none input d) d.2)

end Meaning

/-- The timing of the event types that the emitter prints for time triggers. -/
def eventTiming (ir : FsmIr) (event : String) : Option (ℕ × Bool) :=
  ir.transitions.findSome? fun t =>
    match t.trigger with
    | .time durationMs periodic dynamicExpression =>
      if eventType t = event then
        some (if 0 < durationMs then durationMs.toNat else if dynamicExpression ≠ "" then 1000 else 0,
          decide (0 < durationMs) && periodic)
      else none
    | _ => none

/-- The initial state of the machine type. -/
def initialLeaf (ir : FsmIr) : String :=
  findInitialLeafSubstate ir ir.states.length
    (if ir.initialState ≠ "" then ir.initialState else ((ir.states.head?.map (·.name)).getD "Idle"))

/-- The machine type of a generated header. -/
def generated {σ : Signature} {ir : FsmIr} (h : Hierarchy ir) (M : Meaning σ) :
    Program (headerSignature σ) where
  rows := (emitTransitionTable ir).map M.row
  initial := initialLeaf ir
  parent := parentOf ir
  depth := h.depth
  depth_lt := h.depth_lt
  name := id
  typeName := id
  parentText := parentOf ir
  fresh := fun _ => ()
  onEnter := fun s _ => M.hook (((ir.findState s).map fun n => n.entryActions.map (·.name)).getD [])
  onExit := fun s _ => M.hook (((ir.findState s).map fun n => n.exitActions.map (·.name)).getD [])
  doActivity := fun s => M.hook (((ir.findState s).bind (·.doActivity)).toList.filter (· ≠ ""))
  deferredEvents := fun s => ((ir.findState s).map (·.deferredEvents)).filter (· ≠ [])
  isTimed := fun e => (eventTiming ir e).isSome
  timing := eventTiming ir
  isTimed_of_timing := fun _ h => h
  anonymous := "::fsm::anonymous_event"
  deferredCapacity_pos := Nat.succ_pos 15

variable {σ : Signature} {ir : FsmIr} (h : Hierarchy ir) (M : Meaning σ)

theorem isChain_generated (s : String) : IsChain (parentOf ir) s ((generated h M).chain s) :=
  (generated h M).isChain_chain s

theorem isSubstateOf_generated {s super : String} :
    (generated h M).isSubstateOf s super = true ↔ super ∈ (generated h M).chain s := by
  constructor
  · intro hsub
    unfold Program.isSubstateOf at hsub
    rw [Program.chain_eq_cons, List.mem_cons]
    simp only [Bool.or_eq_true, decide_eq_true_eq, List.any_eq_true, Option.any_eq_true] at hsub
    rcases hsub with (rfl | ⟨a, ha, rfl | hname⟩) | ⟨p, hp, hname⟩
    · exact Or.inl rfl
    · exact Or.inr ha
    · rw [show super = a from hname]
      exact Or.inr ha
    · rw [show super = p from hname.elim id id, Program.ancestors_of_some _ hp]
      exact Or.inr ((generated h M).self_mem_chain p)
  · exact Program.isSubstateOf_of_mem _

end Fsmc.Emitter
