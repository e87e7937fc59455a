/-
# Fsmc.Passes.EventQueueBound — how many events a machine may hold.

The pass adds the longest list of deferred events of a state, the emissions of the action that emits most, and
two for what arrives from outside. A run holds the events that wait to be taken, among them the signals that
its actions emitted, and the occurrences that were deferred. A step runs several actions, and a state may
defer one event many times.
-/
import Fsmc.Lib.Runs
import Fsmc.Passes.DeferredEventLowering
import Fsmc.Runtime.HookTrace

namespace Fsmc.Passes.EventQueueBound

open Fsmc.Ir Fsmc.Runtime Fsmc.Runs
open Fsmc.Passes.DeferredEventLowering (deferredIn)

/-! ## The pass -/

/-- The signal that an instruction emits. -/
def emittedSignal : ActionAstNode → Option String
  | .signalEmit op => some op.signalName
  | _ => none

/-- The signals that an action emits. -/
def emittedSignals (act : ActionSignature) : List String := act.instructions.filterMap emittedSignal

def countEmittedSignals (act : ActionSignature) : ℕ :=
  act.instructions.countP fun inst => (emittedSignal inst).isSome

/-- The largest of some numbers, and zero if there are none. -/
def largest (counts : List ℕ) : ℕ := counts.foldl max 0

def maxDeferred (ir : FsmIr) : ℕ := largest (ir.states.map fun state => state.deferredEvents.length)

def maxActionEmits (ir : FsmIr) : ℕ :=
  largest ((ir.states.flatMap fun state => state.entryActions ++ state.exitActions).map countEmittedSignals ++
    (ir.transitions.flatMap fun edge =>
      edge.transitionAction.toList ++ edge.conditionAction.toList).map countEmittedSignals)

/-- Double until a bound is reached. -/
def doubleUntil (bound : ℕ) : ℕ → ℕ → ℕ
  | 0, capacity => capacity
  | n + 1, capacity => if capacity < bound then doubleUntil bound n (capacity * 2) else capacity

/-- `power_of_two_capacity`; each turn of the loop comes closer to the bound, so that the bound is enough
fuel. -/
def staticEventQueueCapacity (ir : FsmIr) : ℕ :=
  let bound := maxDeferred ir + maxActionEmits ir + 2
  doubleUntil bound bound 2

/-- `EventQueueBoundPass::run`: the attributes that it sets. -/
def run (ir : FsmIr) : List (String × String) :=
  [("static_event_queue_capacity", toString (staticEventQueueCapacity ir)),
    ("max_deferred_events_bound", toString (maxDeferred ir)),
    ("max_burst_emits_bound", toString (maxActionEmits ir))]

theorem le_largest {counts : List ℕ} {n : ℕ} (h : n ∈ counts) : n ≤ largest counts := by
  unfold largest
  rw [List.foldl_max]
  have := List.le_max?_getD_of_mem (k := 0) h
  omega

theorem le_doubleUntil (bound : ℕ) : ∀ n capacity : ℕ, 0 < capacity → bound ≤ capacity + n →
    bound ≤ doubleUntil bound n capacity
  | 0, capacity, _, h => h
  | n + 1, capacity, hpos, h => by
    unfold doubleUntil
    split
    · exact le_doubleUntil bound n (capacity * 2) (by omega) (by omega)
    · omega

theorem le_staticEventQueueCapacity (ir : FsmIr) :
    maxDeferred ir + maxActionEmits ir + 2 ≤ staticEventQueueCapacity ir :=
  le_doubleUntil _ _ 2 (by decide) (Nat.le_add_left _ _)

/-! ## The events that a run holds -/

/-- The innermost active state, the events that wait to be taken, and the deferred ones. -/
structure EventQueue where
  leaf : String
  pending : List String
  deferred : List String

def EventQueue.held (q : EventQueue) : ℕ := q.pending.length + q.deferred.length

/-- The signals that actions emit, in their order. -/
def signals (acts : List ActionSignature) : List String := acts.flatMap emittedSignals

def stepSignals (ir : FsmIr) (q : EventQueue) (t : TransitionEdge) (ds : List String) : List String :=
  signals (stepActions ir q.leaf t ds)

/-- What may happen next: the environment adds events; the first event that waits makes a transition fire, or
is deferred or discarded; a deferred one makes a transition fire; or one fires without an event. -/
inductive QueueOp where
  | arrive (events : List String)
  | fire (t : TransitionEdge) (ds : List String)
  | defer
  | discard
  | redeliver (event : String) (t : TransitionEdge) (ds : List String)
  | complete (t : TransitionEdge) (ds : List String)

def next (ir : FsmIr) (q : EventQueue) : QueueOp → EventQueue
  | .arrive events => { q with pending := q.pending ++ events }
  | .fire t ds =>
    { q with leaf := after q.leaf t ds, pending := q.pending.tail ++ stepSignals ir q t ds }
  | .defer => { q with pending := q.pending.tail, deferred := q.deferred ++ q.pending.head?.toList }
  | .discard => { q with pending := q.pending.tail }
  | .redeliver event t ds =>
    { leaf := after q.leaf t ds, pending := q.pending ++ stepSignals ir q t ds
      deferred := q.deferred.erase event }
  | .complete t ds =>
    { q with leaf := after q.leaf t ds, pending := q.pending ++ stepSignals ir q t ds }

/-- When it may happen. The environment waits until the step has run to completion, and adds at most two
events; what guards allow is left open. -/
def Enabled (ir : FsmIr) (q : EventQueue) : QueueOp → Prop
  | .arrive events => q.pending = [] ∧ events.length ≤ 2
  | .fire t ds =>
    t ∈ ir.transitions ∧ q.pending.head? = some t.getTriggerName ∧ Fires ir q.leaf t ds
  | .defer => ∃ e, q.pending.head? = some e ∧ ∃ s ∈ chain ir q.leaf, e ∈ deferredIn ir s
  | .discard => ∃ e, q.pending.head? = some e ∧ ∀ s ∈ chain ir q.leaf, e ∉ deferredIn ir s
  | .redeliver event t ds =>
    t ∈ ir.transitions ∧ event ∈ q.deferred ∧ event = t.getTriggerName ∧ Fires ir q.leaf t ds
  | .complete t ds =>
    t ∈ ir.transitions ∧ t.event = "" ∧ (∀ name, t.trigger ≠ .signal name) ∧ Fires ir q.leaf t ds

/-- The queue when the initial state has been entered. -/
def begins (ir : FsmIr) (ds : List String) : EventQueue where
  leaf := leafOf (initialName ir) ds
  pending := signals (startActions ir ds)
  deferred := []

/-- No run from the initial state ever holds more events than the capacity. -/
def QueueBounded (ir : FsmIr) : Prop :=
  ∀ ds ops, Defaults ir (initialName ir) ds → Along (next ir) (Enabled ir) (begins ir ds) ops →
    (ops.foldl (next ir) (begins ir ds)).held ≤ staticEventQueueCapacity ir

/-! ## When the capacity is enough -/

/-- The signals of a step and what still waits fit what one action emits and the two events from outside. -/
def BurstFits (ir : FsmIr) (waiting emitted : List String) : Prop :=
  waiting.length + emitted.length ≤ maxActionEmits ir + 2

/-- One state defers each of these events, and each waits once. -/
def DeferredOnce (ir : FsmIr) (events : List String) : Prop :=
  events.Nodup ∧ ∃ n ∈ ir.states, ∀ e ∈ events, e ∈ n.deferredEvents

instance (ir : FsmIr) (waiting emitted : List String) : Decidable (BurstFits ir waiting emitted) :=
  inferInstanceAs (Decidable (_ ≤ _))

instance (ir : FsmIr) (events : List String) : Decidable (DeferredOnce ir events) :=
  inferInstanceAs (Decidable (_ ∧ _))

/-- What the bound takes for granted about a step. -/
def Foreseen (ir : FsmIr) (q : EventQueue) : QueueOp → Prop
  | .arrive _ => True
  | .fire t ds => BurstFits ir q.pending.tail (stepSignals ir q t ds)
  | .defer => DeferredOnce ir (q.deferred ++ q.pending.head?.toList)
  | .discard => True
  | .redeliver _ t ds => BurstFits ir q.pending (stepSignals ir q t ds)
  | .complete t ds => BurstFits ir q.pending (stepSignals ir q t ds)

instance (ir : FsmIr) (q : EventQueue) : ∀ op, Decidable (Foreseen ir q op)
  | .arrive _ | .discard => inferInstanceAs (Decidable True)
  | .fire _ _ | .redeliver _ _ _ | .complete _ _ => inferInstanceAs (Decidable (BurstFits _ _ _))
  | .defer => inferInstanceAs (Decidable (DeferredOnce _ _))

variable {ir : FsmIr}

theorem DeferredOnce.length_le {events : List String} (h : DeferredOnce ir events) :
    events.length ≤ maxDeferred ir := by
  obtain ⟨hnodup, n, hn, hdeclared⟩ := h
  calc events.length
      ≤ n.deferredEvents.length := (hnodup.subperm hdeclared).length_le
    _ ≤ maxDeferred ir := le_largest (List.mem_map_of_mem hn)

/-- What foreseen steps keep. -/
structure Fits (ir : FsmIr) (q : EventQueue) : Prop where
  pending : q.pending.length ≤ maxActionEmits ir + 2
  deferred : q.deferred.length ≤ maxDeferred ir

theorem Fits.held_le {q : EventQueue} (h : Fits ir q) : q.held ≤ staticEventQueueCapacity ir := by
  have hcapacity := le_staticEventQueueCapacity ir
  have hpending := h.pending
  have hdeferred := h.deferred
  unfold EventQueue.held
  omega

theorem Fits.next {q : EventQueue} {op : QueueOp} (h : Fits ir q) (henabled : Enabled ir q op)
    (hforeseen : Foreseen ir q op) : Fits ir (next ir q op) := by
  have htail : q.pending.tail.length ≤ maxActionEmits ir + 2 :=
    (List.tail_sublist _).length_le.trans h.pending
  cases op with
  | arrive events =>
    -- nothing waits, so that only the two events from outside do afterwards
    obtain ⟨hempty, htwo⟩ := henabled
    refine ⟨?_, h.deferred⟩
    show (q.pending ++ events).length ≤ _
    rw [hempty, List.nil_append]
    exact htwo.trans (Nat.le_add_left _ _)
  | fire t ds =>
    refine ⟨?_, h.deferred⟩
    show (q.pending.tail ++ stepSignals ir q t ds).length ≤ _
    rw [List.length_append]
    exact hforeseen
  -- one state declares all that is deferred then, and no event is among it twice
  | defer => exact ⟨htail, hforeseen.length_le⟩
  | discard => exact ⟨htail, h.deferred⟩
  | redeliver event t ds =>
    refine ⟨?_, (List.length_erase_le ..).trans h.deferred⟩
    show (q.pending ++ stepSignals ir q t ds).length ≤ _
    rw [List.length_append]
    exact hforeseen
  | complete t ds =>
    refine ⟨?_, h.deferred⟩
    show (q.pending ++ stepSignals ir q t ds).length ≤ _
    rw [List.length_append]
    exact hforeseen

/-- A machine that defers a job while it is busy, and says when it is ready again. -/
def jobs : FsmIr where
  initialState := "Busy"
  states := [{ name := "Busy", deferredEvents := ["job"] }, { name := "Idle" }]
  transitions :=
    [{ source := "Busy", target := "Idle", event := "done"
       transitionAction :=
         some { ActionSignature.ofName "announce" with
           instructions := [.signalEmit { signalName := "ready" }] } },
     { source := "Idle", target := "Busy", event := "job" }]

theorem jobs_defaults {s : String} (hs : s = "Busy" ∨ s = "Idle") : Defaults jobs s [] := by
  rcases hs with rfl | rfl <;> exact .leaf (by decide)

/-- It defers a job, finishes the one before, and takes the deferred one. -/
def jobsOps : List QueueOp :=
  [.arrive ["job", "done"], .defer, .fire jobs.transitions[0] [], .redeliver "job" jobs.transitions[1] [],
    .discard]

/-- A machine that defers everything. -/
def hoarding : FsmIr where
  initialState := "Busy"
  states := [{ name := "Busy", deferredEvents := ["job"] }]

/-- Two occurrences of one event arrive and are deferred, three times over. -/
def hoardingOps : List QueueOp :=
  [.arrive ["job", "job"], .defer, .defer, .arrive ["job", "job"], .defer, .defer,
    .arrive ["job", "job"], .defer, .defer]

end Fsmc.Passes.EventQueueBound
