/-
# Fsmc.Backend.SpscFsm — the queued wrapper of a machine.

Events are posted into a bounded queue and taken out of it one at a time. A consumer operation raises the
sequence counter, calls the machine, publishes the index of the state and raises the counter again. Events
are dispatched directly, so that an event that the active state defers is lost.
-/
import Fsmc.Backend.Operations
import Fsmc.Lib.Runs

namespace Fsmc.Backend

open Machine

variable (σ : Signature)

/-- `spsc_fsm`, with its history: the events that were accepted, those that were taken out with their ports,
and the registers behind every call of the machine, with the sequence counter at that time. -/
structure SpscFsm where
  fsm : Machine σ
  queue : List (Event σ) := []
  stateIndex : ℕ
  seq : ℕ := 0
  accepted : List (Event σ) := []
  drained : List (Event σ × Ports σ) := []
  trace : List (ℕ × σ.Registers) := []

inductive QueueOp where
  | post (event : Event σ)
  | processOne (ports : Ports σ)

variable {σ}

namespace Program

variable (P : Program σ)

/-- The index of the active state in the variant. -/
def stateIndex (m : Machine σ) : ℕ := P.states.idxOf m.state

/-- The wrapper of a machine that is constructed. -/
def wrap (m : Machine σ) : SpscFsm σ := { fsm := m, stateIndex := P.stateIndex m, trace := [(0, m.reg)] }

/-- The registers behind every new call. -/
def writes (seq : ℕ) (m m' : Machine σ) : List (ℕ × σ.Registers) :=
  (m'.log.drop m.log.length).map fun entry => (seq, entry.reg)

/-- An operation between two increments of `seq_`. -/
def bracket (w : SpscFsm σ) (operation : Machine σ → Machine σ) : SpscFsm σ :=
  let seq := (w.seq + 1) % wrap32
  let m := operation w.fsm
  { w with
    fsm := m
    stateIndex := P.stateIndex m
    seq := (seq + 1) % wrap32
    trace := w.trace ++ writes seq w.fsm m }

def post (queueCapacity : ℕ) (w : SpscFsm σ) (event : Event σ) : SpscFsm σ :=
  if w.queue.length < queueCapacity then
    { w with queue := w.queue ++ [event], accepted := w.accepted ++ [event] }
  else w

def processOne (w : SpscFsm σ) (ports : Ports σ) : SpscFsm σ :=
  match w.queue with
  | [] => w
  | event :: rest =>
    P.bracket { w with queue := rest, drained := w.drained ++ [(event, ports)] }
      fun m => (P.dispatchDirect (withPorts m ports) event (inPorts ports)).1

def queueStep (queueCapacity : ℕ) (w : SpscFsm σ) : QueueOp σ → SpscFsm σ
  | .post event => post queueCapacity w event
  | .processOne ports => P.processOne w ports

/-! ## The plain machine -/

/-- The wrapper has taken out the events in the order in which they were accepted, and its machine is as if
they had been dispatched. -/
def Refines (initial : Machine σ) (w : SpscFsm σ) : Prop :=
  w.drained.map (·.1) ++ w.queue = w.accepted ∧
    w.fsm.state = (w.drained.foldl P.dispatchPorts initial).state ∧
    w.fsm.reg = (w.drained.foldl P.dispatchPorts initial).reg ∧
    w.fsm.history = (w.drained.foldl P.dispatchPorts initial).history ∧
    w.fsm.deferred = (w.drained.foldl P.dispatchPorts initial).deferred

/-- The wrapper refines the plain machine. -/
def QueueRefines : Prop :=
  ∀ queueCapacity initial value reg srv, ∀ ops : List (QueueOp σ),
    P.Refines (P.construct initial value reg srv)
      (ops.foldl (P.queueStep queueCapacity) (P.wrap (P.construct initial value reg srv)))

/-- No row takes an event, and the active state defers it. -/
def Defers (m : Machine σ) (event : Event σ) : Prop :=
  P.hasDeferred = true ∧ P.isDeferredEvent m.state event.type = true ∧
    P.rows.any (P.applies m.state event.type) = false

instance (m : Machine σ) (event : Event σ) : Decidable (P.Defers m event) := inferInstanceAs (Decidable (_ ∧ _))

/-- The next event to be taken out is not one that the active state defers. -/
def TakesNext (w : SpscFsm σ) : QueueOp σ → Prop
  | .post _ => True
  | .processOne _ => ∀ event ∈ w.queue.head?, ¬ P.Defers w.fsm event

instance (w : SpscFsm σ) : ∀ op, Decidable (P.TakesNext w op)
  | .post _ => isTrue trivial
  | .processOne _ => inferInstanceAs (Decidable (∀ event ∈ w.queue.head?, ¬ P.Defers w.fsm event))

/-! ## One event -/

theorem deferred_executeExternal (m : Machine σ) (event : Event σ) (input : σ.InPorts) (index : ℕ)
    (target : σ.State) (action : σ.Value × σ.Value × Data σ → σ.Value × σ.Value × Data σ) :
    (P.executeExternal m event input index target action).deferred = m.deferred := by
  have hexit : ∀ m : Machine σ, (P.exitStates m event input target).deferred = m.deferred := fun m =>
    P.performAll_frame (·.deferred) (fun _ _ _ _ => rfl) _ _ _ _
  have henter : ∀ m' : Machine σ, (P.enterStates m' event input m.state).deferred = m'.deferred := fun m' =>
    P.performAll_frame (·.deferred) (fun _ _ _ _ => rfl) _ _ _ _
  unfold executeExternal
  dsimp only
  rw [henter]
  show (P.exitStates _ event input target).deferred = _
  rw [hexit]
  unfold recordLeaving
  split <;> rfl

theorem deferred_dispatchDirect (m : Machine σ) (event : Event σ) (input : σ.InPorts) :
    (P.dispatchDirect m event input).1.deferred = m.deferred := by
  rcases P.dispatchDirect_eq m event input with ⟨row, -, heq⟩ | ⟨-, heq, -⟩
  · rw [heq]
    unfold execute
    cases row.1.effect with
    | external target action => exact P.deferred_executeExternal m event input row.2 target _
    | internal action => rfl
  · rw [heq]

theorem deferred_construct (initial : σ.State) (value : σ.Value) (reg : σ.Registers) (srv : σ.Services) :
    (P.construct initial value reg srv).deferred = [] :=
  P.performAll_frame (·.deferred) (fun _ _ _ _ => rfl) _ _ _ _

variable {event : Event σ} {m : Machine σ} {initial : Machine σ}

theorem dispatchDirect_of_defers (h : P.Defers m event) (input : σ.InPorts) :
    P.dispatchDirect m event input = (m, .unhandled) := by
  have hnone : P.selected m event input = none := by
    unfold selected
    rw [List.find?_eq_none]
    intro row hrow
    have hno := List.any_eq_false.mp h.2.2 row.1 (List.fst_mem_of_mem_zipIdx hrow)
    simp [hno]
  unfold dispatchDirect
  rw [hnone]
  simp only [h.2.2, Bool.false_eq_true, if_false]

theorem dispatch_of_not_defers (hdeferred : m.deferred = [])
    (h : ¬ P.Defers m event) (input : σ.InPorts) :
    (P.dispatch m event input).1 = (P.dispatchDirect m event input).1 := by
  have hqueue := P.deferred_dispatchDirect m event input
  rw [hdeferred] at hqueue
  unfold dispatch
  dsimp only
  split
  · rename_i hunhandled
    split
    · rename_i hboth
      obtain ⟨hsame, hnone⟩ := P.dispatchDirect_of_unhandled hunhandled
      rw [hsame, Bool.and_eq_true] at hboth
      exact absurd ⟨hboth.1, hboth.2, hnone⟩ h
    · rfl
  · split
    · rw [hqueue]
      rfl
    · rfl
  · rfl

theorem deferred_dispatch_of_defers (hdeferred : m.deferred = [])
    (h : P.Defers m event) (input : σ.InPorts) : (P.dispatch m event input).1.deferred = [event] := by
  unfold dispatch
  rw [P.dispatchDirect_of_defers h]
  simp only [h.1, h.2.1, Bool.and_self, if_true]
  unfold deferEvent
  rw [hdeferred, List.length_nil, if_pos P.deferredCapacity_pos]
  rfl

/-! ## The queue -/

/-- What runs keep as long as no event is deferred: the machines are the same and nothing waits. -/
structure SameMachine (initial : Machine σ) (w : SpscFsm σ) : Prop where
  inOrder : w.drained.map (·.1) ++ w.queue = w.accepted
  same : w.fsm = w.drained.foldl P.dispatchPorts initial
  nothing : w.fsm.deferred = []

variable {P}

theorem SameMachine.refines {w : SpscFsm σ} (h : P.SameMachine initial w) :
    P.Refines initial w := by
  unfold Refines
  rw [← h.same]
  exact ⟨h.inOrder, rfl, rfl, rfl, rfl⟩

theorem sameMachine_queueStep {queueCapacity : ℕ} {w : SpscFsm σ}
    (hw : P.SameMachine initial w) (op : QueueOp σ) (hop : P.TakesNext w op) :
    P.SameMachine initial (P.queueStep queueCapacity w op) := by
  cases op with
  | post event =>
    unfold queueStep post
    dsimp only
    split
    · exact ⟨by rw [← List.append_assoc, hw.inOrder], hw.same, hw.nothing⟩
    · exact hw
  | processOne ports =>
    unfold queueStep processOne
    dsimp only
    cases hqueue : w.queue with
    | nil => exact hw
    | cons event rest =>
      have hnot : ¬ P.Defers w.fsm event := hop event (by rw [hqueue]; rfl)
      have hinOrder := hw.inOrder
      rw [hqueue] at hinOrder
      refine ⟨?_, ?_, ?_⟩
      · show (w.drained ++ [(event, ports)]).map (·.1) ++ rest = w.accepted
        rw [List.map_append, List.append_assoc]
        exact hinOrder
      · show (P.dispatchDirect (withPorts w.fsm ports) event (inPorts ports)).1 =
          (w.drained ++ [(event, ports)]).foldl P.dispatchPorts initial
        rw [List.foldl_append, ← hw.same]
        exact (P.dispatch_of_not_defers (m := withPorts w.fsm ports) hw.nothing hnot _).symm
      · exact (P.deferred_dispatchDirect _ _ _).trans hw.nothing

/-- The wrapper refines the plain machine all along a run if and only if no event is taken out while no row
takes it and the active state defers it. -/
theorem refines_iff (queueCapacity : ℕ) (initial : σ.State) (value : σ.Value) (reg : σ.Registers)
    (srv : σ.Services) (ops : List (QueueOp σ)) :
    (∀ pre, pre <+: ops → P.Refines (P.construct initial value reg srv)
        (pre.foldl (P.queueStep queueCapacity) (P.wrap (P.construct initial value reg srv)))) ↔
      Runs.Along (P.queueStep queueCapacity) P.TakesNext (P.wrap (P.construct initial value reg srv)) ops := by
  have hrefines : ∀ w : SpscFsm σ, P.SameMachine (P.construct initial value reg srv) w →
      P.Refines (P.construct initial value reg srv) w := fun w hw => hw.refines
  refine Runs.along_iff hrefines (fun w op hw hop => sameMachine_queueStep hw op hop) ?_ ops _
    ⟨rfl, rfl, P.deferred_construct initial value reg srv⟩
  intro w op hw hgood
  cases op with
  | post event => trivial
  | processOne ports =>
    intro event hevent hdefers
    obtain ⟨rest, hqueue⟩ : ∃ rest, w.queue = event :: rest := ⟨_, (List.eq_cons_of_mem_head? hevent)⟩
    -- The event is gone from the wrapper, but waits in the plain machine.
    have hlost := hgood.2.2.2.2
    unfold queueStep processOne bracket at hlost
    rw [hqueue] at hlost
    dsimp only at hlost
    rw [List.foldl_append, ← hw.same, deferred_dispatchDirect] at hlost
    have hkept :=
      P.deferred_dispatch_of_defers (m := withPorts w.fsm ports) hw.nothing hdefers (inPorts ports)
    have hnil : (withPorts w.fsm ports).deferred = [] := hw.nothing
    rw [hnil] at hlost
    exact absurd (hlost.trans hkept) (List.cons_ne_nil _ _).symm

end Program

/-! ## A deferred event -/

/-- State 0 defers event 1, which state 1 takes; event 2 leads from 0 to 1. -/
def deferring : Program Signature.small :=
  { Program.plain with
    rows :=
      [⟨0, 2, fun _ _ _ _ _ _ _ => true, .external 1 fun _ _ _ x => x⟩,
        ⟨1, 1, fun _ _ _ _ _ _ _ => true, .external 2 fun _ _ _ x => x⟩]
    deferredEvents := fun s => if s = 0 then some [1] else none }

/-- The event that is deferred is replayed by the plain machine and lost by the wrapper. -/
theorem deferring_not_queueRefines : ¬ deferring.QueueRefines := by
  intro h
  have hstate := (h 2 0 () 0 () [.post ⟨1, ()⟩, .post ⟨2, ()⟩, .processOne none, .processOne none]).2.1
  exact absurd hstate (by decide +kernel)

end Fsmc.Backend
