/-
# Fsmc.Backend.ThreadSafe — calls of a thread-safe machine from its own actions.

`thread_safe_fsm` holds a mutex while it runs user code. Code that calls the machine again, on the same thread,
must not lock that mutex a second time: an operation registers its thread before it runs user code, and a call
from a registered thread does not lock; a nested `send` puts its event into the queue. One thread is modelled. The
turns of the loops that empty the queue are operations of their own.
-/
import Fsmc.Lib.Runs

namespace Fsmc.Backend

variable (E : Type)

/-- What user code can call. The handlers of a `send` without ports run in the call if its event is queued, and
the last one may throw. An accessor may run user code itself. `set_observer` and the other functions that set a
handler always lock. -/
inductive UserCall where
  | send (event : E) (ports : Bool) (handlers : List UserCall) (throws : Bool)
  | access (body : List UserCall)
  | setHandler

/-- What makes a machine run user code: an event that was sent or taken out of the queue, or another call. -/
inductive Trigger where
  | sent (event : E)
  | queued (event : E)
  | step
  | tick
  | reset

/-- User code starts or ends. -/
inductive Mark where
  | began (trigger : Trigger E)
  | ended (trigger : Trigger E)

/-- The members of `thread_safe_fsm`, as the thread sees them; all events that were ever queued, and a log. -/
structure ThreadSafe where
  holdsMutex : Bool := false
  dispatching : Bool := false
  depth : ℕ := 0
  queue : List E := []
  queued : List E := []
  log : List (Mark E) := []

variable {E}

namespace ThreadSafe

/-! ## Locks and registration -/

/-- `std::scoped_lock`. A thread that holds the mutex never gets it. -/
def lock (w : ThreadSafe E) : Option (ThreadSafe E) :=
  if w.holdsMutex then none else some { w with holdsMutex := true }

def unlock (w : ThreadSafe E) : ThreadSafe E := { w with holdsMutex := false }

/-- The constructor of `depth_guard`. -/
def register (w : ThreadSafe E) : ThreadSafe E := { w with dispatching := true, depth := w.depth + 1 }

def unregister (w : ThreadSafe E) : ThreadSafe E :=
  { w with depth := w.depth - 1, dispatching := if w.depth - 1 = 0 then false else w.dispatching }

def enqueue (w : ThreadSafe E) (event : E) : ThreadSafe E :=
  { w with queue := w.queue ++ [event], queued := w.queued ++ [event] }

def mark (w : ThreadSafe E) (m : Mark E) : ThreadSafe E := { w with log := w.log ++ [m] }

/-! ## User code -/

mutual

/-- A call from user code. There the thread holds the mutex, so that a call which locks it does not come back. -/
def runCall (w : ThreadSafe E) : UserCall E → Option (ThreadSafe E)
  | .send event ports handlers throws =>
    if w.dispatching then
      if ports then some (w.enqueue event)
      else do
        let w ← runCalls (w.enqueue event) handlers
        -- `handle_exception_outside_lock`
        if throws then (lock w).map unlock else some w
    else (lock w).map unlock
  | .access body =>
    if w.dispatching then runCalls w body
    else do
      let w ← lock w
      let w ← runCalls w body
      return w.unlock
  | .setHandler => (lock w).map unlock

def runCalls (w : ThreadSafe E) : List (UserCall E) → Option (ThreadSafe E)
  | [] => some w
  | call :: calls => do
    let w ← runCall w call
    runCalls w calls

end

/-! ## Operations -/

/-- The calls that user code makes, when it is started after what the log holds. -/
abbrev UserCode (E : Type) := List (Mark E) → List (UserCall E)

variable (code : UserCode E)

/-- Run user code while the mutex is held. -/
def underLock (trigger : Trigger E) (registered : Bool) (w : ThreadSafe E) : Option (ThreadSafe E) := do
  let w ← lock w
  let w := if registered then w.register else w
  let w := w.mark (.began trigger)
  let w ← runCalls w (code w.log)
  let w := w.mark (.ended trigger)
  let w := if registered then w.unregister else w
  return w.unlock

/-- `execute_dispatch_under_lock`, and the body of the `send` with ports. -/
def executeDispatch (trigger : Trigger E) (event : E) (w : ThreadSafe E) : Option (ThreadSafe E) :=
  if w.dispatching then some (w.enqueue event) else w.underLock code trigger true

inductive Op (E : Type) where
  | send (event : E)
  | processOne
  | post (event : E)
  | step
  | tick
  | reset

/-- What an operation does, if it comes back. -/
def operate (w : ThreadSafe E) : Op E → Option (ThreadSafe E)
  | .send event => w.executeDispatch code (.sent event) event
  | .processOne =>
    match w.queue with
    | [] => some w
    | event :: rest => { w with queue := rest }.executeDispatch code (.queued event) event
  | .post event => some (w.enqueue event)
  | .step => w.underLock code .step false
  | .tick => w.underLock code .tick false
  | .reset => w.underLock code .reset false

/-! ## Nested calls -/

mutual

/-- A call that comes back if its thread is registered: no handler throws, and none is set. -/
def quiet : UserCall E → Bool
  | .send _ ports handlers throws => ports || quietAll handlers && !throws
  | .access body => quietAll body
  | .setHandler => false

def quietAll : List (UserCall E) → Bool
  | [] => true
  | call :: calls => quiet call && quietAll calls

end

mutual

/-- The events that a call sends, in the order of the calls. -/
def nested : UserCall E → List E
  | .send event ports handlers _ => event :: if ports then [] else nestedAll handlers
  | .access body => nestedAll body
  | .setHandler => []

def nestedAll : List (UserCall E) → List E
  | [] => []
  | call :: calls => nested call ++ nestedAll calls

end

def enqueueAll (w : ThreadSafe E) (events : List E) : ThreadSafe E :=
  { w with queue := w.queue ++ events, queued := w.queued ++ events }

theorem enqueueAll_nil (w : ThreadSafe E) : w.enqueueAll [] = w := by
  unfold enqueueAll
  rw [List.append_nil, List.append_nil]

theorem enqueueAll_append (w : ThreadSafe E) (events events' : List E) :
    (w.enqueueAll events).enqueueAll events' = w.enqueueAll (events ++ events') := by
  unfold enqueueAll
  rw [List.append_assoc, List.append_assoc]

variable {w : ThreadSafe E}

theorem lock_of_holds (h : w.holdsMutex = true) : lock w = none := if_pos h

mutual

/-- On a registered thread, a call queues the events that it sends, or it does not come back. -/
theorem runCall_registered {w : ThreadSafe E} (hmutex : w.holdsMutex = true) (hthread : w.dispatching = true) :
    ∀ call : UserCall E, runCall w call = if quiet call then some (w.enqueueAll (nested call)) else none
  | .send event ports handlers throws => by
    unfold runCall quiet nested
    rw [if_pos hthread]
    have hevent : w.enqueue event = w.enqueueAll [event] := rfl
    cases ports with
    | true => rfl
    | false =>
      have hrest := runCalls_registered (w := w.enqueue event) hmutex hthread handlers
      simp only [Bool.false_eq_true, if_false, Option.bind_eq_bind, hrest, Bool.false_or]
      cases hquiet : quietAll handlers with
      | false => rfl
      | true =>
        simp only [if_true, Option.bind_some, Bool.true_and, hevent, enqueueAll_append]
        cases throws with
        | true =>
          have hlock : lock (w.enqueueAll ([event] ++ nestedAll handlers)) = none := lock_of_holds hmutex
          simp only [if_true, hlock]
          rfl
        | false => rfl
  | .access body => by
    unfold runCall quiet nested
    rw [if_pos hthread]
    exact runCalls_registered hmutex hthread body
  | .setHandler => by
    unfold runCall quiet
    rw [lock_of_holds hmutex]
    rfl

theorem runCalls_registered {w : ThreadSafe E} (hmutex : w.holdsMutex = true) (hthread : w.dispatching = true) :
    ∀ calls : List (UserCall E),
      runCalls w calls = if quietAll calls then some (w.enqueueAll (nestedAll calls)) else none
  | [] => by
    unfold runCalls quietAll nestedAll
    rw [enqueueAll_nil]
    rfl
  | call :: calls => by
    unfold runCalls quietAll nestedAll
    rw [runCall_registered hmutex hthread call]
    cases hcall : quiet call with
    | false => rfl
    | true =>
      have hrest := runCalls_registered (w := w.enqueueAll (nested call)) hmutex hthread calls
      simp only [if_true, Option.bind_eq_bind, Option.bind_some, hrest, Bool.true_and, enqueueAll_append]

end

theorem runCalls_unregistered (hmutex : w.holdsMutex = true) (hthread : w.dispatching = false)
    (calls : List (UserCall E)) : runCalls w calls = if calls = [] then some w else none := by
  cases calls with
  | nil => rfl
  | cons call calls =>
    have hcall : runCall w call = none := by
      cases call <;> unfold runCall <;> simp [hthread, lock_of_holds hmutex]
    unfold runCalls
    rw [hcall]
    rfl

/-! ## Runs -/

/-- The events whose dispatch out of the queue has begun. -/
def taken (log : List (Mark E)) : List E :=
  log.filterMap fun
    | .began (.queued event) => some event
    | _ => none

/-- Every trigger ends before the next one begins, and the queued events are dispatched once each, in their
order. -/
def InOrder (w : ThreadSafe E) : Prop :=
  (∃ triggers : List (Trigger E), w.log = triggers.flatMap fun t => [.began t, .ended t]) ∧
    taken w.log ++ w.queue = w.queued

/-- What a thread sees after an operation; one that does not come back changes nothing more. -/
def after (w : ThreadSafe E) (op : Op E) : ThreadSafe E := (w.operate code op).getD w

/-- What makes user code run in an operation. -/
def triggerOf (w : ThreadSafe E) : Op E → Option (Trigger E)
  | .send event => some (.sent event)
  | .processOne => w.queue.head?.map .queued
  | .post _ => none
  | .step => some .step
  | .tick => some .tick
  | .reset => some .reset

/-- The events that an operation posts, or that the user code in it sends, in the order of the calls. -/
def sends (w : ThreadSafe E) (op : Op E) : List E :=
  match op with
  | .post event => [event]
  | _ => (w.triggerOf op).toList.flatMap fun trigger => nestedAll (code (w.log ++ [.began trigger]))

/-- The operation comes back with everything in order; the events that are sent in it are queued, and it takes
the next event out of the queue if it is to do so. -/
structure Serves (w : ThreadSafe E) (op : Op E) : Prop where
  back : (w.operate code op).isSome = true
  inOrder : InOrder (w.after code op)
  queued : (w.after code op).queued = w.queued ++ w.sends code op
  next : taken (w.after code op).log =
    taken w.log ++ taken ((w.triggerOf op).toList.map .began)

/-- User code makes no call in `step`, `tick` and `reset`; in a dispatch, it sets no handler, and no handler of a
queued event throws. -/
def Harmless (w : ThreadSafe E) : Op E → Prop
  | .send event => quietAll (code (w.log ++ [.began (.sent event)])) = true
  | .processOne => ∀ event ∈ w.queue.head?, quietAll (code (w.log ++ [.began (.queued event)])) = true
  | .post _ => True
  | .step => code (w.log ++ [.began .step]) = []
  | .tick => code (w.log ++ [.began .tick]) = []
  | .reset => code (w.log ++ [.began .reset]) = []

/-- A thread outside of all operations. -/
structure Free (w : ThreadSafe E) : Prop where
  mutex : w.holdsMutex = false
  thread : w.dispatching = false
  depth : w.depth = 0

variable {code}

/-- A free thread gets the mutex, and what follows depends on the calls of the user code. -/
theorem underLock_registered (h : w.Free) (trigger : Trigger E) : w.underLock code trigger true =
      if quietAll (code (w.log ++ [Mark.began trigger])) then
        some { w.enqueueAll (nestedAll (code (w.log ++ [Mark.began trigger]))) with
          log := w.log ++ [Mark.began trigger] ++ [Mark.ended trigger] }
      else none := by
  obtain ⟨holdsMutex, dispatching, depth, queue, queued, log⟩ := w
  obtain ⟨rfl, rfl, rfl⟩ := h
  have hcalls := runCalls_registered
    (w := ⟨true, true, 1, queue, queued, log ++ [Mark.began trigger]⟩) rfl rfl (code (log ++ [Mark.began trigger]))
  have hunfold : underLock code trigger true ⟨false, false, 0, queue, queued, log⟩ =
      (runCalls ⟨true, true, 1, queue, queued, log ++ [Mark.began trigger]⟩ (code (log ++ [Mark.began trigger]))).bind
        fun w => some (w.mark (.ended trigger)).unregister.unlock := rfl
  rw [hunfold, hcalls]
  by_cases hquiet : quietAll (code (log ++ [Mark.began trigger])) = true
  · rw [if_pos hquiet, if_pos hquiet]
    rfl
  · rw [if_neg hquiet, if_neg hquiet]
    rfl

theorem underLock_unregistered (h : w.Free) (trigger : Trigger E) : w.underLock code trigger false =
      if code (w.log ++ [Mark.began trigger]) = [] then
        some { w with log := w.log ++ [Mark.began trigger] ++ [Mark.ended trigger] }
      else none := by
  obtain ⟨holdsMutex, dispatching, depth, queue, queued, log⟩ := w
  obtain ⟨rfl, rfl, rfl⟩ := h
  have hcalls := runCalls_unregistered
    (w := ⟨true, false, 0, queue, queued, log ++ [Mark.began trigger]⟩) rfl rfl (code (log ++ [Mark.began trigger]))
  have hunfold : underLock code trigger false ⟨false, false, 0, queue, queued, log⟩ =
      (runCalls ⟨true, false, 0, queue, queued, log ++ [Mark.began trigger]⟩ (code (log ++ [Mark.began trigger]))).bind
        fun w => some (w.mark (.ended trigger)).unlock := rfl
  rw [hunfold, hcalls]
  by_cases hnone : code (log ++ [Mark.began trigger]) = []
  · rw [if_pos hnone, if_pos hnone]
    rfl
  · rw [if_neg hnone, if_neg hnone]
    rfl

/-- What an operation leaves: user code was run for a trigger, or for none. -/
structure Leaves (code : UserCode E) (w : ThreadSafe E) (op : Op E) (w' : ThreadSafe E) : Prop where
  free : w'.Free
  log : w'.log = w.log ++ (w.triggerOf op).toList.flatMap fun t => [Mark.began t, .ended t]
  queue : taken ((w.triggerOf op).toList.map Mark.began) ++ w'.queue = w.queue ++ w.sends code op
  queued : w'.queued = w.queued ++ w.sends code op

theorem taken_append (log log' : List (Mark E)) : taken (log ++ log') = taken log ++ taken log' :=
  List.filterMap_append

theorem taken_flatMap (triggers : List (Trigger E)) :
    taken (triggers.flatMap fun t => [Mark.began t, .ended t]) = taken (triggers.map Mark.began) := by
  induction triggers with
  | nil => rfl
  | cons t triggers ih =>
    rw [List.flatMap_cons, taken_append, ih, List.map_cons, ← List.singleton_append, taken_append]
    cases t <;> rfl

variable {op : Op E}

theorem Leaves.next {w w' : ThreadSafe E} (h : Leaves code w op w') :
    taken w'.log = taken w.log ++ taken ((w.triggerOf op).toList.map .began) := by
  rw [h.log, taken_append, taken_flatMap]

theorem Leaves.inOrder {w w' : ThreadSafe E} (h : Leaves code w op w') (hw : InOrder w) : InOrder w' := by
  obtain ⟨⟨triggers, htriggers⟩, htaken⟩ := hw
  constructor
  · refine ⟨triggers ++ (w.triggerOf op).toList, ?_⟩
    rw [h.log, htriggers, List.flatMap_append]
  · rw [h.next, List.append_assoc, h.queue, h.queued, ← List.append_assoc, htaken]

theorem leaves_unregistered {w w' : ThreadSafe E} (h : w.Free) {trigger : Trigger E}
    (htrigger : w.triggerOf op = some trigger) (hnone : w.sends code op = [])
    (htaken : taken [Mark.began trigger] = [])
    (hw' : w' = { w with log := w.log ++ [Mark.began trigger] ++ [Mark.ended trigger] }) : Leaves code w op w' := by
  subst hw'
  refine ⟨⟨h.mutex, h.thread, h.depth⟩, ?_, ?_, ?_⟩
  · rw [htrigger]
    exact List.append_assoc _ _ _
  · rw [htrigger, hnone, List.append_nil]
    show taken [Mark.began trigger] ++ w.queue = w.queue
    rw [htaken]
    rfl
  · rw [hnone]
    exact (List.append_nil _).symm

theorem operate_spec (h : w.Free) (op : Op E) :
    (w.Harmless code op → ∃ w', w.operate code op = some w' ∧ Leaves code w op w') ∧
      (¬ w.Harmless code op → w.operate code op = none) := by
  have hunregistered : ∀ trigger : Trigger E, ∀ op, w.triggerOf op = some trigger →
      taken [Mark.began trigger] = [] → w.sends code op = nestedAll (code (w.log ++ [Mark.began trigger])) →
      w.operate code op = w.underLock code trigger false →
      (code (w.log ++ [Mark.began trigger]) = [] → ∃ w', w.operate code op = some w' ∧ Leaves code w op w') ∧
      (¬ code (w.log ++ [Mark.began trigger]) = [] → w.operate code op = none) := by
    intro trigger op htrigger htaken hsends hoperate
    rw [hoperate, underLock_unregistered h trigger]
    constructor
    · intro hnone
      rw [hnone] at hsends
      exact ⟨_, if_pos hnone, leaves_unregistered h htrigger hsends htaken rfl⟩
    · exact fun hsome => if_neg hsome
  cases op with
  | send event =>
    have hunfold : w.operate code (.send event) = w.underLock code (.sent event) true := by
      unfold operate executeDispatch
      rw [h.thread]
      rfl
    have hsends : w.sends code (.send event) = nestedAll (code (w.log ++ [Mark.began (.sent event)])) :=
      List.append_nil _
    rw [hunfold, underLock_registered h (.sent event)]
    constructor
    · intro hquiet
      refine ⟨_, if_pos hquiet, ⟨h.mutex, h.thread, h.depth⟩, List.append_assoc _ _ _, ?_, ?_⟩
      · rw [hsends]
        rfl
      · rw [hsends]
        rfl
    · exact fun hloud => if_neg hloud
  | processOne =>
    cases hqueue : w.queue with
    | nil =>
      have htrigger : w.triggerOf .processOne = none := by
        unfold triggerOf
        rw [hqueue]
        rfl
      have hsends : w.sends code .processOne = [] := by
        unfold sends
        rw [htrigger]
        rfl
      have hunfold : w.operate code .processOne = some w := by
        unfold operate
        rw [hqueue]
      refine ⟨fun _ => ⟨w, hunfold, h, ?_, ?_, ?_⟩, fun hloud => absurd ?_ hloud⟩
      · rw [htrigger]
        exact (List.append_nil _).symm
      · rw [htrigger, hsends, List.append_nil]
        rfl
      · rw [hsends, List.append_nil]
      · show ∀ event ∈ w.queue.head?, _
        rw [hqueue]
        exact fun _ hevent => by cases hevent
    | cons event rest =>
      have htrigger : w.triggerOf .processOne = some (.queued event) := by
        unfold triggerOf
        rw [hqueue]
        rfl
      have hsends : w.sends code .processOne = nestedAll (code (w.log ++ [.began (.queued event)])) := by
        unfold sends
        rw [htrigger]
        exact List.append_nil _
      have hfree : Free { w with queue := rest } := ⟨h.mutex, h.thread, h.depth⟩
      have hunfold : w.operate code .processOne =
          underLock code (.queued event) true { w with queue := rest } := by
        unfold operate executeDispatch
        rw [hqueue, h.thread]
        rfl
      have hharmless : w.Harmless code .processOne ↔
          quietAll (code (w.log ++ [.began (.queued event)])) = true := by
        show (∀ event ∈ w.queue.head?, _) ↔ _
        rw [hqueue]
        simp
      rw [hunfold, hharmless, underLock_registered hfree (.queued event)]
      constructor
      · intro hquiet
        refine ⟨_, if_pos hquiet, ⟨h.mutex, h.thread, h.depth⟩, ?_, ?_, ?_⟩
        · rw [htrigger]
          exact List.append_assoc _ _ _
        · rw [htrigger, hsends, hqueue]
          rfl
        · rw [hsends]
          rfl
      · exact fun hloud => if_neg hloud
  | post event =>
    exact ⟨fun _ => ⟨_, rfl, ⟨h.mutex, h.thread, h.depth⟩, (List.append_nil _).symm, rfl, rfl⟩,
      fun hno => absurd trivial hno⟩
  | step => exact hunregistered .step .step rfl rfl (List.append_nil _) rfl
  | tick => exact hunregistered .tick .tick rfl rfl (List.append_nil _) rfl
  | reset => exact hunregistered .reset .reset rfl rfl (List.append_nil _) rfl

theorem serves_iff (h : w.Free ∧ InOrder w) (op : Op E) : w.Serves code op ↔ w.Harmless code op := by
  have hspec : _ ∧ (¬ w.Harmless code op → w.operate code op = none) := operate_spec h.1 op
  obtain ⟨hback, hstuck⟩ := hspec
  constructor
  · intro hserves
    by_contra hno
    have hsome := hserves.back
    rw [hstuck hno] at hsome
    cases hsome
  · intro hharmless
    obtain ⟨w', heq, hleaves⟩ := hback hharmless
    have hafter : w.after code op = w' := by
      unfold after
      rw [heq]
      rfl
    refine ⟨Option.isSome_iff_exists.mpr ⟨w', heq⟩, ?_, ?_, ?_⟩
    · rw [hafter]
      exact hleaves.inOrder h.2
    · rw [hafter]
      exact hleaves.queued
    · rw [hafter]
      exact hleaves.next

/-- In a run, every operation comes back with everything in order if and only if every operation is harmless. -/
theorem serves_run (ops : List (Op E)) :
    Runs.Along (after code) (Serves code) {} ops ↔ Runs.Along (after code) (Harmless code) {} ops := by
  have hkeep : ∀ (w : ThreadSafe E) op, w.Free ∧ InOrder w → w.Harmless code op →
      (w.after code op).Free ∧ InOrder (w.after code op) := by
    intro w op hw hharmless
    obtain ⟨w', heq, hleaves⟩ := (operate_spec hw.1 op).1 hharmless
    unfold after
    rw [heq]
    exact ⟨hleaves.free, hleaves.inOrder hw.2⟩
  exact Runs.along_congr_of_invariant (fun w op hw => serves_iff hw op) hkeep ops {}
    ⟨⟨rfl, rfl, rfl⟩, ⟨[], rfl⟩, rfl⟩

/-! ## A send from a step -/

/-- The activity of the active state sends an event. -/
def sendingActivity : UserCode ℕ := fun log =>
  match log.getLast? with
  | some (.began .step) => [.send 1 false [] false]
  | _ => []

/-- `step` does not register its thread, so that the `send` locks the mutex again. -/
theorem sendingActivity_not_serves : ¬ ∀ ops, Runs.Along (after sendingActivity) (Serves sendingActivity) {} ops := by
  intro h
  exact absurd (h [.step]).1.back (by decide)

end ThreadSafe

end Fsmc.Backend
