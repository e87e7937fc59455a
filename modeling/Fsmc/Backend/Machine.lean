/-
# Fsmc.Backend.Machine — the runtime engine.

A dispatch tries the rows of the table in their order and executes the first one whose source is the current
state or an ancestor, whose event is the type of the event, and whose guard holds. An external row leaves and
enters states by their hooks and arms the timers anew; an internal one only acts. The log holds every call in
the order it was made, with the registers behind it.
-/
import Fsmc.Backend.Program
import Fsmc.Backend.Timer

namespace Fsmc.Backend

variable (σ : Signature)

/-- A call that the engine makes, or the assignment of the current state or of all registers. -/
inductive Call where
  | enter (s : σ.State)
  | exit (s : σ.State)
  | action (row : ℕ)
  | activity (s : σ.State)
  | assign (s : σ.State)
  | store

/-- A call, and the registers behind it. -/
structure Entry where
  call : Call σ
  reg : σ.Registers

/-- `fsm`: the members that a later call reads, and the log. -/
structure Machine where
  state : σ.State
  value : σ.Value
  reg : σ.Registers
  out : σ.OutPorts
  srv : σ.Services
  history : List (String × String) := []
  deferred : List (Event σ) := []
  timers : TimerManager := {}
  residence : ℕ := 0
  violation : Option (String × ℕ × ℕ) := none
  log : List (Entry σ) := []

/-- In-ports and out-ports, if the caller passes any. -/
abbrev Ports := Option (σ.InPorts × σ.OutPorts)

inductive DispatchStatus where
  | success | deferred | guardRejected | unhandled
  deriving DecidableEq, Repr

variable {σ}

namespace Machine

/-- Call a hook on a state object, with what it leaves there. -/
def perform (m : Machine σ) (call : Call σ) (hook : Hook σ) (value : σ.Value) : Machine σ × σ.Value :=
  let result := hook (value, ⟨m.reg, m.out, m.srv⟩)
  ({ m with
    reg := result.2.reg
    out := result.2.out
    srv := result.2.srv
    log := m.log ++ [⟨call, result.2.reg⟩] }, result.1)

/-- Call a hook on the current state object. -/
def performCurrent (m : Machine σ) (call : Call σ) (hook : Hook σ) : Machine σ :=
  let result := m.perform call hook m.value
  { result.1 with value := result.2 }

def guardPassed (m : Machine σ) (event : Event σ) (input : σ.InPorts) (row : Row σ) : Bool :=
  row.guard event m.state m.value input m.reg m.srv m.history

end Machine

namespace Program

variable (P : Program σ)

open Machine

/-! ## Entry and exit -/

/-- The states that `call_hierarchical_on_exit` calls, from a state and its ancestors. -/
def exitCalls (target : σ.State) : List σ.State → List σ.State
  | [] => []
  | [s] => [s]
  | s :: p :: rest =>
    s :: if !P.isSubstateOf target p && P.constructible p then exitCalls target (p :: rest) else []

/-- The states that `call_ancestor_on_enter_helper` calls, from an ancestor and its ancestors. -/
def ancestorEnterCalls (current target : σ.State) : List σ.State → List σ.State
  | [] => []
  | [a] => if a ≠ target && P.constructible a then [a] else []
  | a :: p :: rest =>
    (if !P.isSubstateOf current p then ancestorEnterCalls current target (p :: rest) else []) ++
      if a ≠ target && P.constructible a then [a] else []

/-- The ancestors that `call_hierarchical_on_enter` calls before the target. -/
def enterCalls (current target : σ.State) : List σ.State :=
  match P.parent target with
  | none => []
  | some p => if !P.isSubstateOf current p then P.ancestorEnterCalls current target (P.chain p) else []

/-- The ancestors that `call_initial_hierarchical_on_enter` calls before the state. -/
def initialEnterCalls (s : σ.State) : List σ.State := (P.ancestors s).reverse.filter P.constructible

/-- Hooks of ancestors, each called on a state object of its own. -/
def performAll (call : σ.State → Call σ) (hook : σ.State → Hook σ) (m : Machine σ) (states : List σ.State) :
    Machine σ :=
  states.foldl (fun m s => (m.perform (call s) (hook s) (P.fresh s)).1) m

theorem performAll_frame {α : Type} (f : Machine σ → α)
    (hf : ∀ (m : Machine σ) call hook value, f (m.perform call hook value).1 = f m)
    (call : σ.State → Call σ) (hook : σ.State → Hook σ) (states : List σ.State) :
    ∀ m : Machine σ, f (P.performAll call hook m states) = f m := by
  unfold performAll
  induction states with
  | nil => exact fun _ => rfl
  | cons s states ih =>
    intro m
    rw [List.foldl_cons, ih, hf]

/-- `call_hierarchical_on_exit`. -/
def exitStates (m : Machine σ) (event : Event σ) (input : σ.InPorts) (target : σ.State) : Machine σ :=
  let left := m.performCurrent (.exit m.state) (P.onExit m.state event input)
  P.performAll .exit (fun s => P.onExit s event input) left (P.exitCalls target (P.chain m.state)).tail

/-- `call_hierarchical_on_enter`. -/
def enterStates (m : Machine σ) (event : Event σ) (input : σ.InPorts) (source : σ.State) : Machine σ :=
  let above := P.performAll .enter (fun s => P.onEnter s event input) m (P.enterCalls source m.state)
  above.performCurrent (.enter m.state) (P.onEnter m.state event input)

/-! ## Timers of a state -/

def armTimerForRow (s : σ.State) (timers : TimerManager) (row : Row σ × ℕ) : TimerManager :=
  match P.timing row.1.event with
  | none => timers
  | some (duration, periodic) =>
    if P.isSubstateOf s row.1.source then (timers.startTimer (row.2 + 1) duration periodic).1 else timers

/-- `refresh_timers_for_current_state`. -/
def refreshTimers (s : σ.State) (timers : TimerManager) : TimerManager :=
  P.rows.zipIdx.foldl (P.armTimerForRow s) timers.reset

/-- `set_current_state_variant`. -/
def setCurrentState (m : Machine σ) (s : σ.State) (value : σ.Value) : Machine σ :=
  { m with
    state := s
    value := value
    residence := 0
    violation := none
    timers := P.refreshTimers s m.timers
    log := m.log ++ [⟨.assign s, m.reg⟩] }

/-! ## Dispatch -/

def recordHistory (history : List (String × String)) (parent substate : String) : List (String × String) :=
  if parent = "" || substate = "" then history
  else if history.any fun entry => entry.1 = parent then
    let i := history.findIdx fun entry => entry.1 = parent
    history.modify i fun entry => (entry.1, substate)
  else if history.length < P.historyCapacity then history ++ [(parent, substate)]
  else history

/-- The entries that `record_ancestor_history` records, from a state and its ancestors. -/
def historyOf : List σ.State → List (String × String)
  | [] => []
  | [s] =>
    match P.parentText s with
    | none => []
    | some text => if text = "" then [] else [(text, P.name s)]
  | s :: p :: rest => (P.name p, P.name s) :: historyOf (p :: rest)

/-- Whether a row can take an event in a state. -/
def applies (s : σ.State) (type : σ.EventType) (row : Row σ) : Bool :=
  P.isSubstateOf s row.source && row.event = type

/-- The row that is executed, with its index. -/
def selected (m : Machine σ) (event : Event σ) (input : σ.InPorts) : Option (Row σ × ℕ) :=
  P.rows.zipIdx.find? fun row => P.applies m.state event.type row.1 && m.guardPassed event input row.1

/-- `record_ancestor_history`, for a machine with history. -/
def recordLeaving (m : Machine σ) : Machine σ :=
  if P.hasHistory then
    { m with history := (P.historyOf (P.chain m.state)).foldl (fun h e => P.recordHistory h e.1 e.2) m.history }
  else m

/-- The action of an external row, with what it leaves in the object of the target. -/
def actBetween (m : Machine σ) (index : ℕ) (target : σ.State)
    (action : σ.Value × σ.Value × Data σ → σ.Value × σ.Value × Data σ) : Machine σ × σ.Value :=
  let result := action (m.value, P.fresh target, ⟨m.reg, m.out, m.srv⟩)
  ({ m with
    value := result.1
    reg := result.2.2.reg
    out := result.2.2.out
    srv := result.2.2.srv
    log := m.log ++ [⟨.action index, result.2.2.reg⟩] }, result.2.1)

/-- The external branch of `try_index`. -/
def executeExternal (m : Machine σ) (event : Event σ) (input : σ.InPorts) (index : ℕ) (target : σ.State)
    (action : σ.Value × σ.Value × Data σ → σ.Value × σ.Value × Data σ) : Machine σ :=
  let left := P.exitStates (P.recordLeaving m) event input target
  let acted := P.actBetween left index target action
  P.enterStates (P.setCurrentState acted.1 target acted.2) event input m.state

/-- What `try_index` does for the row that is executed. -/
def execute (m : Machine σ) (event : Event σ) (input : σ.InPorts) (row : Row σ × ℕ) : Machine σ :=
  match row.1.effect with
  | .external target action => P.executeExternal m event input row.2 target (action event input m.state)
  | .internal action => m.performCurrent (.action row.2) (action event input m.state)

def dispatchDirect (m : Machine σ) (event : Event σ) (input : σ.InPorts) : Machine σ × DispatchStatus :=
  match P.selected m event input with
  | some row => (P.execute m event input row, .success)
  | none =>
    if P.rows.any (P.applies m.state event.type) then (m, .guardRejected) else (m, .unhandled)

/-- `push_back` of the deferred queue. -/
def deferEvent (m : Machine σ) (event : Event σ) : Machine σ :=
  if m.deferred.length < P.deferredCapacity then { m with deferred := m.deferred ++ [event] } else m

/-- The inner loop of `process_deferred_queue`: the first event that is handled is erased. -/
def replayOne (input : σ.InPorts) (m : Machine σ) :
    List (Event σ) → List (Event σ) → Option (Machine σ)
  | _, [] => none
  | before, event :: rest =>
    let result := P.dispatchDirect m event input
    -- one event is handled, and the caller starts over from the front of the queue
    if result.2 = .success then some { result.1 with deferred := before ++ rest }
    else replayOne input result.1 (before ++ [event]) rest

/-- `process_deferred_queue`; each turn erases an event. -/
def processDeferred (input : σ.InPorts) : ℕ → Machine σ → Machine σ
  | 0, m => m
  | n + 1, m =>
    match P.replayOne input m [] m.deferred with
    | some m' => processDeferred input n m'
    | none => m

def dispatch (m : Machine σ) (event : Event σ) (input : σ.InPorts) : Machine σ × DispatchStatus :=
  let result := P.dispatchDirect m event input
  match result.2 with
  | .unhandled =>
    if P.hasDeferred && P.isDeferredEvent result.1.state event.type then
      (P.deferEvent result.1 event, .deferred)
    else result
  | .success =>
    if P.hasDeferred then (P.processDeferred input result.1.deferred.length result.1, .success) else result
  | _ => result

/-- Calls without ports get default ones. -/
def withoutPorts (m : Machine σ) : Machine σ := { m with out := default }

/-- The out-ports that a call writes to: the caller's, or default ones. -/
def withPorts (m : Machine σ) (ports : Ports σ) : Machine σ :=
  { m with out := (ports.map (·.2)).getD default }

def inPorts (ports : Ports σ) : σ.InPorts := (ports.map (·.1)).getD default

def step (m : Machine σ) (input : σ.InPorts) : Machine σ × Bool :=
  let active := m.performCurrent (.activity m.state) (P.doActivity m.state input)
  let result := P.dispatchDirect active (.ofType P.anonymous) input
  if result.2 = .success then
    (if P.hasDeferred then P.processDeferred input result.1.deferred.length result.1 else result.1, true)
  else (result.1, false)

/-! ## Time -/

def checkInvariants (m : Machine σ) : Machine σ :=
  match P.maxStay m.state with
  | none => { m with violation := none }
  | some maxStay =>
    if maxStay < m.residence then
      { m with violation := some (P.name m.state, m.residence, maxStay) }
    else { m with violation := none }

/-- The timed row that a timer belongs to; the number of the timer of a row is the index of the row plus one. -/
def timedRow (timerId : ℕ) : Option (Row σ) :=
  if timerId = 0 then none else (P.rows[timerId - 1]?).filter fun row => (P.timing row.event).isSome

def dispatchTimedTimer (m : Machine σ) (timerId : ℕ) : Machine σ :=
  match P.timedRow timerId with
  | some row => (P.dispatch (withoutPorts m) (.ofType row.event) default).1
  | none => m

/-- The second loop of `tick`, with the timers whose expiry was handed over. -/
def fireExpired (startGen : ℕ) : List ℕ → Machine σ → Machine σ × List ℕ
  | [], m => (m, [])
  | timerId :: rest, m =>
    -- a transition has armed the timers anew, so that the rest is obsolete
    if m.timers.generation ≠ startGen then (m, [])
    else
      let fired := fireExpired startGen rest (P.dispatchTimedTimer m timerId)
      (fired.1, timerId :: fired.2)

/-- What `tick` does before timers expire. -/
def beforeExpiry (m : Machine σ) (deltaMs : ℕ) : Machine σ :=
  let aged : Machine σ :=
    if P.hasInvariants then { m with residence := (m.residence + deltaMs) % wrap64 } else m
  (withoutPorts aged).performCurrent (.activity m.state) (P.doActivity m.state default)

/-- The first loop of the timer manager's `tick`. -/
def advanceTimers (m : Machine σ) (deltaMs : ℕ) : Machine σ :=
  { m with timers := m.timers.advance deltaMs }

/-- `tick`, with the timers whose expiry was handed over. -/
def tick (m : Machine σ) (deltaMs : ℕ) : Machine σ × List ℕ :=
  let active := P.beforeExpiry m deltaMs
  let fired := P.fireExpired active.timers.generation (active.timers.expiredIds deltaMs)
    (advanceTimers active deltaMs)
  (if P.hasInvariants then P.checkInvariants fired.1 else fired.1, fired.2)

/-! ## Construction -/

def enterInitialState (m : Machine σ) : Machine σ :=
  let start := withoutPorts m
  let event : Event σ := .ofType P.anonymous
  let above := P.performAll .enter (fun s => P.onEnter s event default) start (P.initialEnterCalls m.state)
  let entered := above.performCurrent (.enter m.state) (P.onEnter m.state event default)
  { entered with
    residence := 0
    violation := none
    timers := P.refreshTimers m.state entered.timers }

def construct (initial : σ.State) (value : σ.Value) (reg : σ.Registers) (srv : σ.Services) : Machine σ :=
  P.enterInitialState
    { state := initial
      value := value
      reg := reg
      out := default
      srv := srv
      timers := .ofCapacity P.timerCapacity }

/-- `reset`, to default registers or to the given ones. -/
def reset (m : Machine σ) (reg : σ.Registers) : Machine σ :=
  P.enterInitialState
    { m with
      history := []
      deferred := []
      reg := reg
      state := P.initial
      value := P.fresh P.initial
      log := m.log ++ [⟨.store, reg⟩] }

end Program

end Fsmc.Backend
