/-
# Fsmc.Backend.Published — what readers on other threads see of a queued machine.

Readers see the index of the state and a sequence counter that is odd while registers may change. Every
consumer operation but one keeps to it: a tick calls the machine outside the increments and publishes nothing.
-/
import Mathlib.Algebra.Ring.Parity
import Mathlib.Data.List.Chain
import Fsmc.Backend.SpscFsm

namespace Fsmc.Backend

open Machine

variable {σ : Signature}

namespace Machine

/-- From one machine to a later one, calls are added to the log, and the registers are those behind the last
of them. -/
def Logged (m m' : Machine σ) : Prop :=
  ∃ new, m'.log = m.log ++ new ∧ m'.reg = (new.getLast?.map (·.reg)).getD m.reg

theorem Logged.refl (m : Machine σ) : m.Logged m := ⟨[], (List.append_nil _).symm, rfl⟩

theorem Logged.trans {m₁ m₂ m₃ : Machine σ} (h : m₁.Logged m₂) (h' : m₂.Logged m₃) : m₁.Logged m₃ := by
  obtain ⟨new, hlog, hreg⟩ := h
  obtain ⟨new', hlog', hreg'⟩ := h'
  refine ⟨new ++ new', by rw [hlog', hlog, List.append_assoc], ?_⟩
  rw [hreg', List.getLast?_append]
  cases new'.getLast? with
  | none => exact hreg
  | some entry => rfl

theorem Logged.single {m m' : Machine σ} {call : Call σ} (h : m'.log = m.log ++ [⟨call, m'.reg⟩]) :
    m.Logged m' := ⟨_, h, rfl⟩

end Machine

namespace Program

variable (P : Program σ)

/-! ## The log of an operation -/

theorem logged_performAll (call : σ.State → Call σ) (hook : σ.State → Hook σ) (states : List σ.State) :
    ∀ m : Machine σ, m.Logged (P.performAll call hook m states) := by
  unfold performAll
  induction states with
  | nil => exact Logged.refl
  | cons s states ih =>
    intro m
    have hfirst : m.Logged (m.perform (call s) (hook s) (P.fresh s)).1 := Logged.single rfl
    exact hfirst.trans (ih _)

variable (m : Machine σ)

theorem logged_exitStates (event : Event σ) (input : σ.InPorts) (target : σ.State) :
    m.Logged (P.exitStates m event input target) := by
  have hleaf : m.Logged (m.performCurrent (.exit m.state) (P.onExit m.state event input)) := Logged.single rfl
  exact hleaf.trans (P.logged_performAll _ _ _ _)

theorem logged_enterStates (event : Event σ) (input : σ.InPorts) (source : σ.State) :
    m.Logged (P.enterStates m event input source) :=
  (P.logged_performAll _ _ _ _).trans (Logged.single rfl)

theorem logged_executeExternal (event : Event σ) (input : σ.InPorts) (index : ℕ)
    (target : σ.State) (action : σ.Value × σ.Value × Data σ → σ.Value × σ.Value × Data σ) :
    m.Logged (P.executeExternal m event input index target action) := by
  have hrecord : m.Logged (P.recordLeaving m) := by
    unfold recordLeaving
    split
    · exact ⟨[], (List.append_nil _).symm, rfl⟩
    · exact Logged.refl m
  have hact : ∀ left : Machine σ, left.Logged (P.actBetween left index target action).1 := fun _ =>
    Logged.single rfl
  have hset : ∀ (acted : Machine σ) value, acted.Logged (P.setCurrentState acted target value) := fun _ _ =>
    Logged.single rfl
  exact (((hrecord.trans (P.logged_exitStates _ event input target)).trans (hact _)).trans (hset _ _)).trans
    (P.logged_enterStates _ event input m.state)

theorem logged_dispatchDirect (event : Event σ) (input : σ.InPorts) :
    m.Logged (P.dispatchDirect m event input).1 := by
  rcases P.dispatchDirect_eq m event input with ⟨row, -, heq⟩ | ⟨-, heq, -⟩
  · rw [heq]
    unfold execute
    cases row.1.effect with
    | external target action => exact P.logged_executeExternal m event input row.2 target _
    | internal action => exact Logged.single rfl
  · rw [heq]
    exact Logged.refl m

theorem stable_logged : P.Stable m.Logged where
  direct := fun m' event input h => h.trans (P.logged_dispatchDirect m' event input)
  activity := by
    intro m' input h
    have hcall : m'.Logged (m'.performCurrent (.activity m'.state) (P.doActivity m'.state input)) :=
      Logged.single rfl
    exact h.trans hcall
  advance := fun _ _ h => h
  ports := fun _ _ h => h
  deferred := fun _ _ h => h
  residence := fun _ _ h => h
  violation := fun _ _ h => h

theorem logged_enterInitialState : m.Logged (P.enterInitialState m) := by
  have habove : m.Logged _ := P.logged_performAll .enter
    (fun s => P.onEnter s (.ofType P.anonymous) default) (P.initialEnterCalls m.state) (withoutPorts m)
  exact habove.trans (Logged.single rfl)

theorem logged_reset (reg : σ.Registers) : m.Logged (P.reset m reg) := by
  refine Logged.trans ?_ (P.logged_enterInitialState _)
  exact Logged.single rfl

/-! ## Consumer operations -/

variable (σ) in
/-- An operation of the consumer, or a post. -/
inductive ConsumerOp where
  | queue (op : QueueOp σ)
  | step (dt : Option ℕ) (ports : Ports σ)
  | tick (deltaMs : ℕ)
  | reset (reg : Option σ.Registers)

/-- `step` with or without a duration. -/
def stepFor (m : Machine σ) (dt : Option ℕ) (ports : Ports σ) : Machine σ :=
  match dt with
  | none => P.stepPorts m ports
  | some deltaMs => P.stepPorts (P.tick m deltaMs).1 ports

/-- What an operation does. Only `tick` is not between two increments. -/
def consumerStep (queueCapacity : ℕ) (w : SpscFsm σ) : ConsumerOp σ → SpscFsm σ
  | .queue op => P.queueStep queueCapacity w op
  | .step dt ports => P.bracket w fun m => P.stepFor m dt ports
  | .tick deltaMs =>
    let m := (P.tick w.fsm deltaMs).1
    { w with fsm := m, trace := w.trace ++ writes w.seq w.fsm m }
  | .reset reg => P.bracket { w with queue := [] } fun m => P.reset m (reg.getD default)

/-- The published index is current, the counter is even, and registers changed at odd values only. -/
structure Published (w : SpscFsm σ) : Prop where
  current : w.stateIndex = P.stateIndex w.fsm
  even : Even w.seq
  changes : w.trace.IsChain fun a b => a.2 ≠ b.2 → Odd b.1

/-- The wrapper is published after every sequence of operations. -/
def AlwaysPublished : Prop :=
  ∀ queueCapacity initial value reg srv, ∀ ops : List (ConsumerOp σ),
    P.Published (ops.foldl (P.consumerStep queueCapacity) (P.wrap (P.construct initial value reg srv)))

/-! ## The invariant -/

/-- The wrapper is published, and the last registers in the trace are the current ones. -/
structure PublishedInv (w : SpscFsm σ) : Prop extends P.Published w where
  last : ∃ seq, w.trace.getLast? = some (seq, w.fsm.reg)

variable {P}

theorem even_succ {n : ℕ} (h : Even n) : Odd ((n + 1) % wrap32) ∧ Even (((n + 1) % wrap32 + 1) % wrap32) := by
  unfold wrap32
  rw [Nat.even_iff] at h ⊢
  rw [Nat.odd_iff]
  omega

theorem writes_eq {m m' : Machine σ} (seq : ℕ) {new : List (Entry σ)} (hlog : m'.log = m.log ++ new) :
    writes seq m m' = new.map fun entry => (seq, entry.reg) := by
  unfold writes
  rw [hlog, List.drop_left]

variable {w : SpscFsm σ}

theorem last_append (h : P.PublishedInv w) {m : Machine σ} (hlog : w.fsm.Logged m) (seq : ℕ) :
    ∃ last, (w.trace ++ writes seq w.fsm m).getLast? = some (last, m.reg) := by
  obtain ⟨new, hnew, hreg⟩ := hlog
  obtain ⟨last, hlast⟩ := h.last
  rw [writes_eq seq hnew, List.getLast?_append, List.getLast?_map, hreg]
  cases new.getLast? with
  | none => exact ⟨last, hlast⟩
  | some entry => exact ⟨seq, rfl⟩

/-- An operation between two increments keeps the invariant, whatever it does. -/
theorem PublishedInv.bracket (h : P.PublishedInv w) {operation : Machine σ → Machine σ}
    (hlog : w.fsm.Logged (operation w.fsm)) : P.PublishedInv (P.bracket w operation) := by
  obtain ⟨hodd, heven⟩ := even_succ h.even
  refine ⟨⟨rfl, heven, ?_⟩, last_append h hlog _⟩
  obtain ⟨new, hnew, -⟩ := hlog
  show (w.trace ++ writes _ _ _).IsChain _
  rw [writes_eq _ hnew, List.isChain_append]
  refine ⟨h.changes, ?_, ?_⟩
  · rw [List.isChain_map]
    exact (List.Pairwise.isChain (List.pairwise_of_forall fun _ _ _ => hodd))
  · intro a _ b hb _
    obtain ⟨entry, -, rfl⟩ := List.mem_map.mp (List.mem_of_mem_head? hb)
    exact hodd

theorem PublishedInv.post (h : P.PublishedInv w) (queueCapacity : ℕ) (event : Event σ) :
    P.PublishedInv (Program.post queueCapacity w event) := by
  unfold Program.post
  split
  · exact ⟨⟨h.current, h.even, h.changes⟩, h.last⟩
  · exact h

/-! ## A tick that changes nothing a reader sees -/

variable (P) in
/-- The activity of the state leaves the registers, and for no timer that expires is there a row to execute. -/
def QuietTick (m : Machine σ) (deltaMs : ℕ) : Prop :=
  (P.doActivity m.state default (m.value, ⟨m.reg, default, m.srv⟩)).2.reg = m.reg ∧
    ∀ timerId ∈ m.timers.expiredIds deltaMs, ∀ row ∈ P.timedRow timerId,
      P.selected (P.beforeExpiry m deltaMs) (.ofType row.event) default = none

instance (m : Machine σ) (deltaMs : ℕ) : Decidable (P.QuietTick m deltaMs) :=
  inferInstanceAs (Decidable (_ = _ ∧ ∀ timerId ∈ _, ∀ row ∈ P.timedRow timerId, P.selected _ _ _ = none))

/-- Two machines that differ at most in their queues, timers, ports and invariants. -/
structure SameData (m m' : Machine σ) : Prop where
  state : m'.state = m.state
  value : m'.value = m.value
  reg : m'.reg = m.reg
  srv : m'.srv = m.srv
  history : m'.history = m.history
  log : m'.log = m.log

theorem SameData.selected {m m' : Machine σ} (h : SameData m m') (event : Event σ) (input : σ.InPorts) :
    P.selected m' event input = P.selected m event input := by
  unfold Program.selected guardPassed
  rw [h.state, h.value, h.reg, h.srv, h.history]

theorem SameData.dispatch {m m' : Machine σ} (h : SameData m m') {event : Event σ} {input : σ.InPorts}
    (hnone : P.selected m event input = none) : SameData m (P.dispatch m' event input).1 := by
  have hnone' := (h.selected event input).trans hnone
  rcases P.dispatchDirect_eq m' event input with ⟨row, hrow, -⟩ | ⟨-, hsame, hfailed⟩
  · rw [hnone'] at hrow
    cases hrow
  · unfold Program.dispatch
    dsimp only
    split
    · split
      · unfold deferEvent
        rw [hsame]
        split <;> exact ⟨h.state, h.value, h.reg, h.srv, h.history, h.log⟩
      · rw [hsame]
        exact h
    · rename_i hsuccess
      exact absurd hsuccess hfailed
    · rw [hsame]
      exact h

theorem SameData.fireExpired {m : Machine σ} (startGen : ℕ) : ∀ (ids : List ℕ) (m' : Machine σ), SameData m m' →
      (∀ timerId ∈ ids, ∀ row ∈ P.timedRow timerId, P.selected m (.ofType row.event) default = none) →
        SameData m (P.fireExpired startGen ids m').1
  | [], _, h, _ => h
  | timerId :: rest, m', h, hnone => by
    have hfirst : SameData m (P.dispatchTimedTimer m' timerId) := by
      unfold dispatchTimedTimer
      cases hrow : P.timedRow timerId with
      | none => exact h
      | some row =>
        have hports : SameData m (withoutPorts m') := ⟨h.state, h.value, h.reg, h.srv, h.history, h.log⟩
        exact hports.dispatch (hnone timerId List.mem_cons_self row hrow)
    unfold Program.fireExpired
    split
    · exact h
    · exact SameData.fireExpired startGen rest _ hfirst fun id hid => hnone id (List.mem_cons_of_mem _ hid)

theorem sameData_checkInvariants : SameData m (P.checkInvariants m) := by
  unfold checkInvariants
  split
  · exact ⟨rfl, rfl, rfl, rfl, rfl, rfl⟩
  · split <;> exact ⟨rfl, rfl, rfl, rfl, rfl, rfl⟩

theorem tick_of_quiet {m : Machine σ} {deltaMs : ℕ} (h : P.QuietTick m deltaMs) :
    (P.tick m deltaMs).1.state = m.state ∧ (P.tick m deltaMs).1.reg = m.reg ∧
      (P.tick m deltaMs).1.log = m.log ++ [⟨.activity m.state, m.reg⟩] := by
  obtain ⟨hstate, htimers, hreg, hlog⟩ := beforeExpiry_spec (P := P) m deltaMs
  rw [h.1] at hreg
  have hstart : SameData (P.beforeExpiry m deltaMs) (advanceTimers (P.beforeExpiry m deltaMs) deltaMs) :=
    ⟨rfl, rfl, rfl, rfl, rfl, rfl⟩
  have hfired := hstart.fireExpired (P := P) (P.beforeExpiry m deltaMs).timers.generation
    (m.timers.expiredIds deltaMs) _ h.2
  have hcheck := sameData_checkInvariants (P := P) (P.fireExpired (P.beforeExpiry m deltaMs).timers.generation
    (m.timers.expiredIds deltaMs) (advanceTimers (P.beforeExpiry m deltaMs) deltaMs)).1
  unfold tick
  dsimp only
  rw [htimers] at hfired hcheck ⊢
  split
  · refine ⟨?_, ?_, ?_⟩
    · rw [hcheck.state, hfired.state, hstate]
    · rw [hcheck.reg, hfired.reg, hreg]
    · rw [hcheck.log, hfired.log, hlog, hreg]
  · refine ⟨?_, ?_, ?_⟩
    · rw [hfired.state, hstate]
    · rw [hfired.reg, hreg]
    · rw [hfired.log, hlog, hreg]

/-! ## Runs -/

variable (P) in
/-- An operation is a quiet tick or not a tick. -/
def Quiet (w : SpscFsm σ) : ConsumerOp σ → Prop
  | .tick deltaMs => P.QuietTick w.fsm deltaMs
  | _ => True

instance (w : SpscFsm σ) : ∀ op, Decidable (P.Quiet w op)
  | .tick deltaMs => inferInstanceAs (Decidable (P.QuietTick w.fsm deltaMs))
  | .queue _ => isTrue trivial
  | .step _ _ => isTrue trivial
  | .reset _ => isTrue trivial

theorem publishedInv_consumerStep {queueCapacity : ℕ} (hw : P.PublishedInv w)
    (op : ConsumerOp σ) (hop : P.Quiet w op) : P.PublishedInv (P.consumerStep queueCapacity w op) := by
  cases op with
  | queue op =>
    cases op with
    | post event => exact hw.post queueCapacity event
    | processOne ports =>
      unfold consumerStep queueStep processOne
      dsimp only
      cases hqueue : w.queue with
      | nil => exact hw
      | cons event rest =>
        have hpopped :
            P.PublishedInv { w with queue := rest, drained := w.drained ++ [(event, ports)] } :=
          ⟨⟨hw.current, hw.even, hw.changes⟩, hw.last⟩
        exact hpopped.bracket (P.logged_dispatchDirect (withPorts w.fsm ports) event (inPorts ports))
  | step dt ports =>
    show P.PublishedInv (P.bracket w fun m => P.stepFor m dt ports)
    refine hw.bracket ?_
    have hlog := P.stable_logged w.fsm
    cases dt with
    | none => exact hlog.operate (Logged.refl w.fsm) (.step ports)
    | some deltaMs => exact hlog.operate (hlog.operate (Logged.refl w.fsm) (.tick deltaMs)) (.step ports)
  | tick deltaMs =>
    obtain ⟨hstate, hreg, hlog⟩ := tick_of_quiet (P := P) hop
    refine ⟨⟨?_, hw.even, ?_⟩, last_append hw ((P.stable_logged w.fsm).tick (Logged.refl w.fsm) deltaMs) _⟩
    · show w.stateIndex = P.states.idxOf (P.tick w.fsm deltaMs).1.state
      rw [hstate]
      exact hw.current
    · obtain ⟨last, hlast⟩ := hw.last
      show (w.trace ++ writes _ _ _).IsChain _
      rw [writes_eq _ hlog, List.isChain_append]
      refine ⟨hw.changes, List.isChain_singleton _, ?_⟩
      -- The one new entry has the registers that were there before.
      intro a ha b hb hne
      rw [hlast, Option.mem_some_iff] at ha
      rw [List.map_singleton, List.head?_cons, Option.mem_some_iff] at hb
      rw [← ha, ← hb] at hne
      exact absurd rfl hne
  | reset reg =>
    have hcleared : P.PublishedInv { w with queue := [] } := ⟨⟨hw.current, hw.even, hw.changes⟩, hw.last⟩
    show P.PublishedInv (P.bracket { w with queue := [] } fun m => P.reset m (reg.getD default))
    exact hcleared.bracket (P.logged_reset w.fsm (reg.getD default))

theorem publishedInv_wrap : P.PublishedInv (P.wrap m) :=
  ⟨⟨rfl, Even.zero, List.isChain_singleton _⟩, 0, rfl⟩

/-- In every run whose ticks are quiet, the wrapper is published after every operation. -/
theorem published_run (queueCapacity : ℕ) (initial : σ.State) (value : σ.Value) (reg : σ.Registers)
    (srv : σ.Services) (ops : List (ConsumerOp σ))
    (hops : Runs.Along (P.consumerStep queueCapacity) P.Quiet
      (P.wrap (P.construct initial value reg srv)) ops) :
    ∀ pre, pre <+: ops →
      P.Published (pre.foldl (P.consumerStep queueCapacity) (P.wrap (P.construct initial value reg srv))) := by
  rintro pre ⟨rest, rfl⟩
  have hstep : ∀ (w : SpscFsm σ) (op : ConsumerOp σ), P.PublishedInv w → P.Quiet w op →
      P.PublishedInv (P.consumerStep queueCapacity w op) :=
    fun _ op hw hop => publishedInv_consumerStep hw op hop
  exact (Runs.along_invariant hstep pre _ (publishedInv_wrap _)
    ((Runs.along_append pre rest _).mp hops).1).toPublished

end Program

/-! ## A timed transition -/

/-- State 0 is left for state 1 after ten milliseconds. -/
def timed : Program Signature.small :=
  { Program.plainTimed with rows := [⟨0, 1, fun _ _ _ _ _ _ _ => true, .external 1 fun _ _ _ x => x⟩] }

/-- The tick in which the timer expires leaves the old index published. -/
theorem timed_not_alwaysPublished : ¬ timed.AlwaysPublished := by
  intro h
  have hcurrent := (h 2 0 () 0 () [.tick 10]).current
  exact absurd hcurrent (by decide +kernel)

theorem timed_published : timed.Published
    ([Program.ConsumerOp.tick 5, .step (some 5) none].foldl (timed.consumerStep 2)
      (timed.wrap (timed.construct 0 () 0 ()))) :=
  Program.published_run (P := timed) 2 0 () 0 () [.tick 5, .step (some 5) none] (by decide +kernel) _
    List.prefix_rfl

end Fsmc.Backend
