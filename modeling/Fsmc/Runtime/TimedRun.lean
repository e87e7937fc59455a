/-
# Fsmc.Runtime.TimedRun — runs of a hierarchical machine with data and time.

At each step an event may occur, with the values that the ports have. The transition that is taken is that of
the innermost active state that has an enabled one; in one state an `else` waits for the others, and then the
priorities decide. A step that takes a transition takes no time; time passes when there is nothing to do. A
pseudostate is a state on the way and is left in a step of its own. What guards and actions do is left open.
-/
import Fsmc.Cpp.Algorithm
import Fsmc.Ir.GraphOps
import Fsmc.Runtime.HistoryMemory

namespace Fsmc.Runtime

open Fsmc.Ir Fsmc.Cpp

variable {V E : Type*}

/-! ## Situations -/

/-- A timer: the states and the kinds of time triggers have their own. -/
structure Timer where
  source : String
  durationMs : UInt64
  periodic : Bool
  dynamicExpression : String
  deriving DecidableEq

def timerOf (t : TransitionEdge) : Option Timer :=
  match t.trigger with
  | .time durationMs periodic dynamicExpression => some ⟨t.source, durationMs, periodic, dynamicExpression⟩
  | _ => none

/-- Where a machine is: its innermost active state, the variables, how long the timers have run (one that is
not running has no time), and what was active in the states that were left. -/
structure Situation (V : Type*) where
  leaf : String
  vars : String → V
  timers : Timer → Option ℕ
  memory : String → Memory

/-- What a machine meets at a step: an event, the ports, whatever else guards and actions read, and the time
that passes if there is nothing to do. -/
structure Stimulus (V E : Type*) where
  event : Option String
  ports : String → V
  payload : E
  elapsed : ℕ

/-- What the texts of a machine mean: its guards, the durations that are expressions, what a step does to the
variables by the transition that it takes, and where the variables start. -/
structure Meaning (V E : Type*) where
  guard : String → (String → V) → Stimulus V E → Bool
  duration : String → (String → V) → ℕ
  perform : String → Option TransitionEdge → String → (String → V) → Stimulus V E → String → V
  initial : String → V

/-! ## The transition that is taken -/

def guardTextOf (t : TransitionEdge) : String := t.guard.getD ""

/-- A guard that waits for the other transitions. -/
def isElseText (text : String) : Bool := text = "else" || text = "default"

/-- A guard that always holds. -/
def isOpenText (text : String) : Bool := text = "" || text = "::fsm::no_guard"

/-- What a guard text stands for: the expression that is registered under the name. -/
def guardExpression (ir : FsmIr) (text : String) : String :=
  match (ir.guards.find? fun g => g.name = text).bind (·.rawExpression) with
  | some raw => if raw = "" then text else raw
  | none => text

/-- A transition that waits for no event. -/
def waitsForNone (t : TransitionEdge) : Bool := t.getTriggerName ∈ ["", "Anonymous", "none"]

section

variable (M : Meaning V E) (ir : FsmIr) (c : Situation V) (x : Stimulus V E)

def dueAfter (k : Timer) : ℕ :=
  if k.durationMs = 0 ∧ k.dynamicExpression ≠ "" then M.duration k.dynamicExpression c.vars else k.durationMs.toNat

/-- A timer that has run for its duration. -/
def expired (k : Timer) : Bool := (c.timers k).any fun n => dueAfter M c k ≤ n

/-- The trigger of a transition is there. -/
def triggered (t : TransitionEdge) : Bool :=
  match timerOf t with
  | some k => expired M c k
  | none => waitsForNone t || x.event = some t.getTriggerName

/-- The guard of a transition holds. -/
def passes (t : TransitionEdge) : Bool :=
  isOpenText (guardTextOf t) || isElseText (guardTextOf t) || M.guard (guardExpression ir (guardTextOf t)) c.vars x

/-- A transition of a state that is enabled. -/
def enabledIn (s : String) (t : TransitionEdge) : Bool := t.source = s && triggered M c x t && passes M ir c x t

def byPriorities : List TransitionEdge :=
  stableSort (fun a b => precedence a.priority < precedence b.priority) ir.transitions

/-- The transition that a state takes. -/
def choiceIn (s : String) : Option TransitionEdge :=
  ((byPriorities ir).find? fun t => enabledIn M ir c x s t && !isElseText (guardTextOf t)).or
    ((byPriorities ir).find? (enabledIn M ir c x s))

/-- The transition that is taken. -/
def selected : Option TransitionEdge := (chain ir c.leaf).findSome? (choiceIn M ir c x)

end

/-! ## Steps -/

/-- Where a state is entered on: where it was left if it has a history, else its initial substate. -/
def entryPoint (ir : FsmIr) (memory : String → Memory) (s : String) : Option String :=
  (ir.findState s).bind fun n =>
    match memory s with
    | .child c leaf => if n.hasHistory then some (if n.hasDeepHistory then leaf else c) else defaultOf ir s
    | _ => defaultOf ir s

/-- Entering a state ends in a leaf. -/
inductive Enters (ir : FsmIr) (memory : String → Memory) : String → String → Prop
  | here {s : String} : entryPoint ir memory s = none → Enters ir memory s s
  | down {s c leaf : String} : entryPoint ir memory s = some c → Enters ir memory c leaf → Enters ir memory s leaf

/-- The states that a transition leaves. -/
def exited (ir : FsmIr) (leaf : String) (t : TransitionEdge) : List String := below ir leaf (lcaOf ir t)

/-- What is remembered after a transition. -/
def memoryAfter (ir : FsmIr) (c : Situation V) (t : TransitionEdge) : String → Memory :=
  remember ir c.leaf (exited ir c.leaf t) c.memory

/-- The timers of states that stay: a periodic timer that set a transition off goes on, another one stops. -/
def consume (M : Meaning V E) (c : Situation V) (t : TransitionEdge) (k : Timer) : Option ℕ :=
  if timerOf t = some k then (if k.periodic then (c.timers k).map (· - dueAfter M c k) else none) else c.timers k

/-- The timers after a transition between states: those of the states that are entered start. -/
def restart (M : Meaning V E) (ir : FsmIr) (c : Situation V) (t : TransitionEdge) (leaf : String) (k : Timer) :
    Option ℕ :=
  if k.source ∈ chain ir leaf then
    if k.source ∈ chain ir c.leaf ∧ k.source ∉ exited ir c.leaf t then consume M c t k else some 0
  else none

/-- The situation after a transition between states. -/
def Situation.enter (M : Meaning V E) (ir : FsmIr) (c : Situation V) (x : Stimulus V E) (t : TransitionEdge)
    (leaf : String) : Situation V where
  leaf := leaf
  vars := M.perform c.leaf (some t) leaf c.vars x
  timers := restart M ir c t leaf
  memory := memoryAfter ir c t

inductive Step (M : Meaning V E) (ir : FsmIr) (c : Situation V) (x : Stimulus V E) : Situation V → Prop
  | idle (h : selected M ir c x = none) :
      Step M ir c x
        { c with
          vars := M.perform c.leaf none c.leaf c.vars x
          timers := fun k => (c.timers k).map (· + x.elapsed) }
  | internal {t : TransitionEdge} (h : selected M ir c x = some t) (hkind : t.kind = .internal) :
      Step M ir c x
        { c with
          vars := M.perform c.leaf (some t) c.leaf c.vars x
          timers := consume M c t }
  | external {t : TransitionEdge} {leaf : String} (h : selected M ir c x = some t) (hkind : t.kind ≠ .internal)
      (henters : Enters ir (memoryAfter ir c t) t.target leaf) :
      Step M ir c x (c.enter M ir x t leaf)

structure Starts (M : Meaning V E) (ir : FsmIr) (c : Situation V) : Prop where
  leaf : Enters ir (fun _ => .never) (initialName ir) c.leaf
  vars : c.vars = M.initial
  timers : c.timers = fun k => if k.source ∈ chain ir c.leaf then some 0 else none
  memory : c.memory = fun _ => .never

theorem Enters.unique {ir : FsmIr} {memory : String → Memory} {s leaf leaf' : String}
    (h : Enters ir memory s leaf) (h' : Enters ir memory s leaf') : leaf = leaf' := by
  induction h with
  | here hs =>
    cases h' with
    | here _ => rfl
    | down hc _ => simp [hs] at hc
  | down hc _ ih =>
    cases h' with
    | here hs => simp [hs] at hc
    | down hc' h' =>
      have hsame : some _ = some _ := hc.symm.trans hc'
      cases hsame
      exact ih h'

/-- A run, in which some events may occur. -/
structure TimedRun (M : Meaning V E) (ir : FsmIr) (events : List String) where
  situation : ℕ → Situation V
  stimulus : ℕ → Stimulus V E
  starts : Starts M ir (situation 0)
  step : ∀ i, Step M ir (situation i) (stimulus i) (situation (i + 1))
  offered : ∀ i, ∀ e ∈ (stimulus i).event, e ∈ events

theorem byPriorities_of_unprioritized {ir : FsmIr} (h : ∀ t ∈ ir.transitions, t.priority = 0) :
    byPriorities ir = ir.transitions := by
  apply stableSort_of_pairwise
  apply List.pairwise_of_forall_mem_list
  intro a ha b hb
  simp [h a ha, h b hb]

/-- The run of one transition, after which nothing happens. -/
def TimedRun.once {M : Meaning V E} {ir : FsmIr} {events : List String} (c : Situation V) (x y : Stimulus V E)
    (t : TransitionEdge) (leaf : String) (hstart : Starts M ir c) (htaken : selected M ir c x = some t)
    (hkind : t.kind ≠ .internal) (henters : Enters ir (memoryAfter ir c t) t.target leaf)
    (hidle : selected M ir (c.enter M ir x t leaf) y = none) (hstill : y.elapsed = 0)
    (hkeep : ∀ vars, M.perform leaf none leaf vars y = vars) (hx : ∀ e ∈ x.event, e ∈ events)
    (hy : ∀ e ∈ y.event, e ∈ events) : TimedRun M ir events where
  situation
    | 0 => c
    | _ + 1 => c.enter M ir x t leaf
  stimulus
    | 0 => x
    | _ + 1 => y
  starts := hstart
  step
    | 0 => .external htaken hkind henters
    | _ + 1 => by
      have hstep := Step.idle hidle
      have hvars : M.perform (c.enter M ir x t leaf).leaf none (c.enter M ir x t leaf).leaf
          (c.enter M ir x t leaf).vars y = (c.enter M ir x t leaf).vars := hkeep _
      rw [hvars, hstill] at hstep
      simpa using hstep
  offered
    | 0 => hx
    | _ + 1 => hy

end Fsmc.Runtime
