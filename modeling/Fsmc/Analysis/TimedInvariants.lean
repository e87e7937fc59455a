/-
# Fsmc.Analysis.TimedInvariants — the search for timelocks.

A state with a permanence bound must have a transition that can be taken in time. The pass compares durations after
it has converted them to milliseconds in 64 bits: what is below a millisecond is cut off, and what is above the
word wraps. Here the verdict is compared with exact time.
-/
import Fsmc.Ir.FsmIr

namespace Fsmc.Analysis.TimedInvariants

open Ir

inductive TimeUnit where
  | nanoseconds | microseconds | milliseconds | seconds | minutes
  deriving DecidableEq, Repr

def toMilliseconds (val : UInt64) : TimeUnit → UInt64
  | .nanoseconds => val / 1000000
  | .microseconds => val / 1000
  | .milliseconds => val
  | .seconds => val * 1000
  | .minutes => val * 60000

/-- `TimeTrigger`, by its duration. The duration in milliseconds is computed by the constructors; the reader leaves
it zero. -/
structure TimeTrigger where
  durationValue : UInt64
  unit : TimeUnit := .milliseconds
  durationMs : UInt64 := toMilliseconds durationValue unit
  precomputed : durationMs = 0 ∨ durationMs = toMilliseconds durationValue unit := by decide

def TimeTrigger.durationInMs (t : TimeTrigger) : UInt64 :=
  if 0 < t.durationMs then t.durationMs else toMilliseconds t.durationValue t.unit

/-- `TriggerVariant`, with the units of its durations. -/
inductive Trigger where
  | signal (signalName : String)
  | time (trigger : TimeTrigger)
  | change
  | anonymous

/-- `StateTimeInvariant`, as far as the pass reads it. -/
structure StateTimeInvariant where
  duration : UInt64 := 0
  unit : TimeUnit := .milliseconds
  rawExpression : String := ""

def StateTimeInvariant.isEmpty (i : StateTimeInvariant) : Bool := i.rawExpression == "" && i.duration == 0

/-- `StateNode`, as far as the pass reads it. -/
structure TimedState where
  id : String
  name : String
  kind : StateKind := .atomic
  timeInvariant : Option StateTimeInvariant := none

/-- `TransitionEdge`, as far as the pass reads it. -/
structure TimedEdge where
  source : String
  sourceId : String := ""
  trigger : Trigger := .anonymous

/-- `FsmIr`, as far as the pass reads it. -/
structure TimedIr where
  states : List TimedState := []
  transitions : List TimedEdge := []

def resolveId (ir : TimedIr) (idOrName : String) : String :=
  match ir.states.find? (·.id = idOrName) with
  | some s => s.id
  | none =>
    match ir.states.find? (·.name = idOrName) with
    | some s => s.id
    | none => idOrName

/-- The outgoing transitions of a state. -/
def outgoing (ir : TimedIr) (state : TimedState) : List TimedEdge :=
  ir.transitions.filter fun edge =>
    resolveId ir (if edge.sourceId = "" then edge.source else edge.sourceId) = state.id

/-- Whether a transition can be taken at or before the bound. -/
def canExit (maxStayMs : UInt64) (edge : TimedEdge) : Bool :=
  match edge.trigger with
  | .signal signalName => signalName ≠ ""
  | .anonymous => true
  | .time trigger => trigger.durationInMs ≤ maxStayMs
  | .change => true

/-- The permanence bound of a state. -/
def bound (state : TimedState) : Option StateTimeInvariant := state.timeInvariant.filter fun i => !i.isEmpty

/-- The messages of `E0403`. -/
def noOutgoing (state : TimedState) (maxStayMs : UInt64) : String :=
  "Temporal deadlock (timelock): state '" ++ state.name ++ "' has permanence invariant stay <= " ++
    toString maxStayMs.toNat ++ "ms but has no outgoing transitions."

def allTooLate (state : TimedState) (maxStayMs : UInt64) : String :=
  "Temporal deadlock (timelock): state '" ++ state.name ++ "' has permanence invariant stay <= " ++
    toString maxStayMs.toNat ++ "ms, but all outgoing transitions require delay exceeding invariant bound."

/-- What is reported of a state; a state without a report is accepted. -/
def verifyState (ir : TimedIr) (state : TimedState) : Option String :=
  if state.kind = .terminate ∨ state.kind = .final then none
  else
    match bound state with
    | none => none
    | some invariant =>
      let maxStayMs := toMilliseconds invariant.duration invariant.unit
      if (outgoing ir state).isEmpty then some (noOutgoing state maxStayMs)
      else if (outgoing ir state).any (canExit maxStayMs) then none
      else some (allTooLate state maxStayMs)

/-- `TimedInvariantsVerifierPass::run`. -/
def run (ir : TimedIr) : List String × Bool :=
  let reports := ir.states.filterMap (verifyState ir)
  (reports, reports.isEmpty)

/-! ## Exact time -/

def TimeUnit.nanos : TimeUnit → ℕ
  | nanoseconds => 1
  | microseconds => 1000
  | milliseconds => 1000000
  | seconds => 1000000000
  | minutes => 60000000000

def exact (val : UInt64) (unit : TimeUnit) : ℕ := val.toNat * unit.nanos

/-- Whole milliseconds, modulo the word. -/
def rounded (nanos : ℕ) : ℕ := nanos / 1000000 % 2 ^ 64

theorem toNat_toMilliseconds (val : UInt64) (unit : TimeUnit) :
    (toMilliseconds val unit).toNat = rounded (exact val unit) := by
  have hlt := val.toNat_lt
  unfold rounded exact
  cases unit with
  | nanoseconds =>
    show (val / 1000000).toNat = val.toNat * 1 / 1000000 % 2 ^ 64
    rw [UInt64.toNat_div]
    show val.toNat / 1000000 = _
    omega
  | microseconds =>
    show (val / 1000).toNat = val.toNat * 1000 / 1000000 % 2 ^ 64
    rw [UInt64.toNat_div]
    show val.toNat / 1000 = _
    omega
  | milliseconds =>
    show val.toNat = val.toNat * 1000000 / 1000000 % 2 ^ 64
    omega
  | seconds =>
    show (val * 1000).toNat = val.toNat * 1000000000 / 1000000 % 2 ^ 64
    rw [UInt64.toNat_mul]
    show val.toNat * 1000 % 2 ^ 64 = _
    omega
  | minutes =>
    show (val * 60000).toNat = val.toNat * 60000000000 / 1000000 % 2 ^ 64
    rw [UInt64.toNat_mul]
    show val.toNat * 60000 % 2 ^ 64 = _
    omega

theorem TimeTrigger.durationInMs_eq (t : TimeTrigger) : t.durationInMs = toMilliseconds t.durationValue t.unit := by
  unfold durationInMs
  split
  · next hpos =>
      rcases t.precomputed with hzero | heq
      · rw [hzero] at hpos
        exact absurd hpos (by decide)
      · exact heq
  · rfl

/-- A transition that waits for no time: it has no time trigger. -/
def Untimed (edge : TimedEdge) : Prop := ∀ t, edge.trigger ≠ .time t

/-- A transition after an exact duration that meets a condition. -/
def After (p : ℕ → Prop) (edge : TimedEdge) : Prop :=
  ∃ t, edge.trigger = .time t ∧ p (exact t.durationValue t.unit)

/-- The transitions that the pass takes to be possible at once. -/
def Prompt (edge : TimedEdge) : Prop := Untimed edge ∧ edge.trigger ≠ .signal ""

/-- The state can be left in time. -/
def CanLeave (ir : TimedIr) (state : TimedState) (invariant : StateTimeInvariant) : Prop :=
  ∃ edge ∈ outgoing ir state, Untimed edge ∨ After (· ≤ exact invariant.duration invariant.unit) edge

/-- The verdict on a state is exact: it is accepted if and only if it can be left in time. -/
def ExactVerdict (ir : TimedIr) (state : TimedState) : Prop :=
  ∀ invariant, bound state = some invariant → (verifyState ir state = none ↔ CanLeave ir state invariant)

variable {invariant : StateTimeInvariant}

theorem canExit_iff {edge : TimedEdge} : canExit (toMilliseconds invariant.duration invariant.unit) edge = true ↔
      Prompt edge ∨ After (rounded · ≤ rounded (exact invariant.duration invariant.unit)) edge := by
  unfold canExit Prompt Untimed After
  cases htrigger : edge.trigger with
  | signal name => simp
  | anonymous => simp
  | change => simp
  | time t =>
    have hle : t.durationInMs ≤ toMilliseconds invariant.duration invariant.unit ↔
        rounded (exact t.durationValue t.unit) ≤ rounded (exact invariant.duration invariant.unit) := by
      rw [t.durationInMs_eq, UInt64.le_iff_toNat_le, toNat_toMilliseconds, toNat_toMilliseconds]
    simp [hle]

/-- The states that are not looked at. -/
def Ended (state : TimedState) : Prop := state.kind = .terminate ∨ state.kind = .final

instance (state : TimedState) : Decidable (Ended state) := inferInstanceAs (Decidable (_ ∨ _))

/-- The condition on a state with a bound. One that is looked at has a transition that is possible at once; or it has
an empty signal or a duration within the bound if and only if some duration is within the bound after rounding. One
that is not looked at can be left in time. -/
def DurationsKept (ir : TimedIr) (state : TimedState) (invariant : StateTimeInvariant) : Prop :=
  if Ended state then CanLeave ir state invariant
  else (∃ edge ∈ outgoing ir state, Prompt edge) ∨
    ((∃ edge ∈ outgoing ir state, After (rounded · ≤ rounded (exact invariant.duration invariant.unit)) edge) ↔
      ∃ edge ∈ outgoing ir state, edge.trigger = .signal "" ∨
        After (· ≤ exact invariant.duration invariant.unit) edge)

variable {ir : TimedIr} {state : TimedState}

theorem verifyState_eq_none_iff (hbound : bound state = some invariant) :
    verifyState ir state = none ↔ Ended state ∨ ∃ edge ∈ outgoing ir state, Prompt edge ∨
      After (rounded · ≤ rounded (exact invariant.duration invariant.unit)) edge := by
  unfold verifyState
  by_cases hended : state.kind = .terminate ∨ state.kind = .final
  · rw [if_pos hended]
    exact ⟨fun _ => Or.inl hended, fun _ => rfl⟩
  · rw [if_neg hended, hbound]
    dsimp only
    have hlooked : ¬Ended state := hended
    simp only [hlooked, false_or, ← canExit_iff, ← List.any_eq_true]
    split
    · next hempty =>
        rw [List.isEmpty_iff.mp hempty]
        simp
    · split
      · next hany => exact ⟨fun _ => hany, fun _ => rfl⟩
      · next hany => exact ⟨nofun, fun h => absurd h hany⟩

theorem canLeave_iff :
    CanLeave ir state invariant ↔ (∃ edge ∈ outgoing ir state, Prompt edge) ∨
      ∃ edge ∈ outgoing ir state, edge.trigger = .signal "" ∨
        After (· ≤ exact invariant.duration invariant.unit) edge := by
  unfold CanLeave Prompt
  constructor
  · rintro ⟨edge, hedge, huntimed | hafter⟩
    · by_cases hsignal : edge.trigger = .signal ""
      · exact Or.inr ⟨edge, hedge, Or.inl hsignal⟩
      · exact Or.inl ⟨edge, hedge, huntimed, hsignal⟩
    · exact Or.inr ⟨edge, hedge, Or.inr hafter⟩
  · rintro (⟨edge, hedge, huntimed, -⟩ | ⟨edge, hedge, hsignal | hafter⟩)
    · exact ⟨edge, hedge, Or.inl huntimed⟩
    · refine ⟨edge, hedge, Or.inl fun t ht => ?_⟩
      rw [hsignal] at ht
      cases ht
    · exact ⟨edge, hedge, Or.inr hafter⟩

theorem exactVerdict_iff (hbound : bound state = some invariant) :
    (verifyState ir state = none ↔ CanLeave ir state invariant) ↔ DurationsKept ir state invariant := by
  rw [verifyState_eq_none_iff hbound]
  unfold DurationsKept
  by_cases hended : Ended state
  · rw [if_pos hended]
    exact ⟨fun h => h.mp (Or.inl hended), fun h => ⟨fun _ => h, fun _ => Or.inl hended⟩⟩
  · have hsplit : (∃ edge ∈ outgoing ir state, Prompt edge ∨
        After (rounded · ≤ rounded (exact invariant.duration invariant.unit)) edge) ↔
        (∃ edge ∈ outgoing ir state, Prompt edge) ∨ ∃ edge ∈ outgoing ir state,
          After (rounded · ≤ rounded (exact invariant.duration invariant.unit)) edge := by
      simp only [and_or_left, exists_or]
    rw [if_neg hended, canLeave_iff, hsplit]
    simp only [hended, false_or]
    by_cases hprompt : ∃ edge ∈ outgoing ir state, Prompt edge
    · exact ⟨fun _ => Or.inl hprompt, fun _ => ⟨fun _ => Or.inl hprompt, fun _ => Or.inl hprompt⟩⟩
    · rw [or_iff_right hprompt, or_iff_right hprompt, or_iff_right hprompt]

theorem run_snd (ir : TimedIr) : (run ir).2 = true ↔ ∀ state ∈ ir.states, verifyState ir state = none := by
  show (ir.states.filterMap (verifyState ir)).isEmpty = true ↔ _
  rw [List.isEmpty_iff, List.filterMap_eq_nil_iff]

/-- **Timelock verification is exact** on the states whose durations keep their order to the bound when they are
converted to milliseconds, and on no others. -/
theorem verdicts_exact (ir : TimedIr) : ((run ir).2 = true ↔ ∀ state ∈ ir.states, verifyState ir state = none) ∧
      ∀ state, ExactVerdict ir state ↔ ∀ invariant, bound state = some invariant → DurationsKept ir state invariant :=
  ⟨run_snd ir, fun _ => forall_congr' fun _ => forall_congr' fun hbound => exactVerdict_iff hbound⟩

/-! ## A machine -/

/-- A state that may stay for a millisecond, left after one and a half. -/
def roundedDown : TimedIr where
  states := [{ id := "s", name := "Busy", timeInvariant := some { duration := 1 } }]
  transitions := [{ source := "s", trigger := .time { durationValue := 1500, unit := .microseconds } }]

/-- **What is below a millisecond is cut off**: a timelock is accepted. -/
theorem roundedDown_not_exact : ¬∀ state ∈ roundedDown.states, ExactVerdict roundedDown state := by
  intro h
  obtain ⟨edge, hedge, hleave⟩ := (h _ List.mem_cons_self _ rfl).mp (by decide)
  obtain rfl := List.mem_singleton.mp (List.mem_of_mem_filter hedge)
  rcases hleave with huntimed | ⟨t, ht, hle⟩
  · exact huntimed _ rfl
  · obtain rfl := Trigger.time.inj ht
    exact absurd hle (by decide)

end Fsmc.Analysis.TimedInvariants
