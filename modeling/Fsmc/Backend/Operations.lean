/-
# Fsmc.Backend.Operations — the operations of a machine, and what all of them keep.

A property of machines is settled if it survives the parts that operations are made of: a direct dispatch, an
activity, and changes of what no row sees; it is stable if it survives the passing of time too. Every operation
keeps a stable property.
-/
import Fsmc.Backend.DirectCalls

namespace Fsmc.Backend

open Machine

variable (σ : Signature)

inductive MachineOp where
  | dispatch (event : Event σ) (ports : Ports σ)
  | step (ports : Ports σ)
  | tick (deltaMs : ℕ)

variable {σ}

namespace Program

variable (P : Program σ)

/-- `dispatch` with or without ports. -/
def dispatchPorts (m : Machine σ) (call : Event σ × Ports σ) : Machine σ :=
  (P.dispatch (withPorts m call.2) call.1 (inPorts call.2)).1

/-- `step` with or without ports. -/
def stepPorts (m : Machine σ) (ports : Ports σ) : Machine σ := (P.step (withPorts m ports) (inPorts ports)).1

/-- What a call does. -/
def operate (m : Machine σ) : MachineOp σ → Machine σ
  | .dispatch event ports => P.dispatchPorts m (event, ports)
  | .step ports => P.stepPorts m ports
  | .tick deltaMs => (P.tick m deltaMs).1

variable {P} in
theorem beforeExpiry_spec (m : Machine σ) (deltaMs : ℕ) :
    (P.beforeExpiry m deltaMs).state = m.state ∧ (P.beforeExpiry m deltaMs).timers = m.timers ∧
      (P.beforeExpiry m deltaMs).reg = (P.doActivity m.state default (m.value, ⟨m.reg, default, m.srv⟩)).2.reg ∧
      (P.beforeExpiry m deltaMs).log = m.log ++ [⟨.activity m.state, (P.beforeExpiry m deltaMs).reg⟩] := by
  unfold beforeExpiry
  dsimp only
  split <;> exact ⟨rfl, rfl, rfl, rfl⟩

/-! ## Settled and stable properties -/

/-- A property that every part of an operation keeps, apart from the passing of time for the timers. -/
structure Settled (Inv : Machine σ → Prop) : Prop where
  direct : ∀ (m : Machine σ) event input, Inv m → Inv (P.dispatchDirect m event input).1
  activity : ∀ (m : Machine σ) input,
    Inv m → Inv (m.performCurrent (.activity m.state) (P.doActivity m.state input))
  ports : ∀ (m : Machine σ) out, Inv m → Inv { m with out := out }
  deferred : ∀ (m : Machine σ) queue, Inv m → Inv { m with deferred := queue }
  residence : ∀ (m : Machine σ) residence, Inv m → Inv { m with residence := residence }
  violation : ∀ (m : Machine σ) violation, Inv m → Inv { m with violation := violation }

/-- A property that every part of an operation keeps. -/
structure Stable (Inv : Machine σ → Prop) : Prop extends P.Settled Inv where
  advance : ∀ (m : Machine σ) deltaMs, Inv m → Inv (advanceTimers m deltaMs)

namespace Settled

variable {P} {Inv : Machine σ → Prop} (h : P.Settled Inv)

include h

variable {m : Machine σ}

theorem dispatch (hm : Inv m) (event : Event σ) (input : σ.InPorts) : Inv (P.dispatch m event input).1 :=
  dispatch_invariant h.deferred (fun call _ hcall => h.direct call.1 call.2 input hcall) hm

theorem dispatchPorts (hm : Inv m) (call : Event σ × Ports σ) : Inv (P.dispatchPorts m call) :=
  h.dispatch (h.ports m _ hm) call.1 (inPorts call.2)

theorem step (hm : Inv m) (input : σ.InPorts) : Inv (P.step m input).1 := by
  have hdirect := h.direct _ (.ofType P.anonymous) input (h.activity m input hm)
  unfold Program.step
  dsimp only
  split
  · split
    · exact processDeferred_invariant h.deferred _ _
        (fun call _ hcall => h.direct call.1 call.2 input hcall) hdirect
    · exact hdirect
  · exact hdirect

theorem stepPorts (hm : Inv m) (ports : Ports σ) : Inv (P.stepPorts m ports) :=
  h.step (h.ports m _ hm) _

theorem dispatchTimedTimer (hm : Inv m) (timerId : ℕ) : Inv (P.dispatchTimedTimer m timerId) := by
  unfold Program.dispatchTimedTimer
  split
  · exact h.dispatch (h.ports m _ hm) _ _
  · exact hm

theorem fireExpired (startGen : ℕ) : ∀ (ids : List ℕ) {m : Machine σ}, Inv m → Inv (P.fireExpired startGen ids m).1
  | [], _, hm => hm
  | timerId :: rest, m, hm => by
    unfold Program.fireExpired
    split
    · exact hm
    · exact fireExpired startGen rest (h.dispatchTimedTimer hm timerId)

theorem beforeExpiry (hm : Inv m) (deltaMs : ℕ) : Inv (P.beforeExpiry m deltaMs) := by
  unfold Program.beforeExpiry
  dsimp only
  split
  · exact h.activity (withoutPorts _) default (h.ports _ _ (h.residence m _ hm))
  · exact h.activity (withoutPorts m) default (h.ports m _ hm)

theorem checkInvariants (hm : Inv m) : Inv (P.checkInvariants m) := by
  unfold Program.checkInvariants
  split
  · exact h.violation m _ hm
  · split <;> exact h.violation m _ hm

theorem tick {deltaMs : ℕ} (hm : Inv (advanceTimers (P.beforeExpiry m deltaMs) deltaMs)) :
    Inv (P.tick m deltaMs).1 := by
  have hfired := h.fireExpired (P.beforeExpiry m deltaMs).timers.generation
    ((P.beforeExpiry m deltaMs).timers.expiredIds deltaMs) hm
  unfold Program.tick
  dsimp only
  split
  · exact h.checkInvariants hfired
  · exact hfired

end Settled

namespace Stable

variable {P} {Inv : Machine σ → Prop} (h : P.Stable Inv)

include h

theorem tick {m : Machine σ} (hm : Inv m) (deltaMs : ℕ) : Inv (P.tick m deltaMs).1 :=
  h.toSettled.tick (h.advance _ deltaMs (h.toSettled.beforeExpiry hm deltaMs))

theorem operate {m : Machine σ} (hm : Inv m) (op : MachineOp σ) : Inv (P.operate m op) := by
  cases op with
  | dispatch event ports => exact h.toSettled.dispatchPorts hm (event, ports)
  | step ports => exact h.toSettled.stepPorts hm ports
  | tick deltaMs => exact h.tick hm deltaMs

theorem run {m : Machine σ} (hm : Inv m) (ops : List (MachineOp σ)) : Inv (ops.foldl P.operate m) :=
  List.foldlRecOn ops P.operate hm fun _ hm op _ => h.operate hm op

end Stable

end Program

end Fsmc.Backend
