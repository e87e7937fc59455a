/-
# Fsmc.Backend.DeferredQueue — deferred events wait until they are replayed.

A dispatch that defers appends its event to the queue; one that is handled replays the queue, and an event leaves
it when its replay is handled. The queue has a fixed capacity, and an event for which there is no room is dropped
although the dispatch says that it was deferred.
-/
import Fsmc.Backend.SpscFsm

namespace Fsmc.Backend

open Machine

variable {σ : Signature}

namespace Program

variable (P : Program σ)

/-! ## What the replays do -/

/-- Replays in a row: one that is handled takes its event out of the queue, and the others stay in their order. -/
inductive Replays (input : σ.InPorts) : Machine σ → Machine σ → Prop
  | done (m : Machine σ) : Replays input m m
  | handled {m m' : Machine σ} {before after : List (Event σ)} {event : Event σ} :
      m.deferred = before ++ event :: after → (P.dispatchDirect m event input).2 = .success →
        Replays input { (P.dispatchDirect m event input).1 with deferred := before ++ after } m' →
          Replays input m m'

variable {P} {input : σ.InPorts}

theorem replayOne_eq_some {m m' : Machine σ} : ∀ {queue before : List (Event σ)},
    P.replayOne input m before queue = some m' → ∃ waiting event after, queue = waiting ++ event :: after ∧
      (P.dispatchDirect m event input).2 = .success ∧
        m' = { (P.dispatchDirect m event input).1 with deferred := before ++ waiting ++ after }
  | [], _, h => by
    unfold replayOne at h
    cases h
  | event :: rest, before, h => by
    unfold replayOne at h
    dsimp only at h
    split at h
    · rename_i hsuccess
      cases h
      exact ⟨[], event, rest, rfl, hsuccess, by rw [List.append_nil]⟩
    · -- a replay that is not handled leaves the machine
      rename_i hfailed
      have hsame : (P.dispatchDirect m event input).1 = m := by
        rcases P.dispatchDirect_eq m event input with ⟨row, _, heq⟩ | ⟨_, heq, _⟩
        · rw [heq] at hfailed
          exact absurd rfl hfailed
        · exact heq
      rw [hsame] at h
      obtain ⟨waiting, handled, after, rfl, hsuccess, rfl⟩ := replayOne_eq_some h
      refine ⟨event :: waiting, handled, after, rfl, hsuccess, ?_⟩
      rw [List.append_assoc before [event] waiting]
      rfl

theorem replays_processDeferred (n : ℕ) (m : Machine σ) : P.Replays input m (P.processDeferred input n m) := by
  induction n generalizing m with
  | zero => exact .done m
  | succ n ih =>
    unfold processDeferred
    cases hone : P.replayOne input m [] m.deferred with
    | none => exact .done m
    | some m' =>
      obtain ⟨before, event, after, hqueue, hsuccess, rfl⟩ := replayOne_eq_some hone
      exact .handled hqueue hsuccess (ih _)

/-! ## One dispatch -/

variable (P) in
/-- An event that is reported as deferred is appended to the queue; otherwise events leave the queue, as it was
before, by replays that are handled. -/
structure KeepsEvents (m : Machine σ) (event : Event σ) (input : σ.InPorts) : Prop where
  appended : (P.dispatch m event input).2 = .deferred →
    (P.dispatch m event input).1.deferred = m.deferred ++ [event]
  replayed : (P.dispatch m event input).2 ≠ .deferred →
    (P.dispatchDirect m event input).1.deferred = m.deferred ∧
      P.Replays input (P.dispatchDirect m event input).1 (P.dispatch m event input).1

theorem dispatch_of_defers {m : Machine σ} {event : Event σ} (h : P.Defers m event) :
    P.dispatch m event input = (P.deferEvent m event, .deferred) := by
  unfold dispatch
  rw [P.dispatchDirect_of_defers h]
  simp only [h.1, h.2.1, Bool.and_self, if_true]

theorem replays_dispatch {m : Machine σ} {event : Event σ} (h : ¬ P.Defers m event) :
    (P.dispatch m event input).2 ≠ .deferred ∧
      P.Replays input (P.dispatchDirect m event input).1 (P.dispatch m event input).1 := by
  have hdirect : (P.dispatchDirect m event input).2 ≠ .deferred := by
    unfold dispatchDirect
    split
    · exact fun h => DispatchStatus.noConfusion h
    · split <;> exact fun h => DispatchStatus.noConfusion h
  unfold dispatch
  dsimp only
  split
  · rename_i hunhandled
    split
    · rename_i hboth
      obtain ⟨hsame, hnone⟩ := P.dispatchDirect_of_unhandled hunhandled
      rw [hsame, Bool.and_eq_true] at hboth
      exact absurd ⟨hboth.1, hboth.2, hnone⟩ h
    · exact ⟨hdirect, .done _⟩
  · split
    · exact ⟨fun h => DispatchStatus.noConfusion h, replays_processDeferred _ _⟩
    · exact ⟨hdirect, .done _⟩
  · exact ⟨hdirect, .done _⟩

theorem keepsEvents_iff (m : Machine σ) (event : Event σ) (input : σ.InPorts) :
    P.KeepsEvents m event input ↔ (P.Defers m event → m.deferred.length < P.deferredCapacity) := by
  constructor
  · intro h hdefers
    have heq : P.dispatch m event input = (P.deferEvent m event, .deferred) := dispatch_of_defers hdefers
    have happended := h.appended (congrArg Prod.snd heq)
    by_contra hfull
    rw [heq] at happended
    unfold deferEvent at happended
    rw [if_neg hfull] at happended
    exact absurd (congrArg List.length happended) (by simp)
  · intro hroom
    by_cases hdefers : P.Defers m event
    · have heq : P.dispatch m event input = (P.deferEvent m event, .deferred) := dispatch_of_defers hdefers
      constructor
      · intro _
        rw [heq]
        unfold deferEvent
        rw [if_pos (hroom hdefers)]
      · intro hother
        exact absurd (congrArg Prod.snd heq) hother
    · obtain ⟨hstatus, hreplays⟩ : (P.dispatch m event input).2 ≠ .deferred ∧
          P.Replays input (P.dispatchDirect m event input).1 (P.dispatch m event input).1 := replays_dispatch hdefers
      exact ⟨fun hdeferred => absurd hdeferred hstatus,
        fun _ => ⟨P.deferred_dispatchDirect m event input, hreplays⟩⟩

end Program

/-! ## Runs -/

/-- A dispatch, or one of the calls that empty the queue: `clear_deferred_events` and `reset`. -/
inductive DeferralOp (σ : Signature) where
  | dispatch (event : Event σ) (ports : Ports σ)
  | clear
  | reset (reg : σ.Registers)

namespace Program

variable (P : Program σ)

/-- What a call does. -/
def deferralStep (m : Machine σ) : DeferralOp σ → Machine σ
  | .dispatch event ports => P.dispatchPorts m (event, ports)
  | .clear => { m with deferred := [] }
  | .reset reg => P.reset m reg

/-- No event is lost by a call. -/
def StepKeeps (m : Machine σ) : DeferralOp σ → Prop
  | .dispatch event ports => P.KeepsEvents (withPorts m ports) event (inPorts ports)
  | .clear => True
  | .reset _ => True

/-- A call that defers its event finds room in the queue. -/
def HasRoom (m : Machine σ) : DeferralOp σ → Prop
  | .dispatch event _ => P.Defers m event → m.deferred.length < P.deferredCapacity
  | .clear => True
  | .reset _ => True

/-- No event is lost in a run if and only if the queue has room whenever an event is deferred. -/
theorem keepsEvents_run (m : Machine σ) (ops : List (DeferralOp σ)) :
    Runs.Along P.deferralStep P.StepKeeps m ops ↔ Runs.Along P.deferralStep P.HasRoom m ops := by
  refine Runs.along_congr (fun m op => ?_) m ops
  cases op with
  | dispatch event ports => exact keepsEvents_iff (withPorts m ports) event (inPorts ports)
  | clear => exact Iff.rfl
  | reset reg => exact Iff.rfl

end Program

/-! ## A queue that is full -/

/-- State 0 defers event 1, and one event at most can wait. -/
def cramped : Program Signature.small :=
  { deferring with
    deferredCapacity := 1
    deferredCapacity_pos := by decide }

/-- The second event is reported as deferred and dropped. -/
theorem cramped_not_keepsEvents : ¬ ∀ ops : List (DeferralOp Signature.small),
    Runs.Along cramped.deferralStep cramped.StepKeeps (cramped.construct 0 () 0 ()) ops := by
  intro h
  have hsecond := ((h [.dispatch ⟨1, ()⟩ none, .dispatch ⟨1, ()⟩ none]).2.1).appended (by decide +kernel)
  exact absurd (congrArg List.length hsecond) (by decide +kernel)

end Fsmc.Backend
