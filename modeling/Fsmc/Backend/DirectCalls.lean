/-
# Fsmc.Backend.DirectCalls — the direct dispatches that a dispatch is made of.

A dispatch first dispatches its event directly and then, as long as one of them is handled, the deferred ones.
What every such call keeps, and what does not depend on the deferred queue, the whole dispatch keeps.
-/
import Fsmc.Backend.Machine

namespace Fsmc.Backend

variable {σ : Signature}

namespace Program

variable (P : Program σ)

/-- The direct dispatches of one pass over the deferred events. -/
def replayCalls (input : σ.InPorts) (m : Machine σ) : List (Event σ) → List (Machine σ × Event σ)
  | [] => []
  | event :: rest =>
    let result := P.dispatchDirect m event input
    (m, event) :: if result.2 = .success then [] else replayCalls input result.1 rest

/-- The direct dispatches of `process_deferred_queue`. -/
def processCalls (input : σ.InPorts) : ℕ → Machine σ → List (Machine σ × Event σ)
  | 0, _ => []
  | n + 1, m =>
    P.replayCalls input m m.deferred ++
      match P.replayOne input m [] m.deferred with
      | some m' => processCalls input n m'
      | none => []

/-- The direct dispatches of `dispatch`, each with the machine that it is made on. -/
def dispatchCalls (m : Machine σ) (event : Event σ) (input : σ.InPorts) : List (Machine σ × Event σ) :=
  let result := P.dispatchDirect m event input
  (m, event) ::
    if result.2 = .success ∧ P.hasDeferred then P.processCalls input result.1.deferred.length result.1 else []

theorem dispatchDirect_eq (m : Machine σ) (event : Event σ) (input : σ.InPorts) :
    (∃ row, P.selected m event input = some row ∧
        P.dispatchDirect m event input = (P.execute m event input row, .success)) ∨
      (P.selected m event input = none ∧ (P.dispatchDirect m event input).1 = m ∧
        (P.dispatchDirect m event input).2 ≠ .success) := by
  unfold dispatchDirect
  cases hrow : P.selected m event input with
  | some row => exact Or.inl ⟨row, rfl, rfl⟩
  | none =>
    refine Or.inr ⟨rfl, ?_⟩
    dsimp only
    split <;> exact ⟨rfl, fun h => DispatchStatus.noConfusion h⟩

theorem dispatchDirect_of_unhandled {m : Machine σ} {event : Event σ} {input : σ.InPorts}
    (h : (P.dispatchDirect m event input).2 = .unhandled) :
    (P.dispatchDirect m event input).1 = m ∧ P.rows.any (P.applies m.state event.type) = false := by
  unfold dispatchDirect at h ⊢
  cases hrow : P.selected m event input with
  | some row =>
    rw [hrow] at h
    cases h
  | none =>
    rw [hrow] at h
    dsimp only at h ⊢
    split at h
    · cases h
    · rename_i hnone
      rw [if_neg hnone]
      exact ⟨rfl, Bool.not_eq_true _ ▸ hnone⟩

section Invariant

variable {P} {Inv : Machine σ → Prop} {input : σ.InPorts}
  (hdeferred : ∀ (m : Machine σ) queue, Inv m → Inv { m with deferred := queue })

include hdeferred

theorem replayOne_invariant {m' : Machine σ} : ∀ (queue before : List (Event σ)) (m : Machine σ),
    (∀ call ∈ P.replayCalls input m queue, Inv call.1 → Inv (P.dispatchDirect call.1 call.2 input).1) →
      Inv m → P.replayOne input m before queue = some m' → Inv m'
  | [], _, _, _, _, h => by
    unfold replayOne at h
    cases h
  | event :: rest, before, m, hcalls, hm, h => by
    unfold replayOne at h
    unfold replayCalls at hcalls
    have hnext := hcalls (m, event) List.mem_cons_self hm
    dsimp only at h hcalls hnext
    split at h
    · rw [Option.some_inj] at h
      rw [← h]
      exact hdeferred _ _ hnext
    · rename_i hfailed
      rw [if_neg hfailed] at hcalls
      exact replayOne_invariant rest _ _
        (fun call hcall => hcalls call (List.mem_cons_of_mem _ hcall)) hnext h

theorem processDeferred_invariant : ∀ (n : ℕ) (m : Machine σ),
    (∀ call ∈ P.processCalls input n m, Inv call.1 → Inv (P.dispatchDirect call.1 call.2 input).1) →
      Inv m → Inv (P.processDeferred input n m)
  | 0, _, _, hm => hm
  | n + 1, m, hcalls, hm => by
    unfold processDeferred
    unfold processCalls at hcalls
    cases hone : P.replayOne input m [] m.deferred with
    | none => exact hm
    | some m' =>
      rw [hone] at hcalls
      have hm' : Inv m' := replayOne_invariant hdeferred m.deferred [] m
        (fun call hcall => hcalls call (List.mem_append_left _ hcall)) hm hone
      exact processDeferred_invariant n m'
        (fun call hcall => hcalls call (List.mem_append_right _ hcall)) hm'

theorem dispatch_invariant {m : Machine σ} {event : Event σ}
    (hcalls : ∀ call ∈ P.dispatchCalls m event input, Inv call.1 →
      Inv (P.dispatchDirect call.1 call.2 input).1) (hm : Inv m) : Inv (P.dispatch m event input).1 := by
  have hdirect := hcalls (m, event) List.mem_cons_self hm
  dsimp only at hdirect
  unfold dispatch
  unfold dispatchCalls at hcalls
  dsimp only at hcalls ⊢
  split
  · split
    · unfold deferEvent
      split
      · exact hdeferred _ _ hdirect
      · exact hdirect
    · exact hdirect
  · rename_i hsuccess
    split
    · rename_i hhas
      rw [if_pos ⟨hsuccess, hhas⟩] at hcalls
      exact processDeferred_invariant hdeferred _ _
        (fun call hcall => hcalls call (List.mem_cons_of_mem _ hcall)) hdirect
    · exact hdirect
  · exact hdirect

end Invariant

end Program

end Fsmc.Backend
