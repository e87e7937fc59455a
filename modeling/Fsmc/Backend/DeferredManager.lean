/-
# Fsmc.Backend.DeferredManager — the replay of deferred events.

After a successful dispatch the queue of deferred events is gone through from its front. The first event that
succeeds is erased, and the search starts over, until a whole search delivers nothing. The events that are left
are those that were not delivered, in their order, and none of them would succeed.
-/
import Mathlib.Data.List.Perm.Basic
import Fsmc.Lib.Loop

namespace Fsmc.Backend

open Lib

structure DeferredManager (E : Type) where
  queue : List E := []
  isReplaying : Bool := false
  deriving DecidableEq, Repr

/-- The machine and the queue during a replay, and the dispatches so far with their success. -/
structure Replay (S E : Type) where
  machine : S
  queue : List E
  calls : List (E × Bool) := []
  deriving DecidableEq, Repr

namespace DeferredManager

variable {S E : Type} (dispatchDirect : S → E → Bool × S)

/-- The loop over the queue, with what is before the iterator and what is left from it on. -/
def searchFrom (machine : S) (calls : List (E × Bool)) (before : List E) : List E → Replay S E × Bool
  | [] => (⟨machine, before, calls⟩, false)
  | event :: rest =>
    let result := dispatchDirect machine event
    let calls := calls ++ [(event, result.1)]
    -- a handled event is erased, and the loop is left
    if result.1 then (⟨result.2, before ++ rest, calls⟩, true)
    else searchFrom result.2 calls (before ++ [event]) rest

/-- One turn of the outer loop, and `any_handled` after it. -/
def replayTurn (r : Replay S E) : Replay S E × Bool :=
  if r.queue.isEmpty then (r, false) else searchFrom dispatchDirect r.machine r.calls [] r.queue

/-- `process_deferred_queue`, with at most `n` turns. -/
def processDeferredQueue (n : ℕ) (manager : DeferredManager E) (machine : S) :
    Option (DeferredManager E × S × List (E × Bool)) :=
  if manager.queue.isEmpty || manager.isReplaying then some (manager, machine, [])
  else (whileChanged (replayTurn dispatchDirect) n ⟨machine, manager.queue, []⟩).map fun r =>
    (⟨r.queue, false⟩, r.machine, r.calls)

end DeferredManager

/-! ## Fair replays -/

section Fair

variable {S E : Type} {dispatchDirect : S → E → Bool × S} {s s' : S} {queue queue' delivered : List E}

variable (dispatchDirect) in
/-- Rounds that each deliver the earliest event that succeeds in the state of the machine, until none does. -/
inductive Rounds : S → List E → List E → S → List E → Prop where
  | done {s : S} {queue : List E} (hnone : ∀ e ∈ queue, (dispatchDirect s e).1 = false) : Rounds s queue [] s queue
  | round {s s' : S} {before after queue' delivered : List E} {e : E}
      (hbefore : ∀ e' ∈ before, (dispatchDirect s e').1 = false) (he : (dispatchDirect s e).1 = true)
      (hrest : Rounds (dispatchDirect s e).2 (before ++ after) delivered s' queue') :
      Rounds s (before ++ e :: after) (e :: delivered) s' queue'

theorem Rounds.sublist (h : Rounds dispatchDirect s queue delivered s' queue') : queue'.Sublist queue := by
  induction h with
  | done hnone => exact List.Sublist.refl _
  | round hbefore he hrest ih => exact ih.trans (List.Sublist.append_left (List.sublist_cons_self _ _) _)

theorem Rounds.perm (h : Rounds dispatchDirect s queue delivered s' queue') : (delivered ++ queue').Perm queue := by
  induction h with
  | done hnone => exact List.Perm.refl _
  | round hbefore he hrest ih => exact (ih.cons _).trans List.perm_middle.symm

theorem Rounds.none_succeeds (h : Rounds dispatchDirect s queue delivered s' queue') :
    ∀ e ∈ queue', (dispatchDirect s' e).1 = false := by
  induction h with
  | done hnone => exact hnone
  | round hbefore he hrest ih => exact ih

end Fair

namespace DeferredManager

variable {S E : Type} {dispatchDirect : S → E → Bool × S}

/-- The events of a list of calls that succeeded. -/
def successes (calls : List (E × Bool)) : List E := (calls.filter (·.2)).map (·.1)

theorem successes_concat (calls : List (E × Bool)) (e : E) (ok : Bool) :
    successes (calls ++ [(e, ok)]) = successes calls ++ if ok then [e] else [] := by
  cases ok <;> simp [successes]

/-- Where unsuccessful dispatches leave the machine, a search finds the earliest event that succeeds. -/
theorem searchFrom_spec (hkeep : ∀ s e, (dispatchDirect s e).1 = false → (dispatchDirect s e).2 = s) (s : S) :
    ∀ (rest before : List E) (calls : List (E × Bool)),
      (∃ calls', searchFrom dispatchDirect s calls before rest = (⟨s, before ++ rest, calls'⟩, false) ∧
          successes calls' = successes calls ∧ ∀ e ∈ rest, (dispatchDirect s e).1 = false) ∨
        ∃ skipped e after calls', rest = skipped ++ e :: after ∧
          searchFrom dispatchDirect s calls before rest =
            (⟨(dispatchDirect s e).2, before ++ (skipped ++ after), calls'⟩, true) ∧
          successes calls' = successes calls ++ [e] ∧
          (∀ e' ∈ skipped, (dispatchDirect s e').1 = false) ∧ (dispatchDirect s e).1 = true
  | [], before, calls => by
    refine Or.inl ⟨calls, ?_, rfl, List.forall_mem_nil _⟩
    rw [List.append_nil]
    rfl
  | e :: rest, before, calls => by
    unfold searchFrom
    cases hsuccess : (dispatchDirect s e).1 with
    | true =>
      refine Or.inr ⟨[], e, rest, calls ++ [(e, true)], rfl, ?_, ?_, List.forall_mem_nil _, hsuccess⟩
      · simp [hsuccess]
      · exact successes_concat calls e true
    | false =>
      have hsame := hkeep s e hsuccess
      have hconcat : successes (calls ++ [(e, false)]) = successes calls := by
        rw [successes_concat]
        exact List.append_nil _
      simp only [hsuccess, hsame, Bool.false_eq_true, if_false]
      rcases searchFrom_spec hkeep s rest (before ++ [e]) (calls ++ [(e, false)]) with
        ⟨calls', heq, hcalls, hnone⟩ | ⟨skipped, e', after, calls', hrest, heq, hcalls, hskipped, he'⟩
      · refine Or.inl ⟨calls', ?_, hcalls.trans hconcat, ?_⟩
        · rw [heq, List.append_assoc]
          rfl
        · exact List.forall_mem_cons.mpr ⟨hsuccess, hnone⟩
      · refine Or.inr ⟨e :: skipped, e', after, calls', congrArg _ hrest, ?_, ?_, ?_, he'⟩
        · rw [heq, List.append_assoc]
          rfl
        · rw [hcalls, hconcat]
        · exact List.forall_mem_cons.mpr ⟨hsuccess, hskipped⟩

theorem replayTurn_fair (hkeep : ∀ s e, (dispatchDirect s e).1 = false → (dispatchDirect s e).2 = s) :
    ∀ (n : ℕ) (s : S) (queue : List E) (calls : List (E × Bool)), queue.length < n →
      ∃ r delivered, whileChanged (replayTurn dispatchDirect) n ⟨s, queue, calls⟩ = some r ∧
        Rounds dispatchDirect s queue delivered r.machine r.queue ∧
        successes r.calls = successes calls ++ delivered
  | 0, _, _, _, hn => absurd hn (Nat.not_lt_zero _)
  | n + 1, s, [], calls, _ => by
    refine ⟨⟨s, [], calls⟩, [], ?_, .done (List.forall_mem_nil _), (List.append_nil _).symm⟩
    rw [whileChanged_succ]
    rfl
  | n + 1, s, e :: queue, calls, hn => by
    have hturn : replayTurn dispatchDirect ⟨s, e :: queue, calls⟩ =
        searchFrom dispatchDirect s calls [] (e :: queue) := rfl
    rw [whileChanged_succ, hturn]
    rcases searchFrom_spec hkeep s (e :: queue) [] calls with
      ⟨calls', heq, hcalls, hnone⟩ | ⟨skipped, e', after, calls', hrest, heq, hcalls, hskipped, he'⟩
    · rw [heq]
      exact ⟨⟨s, e :: queue, calls'⟩, [], rfl, .done hnone, by rw [List.append_nil]; exact hcalls⟩
    · -- a turn that delivers leaves a shorter queue
      have hshorter : (skipped ++ after).length < n := by
        have hlength := congrArg List.length hrest
        simp only [List.length_append, List.length_cons] at hlength hn ⊢
        omega
      obtain ⟨r, delivered, hr, hrounds, hsuccesses⟩ :=
        replayTurn_fair hkeep n (dispatchDirect s e').2 (skipped ++ after) calls' hshorter
      rw [heq, if_pos rfl, hrest]
      refine ⟨r, e' :: delivered, hr, .round hskipped he' hrounds, ?_⟩
      rw [hsuccesses, hcalls, List.append_assoc]
      rfl

end DeferredManager

/-- **Deferred replay is fair and terminates**: with a turn for every event and one more it ends. A call during a
replay does nothing. Any other one goes through fair rounds; the calls that succeeded are the deliveries, and the
events that are left, none of which would succeed, are the others in their order. -/
theorem process_deferred_queue_fair {S E : Type} (dispatchDirect : S → E → Bool × S)
    (hkeep : ∀ s e, (dispatchDirect s e).1 = false → (dispatchDirect s e).2 = s) (manager : DeferredManager E)
    (machine : S) (n : ℕ) (hn : manager.queue.length < n) :
    ∃ manager' machine' calls,
      DeferredManager.processDeferredQueue dispatchDirect n manager machine = some (manager', machine', calls) ∧
      manager'.isReplaying = manager.isReplaying ∧
      (manager.isReplaying = true → manager' = manager ∧ machine' = machine ∧ calls = []) ∧
      (manager.isReplaying = false → ∃ delivered,
        Rounds dispatchDirect machine manager.queue delivered machine' manager'.queue ∧
        DeferredManager.successes calls = delivered ∧ manager'.queue.Sublist manager.queue ∧
        (delivered ++ manager'.queue).Perm manager.queue ∧
        ∀ e ∈ manager'.queue, (dispatchDirect machine' e).1 = false) := by
  obtain ⟨queue, isReplaying⟩ := manager
  unfold DeferredManager.processDeferredQueue
  cases isReplaying with
  | true =>
    refine ⟨⟨queue, true⟩, machine, [], by simp, rfl, fun _ => ⟨rfl, rfl, rfl⟩, nofun⟩
  | false =>
    cases queue with
    | nil =>
      refine ⟨⟨[], false⟩, machine, [], rfl, rfl, nofun, fun _ => ?_⟩
      exact ⟨[], .done (List.forall_mem_nil _), rfl, List.Sublist.refl _, List.Perm.refl _, List.forall_mem_nil _⟩
    | cons e queue =>
      obtain ⟨r, delivered, hr, hrounds, hsuccesses⟩ :=
        DeferredManager.replayTurn_fair hkeep n machine (e :: queue) [] hn
      refine ⟨⟨r.queue, false⟩, r.machine, r.calls, ?_, rfl, nofun, fun _ => ⟨delivered, hrounds, hsuccesses,
        hrounds.sublist, hrounds.perm, hrounds.none_succeeds⟩⟩
      show (whileChanged (DeferredManager.replayTurn dispatchDirect) n ⟨machine, e :: queue, []⟩).map _ = _
      rw [hr]
      rfl

/-- A machine that takes the number after its own. -/
def countUp (s e : ℕ) : Bool × ℕ := if e = s + 1 then (true, e) else (false, s)

theorem countUp_fair : ∃ manager' machine' calls,
      DeferredManager.processDeferredQueue countUp 5 ⟨[3, 7, 1, 2], false⟩ 0 = some (manager', machine', calls) ∧
      DeferredManager.successes calls = [1, 2, 3] ∧ manager'.queue = [7] := by
  have hkeep : ∀ s e, (countUp s e).1 = false → (countUp s e).2 = s := by
    intro s e h
    unfold countUp at h ⊢
    split at h
    · cases h
    · next hne => rw [if_neg hne]
  obtain ⟨manager', machine', calls, heq, -⟩ :=
    process_deferred_queue_fair countUp hkeep ⟨[3, 7, 1, 2], false⟩ 0 5 (by decide)
  refine ⟨manager', machine', calls, heq, ?_⟩
  have hrun : DeferredManager.processDeferredQueue countUp 5 ⟨[3, 7, 1, 2], false⟩ 0 =
      some (⟨[7], false⟩, 3,
        [(3, false), (7, false), (1, true), (3, false), (7, false), (2, true), (3, true), (7, false)]) := by decide
  obtain ⟨rfl, rfl, rfl⟩ : manager' = ⟨[7], false⟩ ∧ machine' = 3 ∧ calls = _ := by
    simpa using heq.symm.trans hrun
  exact ⟨rfl, rfl⟩

end Fsmc.Backend
