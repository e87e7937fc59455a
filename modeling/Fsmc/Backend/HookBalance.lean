/-
# Fsmc.Backend.HookBalance — entry and exit hooks along a run.

A transition calls the exit hooks upwards until an ancestor that the target is in, and the entry hooks from
below an ancestor that the old state is in; but it always calls the exit hook of the old state and the entry
hook of the target. Between a state and its own ancestor or descendant the two do not match.
-/
import Mathlib.Data.List.TakeWhile
import Fsmc.Backend.DirectCalls
import Fsmc.Lib.Runs

namespace Fsmc.Backend

variable {σ : Signature}

namespace Call

/-- An entry hook of a state. -/
def isEnter (s : σ.State) : Call σ → Bool
  | .enter t => t = s
  | _ => false

def isExit (s : σ.State) : Call σ → Bool
  | .exit t => t = s
  | _ => false

end Call

namespace Machine

def calls (m : Machine σ) : List (Call σ) := m.log.map (·.call)

/-- How often the entry hook of a state has run. -/
def entered (m : Machine σ) (s : σ.State) : ℕ := m.calls.countP (Call.isEnter s)

/-- How often the exit hook of a state has run. -/
def exited (m : Machine σ) (s : σ.State) : ℕ := m.calls.countP (Call.isExit s)

end Machine

namespace Program

variable (P : Program σ)

open Machine

/-- The states that were entered more often than left are the active state and its ancestors, each by one. -/
def Balanced (m : Machine σ) : Prop :=
  ∀ s, (m.exited s < m.entered s ↔ s ∈ P.chain m.state) ∧
    (s ∈ P.chain m.state → m.entered s = m.exited s + 1)

/-- Hooks stay balanced in every run of dispatches. -/
def HooksBalanced : Prop :=
  ∀ initial value reg srv, ∀ ops : List (Event σ × σ.InPorts),
    P.Balanced (ops.foldl (fun m op => (P.dispatch m op.1 op.2).1) (P.construct initial value reg srv))

/-! ## Which hooks a transition calls -/

theorem exitCalls_cons (target s : σ.State) (above : List σ.State) : P.exitCalls target (s :: above) =
      s :: above.takeWhile fun p => !P.isSubstateOf target p && P.constructible p := by
  induction above generalizing s with
  | nil => rfl
  | cons p above ih =>
    unfold exitCalls
    rw [ih, List.takeWhile_cons]

theorem takeWhile_congr {α : Type} {p q : α → Bool} {l : List α} (h : ∀ a ∈ l, p a = q a) :
    l.takeWhile p = l.takeWhile q := by
  induction l with
  | nil => rfl
  | cons a l ih =>
    rw [List.takeWhile_cons, List.takeWhile_cons, h a List.mem_cons_self,
      ih fun b hb => h b (List.mem_cons_of_mem _ hb)]

theorem reverse_filter_cons {α : Type} (p : α → Bool) (a : α) (l : List α) :
    ((a :: l).filter p).reverse = (l.filter p).reverse ++ if p a then [a] else [] := by
  rw [List.filter_cons]
  split
  · exact List.reverse_cons
  · exact (List.append_nil _).symm

theorem ancestorEnterCalls_cons (current target a : σ.State) (above : List σ.State) :
    P.ancestorEnterCalls current target (a :: above) =
      ((a :: above.takeWhile fun p => !P.isSubstateOf current p).filter
        fun p => p ≠ target && P.constructible p).reverse := by
  induction above generalizing a with
  | nil =>
    unfold ancestorEnterCalls
    rw [List.takeWhile_nil, reverse_filter_cons]
    rfl
  | cons p above ih =>
    unfold ancestorEnterCalls
    rw [ih, reverse_filter_cons _ a, List.takeWhile_cons]
    cases P.isSubstateOf current p <;> rfl

theorem enterCalls_eq (current target : σ.State) : P.enterCalls current target =
      (((P.ancestors target).takeWhile fun p => !P.isSubstateOf current p).filter
        fun p => p ≠ target && P.constructible p).reverse := by
  unfold enterCalls
  cases hp : P.parent target with
  | none =>
    rw [P.ancestors_of_none hp]
    rfl
  | some p =>
    dsimp only
    rw [P.ancestors_of_some hp, P.chain_eq_cons, ancestorEnterCalls_cons, List.takeWhile_cons]
    cases P.isSubstateOf current p <;> simp

/-- The ancestors that two states do not share are those below the first that they share. -/
theorem takeWhile_notMem_chain (s t : σ.State) :
    (P.chain s).takeWhile (fun p => p ∉ P.chain t) = (P.chain s).filter fun p => p ∉ P.chain t := by
  induction s using P.hierarchy_induction with
  | root s hs =>
    rw [P.chain_of_none hs, List.takeWhile_cons, List.filter_cons]
    rfl
  | child s p hs ih =>
    rw [P.chain_of_some hs, List.takeWhile_cons, List.filter_cons, ih]
    split
    · rfl
    · rename_i hmem
      have hmem' : s ∈ P.chain t := by simpa using hmem
      have hp : p ∈ P.chain s := by
        rw [P.chain_of_some hs]
        exact List.mem_cons_of_mem _ (P.self_mem_chain p)
      have hsub : P.chain p ⊆ P.chain t := fun a ha => P.chain_subset hmem' (P.chain_subset hp ha)
      symm
      rw [List.filter_eq_nil_iff]
      intro a ha
      simpa using hsub ha

theorem takeWhile_notMem_ancestors (s t : σ.State) :
    (P.ancestors s).takeWhile (fun p => p ∉ P.chain t) = (P.ancestors s).filter fun p => p ∉ P.chain t := by
  cases hp : P.parent s with
  | none => rw [P.ancestors_of_none hp]; rfl
  | some p => rw [P.ancestors_of_some hp, takeWhile_notMem_chain]

/-! ## Transitions that keep the balance -/

/-- Every ancestor that is left, or entered, has hooks that can be called, and no name makes the other state
look as if it were in it. -/
def Resolved (s t : σ.State) : Prop :=
  ∀ p ∈ P.ancestors s, p ∉ P.chain t → P.constructible p = true ∧ P.isSubstateOf t p = false

/-- Neither state is an ancestor of the other, and the hooks between them can be called. -/
def Separate (s t : σ.State) : Prop :=
  t ∉ P.ancestors s ∧ s ∉ P.ancestors t ∧ P.Resolved s t ∧ P.Resolved t s

instance (s t : σ.State) : Decidable (P.Resolved s t) :=
  inferInstanceAs (Decidable (∀ p ∈ P.ancestors s, p ∉ P.chain t → _))

instance (s t : σ.State) : Decidable (P.Separate s t) := inferInstanceAs (Decidable (_ ∧ _))

variable {P}

theorem exitCalls_of_separate {s t : σ.State} (h : P.Resolved s t) :
    P.exitCalls t (P.chain s) = s :: (P.ancestors s).filter fun p => p ∉ P.chain t := by
  rw [P.chain_eq_cons, exitCalls_cons, ← takeWhile_notMem_ancestors]
  refine congrArg (s :: ·) (takeWhile_congr fun p hp => ?_)
  by_cases hmem : p ∈ P.chain t
  · have hsub := P.isSubstateOf_of_mem hmem
    simp [hsub, hmem]
  · obtain ⟨hconstructible, hsub⟩ := h p hp hmem
    simp [hconstructible, hsub, hmem]

theorem enterCalls_of_separate {s t : σ.State} (h : P.Resolved t s) :
    P.enterCalls s t = ((P.ancestors t).filter fun p => p ∉ P.chain s).reverse := by
  have htest : (P.ancestors t).takeWhile (fun p => !P.isSubstateOf s p) =
      (P.ancestors t).takeWhile fun p => p ∉ P.chain s := by
    refine takeWhile_congr fun p hp => ?_
    by_cases hmem : p ∈ P.chain s
    · have hsub := P.isSubstateOf_of_mem hmem
      simp [hsub, hmem]
    · simp [(h p hp hmem).2, hmem]
  rw [enterCalls_eq, htest, takeWhile_notMem_ancestors, List.filter_filter]
  refine congrArg List.reverse (List.filter_congr fun p hp => ?_)
  have hne : p ≠ t := fun heq => P.notMem_ancestors t (heq ▸ hp)
  by_cases hmem : p ∈ P.chain s
  · simp [hmem]
  · simp [hmem, hne, (h p hp hmem).1]

/-! ## The calls of a transition -/

theorem calls_perform (m : Machine σ) (call : Call σ) (hook : Hook σ) (value : σ.Value) :
    (m.perform call hook value).1.calls = m.calls ++ [call] := List.map_append

theorem calls_performCurrent (m : Machine σ) (call : Call σ) (hook : Hook σ) :
    (m.performCurrent call hook).calls = m.calls ++ [call] := List.map_append

theorem calls_performAll (call : σ.State → Call σ) (hook : σ.State → Hook σ) (states : List σ.State) :
    ∀ m : Machine σ, (P.performAll call hook m states).calls = m.calls ++ states.map call := by
  unfold performAll
  induction states with
  | nil => exact fun m => (List.append_nil _).symm
  | cons s states ih =>
    intro m
    rw [List.foldl_cons, ih, calls_perform, List.map_cons, List.append_assoc]
    rfl

theorem calls_exitStates (m : Machine σ) (event : Event σ) (input : σ.InPorts) (target : σ.State) :
    (P.exitStates m event input target).calls =
      m.calls ++ (P.exitCalls target (P.chain m.state)).map .exit := by
  unfold exitStates
  rw [calls_performAll, calls_performCurrent, P.chain_eq_cons, exitCalls_cons, List.append_assoc]
  rfl

theorem calls_enterStates (m : Machine σ) (event : Event σ) (input : σ.InPorts) (source : σ.State) :
    (P.enterStates m event input source).calls =
      m.calls ++ (P.enterCalls source m.state ++ [m.state]).map .enter := by
  unfold enterStates
  rw [calls_performCurrent, calls_performAll, List.map_append, List.append_assoc]
  rfl

theorem calls_executeExternal (m : Machine σ) (event : Event σ) (input : σ.InPorts) (index : ℕ)
    (target : σ.State) (action : σ.Value × σ.Value × Data σ → σ.Value × σ.Value × Data σ) :
    (P.executeExternal m event input index target action).calls =
      m.calls ++ (P.exitCalls target (P.chain m.state)).map .exit ++ [.action index, .assign target] ++
        (P.enterCalls m.state target ++ [target]).map .enter := by
  have hstate : (P.recordLeaving m).state = m.state := by unfold recordLeaving; split <;> rfl
  have hcalls : (P.recordLeaving m).calls = m.calls := by unfold recordLeaving; split <;> rfl
  have hleft := P.calls_exitStates (P.recordLeaving m) event input target
  rw [hstate, hcalls] at hleft
  have hset : ∀ left : Machine σ,
      (P.setCurrentState (P.actBetween left index target action).1 target
        (P.actBetween left index target action).2).calls = left.calls ++ [.action index, .assign target] := by
    intro left
    unfold setCurrentState actBetween calls
    rw [List.map_append, List.map_append, List.append_assoc]
    rfl
  unfold executeExternal
  dsimp only
  rw [calls_enterStates, hset, hleft]
  rfl

theorem state_enterStates (m : Machine σ) (event : Event σ) (input : σ.InPorts) (source : σ.State) :
    (P.enterStates m event input source).state = m.state :=
  P.performAll_frame (·.state) (fun _ _ _ _ => rfl) _ _ _ _

theorem state_executeExternal (m : Machine σ) (event : Event σ) (input : σ.InPorts) (index : ℕ)
    (target : σ.State) (action : σ.Value × σ.Value × Data σ → σ.Value × σ.Value × Data σ) :
    (P.executeExternal m event input index target action).state = target :=
  P.state_enterStates _ event input m.state

theorem timers_executeExternal (m : Machine σ) (event : Event σ) (input : σ.InPorts) (index : ℕ)
    (target : σ.State) (action : σ.Value × σ.Value × Data σ → σ.Value × σ.Value × Data σ) :
    (P.executeExternal m event input index target action).timers = P.refreshTimers target m.timers := by
  have hrecord : (P.recordLeaving m).timers = m.timers := by unfold recordLeaving; split <;> rfl
  have hexit : (P.exitStates (P.recordLeaving m) event input target).timers = m.timers :=
    (P.performAll_frame (·.timers) (fun _ _ _ _ => rfl) _ _ _ _).trans hrecord
  rw [← hexit]
  exact P.performAll_frame (·.timers) (fun _ _ _ _ => rfl) _ _ _ _

theorem history_executeExternal (m : Machine σ) (event : Event σ) (input : σ.InPorts) (index : ℕ)
    (target : σ.State) (action : σ.Value × σ.Value × Data σ → σ.Value × σ.Value × Data σ) :
    (P.executeExternal m event input index target action).history = (P.recordLeaving m).history := by
  have hexit : (P.exitStates (P.recordLeaving m) event input target).history = (P.recordLeaving m).history :=
    P.performAll_frame (·.history) (fun _ _ _ _ => rfl) _ _ _ _
  rw [← hexit]
  exact P.performAll_frame (·.history) (fun _ _ _ _ => rfl) _ _ _ _

/-! ## The invariant -/

/-- The entry hook of a state has run once more than its exit hook if the state is active, and as often if it
is not. -/
def HooksMatch (m : Machine σ) : Prop :=
  ∀ s, m.entered s = m.exited s + if s ∈ P.chain m.state then 1 else 0

variable {m : Machine σ}

theorem HooksMatch.balanced (h : P.HooksMatch m) : P.Balanced m := by
  intro s
  have hs := h s
  by_cases hmem : s ∈ P.chain m.state
  · rw [if_pos hmem] at hs
    exact ⟨⟨fun _ => hmem, fun _ => by omega⟩, fun _ => hs⟩
  · rw [if_neg hmem] at hs
    exact ⟨⟨fun hlt => by omega, fun hin => absurd hin hmem⟩, fun hin => absurd hin hmem⟩

variable {states : List σ.State} {target : σ.State}

theorem countP_enter (hnodup : states.Nodup) (s : σ.State) :
    (states.map Call.enter).countP (Call.isEnter s) = if s ∈ states then 1 else 0 := by
  rw [List.countP_map, ← List.Nodup.count hnodup]
  exact List.countP_congr fun t _ => by simp [Call.isEnter]

theorem countP_exit (hnodup : states.Nodup) (s : σ.State) :
    (states.map Call.exit).countP (Call.isExit s) = if s ∈ states then 1 else 0 := by
  rw [List.countP_map, ← List.Nodup.count hnodup]
  exact List.countP_congr fun t _ => by simp [Call.isExit]

theorem countP_enter_exit (states : List σ.State) (s : σ.State) :
    (states.map Call.enter).countP (Call.isExit s) = 0 := by
  simp [List.countP_map, Function.comp_def, Call.isExit]

theorem countP_exit_enter (states : List σ.State) (s : σ.State) :
    (states.map Call.exit).countP (Call.isEnter s) = 0 := by
  simp [List.countP_map, Function.comp_def, Call.isEnter]

theorem exited_executeExternal (event : Event σ) (input : σ.InPorts) (index : ℕ)
    (action : σ.Value × σ.Value × Data σ → σ.Value × σ.Value × Data σ)
    (h : P.Separate m.state target) (s : σ.State) :
    (P.executeExternal m event input index target action).exited s =
      m.exited s + if s = m.state ∨ (s ∈ P.ancestors m.state ∧ s ∉ P.chain target) then 1 else 0 := by
  have hexits : (m.state :: (P.ancestors m.state).filter fun p => p ∉ P.chain target).Nodup := by
    refine List.Sublist.nodup ?_ (P.chain_nodup m.state)
    rw [P.chain_eq_cons m.state]
    exact List.filter_sublist.cons_cons _
  have hother : [Call.action index, .assign target].countP (Call.isExit s) = 0 := rfl
  unfold exited
  rw [calls_executeExternal, exitCalls_of_separate h.2.2.1, List.countP_append, List.countP_append,
    List.countP_append, countP_exit hexits, countP_enter_exit, hother]
  simp only [List.mem_cons, List.mem_filter, decide_eq_true_eq, Nat.add_zero]

theorem entered_executeExternal (event : Event σ) (input : σ.InPorts) (index : ℕ)
    (action : σ.Value × σ.Value × Data σ → σ.Value × σ.Value × Data σ)
    (h : P.Separate m.state target) (s : σ.State) :
    (P.executeExternal m event input index target action).entered s =
      m.entered s + if s = target ∨ (s ∈ P.ancestors target ∧ s ∉ P.chain m.state) then 1 else 0 := by
  have henters : (((P.ancestors target).filter fun p => p ∉ P.chain m.state).reverse ++ [target]).Nodup := by
    rw [← List.reverse_cons, List.nodup_reverse]
    refine List.Sublist.nodup ?_ (P.chain_nodup target)
    rw [P.chain_eq_cons target]
    exact List.filter_sublist.cons_cons _
  have hother : [Call.action index, .assign target].countP (Call.isEnter s) = 0 := rfl
  unfold entered
  rw [calls_executeExternal, enterCalls_of_separate h.2.2.2, List.countP_append, List.countP_append,
    List.countP_append, countP_enter henters, countP_exit_enter, hother]
  simp only [List.mem_append, List.mem_reverse, List.mem_singleton, List.mem_filter, decide_eq_true_eq,
    Nat.add_zero, or_comm]

theorem hooksMatch_executeExternal (hm : P.HooksMatch m) (event : Event σ)
    (input : σ.InPorts) (index : ℕ)
    (action : σ.Value × σ.Value × Data σ → σ.Value × σ.Value × Data σ) (h : P.Separate m.state target) :
    P.HooksMatch (P.executeExternal m event input index target action) := by
  intro s
  have hs := hm s
  rw [entered_executeExternal event input index action h, exited_executeExternal event input index action h,
    state_executeExternal]
  simp only [P.chain_eq_cons m.state, P.chain_eq_cons target, List.mem_cons] at hs ⊢
  -- The state that is left and the target are in neither of the lists of ancestors.
  have hleaf : s = m.state → s ∉ P.ancestors m.state ∧ s ∉ P.ancestors target := by
    rintro rfl
    exact ⟨P.notMem_ancestors _, h.2.1⟩
  have htarget : s = target → s ∉ P.ancestors m.state ∧ s ∉ P.ancestors target := by
    rintro rfl
    exact ⟨h.1, P.notMem_ancestors _⟩
  grind

theorem state_construct (initial : σ.State) (value : σ.Value) (reg : σ.Registers) (srv : σ.Services) :
    (P.construct initial value reg srv).state = initial :=
  P.performAll_frame (·.state) (fun _ _ _ _ => rfl) _ _ _ _

theorem hooksMatch_construct {initial : σ.State} (value : σ.Value) (reg : σ.Registers) (srv : σ.Services)
    (h : ∀ p ∈ P.ancestors initial, P.constructible p = true) :
    P.HooksMatch (P.construct initial value reg srv) := by
  have hall : P.initialEnterCalls initial ++ [initial] = (P.chain initial).reverse := by
    unfold initialEnterCalls
    rw [P.chain_eq_cons initial, List.reverse_cons,
      List.filter_eq_self.mpr fun p hp => h p (List.mem_reverse.mp hp)]
  have hcalls : (P.construct initial value reg srv).calls = (P.chain initial).reverse.map .enter := by
    rw [← hall, List.map_append]
    unfold construct enterInitialState
    show (performCurrent _ _ _).calls = _
    rw [calls_performCurrent, calls_performAll]
    rfl
  intro s
  unfold entered exited
  rw [hcalls, state_construct, countP_enter (List.nodup_reverse.mpr (P.chain_nodup initial)),
    countP_enter_exit, Nat.zero_add]
  simp only [List.mem_reverse]

/-! ## Runs -/

variable (P)

/-- The row that a direct dispatch executes, if it is an external one, is between separate states. -/
def Separates (m : Machine σ) (event : Event σ) (input : σ.InPorts) : Prop :=
  ∀ row ∈ P.selected m event input, row.1.isInternal = false → P.Separate m.state row.1.target

instance (m : Machine σ) (event : Event σ) (input : σ.InPorts) : Decidable (P.Separates m event input) :=
  inferInstanceAs (Decidable (∀ row ∈ P.selected m event input, row.1.isInternal = false → _))

variable {P}

theorem hooksMatch_dispatchDirect (hm : P.HooksMatch m) {event : Event σ}
    {input : σ.InPorts} (h : P.Separates m event input) :
    P.HooksMatch (P.dispatchDirect m event input).1 := by
  rcases P.dispatchDirect_eq m event input with ⟨row, hrow, heq⟩ | ⟨-, heq, -⟩
  · rw [heq]
    have hrow' := h row hrow
    unfold execute
    unfold Row.isInternal Row.target at hrow'
    cases heffect : row.1.effect with
    | external target action =>
      rw [heffect] at hrow'
      exact hooksMatch_executeExternal hm event input row.2 _ (hrow' rfl)
    | internal action =>
      -- An internal row calls no hook.
      intro s
      have hs := hm s
      unfold entered exited at hs ⊢
      rw [calls_performCurrent, List.countP_append, List.countP_append]
      exact hs
  · rw [heq]
    exact hm

/-- In every run whose transitions are between separate states, the hooks are balanced in every state
reached. -/
theorem balanced_run {initial : σ.State} (value : σ.Value) (reg : σ.Registers) (srv : σ.Services)
    (hinitial : ∀ p ∈ P.ancestors initial, P.constructible p = true) (ops : List (Event σ × σ.InPorts))
    (hops : Runs.Along (fun m op => (P.dispatch m op.1 op.2).1)
      (fun m op => ∀ call ∈ P.dispatchCalls m op.1 op.2, P.Separates call.1 call.2 op.2)
      (P.construct initial value reg srv) ops) :
    ∀ pre, pre <+: ops →
      P.Balanced (pre.foldl (fun m op => (P.dispatch m op.1 op.2).1) (P.construct initial value reg srv)) := by
  rintro pre ⟨rest, rfl⟩
  refine HooksMatch.balanced (Runs.along_invariant ?_ pre _ (hooksMatch_construct value reg srv hinitial)
    ((Runs.along_append pre rest _).mp hops).1)
  intro m op hm hcalls
  exact dispatch_invariant (fun m queue hm => hm)
    (fun call hcall hmatch => hooksMatch_dispatchDirect hmatch (hcalls call hcall)) hm

end Program

/-! ## A transition to the own composite -/

/-- States 1 and 2 are in state 0. The first event goes from 1 to 2 and back, the second one from 1 to 0. -/
def nested : Program Signature.small :=
  { Program.plain with
    rows :=
      [⟨1, 1, fun _ _ _ _ _ _ _ => true, .external 2 fun _ _ _ x => x⟩,
        ⟨2, 1, fun _ _ _ _ _ _ _ => true, .external 1 fun _ _ _ x => x⟩,
        ⟨1, 2, fun _ _ _ _ _ _ _ => true, .external 0 fun _ _ _ x => x⟩]
    initial := 1
    parent := Program.parentOf
    depth := id
    depth_lt := Program.lt_of_parentOf }

/-- The composite is entered twice and never left. -/
theorem nested_not_hooksBalanced : ¬ nested.HooksBalanced := by
  intro h
  have hcomposite := (h 1 () 0 () [(⟨2, ()⟩, ())] 0).2
  have hentered : ([((⟨2, ()⟩ : Event Signature.small), ())].foldl
      (fun m op => (nested.dispatch m op.1 op.2).1) (nested.construct 1 () 0 ())).entered 0 = 2 := by
    decide +kernel
  have hexited : ([((⟨2, ()⟩ : Event Signature.small), ())].foldl
      (fun m op => (nested.dispatch m op.1 op.2).1) (nested.construct 1 () 0 ())).exited 0 = 0 := by
    decide +kernel
  have hmem := hcomposite (by decide +kernel)
  rw [hentered, hexited] at hmem
  exact absurd hmem (by decide)

theorem nested_balanced : nested.Balanced ([((⟨1, ()⟩ : Event Signature.small), ()), (⟨1, ()⟩, ())].foldl
      (fun m op => (nested.dispatch m op.1 op.2).1) (nested.construct 1 () 0 ())) :=
  Program.balanced_run (P := nested) () 0 () (by decide +kernel) [(⟨1, ()⟩, ()), (⟨1, ()⟩, ())]
    (by decide +kernel) _
    List.prefix_rfl

end Fsmc.Backend
