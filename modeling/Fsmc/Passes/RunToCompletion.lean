/-
# Fsmc.Passes.RunToCompletion — macro-steps against the bound on micro steps.

The analysis measures paths of a graph. The machine chooses one of the transitions of its state, by precedence
and by guards that depend on what has been executed. Where the analysis finds no cycle every macro-step ends, and
the completion transitions in it are no more than the bound.
-/
import Fsmc.Passes.MicroStepBound
import Fsmc.Runtime.MacroStep

namespace Fsmc.Passes.WcetAnalysis

open Fsmc.Ir Fsmc.Lib.LongestWalk Fsmc.Runtime Relation

variable {ir : FsmIr} {v : GuardHistory}

/-- The completion transitions that are taken until none is chosen. -/
inductive Completes (ir : FsmIr) (v : GuardHistory) :
    String → Observation → List TransitionEdge → String × Observation → Prop
  | rest {s : String} {w : Observation} : chosen ir s "" (v w) = none → Completes ir v s w [] (s, w)
  | step {s : String} {w : Observation} {t : TransitionEdge} {ts : List TransitionEdge} {r : String × Observation} :
      chosen ir s "" (v w) = some t →
      Completes ir v (nextState s t) (w * observeStep ir s t) ts r → Completes ir v s w (t :: ts) r

section

variable {s : String} {w : Observation} {ts : List TransitionEdge} {r : String × Observation}

theorem Completes.quiesces (h : Completes ir v s w ts r) : Quiesces ir v s w r := by
  induction h with
  | rest hnone => exact .rest hnone
  | step hsome _ ih => exact .step hsome ih

theorem Completes.stable (h : Completes ir v s w ts r) : chosen ir r.1 "" (v r.2) = none := by
  induction h with
  | rest hnone => exact hnone
  | step _ _ ih => exact ih

end

/-- Completion transitions lead to a state, and are not internal. -/
def CompletionsMove (ir : FsmIr) : Prop := ∀ t ∈ ir.transitions, t.event = "" → t.target ≠ "" ∧ t.kind ≠ .internal

instance (ir : FsmIr) : Decidable (CompletionsMove ir) := inferInstanceAs (Decidable (∀ _ ∈ _, _))

theorem microEdge_of_chosen (hmoves : CompletionsMove ir) {s : String} {g : GuardValuation} {t : TransitionEdge}
    (h : chosen ir s "" g = some t) : MicroEdge ir s (nextState s t) := by
  obtain ⟨hsource, hevent⟩ := ends_of_chosen h
  have hmem : t ∈ ir.transitions := (List.mem_filter.mp (List.argmin_mem h)).1
  obtain ⟨htarget, hkind⟩ := hmoves t hmem hevent
  have hnext : nextState s t = t.target := if_neg hkind
  refine ⟨t, hmem, ?_, hsource, hnext.symm, hnext ▸ htarget⟩
  simp [isMicrostepTransition, hevent]

/-- Where walks of micro steps are bounded, so is every completion. By induction on the bound, of which each
transition that is chosen uses up one. -/
theorem exists_completes (hmoves : CompletionsMove ir) (v : GuardHistory) (n : ℕ) (s : String) (w : Observation)
    (hbound : ∀ k, HasWalk (MicroEdge ir) s k → k ≤ n) : ∃ ts r, Completes ir v s w ts r ∧ ts.length ≤ n := by
  induction n generalizing s w with
  | zero =>
    refine ⟨[], (s, w), .rest ?_, le_rfl⟩
    by_contra hchosen
    obtain ⟨t, ht⟩ := Option.ne_none_iff_exists'.mp hchosen
    have hwalk := hasWalk_succ.mpr ⟨_, microEdge_of_chosen hmoves ht, hasWalk_zero _ _⟩
    exact absurd (hbound 1 hwalk) (by omega)
  | succ n ih =>
    cases hchosen : chosen ir s "" (v w) with
    | none => exact ⟨[], (s, w), .rest hchosen, by simp⟩
    | some t =>
      have hnext : ∀ k, HasWalk (MicroEdge ir) (nextState s t) k → k ≤ n := by
        intro k hk
        have hle := hbound (k + 1) (hasWalk_succ.mpr ⟨_, microEdge_of_chosen hmoves hchosen, hk⟩)
        omega
      obtain ⟨ts, r, hcompletes, hlength⟩ := ih (nextState s t) (w * observeStep ir s t) hnext
      refine ⟨t :: ts, r, .step hchosen hcompletes, ?_⟩
      rw [List.length_cons]
      omega

/-- Two completion transitions follow the event. -/
def relay : FsmIr where
  states := [{ name := "Idle" }, { name := "Armed" }, { name := "Fired" }, { name := "Done" }]
  transitions := [{ source := "Idle", target := "Armed", event := "pull" }, { source := "Armed", target := "Fired" },
    { source := "Fired", target := "Done" }]

end Fsmc.Passes.WcetAnalysis
