/-
# Fsmc.Passes.MicroStepBound — how many micro steps can follow one another.

Where micro steps form no cycle, the analysis computes the length of the longest chain of them, and no cascade of
transitions that take a micro step each is longer. A warning is given exactly if some cascade exceeds the
threshold.
-/
import Fsmc.Lib.LongestWalk
import Fsmc.Passes.ZeroTimeCycles

namespace Fsmc.Passes.WcetAnalysis

open Fsmc.Ir Fsmc.Lib Fsmc.Lib.LongestWalk Relation

/-! ## The analysis -/

/-- Everything that is a node of the graph, or the target of an edge. -/
def vertices (ir : FsmIr) : List String := nodes ir ++ (links ir).map (·.target)

/-- The longest chain from any node, by `get_longest`. -/
def longestChain (ir : FsmIr) : Option ℕ :=
  (greatest 0 (longest (adj ir) (vertices ir).length) (nodes ir) fun _ => none).map (·.1)

/-- The code and the text of the report on the bound. -/
def boundReport (threshold bound : ℕ) : String × String :=
  if threshold < bound then
    ("W_WCET_HIGH_MICROSTEPS", "Longest chained micro-step sequence (" ++ toString bound ++
      ") exceeds configured real-time latency threshold (" ++ toString threshold ++ ").")
  else
    ("I_WCET_BOUND", "Certified maximum micro-step bound per macro-step: " ++ toString bound ++ " steps.")

/-- What the analysis leaves behind. -/
structure Result where
  hasZenoCycle : Bool
  maxMicroSteps : ℕ
  report : Option (String × String)
  deriving DecidableEq, Repr

/-- `WcetAnalysisPass::run`; it answers whether there is no Zeno cycle. -/
def run (threshold : ℕ) (ir : FsmIr) : Option (Result × Bool) :=
  if hasZenoCycle ir then some (⟨true, 0, none⟩, false)
  else (longestChain ir).map fun bound => (⟨false, bound, some (boundReport threshold bound)⟩, true)

/-! ## Cascades -/

/-- Transitions that take a micro step each, the first one from the node and every other one from where the one
before it leads. -/
inductive Cascade (ir : FsmIr) : String → List TransitionEdge → Prop
  | rest (node : String) : Cascade ir node []
  | step {t : TransitionEdge} {ts : List TransitionEdge} : t ∈ ir.transitions →
      isMicrostepTransition ir t = true → t.target ≠ "" → Cascade ir t.target ts → Cascade ir t.source (t :: ts)

variable {ir : FsmIr}

theorem Cascade.hasWalk {node : String} {ts : List TransitionEdge} (h : Cascade ir node ts) :
    HasWalk (MicroEdge ir) node ts.length := by
  induction h with
  | rest node => exact hasWalk_zero _ node
  | @step t ts hmem hmicro htarget _ ih => exact hasWalk_succ.mpr ⟨t.target, ⟨t, hmem, hmicro, rfl, rfl, htarget⟩, ih⟩

/-! ## The bound -/

theorem hasWalk_adj (hacyclic : ¬ MicroCycle ir) {node : String} {n : ℕ} :
    HasWalk (SuccStep (adj ir)) node n ↔ HasWalk (MicroEdge ir) node n := by
  have hedge : SuccStep (adj ir) = MicroEdge ir := by
    funext a b
    refine propext (mem_adj.trans ⟨And.left, fun h => ⟨h, ?_⟩⟩)
    rintro rfl
    exact hacyclic ⟨a, TransGen.single h⟩
  rw [hedge]

theorem longestChain_spec (hacyclic : ¬ MicroCycle ir) :
    ∃ bound, longestChain ir = some bound ∧ IsGreatest {n | ∃ node, HasWalk (MicroEdge ir) node n} bound := by
  have hlinks : ∀ {x y}, SuccStep (adj ir) x y → ∃ t ∈ links ir, t.source = x ∧ t.target = y := by
    intro x y hxy
    obtain ⟨t, ht, rfl⟩ := List.mem_map.mp hxy
    obtain ⟨hlink, hsource⟩ := List.mem_filter.mp ht
    exact ⟨t, hlink, by simpa using hsource, rfl⟩
  have hclosed : ∀ x ∈ vertices ir, ∀ y, SuccStep (adj ir) x y → y ∈ vertices ir := by
    intro x _ y hxy
    obtain ⟨t, ht, -, rfl⟩ := hlinks hxy
    exact List.mem_append_right _ (List.mem_map_of_mem ht)
  have hsources : ∀ x y, SuccStep (adj ir) x y → x ∈ nodes ir := by
    intro x y hxy
    obtain ⟨t, ht, rfl, -⟩ := hlinks hxy
    exact List.mem_append_right _ (List.mem_map_of_mem ht)
  have hnoCycle : ∀ x, ¬ TransGen (SuccStep (adj ir)) x x := fun x hcycle =>
    hacyclic ⟨x, hcycle.lift id fun _ _ hab => (mem_adj.mp hab).1⟩
  obtain ⟨bound, memo, hbound, hgreatest⟩ := greatest_longest_spec hclosed
    (fun r hr => List.mem_append_left _ hr) hsources hnoCycle
  refine ⟨bound, by rw [longestChain, hbound]; rfl, ?_⟩
  simpa only [hasWalk_adj hacyclic] using hgreatest

/-- The analysis ends on every machine. It reports a Zeno cycle if and only if micro steps form one, and
otherwise the length of the longest chain of micro steps, which no cascade exceeds. -/
theorem run_exact (threshold : ℕ) (ir : FsmIr) : ∃ result, run threshold ir = some (result, !result.hasZenoCycle) ∧
      (result.hasZenoCycle = true ↔ MicroCycle ir) ∧
      (¬ MicroCycle ir → IsGreatest {n | ∃ node, HasWalk (MicroEdge ir) node n} result.maxMicroSteps ∧
        ∀ node ts, Cascade ir node ts → ts.length ≤ result.maxMicroSteps) := by
  unfold run
  by_cases hcycle : MicroCycle ir
  · rw [if_pos (hasZenoCycle_iff.mpr hcycle)]
    exact ⟨_, rfl, ⟨fun _ => hcycle, fun _ => rfl⟩, fun h => absurd hcycle h⟩
  · rw [if_neg fun h => hcycle (hasZenoCycle_iff.mp h)]
    obtain ⟨bound, hbound, hgreatest⟩ := longestChain_spec hcycle
    rw [hbound]
    refine ⟨_, rfl, ⟨fun h => Bool.noConfusion h, fun h => absurd h hcycle⟩, fun _ => ⟨hgreatest, ?_⟩⟩
    exact fun node ts hts => hgreatest.2 ⟨node, hts.hasWalk⟩

end Fsmc.Passes.WcetAnalysis
