/-
# Fsmc.Passes.MinimizationPartition — what the refinement of the minimisation computes.

The signature of a state is one text with separators between its parts, and the texts of guards may have the
separators themselves. The loop always ends; it ends with the coarsest partition whose blocks move alike exactly if
no text stands for two different signatures there.
-/
import Fsmc.Lib.CoarsestPartition
import Fsmc.Passes.StateMinimization

namespace Fsmc.Passes.StateMinimization

open Fsmc.Ir Fsmc.Runtime Fsmc.Lib.PartitionRefinement

/-- The signature that the texts stand for: for each event the targets, guard texts and action names. -/
def moves (ir : FsmIr) : Moves String String TransitionEdge (String × String × String) where
  out s event := ir.transitions.filter (tried s event)
  target := TransitionEdge.target
  label t := (t.guard.getD "", (t.conditionAction.map (·.name)).getD "", (t.transitionAction.map (·.name)).getD "")

/-- The `while (changed)` loop. -/
def refinementLoop (ir : FsmIr) : Option (List (List String)) :=
  refine (signature ir) (ir.states.length + 1) (initialBlocks ir)

/-- No text stands for two different signatures, however the initial blocks are split. -/
def Unambiguous (ir : FsmIr) : Prop :=
  ∀ partition, Refines (initialBlocks ir) partition → (moves ir).Faithful (signature ir) partition

theorem signature_eq_of_same (ir : FsmIr) (ν : String → Option ℕ) (s s' : String) (h : (moves ir).Same ν s s') :
    signature ir ν s = signature ir ν s' := by
  have hdescribe : ∀ event, describeEvent ir ν s event = describeEvent ir ν s' event := by
    intro event
    have hmap : ∀ ts : List TransitionEdge, ts.map (describe ν) = (ts.map ((moves ir).seen ν)).map fun p =>
        toString (p.1.getD 999999) ++ ":" ++ p.2.1 ++ ":" ++ p.2.2.1 ++ "/" ++ p.2.2.2 := by
      intro ts
      rw [List.map_map]
      rfl
    have hperm : ((ir.transitions.filter (tried s event)).map (describe ν)).Perm
        ((ir.transitions.filter (tried s' event)).map (describe ν)) := by
      rw [hmap, hmap]
      exact (h event).map _
    have hsorted : ((ir.transitions.filter (tried s event)).map (describe ν)).insertionSort (· ≤ ·) =
        ((ir.transitions.filter (tried s' event)).map (describe ν)).insertionSort (· ≤ ·) := by
      refine List.Perm.eq_of_pairwise' (List.pairwise_insertionSort _ _) (List.pairwise_insertionSort _ _) ?_
      exact (List.perm_insertionSort _ _).trans (hperm.trans (List.perm_insertionSort _ _).symm)
    unfold describeEvent
    rw [hsorted]
  unfold signature
  simp only [hdescribe]

theorem refinementLoop_isSome (ir : FsmIr) : (refinementLoop ir).isSome = true := by
  apply refine_isSome (initialBlocks_refines ir)
  have hle := (initialBlocks_flatten_subperm ir).length_le
  rw [List.length_map] at hle
  omega

/-- **The loop ends**, and with the coarsest partition whose blocks have one signature if and only if no text stands
for two signatures in the last pass; it does if no text ever can. -/
theorem refinement_exact (ir : FsmIr) : ∃ partition, refinementLoop ir = some partition ∧
    ((moves ir).Coarsest (initialBlocks ir) partition ↔ (moves ir).Faithful (signature ir) partition) ∧
      (Unambiguous ir → (moves ir).Coarsest (initialBlocks ir) partition) := by
  obtain ⟨partition, hloop⟩ := Option.isSome_iff_exists.mp (refinementLoop_isSome ir)
  have hiff := refine_coarsest_iff (m := moves ir) (signature_eq_of_same ir) (initialBlocks_refines ir) hloop
  have hrefines := (refine_spec (initialBlocks_refines ir) hloop).1
  exact ⟨partition, hloop, hiff, fun h => hiff.mpr (h partition hrefines)⟩

/-- Two ways to the end: one transition, whose guard reads like two guards, and two transitions with those. -/
def confusing : FsmIr where
  initialState := "End"
  states := [{ name := "End" }, { name := "One" }, { name := "Two" }]
  transitions := [{ source := "One", target := "End", event := "go", guard := some "x:/,0:y" },
    { source := "Two", target := "End", event := "go", guard := some "x" },
    { source := "Two", target := "End", event := "go", guard := some "y" }]

/-- The states with one and with two transitions stay in one block. -/
theorem confusing_not_uniform : refinementLoop confusing = some [["End"], ["One", "Two"]] ∧
    ¬ (moves confusing).Uniform [["End"], ["One", "Two"]] := by
  refine ⟨by decide +kernel, fun h => ?_⟩
  have hlength := (h ["One", "Two"] (by decide) "One" (by decide) "Two" (by decide) "go").length_eq
  exact absurd hlength (by decide +kernel)

end Fsmc.Passes.StateMinimization
