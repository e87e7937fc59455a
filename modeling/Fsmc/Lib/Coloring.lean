/-
# Fsmc.Lib.Coloring — greedy colouring of a graph.

The vertices are coloured in the given order, each with the least colour that none of its neighbours has
yet. The colouring is proper, whatever the order.
-/
import Mathlib.Data.List.Dedup
import Mathlib.Data.List.Range
import Mathlib.Data.List.Perm.Subperm
import Mathlib.Logic.Function.Basic

namespace Fsmc.Lib.Coloring

/-- The least colour that is not used. -/
def firstFree (used : List ℕ) : ℕ := ((List.range (used.length + 1)).find? (· ∉ used)).getD 0

theorem firstFree_notMem (used : List ℕ) : firstFree used ∉ used := by
  unfold firstFree
  cases hfind : (List.range (used.length + 1)).find? (· ∉ used) with
  | some c => simpa using List.find?_some hfind
  | none =>
    have hsub : List.range (used.length + 1) ⊆ used := by
      intro c hc
      have hnone := List.find?_eq_none.mp hfind c hc
      simpa using hnone
    have hle := (List.subperm_of_subset List.nodup_range hsub).length_le
    rw [List.length_range] at hle
    omega

variable {α : Type*} [DecidableEq α] (neighbours : α → List α)

def colourVertex (colours : α → Option ℕ) (v : α) : α → Option ℕ :=
  Function.update colours v (some (firstFree ((neighbours v).filterMap colours)))

/-- Colour the vertices in order. -/
def colour (order : List α) : α → Option ℕ := order.foldl (colourVertex neighbours) fun _ => none

/-- No two neighbours have the same colour. -/
def Proper (colours : α → Option ℕ) : Prop :=
  ∀ v, ∀ w ∈ neighbours v, ∀ c, colours v = some c → colours w ≠ some c

variable {neighbours}

theorem proper_colourVertex (hsymm : ∀ v w, w ∈ neighbours v → v ∈ neighbours w)
    (hirrefl : ∀ v, v ∉ neighbours v) {colours : α → Option ℕ} (h : Proper neighbours colours)
    (u : α) : Proper neighbours (colourVertex neighbours colours u) := by
  have hfree : ∀ w ∈ neighbours u, colours w ≠ some (firstFree ((neighbours u).filterMap colours)) := by
    intro w hw heq
    exact firstFree_notMem _ (List.mem_filterMap.mpr ⟨w, hw, heq⟩)
  intro v w hw c hv hwc
  unfold colourVertex at hv hwc
  by_cases hvu : v = u
  · subst hvu
    have hne : w ≠ v := by
      rintro rfl
      exact hirrefl _ hw
    rw [Function.update_self] at hv
    rw [Function.update_of_ne hne, ← hv] at hwc
    exact hfree w hw hwc
  · rw [Function.update_of_ne hvu] at hv
    by_cases hwu : w = u
    · subst hwu
      rw [Function.update_self, ← hv] at hwc
      exact hfree v (hsymm v _ hw) hwc.symm
    · rw [Function.update_of_ne hwu] at hwc
      exact h v w hw c hv hwc

theorem colour_proper (hsymm : ∀ v w, w ∈ neighbours v → v ∈ neighbours w)
    (hirrefl : ∀ v, v ∉ neighbours v) (order : List α) :
    Proper neighbours (colour neighbours order) := by
  have hfold : ∀ (order : List α) (colours : α → Option ℕ), Proper neighbours colours →
      Proper neighbours (order.foldl (colourVertex neighbours) colours) := by
    intro order
    induction order with
    | nil => exact fun _ h => h
    | cons v order ih => exact fun colours h => ih _ (proper_colourVertex hsymm hirrefl h v)
  exact hfold order _ fun v w _ c hv => by simp at hv

theorem colour_isSome_of_mem {order : List α} {v : α} (h : v ∈ order) :
    (colour neighbours order v).isSome = true := by
  have hkeep : ∀ (order : List α) (colours : α → Option ℕ), (colours v).isSome = true ∨ v ∈ order →
      (order.foldl (colourVertex neighbours) colours v).isSome = true := by
    intro order
    induction order with
    | nil => exact fun _ h => h.resolve_right List.not_mem_nil
    | cons u order ih =>
      intro colours h
      apply ih
      by_cases hvu : v = u
      · subst hvu
        simp [colourVertex]
      · unfold colourVertex
        rw [Function.update_of_ne hvu]
        exact h.imp_right fun hmem => (List.mem_cons.mp hmem).resolve_left hvu
  exact hkeep order _ (Or.inr h)

end Fsmc.Lib.Coloring
