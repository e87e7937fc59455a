/-
# Fsmc.Cpp.Algorithm — the standard algorithms that the passes call.
-/
import Fsmc.Lib.FirstMatch
import Mathlib.Data.List.Sort

namespace Fsmc.Cpp

open Fsmc.Lib.FirstMatch

variable {α κ : Type*} [LinearOrder κ]

/-- `std::stable_sort` with the comparison `lt`. -/
def stableSort (lt : α → α → Bool) (l : List α) : List α := l.mergeSort fun a b => !lt b a

variable {lt : α → α → Bool}

variable {l : List α} (key : α → String)

theorem stableSort_eq_sortByKey {key : α → κ} (h : ∀ a ∈ l, ∀ b ∈ l, lt a b = decide (key a < key b)) :
    stableSort lt l = sortByKey key l := by
  have hle : ∀ a ∈ l, ∀ b ∈ l, (!lt b a) = decide (key (id a) ≤ key (id b)) := by
    intro a ha b hb
    rw [h b hb a ha, ← decide_not]
    exact decide_eq_decide.mpr not_lt
  have hmap := List.map_mergeSort (s := fun a b => decide (key a ≤ key b)) hle
  rw [List.map_id, List.map_id] at hmap
  exact hmap

theorem stableSort_of_pairwise (h : l.Pairwise fun a b => lt b a = false) : stableSort lt l = l :=
  List.mergeSort_of_pairwise (h.imp fun hab => by rw [hab]; rfl)

theorem pairwise_stableSort (l : List α) :
    (stableSort (fun a b => key a < key b) l).Pairwise fun a b => key a ≤ key b := by
  have hsorted : (stableSort (fun a b => key a < key b) l).Pairwise fun a b =>
      (!decide (key b < key a)) = true := by
    refine List.pairwise_mergeSort ?_ ?_ l
    · intro a b c hab hbc
      simp only [Bool.not_eq_true', decide_eq_false_iff_not, String.not_lt] at hab hbc ⊢
      exact String.le_trans hab hbc
    · intro a b
      simp only [Bool.or_eq_true, Bool.not_eq_true', decide_eq_false_iff_not, String.not_lt]
      exact String.le_total (key a) (key b)
  refine hsorted.imp fun {a b} hab => ?_
  simpa only [Bool.not_eq_true', decide_eq_false_iff_not, String.not_lt] using hab

theorem stableSort_eq_self_iff (l : List α) :
    stableSort (fun a b => key a < key b) l = l ↔ l.Pairwise fun a b => key a ≤ key b := by
  constructor
  · intro h
    rw [← h]
    exact pairwise_stableSort key l
  · exact fun h => stableSort_of_pairwise (h.imp fun hab => decide_eq_false (String.not_lt.mpr hab))

theorem mem_stableSort {a : α} : a ∈ stableSort lt l ↔ a ∈ l :=
  List.mem_mergeSort

/-- `std::sort`: a sorted rearrangement, of which nothing else is specified. -/
structure SortOrder where
  sort : {α : Type} → (α → α → Bool) → List α → List α
  perm : ∀ {α : Type} (lt : α → α → Bool) (l : List α), (sort lt l).Perm l
  sorted : ∀ {α : Type} (lt : α → α → Bool) (l : List α), (∀ a b, lt a b = true → lt b a = false) →
    (∀ a b c, lt b a = false → lt c b = false → lt c a = false) →
      (sort lt l).Pairwise fun a b => lt b a = false

/-- Insertion sort is one of them. -/
def SortOrder.insertion : SortOrder where
  sort := fun lt l => l.insertionSort fun a b => lt b a = false
  perm := fun _ l => List.perm_insertionSort _ l
  sorted := by
    intro α lt l hasymm htrans
    have htotal : Std.Total fun a b => lt b a = false := by
      refine ⟨fun a b => ?_⟩
      cases hab : lt b a with
      | false => exact Or.inl rfl
      | true => exact Or.inr (hasymm b a hab)
    have htransitive : IsTrans α fun a b => lt b a = false := ⟨htrans⟩
    exact List.pairwise_insertionSort _ l

end Fsmc.Cpp
