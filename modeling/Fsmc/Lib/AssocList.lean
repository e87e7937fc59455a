/-
# Fsmc.Lib.AssocList — lists of keys with their values.

A map as the list of its entries, in the order in which the keys were first given a value. `assign` puts
a new value in the place of the old one.
-/
import Mathlib.Data.List.Basic

namespace Fsmc.Lib.AssocList

universe u v

variable {κ : Type u} {ν : Type v} [DecidableEq κ] {k k' : κ} {v : ν} {l : List (κ × ν)}

/-- The entries with `v` for `k`. -/
def assign (k : κ) (v : ν) : List (κ × ν) → List (κ × ν)
  | [] => [(k, v)]
  | (k', v') :: l => if k' = k then (k, v) :: l else (k', v') :: assign k v l

theorem lookup_cons_of_ne (h : k' ≠ k) : ((k, v) :: l).lookup k' = l.lookup k' := by
  rw [List.lookup_cons, beq_false_of_ne h]

@[simp] theorem lookup_assign_self : (assign k v l).lookup k = some v := by
  induction l with
  | nil => simp [assign]
  | cons entry l ih =>
    obtain ⟨k', v'⟩ := entry
    by_cases hk : k' = k
    · simp [assign, hk]
    · rw [assign, if_neg hk, lookup_cons_of_ne (Ne.symm hk), ih]

theorem lookup_of_mem (hnodup : (l.map (·.1)).Nodup) (h : (k, v) ∈ l) : l.lookup k = some v := by
  induction l with
  | nil => exact absurd h List.not_mem_nil
  | cons entry l ih =>
    obtain ⟨hnot, hnodup'⟩ := List.nodup_cons.mp hnodup
    rcases List.mem_cons.mp h with rfl | h
    · exact List.lookup_cons_self
    · have hne : k ≠ entry.1 := by
        rintro rfl
        exact hnot (List.mem_map_of_mem (f := (·.1)) h)
      rw [lookup_cons_of_ne hne, ih hnodup' h]

theorem lookup_assign_of_ne (h : k' ≠ k) : (assign k v l).lookup k' = l.lookup k' := by
  induction l with
  | nil => exact lookup_cons_of_ne h
  | cons entry l ih =>
    obtain ⟨k'', v'⟩ := entry
    by_cases hk : k'' = k
    · subst hk
      rw [assign, if_pos rfl, lookup_cons_of_ne h, lookup_cons_of_ne h]
    · rw [assign, if_neg hk, List.lookup_cons, List.lookup_cons, ih]

end Fsmc.Lib.AssocList
