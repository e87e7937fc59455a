/-
# Fsmc.Cpp.Hash — `std::unordered_set` and `std::unordered_map`.

A set is the list of its elements and a map the list of its entries, in the order in which they were
inserted. The order in which a loop visits them is not that order: it is whatever the implementation
of the container makes of it, an arbitrary rearrangement (`HashOrder`). Everything proved holds for
every such order.
-/
import Mathlib.Data.List.Perm.Basic
import Mathlib.Data.List.Nodup

namespace Fsmc.Cpp

/-- The order in which an unordered container is iterated, as a function of its contents. -/
structure HashOrder where
  iter : {α : Type} → List α → List α
  perm : ∀ {α : Type} (l : List α), (iter l).Perm l

namespace HashOrder

/-- The order of insertion is one possible order. -/
def insertion : HashOrder := ⟨id, fun l => List.Perm.refl l⟩

variable (order : HashOrder)

@[simp] theorem mem_iter {α : Type} {l : List α} {x : α} : x ∈ order.iter l ↔ x ∈ l :=
  (order.perm l).mem_iff

@[simp] theorem length_iter {α : Type} {l : List α} : (order.iter l).length = l.length :=
  (order.perm l).length_eq

end HashOrder

variable {α β : Type} [DecidableEq α]

/-- `map[key].push_back(value)`. -/
def pushBack (key : α) (value : β) : List (α × List β) → List (α × List β)
  | [] => [(key, [value])]
  | (k, values) :: rest =>
    if k = key then (k, values ++ [value]) :: rest else (k, values) :: pushBack key value rest

/-- The values stored under a key; a missing entry and an empty one are alike. -/
def valuesAt (map : List (α × List β)) (key : α) : List β := (map.lookup key).getD []

variable {map : List (α × List β)}

theorem valuesAt_cons {k key : α} {values : List β} :
    valuesAt ((k, values) :: map) key = if key = k then values else valuesAt map key := by
  by_cases h : key = k
  · simp [valuesAt, h]
  · have hbeq : (key == k) = false := by simpa using h
    simp [valuesAt, List.lookup_cons, hbeq, h]

variable {value : β}

theorem valuesAt_pushBack {key k : α} : valuesAt (pushBack key value map) k =
      valuesAt map k ++ if k = key then [value] else [] := by
  induction map with
  | nil =>
    rw [pushBack, valuesAt_cons]
    by_cases h : k = key <;> simp [valuesAt, h]
  | cons entry map ih =>
    obtain ⟨k', values⟩ := entry
    by_cases hk' : k' = key
    · rw [pushBack, if_pos hk', valuesAt_cons, valuesAt_cons, hk']
      by_cases h : k = key <;> simp [h]
    · rw [pushBack, if_neg hk', valuesAt_cons, valuesAt_cons, ih]
      by_cases h : k = k'
      · have hne : k ≠ key := fun heq => hk' (h.symm.trans heq)
        simp [h, hk']
      · simp [h]

theorem map_fst_pushBack_sub {key k : α}
    (h : k ∈ (pushBack key value map).map Prod.fst) : k = key ∨ k ∈ map.map Prod.fst := by
  induction map with
  | nil =>
    left
    simpa [pushBack] using h
  | cons entry map ih =>
    obtain ⟨k', values⟩ := entry
    by_cases hk' : k' = key
    · rw [pushBack, if_pos hk'] at h
      exact Or.inr h
    · rw [pushBack, if_neg hk'] at h
      rcases List.mem_cons.mp h with h | h
      · exact Or.inr (h ▸ List.mem_cons_self)
      · exact (ih h).imp id fun h => List.mem_cons_of_mem _ h

theorem nodup_keys_pushBack {key : α}
    (h : (map.map Prod.fst).Nodup) : ((pushBack key value map).map Prod.fst).Nodup := by
  induction map with
  | nil => simp [pushBack]
  | cons entry map ih =>
    obtain ⟨k', values⟩ := entry
    obtain ⟨hnot, hrest⟩ := List.nodup_cons.mp h
    by_cases hk' : k' = key
    · rw [pushBack, if_pos hk']
      exact h
    · rw [pushBack, if_neg hk']
      refine List.nodup_cons.mpr ⟨fun hmem => ?_, ih hrest⟩
      exact (map_fst_pushBack_sub hmem).elim hk' hnot

/-- With every key stored once, an entry is what a lookup of its key finds. -/
theorem valuesAt_of_mem (h : (map.map Prod.fst).Nodup) {k : α}
    {values : List β} (hmem : (k, values) ∈ map) : valuesAt map k = values := by
  induction map with
  | nil => exact absurd hmem List.not_mem_nil
  | cons entry map ih =>
    obtain ⟨k', values'⟩ := entry
    obtain ⟨hnot, hrest⟩ := List.nodup_cons.mp h
    rw [valuesAt_cons]
    rcases List.mem_cons.mp hmem with heq | hrest'
    · rw [Prod.mk.injEq] at heq
      rw [if_pos heq.1, heq.2]
    · have hne : k ≠ k' := by
        rintro rfl
        exact hnot (List.mem_map.mpr ⟨_, hrest', rfl⟩)
      rw [if_neg hne]
      exact ih hrest hrest'

theorem mem_of_valuesAt_ne_nil {k : α} (h : valuesAt map k ≠ []) : (k, valuesAt map k) ∈ map := by
  induction map with
  | nil => exact absurd rfl h
  | cons entry map ih =>
    obtain ⟨k', values⟩ := entry
    rw [valuesAt_cons] at h ⊢
    by_cases hk : k = k'
    · rw [if_pos hk, hk]
      exact List.mem_cons_self
    · rw [if_neg hk] at h ⊢
      exact List.mem_cons_of_mem _ (ih h)

end Fsmc.Cpp
