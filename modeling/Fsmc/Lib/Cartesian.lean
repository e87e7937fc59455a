/-
# Fsmc.Lib.Cartesian — the tuples with one component from each of a list of lists.
-/
import Mathlib.Data.List.Forall2
import Mathlib.Algebra.BigOperators.Group.List.Basic
import Mathlib.Data.List.Nodup

namespace Fsmc.Lib.Cartesian

variable {α : Type*}

/-- The tuples, the last component varying fastest. -/
def product : List (List α) → List (List α)
  | [] => [[]]
  | l :: ls => l.flatMap fun a => (product ls).map (a :: ·)

variable {ls : List (List α)} {tup : List α}

theorem mem_product : tup ∈ product ls ↔ List.Forall₂ (· ∈ ·) tup ls := by
  induction ls generalizing tup with
  | nil => simp [product]
  | cons l ls ih =>
    unfold product
    rw [List.mem_flatMap, List.forall₂_cons_right_iff]
    refine ⟨?_, ?_⟩
    · rintro ⟨a, ha, hmem⟩
      obtain ⟨tail, htail, rfl⟩ := List.mem_map.mp hmem
      exact ⟨a, tail, ha, ih.mp htail, rfl⟩
    · rintro ⟨a, tail, ha, htail, rfl⟩
      exact ⟨a, ha, List.mem_map_of_mem (ih.mpr htail)⟩

theorem cons_mem_product {l : List α} {a : α} : a :: tup ∈ product (l :: ls) ↔ a ∈ l ∧ tup ∈ product ls := by
  rw [mem_product, mem_product, List.forall₂_cons]

theorem exists_cons_of_mem_product {l : List α} (h : tup ∈ product (l :: ls)) :
    ∃ a ∈ l, ∃ tail ∈ product ls, tup = a :: tail := by
  obtain ⟨a, ha, htup⟩ := List.mem_flatMap.mp h
  obtain ⟨tail, htail, rfl⟩ := List.mem_map.mp htup
  exact ⟨a, ha, tail, htail, rfl⟩

theorem length_of_mem_product (h : tup ∈ product ls) : tup.length = ls.length := (mem_product.mp h).length_eq

theorem map_mem_product (h : tup ∈ product ls) {f : α → α}
    (hf : ∀ l ∈ ls, ∀ a ∈ tup, a ∈ l → f a ∈ l) : tup.map f ∈ product ls := by
  rw [mem_product] at h ⊢
  rw [List.forall₂_map_left_iff]
  induction h with
  | nil => exact .nil
  | @cons a l tup ls ha _ ih =>
    refine .cons (hf l List.mem_cons_self a List.mem_cons_self ha) (ih ?_)
    exact fun l' hl' a' ha' => hf l' (List.mem_cons_of_mem _ hl') a' (List.mem_cons_of_mem _ ha')

theorem exists_mem_of_mem_product (h : tup ∈ product ls) {a : α} (ha : a ∈ tup) : ∃ l ∈ ls, a ∈ l := by
  rw [mem_product] at h
  induction h with
  | nil => exact absurd ha List.not_mem_nil
  | @cons b l tup ls hb _ ih =>
    rcases List.mem_cons.mp ha with rfl | ha
    · exact ⟨l, List.mem_cons_self, hb⟩
    · obtain ⟨l', hl', hmem⟩ := ih ha
      exact ⟨l', List.mem_cons_of_mem _ hl', hmem⟩

theorem nodup_of_mem_product (hls : ls.flatten.Nodup)
    (h : tup ∈ product ls) : tup.Nodup ∧ ∀ a ∈ tup, a ∈ ls.flatten := by
  rw [mem_product] at h
  induction h with
  | nil => exact ⟨List.nodup_nil, by simp⟩
  | @cons a l tup ls ha _ ih =>
    rw [List.flatten_cons, List.nodup_append] at hls
    obtain ⟨hnodup, hmem⟩ := ih hls.2.1
    refine ⟨List.nodup_cons.mpr ⟨fun hin => ?_, hnodup⟩, ?_⟩
    · exact hls.2.2 a ha a (hmem a hin) rfl
    · intro b hb
      rw [List.flatten_cons, List.mem_append]
      rcases List.mem_cons.mp hb with rfl | hb
      · exact Or.inl ha
      · exact Or.inr (hmem b hb)

theorem length_product (ls : List (List α)) : (product ls).length = (ls.map List.length).prod := by
  induction ls with
  | nil => rfl
  | cons l ls ih =>
    unfold product
    rw [List.length_flatMap, List.map_cons, List.prod_cons, ← ih]
    simp

theorem nodup_product (h : ∀ l ∈ ls, l.Nodup) : (product ls).Nodup := by
  induction ls with
  | nil => exact List.nodup_singleton _
  | cons l ls ih =>
    have hrest := ih fun l' hl' => h l' (List.mem_cons_of_mem _ hl')
    unfold product
    rw [List.nodup_flatMap]
    refine ⟨fun a _ => hrest.map List.cons_injective, ?_⟩
    refine (h l List.mem_cons_self).imp fun {a b} hne tup ha hb => ?_
    obtain ⟨t, -, rfl⟩ := List.mem_map.mp ha
    obtain ⟨t', -, heq⟩ := List.mem_map.mp hb
    exact hne (List.cons.inj heq).1.symm

theorem product_ne_nil (h : ∀ l ∈ ls, l ≠ []) : product ls ≠ [] := by
  induction ls with
  | nil => exact List.cons_ne_nil _ _
  | cons l ls ih =>
    obtain ⟨a, ha⟩ := List.exists_mem_of_ne_nil l (h l List.mem_cons_self)
    obtain ⟨tup, htup⟩ := List.exists_mem_of_ne_nil _ (ih fun l' hl' => h l' (List.mem_cons_of_mem _ hl'))
    exact List.ne_nil_of_mem (List.mem_flatMap.mpr ⟨a, ha, List.mem_map_of_mem htup⟩)

theorem product_map {β : Type*} (f : α → β) (ls : List (List α)) :
    product (ls.map (List.map f)) = (product ls).map (List.map f) := by
  induction ls with
  | nil => rfl
  | cons l ls ih =>
    rw [List.map_cons, product, product, ih, List.flatMap_map, List.map_flatMap]
    refine List.flatMap_congr fun a _ => ?_
    rw [List.map_map, List.map_map]
    rfl

end Fsmc.Lib.Cartesian
