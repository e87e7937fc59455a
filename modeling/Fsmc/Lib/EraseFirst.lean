/-
# Fsmc.Lib.EraseFirst — erasing the first element of a key, once for each mention of the key.

A list of keys says what to erase: for each of them the first element that has it goes. What goes is
decided by the number of mentions alone, not by their order: of the elements of a key as many go as the
key is mentioned, the first ones. All that goes has a property exactly if those elements have it.
-/
import Mathlib.Data.List.Perm.Basic
import Mathlib.Data.List.Count

namespace Fsmc.Lib.EraseFirst

universe u v

variable {α : Type u} {κ : Type v} {D : α → Prop} {l l' l'' : List α}

/-! ## Lists with something left out -/

/-- The second list is the first without some elements that have the property. -/
inductive Drops (D : α → Prop) : List α → List α → Prop
  | nil : Drops D [] []
  | keep (a : α) {l l' : List α} : Drops D l l' → Drops D (a :: l) (a :: l')
  | drop {a : α} {l l' : List α} : D a → Drops D l l' → Drops D (a :: l) l'

namespace Drops

theorem refl : ∀ l : List α, Drops D l l
  | [] => .nil
  | a :: l => .keep a (refl l)

theorem trans (h : Drops D l l') (h' : Drops D l' l'') : Drops D l l'' := by
  induction h generalizing l'' with
  | nil => exact h'
  | keep a _ ih =>
    cases h' with
    | keep _ h' => exact .keep a (ih h')
    | drop ha h' => exact .drop ha (ih h')
  | drop ha _ ih => exact .drop ha (ih h')

theorem exists_perm (h : Drops D l l') : ∃ gone, (∀ a ∈ gone, D a) ∧ l.Perm (gone ++ l') := by
  induction h with
  | nil => exact ⟨[], by simp, List.Perm.refl _⟩
  | keep a _ ih =>
    obtain ⟨gone, hgone, hperm⟩ := ih
    exact ⟨gone, hgone, (hperm.cons a).trans List.perm_middle.symm⟩
  | @drop a l l' ha _ ih =>
    obtain ⟨gone, hgone, hperm⟩ := ih
    exact ⟨a :: gone, by simpa [ha] using hgone, hperm.cons a⟩

theorem filter (p : α → Bool) (h : Drops D l l') : Drops D (l.filter p) (l'.filter p) := by
  induction h with
  | nil => exact .nil
  | keep a _ ih =>
    by_cases hp : p a = true
    · rw [List.filter_cons_of_pos hp, List.filter_cons_of_pos hp]
      exact .keep a ih
    · rw [List.filter_cons_of_neg hp, List.filter_cons_of_neg hp]
      exact ih
  | @drop a _ _ ha _ ih =>
    by_cases hp : p a = true
    · rw [List.filter_cons_of_pos hp]
      exact .drop ha ih
    · rw [List.filter_cons_of_neg hp]
      exact ih

theorem of_notMem (h : Drops D l l') {a : α} (ha : a ∈ l) (hkept : a ∉ l') : D a := by
  obtain ⟨gone, hgone, hperm⟩ := h.exists_perm
  cases List.mem_append.mp (hperm.mem_iff.mp ha) with
  | inl hmem => exact hgone a hmem
  | inr hmem => exact absurd hmem hkept

theorem eraseP {p : α → Bool} (h : ∀ a ∈ l.find? p, D a) : Drops D l (l.eraseP p) := by
  induction l with
  | nil => exact .nil
  | cons a l ih =>
    by_cases hp : p a = true
    · rw [List.eraseP_cons_of_pos hp]
      exact .drop (h a (by simp [hp])) (refl l)
    · rw [List.eraseP_cons_of_neg hp]
      rw [List.find?_cons_of_neg hp] at h
      exact .keep a (ih h)

/-- If a list loses its first elements, those had the property. -/
theorem of_mem_take {n : Nat} (h : Drops D l (l.drop n)) : ∀ a ∈ l.take n, D a := by
  obtain ⟨gone, hgone, hperm⟩ := h.exists_perm
  intro a ha
  have hsame : (l.take n ++ l.drop n).Perm (gone ++ l.drop n) := by
    rw [List.take_append_drop]
    exact hperm
  exact hgone a (((List.perm_append_right_iff _).mp hsame).mem_iff.mp ha)

end Drops

theorem eraseP_congr {p q : α → Bool} (h : ∀ a ∈ l, p a = q a) : l.eraseP p = l.eraseP q := by
  induction l with
  | nil => rfl
  | cons a l ih =>
    have hl := ih fun b hb => h b (List.mem_cons_of_mem a hb)
    rw [List.eraseP_cons, List.eraseP_cons, h a List.mem_cons_self, hl]

/-! ## Erasing by keys -/

section Keys

variable [DecidableEq κ] (key : α → κ)

/-- Erases for each key in turn the first element that has it. -/
def eraseFirsts (ks : List κ) (l : List α) : List α :=
  ks.foldl (fun l k => l.eraseP fun a => key a = k) l

variable {key}

theorem filter_eraseP (k k' : κ) (l : List α) : ((l.eraseP fun a => key a = k).filter fun a => key a = k') =
      if k' = k then (l.filter fun a => key a = k').drop 1 else l.filter fun a => key a = k' := by
  induction l with
  | nil => simp
  | cons a l ih =>
    by_cases ha : key a = k
    · rw [List.eraseP_cons_of_pos (by simpa using ha)]
      by_cases hk : k' = k
      · simp [ha, hk]
      · have hne : ¬ k = k' := fun h => hk h.symm
        simp [ha, hk, hne]
    · rw [List.eraseP_cons_of_neg (by simpa using ha)]
      by_cases hk : k' = k
      · subst hk
        rw [if_pos rfl] at ih ⊢
        rw [List.filter_cons_of_neg (by simpa using ha), List.filter_cons_of_neg (by simpa using ha), ih]
      · rw [if_neg hk] at ih ⊢
        rw [List.filter_cons, List.filter_cons, ih]

theorem filter_eraseFirsts (ks : List κ) (k : κ) (l : List α) : ((eraseFirsts key ks l).filter fun a => key a = k) =
      (l.filter fun a => key a = k).drop (ks.countP (· = k)) := by
  induction ks generalizing l with
  | nil => rfl
  | cons k' ks ih =>
    show ((eraseFirsts key ks (l.eraseP fun a => key a = k')).filter fun a => key a = k) = _
    rw [ih, filter_eraseP]
    by_cases hk : k = k'
    · subst hk
      rw [if_pos rfl, List.drop_drop, List.countP_cons_of_pos (by simp), Nat.add_comm]
    · rw [if_neg hk, List.countP_cons_of_neg (by simpa using Ne.symm hk)]

/-- **What goes.** Only elements with the property are erased exactly if, of the elements of each key, as
many of the first as the key is mentioned have it. -/
theorem drops_eraseFirsts_iff {ks : List κ} : Drops D l (eraseFirsts key ks l) ↔
      ∀ k, ∀ a ∈ (l.filter fun a => key a = k).take (ks.countP (· = k)), D a := by
  refine ⟨?_, ?_⟩
  · intro h k
    have hk := h.filter fun a => key a = k
    rw [filter_eraseFirsts] at hk
    exact hk.of_mem_take
  · -- by induction on the keys: the first of them erases an element that has the property
    intro h
    induction ks generalizing l with
    | nil => exact Drops.refl l
    | cons k ks ih =>
      have hfirst : Drops D l (l.eraseP fun a => key a = k) := by
        apply Drops.eraseP
        intro a ha
        apply h k
        rw [List.countP_cons_of_pos (by simp)]
        have hhead : (l.filter fun a => key a = k).head? = some a := by
          rw [List.head?_filter]
          exact ha
        cases hl : l.filter fun a => key a = k with
        | nil => simp [hl] at hhead
        | cons b rest =>
          rw [hl] at hhead
          rw [List.take_succ_cons]
          exact List.mem_cons.mpr (Or.inl (Option.some.inj hhead).symm)
      apply hfirst.trans
      apply ih
      intro k' a ha
      rw [filter_eraseP] at ha
      apply h k'
      by_cases hk : k' = k
      · subst hk
        rw [if_pos rfl] at ha
        rw [List.countP_cons_of_pos (by simp)]
        cases hl : l.filter fun a => key a = k' with
        | nil => simp [hl] at ha
        | cons b rest =>
          rw [hl, List.drop_one, List.tail_cons] at ha
          rw [List.take_succ_cons]
          exact List.mem_cons_of_mem b ha
      · rw [if_neg hk] at ha
        rw [List.countP_cons_of_neg (by simpa using Ne.symm hk)]
        exact ha

end Keys

end Fsmc.Lib.EraseFirst
