/-
# Fsmc.Lib.Runs — runs of a system that takes one operation after another.

What every step keeps, every run keeps. Where only some steps keep it, a run whose steps are all of them does.
-/
import Mathlib.Data.List.Basic

namespace Fsmc.Runs

variable {S A : Type*} (step : S → A → S)

/-- Every step of a run meets a condition on the state before it and the operation. -/
def Along (ok : S → A → Prop) : S → List A → Prop
  | _, [] => True
  | s, a :: as => ok s a ∧ Along ok (step s a) as

instance Along.decidable {ok : S → A → Prop} [∀ s a, Decidable (ok s a)] :
    ∀ (s : S) (as : List A), Decidable (Along step ok s as)
  | _, [] => isTrue trivial
  | s, a :: as =>
    have : Decidable (Along step ok (step s a) as) := Along.decidable (step s a) as
    inferInstanceAs (Decidable (ok s a ∧ Along step ok (step s a) as))

variable {step} {ok : S → A → Prop} {Inv : S → Prop}

theorem along_invariant (hstep : ∀ s a, Inv s → ok s a → Inv (step s a)) :
    ∀ (as : List A) (s : S), Inv s → Along step ok s as → Inv (as.foldl step s)
  | [], _, hs, _ => hs
  | a :: as, s, hs, hok => along_invariant hstep as (step s a) (hstep s a hs hok.1) hok.2

theorem run_invariant (hstep : ∀ s a, Inv s → Inv (step s a)) (as : List A) (s : S) (hs : Inv s) :
    Inv (as.foldl step s) :=
  List.foldlRecOn as step hs fun s hs a _ => hstep s a hs

theorem along_congr {ok' : S → A → Prop} (h : ∀ s a, ok s a ↔ ok' s a) (s : S) (as : List A) :
    Along step ok s as ↔ Along step ok' s as := by
  induction as generalizing s with
  | nil => exact Iff.rfl
  | cons a as ih => exact and_congr (h s a) (ih (step s a))

theorem along_congr_of_invariant {ok' : S → A → Prop} (h : ∀ s a, Inv s → (ok s a ↔ ok' s a))
    (hkeep : ∀ s a, Inv s → ok' s a → Inv (step s a)) :
    ∀ (as : List A) (s : S), Inv s → (Along step ok s as ↔ Along step ok' s as)
  | [], _, _ => Iff.rfl
  | a :: as, s, hs => by
    constructor
    · rintro ⟨hok, hrest⟩
      have hok' := (h s a hs).mp hok
      exact ⟨hok', (along_congr_of_invariant h hkeep as _ (hkeep s a hs hok')).mp hrest⟩
    · rintro ⟨hok', hrest⟩
      exact ⟨(h s a hs).mpr hok', (along_congr_of_invariant h hkeep as _ (hkeep s a hs hok')).mpr hrest⟩

theorem along_append (as bs : List A) (s : S) :
    Along step ok s (as ++ bs) ↔ Along step ok s as ∧ Along step ok (as.foldl step s) bs := by
  induction as generalizing s with
  | nil => simp [Along]
  | cons a as ih => simp [Along, ih, and_assoc]

/-- If the steps that meet the condition keep the invariant, and no other step from it leads to a good state,
then a run stays good if and only if all its steps meet the condition. -/
theorem along_iff {Good : S → Prop} (hgood : ∀ s, Inv s → Good s)
    (hkeep : ∀ s a, Inv s → ok s a → Inv (step s a)) (honly : ∀ s a, Inv s → Good (step s a) → ok s a) :
    ∀ (as : List A) (s : S), Inv s →
      ((∀ pre, pre <+: as → Good (pre.foldl step s)) ↔ Along step ok s as)
  | [], s, hs => by
    refine ⟨fun _ => trivial, fun _ pre hpre => ?_⟩
    rw [List.prefix_nil.mp hpre]
    exact hgood s hs
  | a :: as, s, hs => by
    constructor
    · intro h
      have hok : ok s a := honly s a hs (h [a] ⟨as, rfl⟩)
      have hrest := along_iff hgood hkeep honly as (step s a) (hkeep s a hs hok)
      exact ⟨hok, hrest.mp fun pre hpre => h (a :: pre) (List.cons_prefix_cons.mpr ⟨rfl, hpre⟩)⟩
    · rintro ⟨hok, hrest⟩ pre hpre
      cases pre with
      | nil => exact hgood s hs
      | cons b pre =>
        obtain ⟨hhead, htail⟩ := List.cons_prefix_cons.mp hpre
        rw [hhead]
        exact (along_iff hgood hkeep honly as (step s a) (hkeep s a hs hok)).mpr hrest pre htail

end Fsmc.Runs
