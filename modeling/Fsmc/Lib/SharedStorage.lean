/-
# Fsmc.Lib.SharedStorage — running with fewer cells than locations.

Several locations are kept in one cell. If no step writes a location while another location of the same
cell may still be read, every step reads from the cells what it would read from separate storage.
-/
import Fsmc.Lib.DeadStore

namespace Fsmc.Lib.SharedStorage

open Fsmc.Lib.DeadStore

universe u v w x

variable {Loc : Type u} {Val : Type v} {Out : Type w} {Cell : Type x}

/-- A step over cells: a cell whose locations are written gets one of the values written, every other
cell keeps what it has. -/
def Exec (place : Loc → Cell) (s : Step Loc Val Out) (τ τ' : Cell → Val) : Prop :=
  ∀ c, (∃ l v, place l = c ∧ s.write (τ ∘ place) l = some v ∧ τ' c = v) ∨
    (∀ l, place l = c → s.write (τ ∘ place) l = none) ∧ τ' c = τ c

def Run (place : Loc → Cell) : List (Step Loc Val Out) → (Cell → Val) → (Cell → Val) → Prop
  | [], τ, τ' => τ' = τ
  | s :: rest, τ, τ' => ∃ τ₁, Exec place s τ τ₁ ∧ Run place rest τ₁ τ'

/-- The locations that may be read before they are written again. -/
def live (steps : List (Step Loc Val Out)) : Set Loc := { l | l ∉ dead Set.univ steps }

/-- No step writes a location while another one of its cell is live. -/
def ConflictFree (place : Loc → Cell) (steps : List (Step Loc Val Out)) : Prop :=
  ∀ before s after, steps = before ++ s :: after →
    ∀ l l', s.Touches l → l' ∈ live after → place l = place l' → l = l'

/-- The cells hold the values of the live locations. -/
def Holds (place : Loc → Cell) (L : Set Loc) (τ : Cell → Val) (σ : Loc → Val) : Prop :=
  ∀ l ∈ L, τ (place l) = σ l

variable {place : Loc → Cell} {s : Step Loc Val Out} {rest : List (Step Loc Val Out)}
  {τ τ' : Cell → Val} {σ : Loc → Val}

theorem reads_subset_live : s.reads ⊆ live (s :: rest) := fun _ hl hdead => hdead.1 hl

theorem Holds.eqOn_reads (h : Holds place (live (s :: rest)) τ σ) :
    Set.EqOn (τ ∘ place) σ s.reads := fun l hl => h l (reads_subset_live hl)

theorem Holds.exec (h : Holds place (live (s :: rest)) τ σ)
    (hfree : ∀ l l', s.Touches l → l' ∈ live rest → place l = place l' → l = l')
    (hexec : Exec place s τ τ') : Holds place (live rest) τ' (s.exec σ) := by
  intro l' hl'
  have hwrite : s.write (τ ∘ place) = s.write σ := s.write_congr h.eqOn_reads
  show τ' (place l') = (s.write σ l').getD (σ l')
  rcases hexec (place l') with ⟨l, v, hplace, hv, hτ'⟩ | ⟨hnone, hτ'⟩
  · -- the cell is written, and only by the live location itself
    obtain rfl := hfree l l' ⟨τ ∘ place, by rw [hv]; rfl⟩ hl' hplace
    rw [hτ', ← hwrite, hv]
    rfl
  · -- nothing of the cell is written
    have hwritten : s.write σ l' = none := by
      rw [← hwrite]
      exact hnone l' rfl
    have hlive : l' ∈ live (s :: rest) := by
      rintro ⟨-, hcovers | hdead⟩
      · have hsome := hcovers σ
        rw [hwritten] at hsome
        exact absurd hsome (by simp)
      · exact hl' hdead
    rw [hτ', hwritten]
    exact h l' hlive

theorem Run.eqOn_reads {steps : List (Step Loc Val Out)} (hfree : ConflictFree place steps)
    (h : Holds place (live steps) τ σ) {before after : List (Step Loc Val Out)}
    (hsplit : steps = before ++ s :: after) (hrun : Run place before τ τ') :
    Set.EqOn (τ' ∘ place) (run before σ).1 s.reads := by
  induction before generalizing steps τ σ with
  | nil =>
    subst hsplit
    obtain rfl := hrun
    exact h.eqOn_reads
  | cons t before ih =>
    subst hsplit
    obtain ⟨τ₁, hexec, hrun⟩ := hrun
    have hnext : Holds place (live (before ++ s :: after)) τ₁ (t.exec σ) :=
      h.exec (hfree [] t _ rfl) hexec
    refine ih ?_ hnext rfl hrun
    intro before' s' after' hsplit'
    exact hfree (t :: before') s' after' (by rw [List.cons_append, hsplit']; rfl)

end Fsmc.Lib.SharedStorage
