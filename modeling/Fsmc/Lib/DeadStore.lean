/-
# Fsmc.Lib.DeadStore — removing writes that nothing reads.

A step reads some locations and writes others; a location is dead before a sequence of steps if each
run overwrites it before it is read. A step may be left out if it writes dead locations only, or if it
writes back what is there already.
-/
import Mathlib.Data.Set.Function

namespace Fsmc.Lib.DeadStore

universe u v w

/-- A step over a store: what it writes and emits depends on the locations it reads. -/
structure Step (Loc : Type u) (Val : Type v) (Out : Type w) where
  reads : Set Loc
  /-- The new value of a location, `none` where it is left alone. -/
  write : (Loc → Val) → Loc → Option Val
  emit : (Loc → Val) → List Out
  write_congr : ∀ {σ σ' : Loc → Val}, Set.EqOn σ σ' reads → write σ = write σ'
  emit_congr : ∀ {σ σ' : Loc → Val}, Set.EqOn σ σ' reads → emit σ = emit σ'

variable {Loc : Type u} {Val : Type v} {Out : Type w}

namespace Step

/-- The store after a step. -/
def exec (s : Step Loc Val Out) (σ : Loc → Val) : Loc → Val := fun l => (s.write σ l).getD (σ l)

/-- The location is written whatever the store. -/
def Covers (s : Step Loc Val Out) (l : Loc) : Prop := ∀ σ, (s.write σ l).isSome = true

/-- The location is written in some store. -/
def Touches (s : Step Loc Val Out) (l : Loc) : Prop := ∃ σ, (s.write σ l).isSome = true

theorem exec_of_not_touches {s : Step Loc Val Out} {l : Loc} (h : ¬ s.Touches l) (σ : Loc → Val) :
    s.exec σ l = σ l := by
  have hnone : s.write σ l = none := by
    cases hw : s.write σ l with
    | none => rfl
    | some v => exact absurd ⟨σ, by simp [hw]⟩ h
  show (s.write σ l).getD (σ l) = σ l
  rw [hnone]
  rfl

theorem exec_congr {s : Step Loc Val Out} {σ σ' : Loc → Val} (hreads : Set.EqOn σ σ' s.reads)
    {l : Loc} (h : s.Covers l ∨ σ l = σ' l) : s.exec σ l = s.exec σ' l := by
  show (s.write σ l).getD (σ l) = (s.write σ' l).getD (σ' l)
  rw [s.write_congr hreads]
  rcases h with hcovers | heq
  · obtain ⟨v, hv⟩ := Option.isSome_iff_exists.mp (hcovers σ')
    rw [hv]
    rfl
  · rw [heq]

end Step

/-- A run of a sequence of steps: the last store and everything emitted. -/
def run : List (Step Loc Val Out) → (Loc → Val) → (Loc → Val) × List Out
  | [], σ => (σ, [])
  | s :: rest, σ => ((run rest (s.exec σ)).1, s.emit σ ++ (run rest (s.exec σ)).2)

/-- The locations that are dead before a sequence of steps, `D` being dead after it. -/
def dead (D : Set Loc) : List (Step Loc Val Out) → Set Loc
  | [] => D
  | s :: rest => { l | l ∉ s.reads ∧ (s.Covers l ∨ l ∈ dead D rest) }

theorem mem_dead_of_forall_notMem_reads {D : Set Loc} {steps : List (Step Loc Val Out)} {l : Loc}
    (hD : l ∈ D) (h : ∀ s ∈ steps, l ∉ s.reads) : l ∈ dead D steps := by
  induction steps with
  | nil => exact hD
  | cons s rest ih =>
    have hrest : l ∈ dead D rest := ih fun t ht => h t (List.mem_cons_of_mem _ ht)
    exact ⟨h s List.mem_cons_self, Or.inr hrest⟩

theorem mem_dead_of_overwritten {D : Set Loc} {before after : List (Step Loc Val Out)}
    {s : Step Loc Val Out} {l : Loc} (hbefore : ∀ t ∈ before, l ∉ t.reads) (hreads : l ∉ s.reads)
    (hcovers : s.Covers l) : l ∈ dead D (before ++ s :: after) := by
  induction before with
  | nil => exact ⟨hreads, Or.inl hcovers⟩
  | cons t before ih =>
    have hrest : l ∈ dead D (before ++ s :: after) :=
      ih fun r hr => hbefore r (List.mem_cons_of_mem _ hr)
    exact ⟨hbefore t List.mem_cons_self, Or.inr hrest⟩

/-- A sequence of steps without some that do nothing that counts. -/
inductive Prunes (D : Set Loc) : List (Step Loc Val Out) → List (Step Loc Val Out) → Prop
  | nil : Prunes D [] []
  | keep (s : Step Loc Val Out) {p q : List (Step Loc Val Out)} :
      Prunes D p q → Prunes D (s :: p) (s :: q)
  /-- A step that writes dead locations only. -/
  | deadWrite {s : Step Loc Val Out} {p q : List (Step Loc Val Out)} :
      (∀ σ, s.emit σ = []) → (∀ l, s.Touches l → l ∈ dead D p) → Prunes D p q → Prunes D (s :: p) q
  /-- A step that writes back what it reads. -/
  | idle {s : Step Loc Val Out} {p q : List (Step Loc Val Out)} :
      (∀ σ, s.emit σ = []) → (∀ σ, s.exec σ = σ) → (∀ l, s.Touches l → l ∈ s.reads) →
        Prunes D p q → Prunes D (s :: p) q

/-- Stores that agree on what is not dead. -/
def AgreeOff (D : Set Loc) (σ σ' : Loc → Val) : Prop := ∀ l, l ∉ D → σ l = σ' l

theorem AgreeOff.refl (D : Set Loc) (σ : Loc → Val) : AgreeOff D σ σ := fun _ _ => rfl

theorem AgreeOff.mono {D E : Set Loc} {σ σ' : Loc → Val} (h : AgreeOff D σ σ') (hsub : D ⊆ E) :
    AgreeOff E σ σ' := fun l hl => h l fun hD => hl (hsub hD)

section Step

variable {D : Set Loc} {s : Step Loc Val Out} {rest : List (Step Loc Val Out)} {σ σ' : Loc → Val}

theorem AgreeOff.eqOn_reads (h : AgreeOff (dead D (s :: rest)) σ σ') : Set.EqOn σ σ' s.reads :=
  fun l hl => h l fun hdead => hdead.1 hl

theorem AgreeOff.exec (h : AgreeOff (dead D (s :: rest)) σ σ') : AgreeOff (dead D rest) (s.exec σ) (s.exec σ') := by
  intro l hl
  apply Step.exec_congr h.eqOn_reads
  by_cases hcovers : s.Covers l
  · exact Or.inl hcovers
  · exact Or.inr (h l fun hdead => hdead.2.elim hcovers hl)

/-- A step made in the first run only, which writes dead locations. -/
theorem AgreeOff.exec_left_of_dead (h : AgreeOff (dead D (s :: rest)) σ σ')
    (hdead : ∀ l, s.Touches l → l ∈ dead D rest) : AgreeOff (dead D rest) (s.exec σ) σ' := by
  intro l hl
  have htouches : ¬ s.Touches l := fun ht => hl (hdead l ht)
  rw [Step.exec_of_not_touches htouches]
  apply h l
  rintro ⟨-, hcovers | hrest⟩
  · exact htouches ⟨σ, hcovers σ⟩
  · exact hl hrest

/-- A step made in the first run only, which changes nothing. -/
theorem AgreeOff.exec_left_of_idle (h : AgreeOff (dead D (s :: rest)) σ σ')
    (hexec : s.exec σ = σ) (hreads : ∀ l, s.Touches l → l ∈ s.reads) :
    AgreeOff (dead D rest) (s.exec σ) σ' := by
  intro l hl
  rw [hexec]
  apply h l
  rintro ⟨hnot, hcovers | hrest⟩
  · exact hnot (hreads l ⟨σ, hcovers σ⟩)
  · exact hl hrest

end Step

/-- Pruning changes neither what is emitted nor, off the dead locations, the last store. -/
theorem Prunes.run_agree {D : Set Loc} {p q : List (Step Loc Val Out)} (h : Prunes D p q)
    {σ σ' : Loc → Val} (hagree : AgreeOff (dead D p) σ σ') :
    AgreeOff D (run p σ).1 (run q σ').1 ∧ (run p σ).2 = (run q σ').2 := by
  induction h generalizing σ σ' with
  | nil => exact ⟨hagree, rfl⟩
  | keep s _ ih =>
    obtain ⟨hstore, hout⟩ := ih hagree.exec
    refine ⟨hstore, ?_⟩
    show s.emit σ ++ _ = s.emit σ' ++ _
    rw [s.emit_congr hagree.eqOn_reads, hout]
  | deadWrite hemit hdead _ ih =>
    obtain ⟨hstore, hout⟩ := ih (hagree.exec_left_of_dead hdead)
    refine ⟨hstore, ?_⟩
    show Step.emit _ σ ++ _ = _
    rw [hemit, List.nil_append, hout]
  | idle hemit hexec hreads _ ih =>
    obtain ⟨hstore, hout⟩ := ih (hagree.exec_left_of_idle (hexec σ) hreads)
    refine ⟨hstore, ?_⟩
    show Step.emit _ σ ++ _ = _
    rw [hemit, List.nil_append, hout]

end Fsmc.Lib.DeadStore
