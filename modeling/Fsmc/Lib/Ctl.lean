/-
# Fsmc.Lib.Ctl — computation tree logic: path semantics and fixpoint semantics.

A CTL formula can be read on infinite paths (`Ctl.Sat`) or computed from predecessor sets. This file
holds both readings over an arbitrary relation and the theorems that join them:

* `preE` and `preA` are the two predecessor operators. `preA` asks for a successor, so a state without
  successors is in neither; this is the choice that makes the operators differ from each other's dual.
* `IsUntil pre p q X` and `IsGlobally pre p X` say that `X` is the least, or the greatest, solution of
  the fixpoint equation of an until, or of an always. They are Mathlib's `IsLeast` and `IsGreatest`, so
  a computed set and a set of states given by paths are equal as soon as both are such a solution.
* `isUntil_preE_paths`, `isUntil_preA_paths` and `isGlobally_preE_paths` give those solutions as sets of
  paths when every state has a successor. The dualities at the end need no such assumption: they say
  what happens at states without successors.
-/
import Mathlib.Order.Bounds.Basic
import Fsmc.Lib.Walk

namespace Fsmc.Lib

open Relation

variable {α : Type*} {R : α → α → Prop}

/-! ## Predecessor operators -/

/-- The states with a successor in `X`. -/
def preE (R : α → α → Prop) (X : Set α) : Set α := {a | ∃ b, R a b ∧ b ∈ X}

/-- The states that have a successor and have all their successors in `X`. -/
def preA (R : α → α → Prop) (X : Set α) : Set α := {a | (∃ b, R a b) ∧ ∀ b, R a b → b ∈ X}

theorem preE_mono {X Y : Set α} (h : X ⊆ Y) : preE R X ⊆ preE R Y :=
  fun _ ⟨b, hab, hb⟩ => ⟨b, hab, h hb⟩

theorem preA_mono {X Y : Set α} (h : X ⊆ Y) : preA R X ⊆ preA R Y :=
  fun _ ⟨hsucc, hall⟩ => ⟨hsucc, fun b hab => h (hall b hab)⟩

theorem not_mem_preA_iff {X : Set α} {a : α} (h : ∃ b, R a b) : a ∉ preA R X ↔ ∃ b, R a b ∧ b ∉ X := by
  constructor
  · intro ha
    by_contra hno
    push Not at hno
    exact ha ⟨h, hno⟩
  · rintro ⟨b, hab, hb⟩ ⟨_, hall⟩
    exact hb (hall b hab)

theorem not_mem_preE_of_terminal {X : Set α} {a : α} (h : Terminal R a) : a ∉ preE R X :=
  fun ⟨b, hab, _⟩ => h b hab

theorem not_mem_preA_of_terminal {X : Set α} {a : α} (h : Terminal R a) : a ∉ preA R X :=
  fun ⟨⟨b, hab⟩, _⟩ => h b hab

/-! ## Least and greatest solutions -/

/-- `X` is the least solution of `X = q ∪ (p ∩ pre X)`. -/
def IsUntil (pre : Set α → Set α) (p q X : Set α) : Prop :=
  IsLeast {Z | q ∪ (p ∩ pre Z) ⊆ Z} X

/-- `X` is the greatest solution of `X = p ∩ pre X`. -/
def IsGlobally (pre : Set α → Set α) (p X : Set α) : Prop :=
  IsGreatest {Z | Z ⊆ p ∩ pre Z} X

namespace IsUntil

variable {pre : Set α → Set α} {p q X : Set α}

theorem base (h : IsUntil pre p q X) : q ⊆ X := fun _ ha => h.1 (Or.inl ha)

theorem step (h : IsUntil pre p q X) : p ∩ pre X ⊆ X := fun _ ha => h.1 (Or.inr ha)

/-- **Induction rule.** A set that contains `q` and is closed backwards contains the solution. -/
theorem induct (h : IsUntil pre p q X) {Z : Set α} (hq : q ⊆ Z) (hstep : p ∩ pre Z ⊆ Z) : X ⊆ Z :=
  h.2 (Set.union_subset hq hstep)

theorem sub (h : IsUntil pre p q X) {S : Set α} (hq : q ⊆ S) (hpre : pre S ⊆ S) : X ⊆ S :=
  h.induct hq fun _ ha => hpre ha.2

theorem cases (h : IsUntil pre p q X) (hmono : ∀ {Y Z : Set α}, Y ⊆ Z → pre Y ⊆ pre Z) {a : α}
    (ha : a ∈ X) : a ∈ q ∨ a ∈ p ∧ a ∈ pre X := by
  have hsub : X ⊆ q ∪ (p ∩ pre X) := by
    refine h.induct Set.subset_union_left ?_
    rintro b ⟨hbp, hb⟩
    exact Or.inr ⟨hbp, hmono (Set.union_subset h.base h.step) hb⟩
  exact hsub ha

end IsUntil

namespace IsGlobally

variable {pre : Set α → Set α} {p X : Set α}

theorem holds (h : IsGlobally pre p X) : X ⊆ p := fun _ ha => (h.1 ha).1

theorem step (h : IsGlobally pre p X) : X ⊆ pre X := fun _ ha => (h.1 ha).2

/-- **Coinduction rule.** A set inside `p` that the step keeps is inside the solution. -/
theorem coinduct (h : IsGlobally pre p X) {Z : Set α} (hp : Z ⊆ p) (hstep : Z ⊆ pre Z) : Z ⊆ X :=
  h.2 fun _ ha => ⟨hp ha, hstep ha⟩

end IsGlobally

theorem isUntil_preE_walk (p q : Set α) :
    IsUntil (preE R) p q {a | ∃ b ∈ q, ReflTransGen (fun x y => R x y ∧ x ∈ p) a b} := by
  constructor
  · rintro a (ha | ⟨hap, b, hab, c, hc, hbc⟩)
    · exact ⟨a, ha, ReflTransGen.refl⟩
    · exact ⟨c, hc, ReflTransGen.head ⟨hab, hap⟩ hbc⟩
  · rintro Z hZ a ⟨b, hb, hab⟩
    induction hab using ReflTransGen.head_induction_on with
    | refl => exact hZ (Or.inl hb)
    | head hxy _ ih => exact hZ (Or.inr ⟨hxy.2, _, hxy.1, ih⟩)

/-- A solution inside a set `D` that no step leaves is the solution of the part of the graph in `D`. -/
theorem IsUntil.restrict_preA {p q X D : Set α} (h : IsUntil (preA R) p q X) (hD : Closed R D) :
    IsUntil (preA fun a b => R a b ∧ a ∈ D) p (q ∩ D) (X ∩ D) := by
  constructor
  · rintro a (⟨haq, haD⟩ | ⟨hap, ⟨b, hab, haD⟩, hall⟩)
    · exact ⟨h.base haq, haD⟩
    · exact ⟨h.step ⟨hap, ⟨b, hab⟩, fun c hac => (hall c ⟨hac, haD⟩).1⟩, haD⟩
  · intro Z hZ
    have hX : X ⊆ {a | a ∈ D → a ∈ Z} := by
      refine h.induct (fun a haq haD => hZ (Or.inl ⟨haq, haD⟩)) ?_
      rintro a ⟨hap, ⟨b, hab⟩, hall⟩ haD
      exact hZ (Or.inr ⟨hap, ⟨b, hab, haD⟩, fun c hac => hall c hac.1 (hD a c haD hac.1)⟩)
    exact fun a ha => hX ha.1 ha.2

/-! ## Formulas and their path semantics -/

/-- CTL formulas over atoms `β`. -/
inductive Ctl (β : Type*) where
  | tt
  | ff
  | atom (b : β)
  | not (φ : Ctl β)
  | and (φ ψ : Ctl β)
  | or (φ ψ : Ctl β)
  | implies (φ ψ : Ctl β)
  | equivalent (φ ψ : Ctl β)
  | ex (φ : Ctl β)
  | ax (φ : Ctl β)
  | ef (φ : Ctl β)
  | af (φ : Ctl β)
  | eg (φ : Ctl β)
  | ag (φ : Ctl β)
  | eu (φ ψ : Ctl β)
  | au (φ ψ : Ctl β)

/-- Some infinite path from `s` has the property `F`. -/
def PathE (R : α → α → Prop) (s : α) (F : (ℕ → α) → Prop) : Prop :=
  ∃ π, IsPath R π ∧ π 0 = s ∧ F π

/-- Every infinite path from `s` has the property `F`. -/
def PathA (R : α → α → Prop) (s : α) (F : (ℕ → α) → Prop) : Prop :=
  ∀ π, IsPath R π → π 0 = s → F π

/-- The path meets `q`, and `p` holds at every position before. -/
def UntilOn (p q : α → Prop) (π : ℕ → α) : Prop := ∃ n, q (π n) ∧ ∀ k < n, p (π k)

namespace Ctl

variable {β : Type*}

/-- The path semantics: `φ.Sat R V s` says that `s` satisfies `φ` when the atoms mean `V`. -/
def Sat (R : α → α → Prop) (V : β → α → Prop) : Ctl β → α → Prop
  | tt, _ => True
  | ff, _ => False
  | atom b, s => V b s
  | not φ, s => ¬ Sat R V φ s
  | and φ ψ, s => Sat R V φ s ∧ Sat R V ψ s
  | or φ ψ, s => Sat R V φ s ∨ Sat R V ψ s
  | implies φ ψ, s => Sat R V φ s → Sat R V ψ s
  | equivalent φ ψ, s => Sat R V φ s ↔ Sat R V ψ s
  | ex φ, s => PathE R s fun π => Sat R V φ (π 1)
  | ax φ, s => PathA R s fun π => Sat R V φ (π 1)
  | ef φ, s => PathE R s fun π => ∃ n, Sat R V φ (π n)
  | af φ, s => PathA R s fun π => ∃ n, Sat R V φ (π n)
  | eg φ, s => PathE R s fun π => ∀ n, Sat R V φ (π n)
  | ag φ, s => PathA R s fun π => ∀ n, Sat R V φ (π n)
  | eu φ ψ, s => PathE R s (UntilOn (Sat R V φ) (Sat R V ψ))
  | au φ ψ, s => PathA R s (UntilOn (Sat R V φ) (Sat R V ψ))

end Ctl

/-! ## Paths in a graph where every state has a successor

`S` is the set of states: every step stays in it, and every state of it has a step. -/

/-- A graph on `S` without terminal states. -/
structure TotalOn (R : α → α → Prop) (S : Set α) : Prop where
  inside : ∀ {a b}, R a b → a ∈ S ∧ b ∈ S
  total : ∀ {a}, a ∈ S → ∃ b, R a b

theorem exists_seq {D : Set α} {T : α → α → Prop} (h : ∀ a ∈ D, ∃ b ∈ D, T a b) {a : α}
    (ha : a ∈ D) : ∃ π : ℕ → α, π 0 = a ∧ ∀ i, π i ∈ D ∧ T (π i) (π (i + 1)) := by
  choose! next hnext using h
  let π : ℕ → α := fun n => next^[n] a
  have hmem : ∀ i, π i ∈ D := by
    intro i
    induction i with
    | zero => exact ha
    | succ i ih =>
      show next^[i + 1] a ∈ D
      rw [Function.iterate_succ_apply']
      exact (hnext _ ih).1
  refine ⟨π, rfl, fun i => ⟨hmem i, ?_⟩⟩
  show T (π i) (next^[i + 1] a)
  rw [Function.iterate_succ_apply']
  exact (hnext _ (hmem i)).2

theorem IsPath.tail {π : ℕ → α} (h : IsPath R π) : IsPath R fun i => π (i + 1) :=
  fun i => h (i + 1)

/-- A step in front of a path. -/
def consPath (a : α) (π : ℕ → α) : ℕ → α
  | 0 => a
  | i + 1 => π i

theorem IsPath.cons {π : ℕ → α} {a : α} (h : IsPath R π) (ha : R a (π 0)) : IsPath R (consPath a π)
  | 0 => ha
  | i + 1 => h i

/-- **`EG p` is the greatest fixpoint.** -/
theorem isGlobally_preE_paths {p : Set α} (hp : p ⊆ S) :
    IsGlobally (preE R) p {a | a ∈ S ∧ PathE R a (fun π => ∀ n, π n ∈ p)} := by
  constructor
  · rintro a ⟨_, π, hπ, rfl, hall⟩
    exact ⟨hall 0, π 1, hπ 0, hp (hall 1), fun i => π (i + 1), hπ.tail, rfl, fun n => hall (n + 1)⟩
  · intro Z hZ a ha
    obtain ⟨π, h0, hπ⟩ := exists_seq (D := Z) (T := R)
      (fun b hb => by
        obtain ⟨_, c, hbc, hc⟩ := hZ hb
        exact ⟨c, hc, hbc⟩) ha
    exact ⟨hp (hZ ha).1, π, fun i => (hπ i).2, h0, fun n => (hZ (hπ n).1).1⟩

namespace TotalOn

variable {S : Set α} (h : TotalOn R S)

include h

variable {a : α}

theorem exists_path (ha : a ∈ S) : ∃ π, IsPath R π ∧ π 0 = a := by
  obtain ⟨π, h0, hπ⟩ := exists_seq (D := S) (T := R)
    (fun b hb => by
      obtain ⟨c, hbc⟩ := h.total hb
      exact ⟨c, (h.inside hbc).2, hbc⟩) ha
  exact ⟨π, fun i => (hπ i).2, h0⟩

theorem exists_path_through {a b : α} (hab : R a b) : ∃ π, IsPath R π ∧ π 0 = a ∧ π 1 = b := by
  obtain ⟨π, hπ, h0⟩ := h.exists_path (h.inside hab).2
  refine ⟨consPath a π, hπ.cons ?_, rfl, h0⟩
  rw [h0]
  exact hab

theorem pathE_next {p : α → Prop} : PathE R a (fun π => p (π 1)) ↔ a ∈ preE R {b | p b} := by
  constructor
  · rintro ⟨π, hπ, rfl, hp⟩
    exact ⟨π 1, hπ 0, hp⟩
  · rintro ⟨b, hab, hb⟩
    obtain ⟨π, hπ, h0, h1⟩ := h.exists_path_through hab
    refine ⟨π, hπ, h0, ?_⟩
    show p (π 1)
    rw [h1]
    exact hb

theorem pathA_next {p : α → Prop} (ha : a ∈ S) : PathA R a (fun π => p (π 1)) ↔ a ∈ preA R {b | p b} := by
  constructor
  · intro hall
    refine ⟨h.total ha, fun b hab => ?_⟩
    obtain ⟨π, hπ, h0, h1⟩ := h.exists_path_through hab
    show p b
    rw [← h1]
    exact hall π hπ h0
  · rintro ⟨_, hall⟩ π hπ rfl
    exact hall _ (hπ 0)

/-- **`E[p U q]` is the least fixpoint.** -/
theorem isUntil_preE_paths {p q : Set α} (hq : q ⊆ S) :
    IsUntil (preE R) p q {a | a ∈ S ∧ PathE R a (UntilOn (· ∈ p) (· ∈ q))} := by
  constructor
  · rintro a (ha | ⟨hap, b, hab, _, π, hπ, rfl, n, hn, hbefore⟩)
    · obtain ⟨π, hπ, h0⟩ := h.exists_path (hq ha)
      exact ⟨hq ha, π, hπ, h0, 0, h0.symm ▸ ha, fun k hk => absurd hk (Nat.not_lt_zero k)⟩
    · refine ⟨(h.inside hab).1, consPath a π, hπ.cons hab, rfl, n + 1, hn, ?_⟩
      rintro (_ | k) hk
      · exact hap
      · exact hbefore k (by omega)
  · rintro Z hZ a ⟨_, π, hπ, rfl, n, hn, hbefore⟩
    -- from position `n` back to position `0`
    have hback : ∀ k ≤ n, π (n - k) ∈ Z := by
      intro k hk
      induction k with
      | zero => exact hZ (Or.inl hn)
      | succ k ih =>
        have hnext : n - (k + 1) + 1 = n - k := by omega
        have hstep : R (π (n - (k + 1))) (π (n - k)) := hnext ▸ hπ (n - (k + 1))
        exact hZ (Or.inr ⟨hbefore _ (by omega), _, hstep, ih (by omega)⟩)
    simpa using hback n le_rfl

/-- **`A[p U q]` is the least fixpoint.** -/
theorem isUntil_preA_paths {p q : Set α} (hq : q ⊆ S) :
    IsUntil (preA R) p q {a | a ∈ S ∧ PathA R a (UntilOn (· ∈ p) (· ∈ q))} := by
  constructor
  · rintro a (ha | ⟨hap, ⟨b, hab⟩, hall⟩)
    · exact ⟨hq ha, fun π _ h0 =>
        ⟨0, h0.symm ▸ ha, fun k hk => absurd hk (Nat.not_lt_zero k)⟩⟩
    · refine ⟨(h.inside hab).1, fun π hπ h0 => ?_⟩
      obtain ⟨_, hnext⟩ := hall (π 1) (h0 ▸ hπ 0)
      obtain ⟨n, hn, hbefore⟩ := hnext _ hπ.tail rfl
      refine ⟨n + 1, hn, ?_⟩
      rintro (_ | k) hk
      · exact h0.symm ▸ hap
      · exact hbefore k (by omega)
  · rintro Z hZ a ⟨haS, hall⟩
    by_contra haZ
    -- a path that leaves `p` only towards `Z` keeps out of `Z`, so it never meets `q`
    obtain ⟨π, h0, hπ⟩ := exists_seq (D := S) (T := fun b c => R b c ∧ (b ∈ p → b ∉ Z → c ∉ Z))
      (fun b hb => by
        obtain ⟨c, hbc⟩ := h.total hb
        by_cases hout : ∃ d, R b d ∧ d ∉ Z
        · obtain ⟨d, hbd, hd⟩ := hout
          exact ⟨d, (h.inside hbd).2, hbd, fun _ _ => hd⟩
        · push Not at hout
          exact ⟨c, (h.inside hbc).2, hbc,
            fun hbp hbZ => absurd (hZ (Or.inr ⟨hbp, ⟨c, hbc⟩, hout⟩)) hbZ⟩) haS
    obtain ⟨n, hn, hbefore⟩ := hall π (fun i => (hπ i).2.1) h0
    have hout : ∀ k ≤ n, π k ∉ Z := by
      intro k hk
      induction k with
      | zero => exact h0.symm ▸ haZ
      | succ k ih => exact (hπ k).2.2 (hbefore k (by omega)) (ih (by omega))
    exact hout n le_rfl (hZ (Or.inl hn))

variable {π : ℕ → α}

theorem mem_of_isPath (hπ : IsPath R π) (n : ℕ) : π n ∈ S :=
  (h.inside (hπ n)).1

/-! Membership in a fixpoint that was computed from the part of `p` and `q` in `S`. -/

theorem untilOn_inside {p q : α → Prop} (hπ : IsPath R π) :
    UntilOn (· ∈ {a | a ∈ S ∧ p a}) (· ∈ {a | a ∈ S ∧ q a}) π ↔ UntilOn p q π := by
  unfold UntilOn
  refine exists_congr fun n => and_congr ?_ (forall_congr' fun k => imp_congr_right fun _ => ?_)
  · exact ⟨And.right, fun hq => ⟨h.mem_of_isPath hπ n, hq⟩⟩
  · exact ⟨And.right, fun hp => ⟨h.mem_of_isPath hπ k, hp⟩⟩

theorem mem_eu_iff {p q : α → Prop} {X : Set α} (hX : IsUntil (preE R) {a | a ∈ S ∧ p a} {a | a ∈ S ∧ q a} X) :
    a ∈ X ↔ a ∈ S ∧ PathE R a (UntilOn p q) := by
  rw [hX.unique (h.isUntil_preE_paths fun _ ha => ha.1)]
  refine and_congr_right fun _ => exists_congr fun π => and_congr_right fun hπ => ?_
  exact and_congr_right fun _ => h.untilOn_inside hπ

theorem mem_au_iff {p q : α → Prop} {X : Set α} (hX : IsUntil (preA R) {a | a ∈ S ∧ p a} {a | a ∈ S ∧ q a} X) :
    a ∈ X ↔ a ∈ S ∧ PathA R a (UntilOn p q) := by
  rw [hX.unique (h.isUntil_preA_paths fun _ ha => ha.1)]
  refine and_congr_right fun _ => forall_congr' fun π => imp_congr_right fun hπ => ?_
  exact imp_congr_right fun _ => h.untilOn_inside hπ

theorem mem_eg_iff {p : α → Prop} {X : Set α} (hX : IsGlobally (preE R) {a | a ∈ S ∧ p a} X) :
    a ∈ X ↔ a ∈ S ∧ PathE R a (fun π => ∀ n, p (π n)) := by
  rw [hX.unique (isGlobally_preE_paths fun _ ha => ha.1)]
  refine and_congr_right fun _ => exists_congr fun π => and_congr_right fun hπ => ?_
  refine and_congr_right fun _ => forall_congr' fun n => ?_
  exact ⟨And.right, fun hp => ⟨h.mem_of_isPath hπ n, hp⟩⟩

theorem untilOn_univ {q : α → Prop} (hπ : IsPath R π) :
    UntilOn (· ∈ Set.univ) (· ∈ {a | a ∈ S ∧ q a}) π ↔ ∃ n, q (π n) := by
  unfold UntilOn
  refine exists_congr fun n => ⟨fun hn => hn.1.2, fun hq => ?_⟩
  exact ⟨⟨h.mem_of_isPath hπ n, hq⟩, fun _ _ => trivial⟩

theorem mem_ef_iff {q : α → Prop} {X : Set α} (hX : IsUntil (preE R) Set.univ {a | a ∈ S ∧ q a} X) :
    a ∈ X ↔ a ∈ S ∧ PathE R a (fun π => ∃ n, q (π n)) := by
  rw [hX.unique (h.isUntil_preE_paths fun _ ha => ha.1)]
  refine and_congr_right fun _ => exists_congr fun π => and_congr_right fun hπ => ?_
  exact and_congr_right fun _ => h.untilOn_univ hπ

theorem mem_af_iff {q : α → Prop} {X : Set α} (hX : IsUntil (preA R) Set.univ {a | a ∈ S ∧ q a} X) :
    a ∈ X ↔ a ∈ S ∧ PathA R a (fun π => ∃ n, q (π n)) := by
  rw [hX.unique (h.isUntil_preA_paths fun _ ha => ha.1)]
  refine and_congr_right fun _ => forall_congr' fun π => imp_congr_right fun hπ => ?_
  exact imp_congr_right fun _ => h.untilOn_univ hπ

end TotalOn

theorem pathA_always_iff {p : α → Prop} {a : α} :
    PathA R a (fun π => ∀ n, p (π n)) ↔ ¬ PathE R a (fun π => ∃ n, ¬ p (π n)) := by
  unfold PathA PathE
  push Not
  rfl

/-! ## Dualities, with what states without successors do to them -/

section Duality

variable {S p q : Set α}

theorem af_eq_compl_eg_iff {X Y : Set α} (hpS : p ⊆ S) (hin : ∀ {a b}, R a b → a ∈ S ∧ b ∈ S)
    (hX : IsUntil (preA R) Set.univ p X) (hY : IsGlobally (preE R) (S \ p) Y) :
    X = S \ Y ↔ ∀ t ∈ S, Terminal R t → t ∈ p := by
  constructor
  · intro heq t ht hterm
    have htY : t ∉ Y := fun hmem => not_mem_preE_of_terminal hterm (hY.step hmem)
    have htX : t ∈ X := heq ▸ ⟨ht, htY⟩
    rcases hX.cases preA_mono htX with hp | ⟨_, hpre⟩
    · exact hp
    · exact absurd hpre (not_mem_preA_of_terminal hterm)
  · intro hterm
    refine Set.Subset.antisymm (hX.induct (fun a ha => ⟨hpS ha, fun hY' => (hY.holds hY').2 ha⟩) ?_) ?_
    · rintro a ⟨_, ⟨b, hab⟩, hall⟩
      refine ⟨(hin hab).1, fun haY => ?_⟩
      obtain ⟨c, hac, hc⟩ := hY.step haY
      exact (hall c hac).2 hc
    · -- what is outside `X` is kept outside by some successor
      rintro a ⟨haS, haY⟩
      by_contra haX
      refine haY (hY.coinduct (Z := S \ X) ?_ ?_ ⟨haS, haX⟩)
      · exact fun b hb => ⟨hb.1, fun hbp => hb.2 (hX.base hbp)⟩
      · rintro b ⟨hbS, hbX⟩
        have hsucc : ∃ c, R b c := by
          by_contra hno
          push Not at hno
          exact hbX (hX.base (hterm b hbS hno))
        obtain ⟨c, hbc, hcX⟩ := (not_mem_preA_iff hsucc).mp
          fun hpre => hbX (hX.step ⟨trivial, hpre⟩)
        exact ⟨c, hbc, (hin hbc).2, hcX⟩

/-- `A[p U q]` and the complement of `E[¬q U (¬p ∧ ¬q)] ∨ EG ¬q` agree exactly when no terminal state
satisfies `p` without `q`. -/
theorem au_eq_compl_iff {X E Y : Set α} (hqS : q ⊆ S) (hin : ∀ {a b}, R a b → a ∈ S ∧ b ∈ S)
    (hX : IsUntil (preA R) p q X) (hE : IsUntil (preE R) (S \ q) ((S \ p) ∩ (S \ q)) E)
    (hY : IsGlobally (preE R) (S \ q) Y) :
    X = S \ (E ∪ Y) ↔ ∀ t ∈ S, Terminal R t → t ∈ p → t ∈ q := by
  have hEq : ∀ {a}, a ∈ E → a ∉ q := by
    intro a ha
    rcases hE.cases preE_mono ha with ⟨_, hnq⟩ | ⟨hnq, _⟩
    · exact hnq.2
    · exact hnq.2
  constructor
  · intro heq t ht hterm htp
    have htX : t ∈ X := by
      rw [heq]
      refine ⟨ht, ?_⟩
      rintro (htE | htY)
      · rcases hE.cases preE_mono htE with ⟨hnp, _⟩ | ⟨_, hpre⟩
        · exact hnp.2 htp
        · exact not_mem_preE_of_terminal hterm hpre
      · exact not_mem_preE_of_terminal hterm (hY.step htY)
    rcases hX.cases preA_mono htX with hq | ⟨_, hpre⟩
    · exact hq
    · exact absurd hpre (not_mem_preA_of_terminal hterm)
  · intro hterm
    refine Set.Subset.antisymm (hX.induct ?_ ?_) ?_
    · rintro a ha
      refine ⟨hqS ha, ?_⟩
      rintro (haE | haY)
      · exact hEq haE ha
      · exact (hY.holds haY).2 ha
    · rintro a ⟨hap, ⟨b, hab⟩, hall⟩
      refine ⟨(hin hab).1, ?_⟩
      rintro (haE | haY)
      · rcases hE.cases preE_mono haE with ⟨hnp, _⟩ | ⟨_, c, hac, hc⟩
        · exact hnp.2 hap
        · exact (hall c hac).2 (Or.inl hc)
      · obtain ⟨c, hac, hc⟩ := hY.step haY
        exact (hall c hac).2 (Or.inr hc)
    · rintro a ⟨haS, haEY⟩
      by_contra haX
      refine haEY (Or.inr (hY.coinduct (Z := S \ (X ∪ E)) ?_ ?_
        ⟨haS, fun h => h.elim haX fun haE => haEY (Or.inl haE)⟩))
      · exact fun b hb => ⟨hb.1, fun hbq => hb.2 (Or.inl (hX.base hbq))⟩
      · rintro b ⟨hbS, hb⟩
        have hbq : b ∉ q := fun hbq => hb (Or.inl (hX.base hbq))
        have hbp : b ∈ p := by
          by_contra hbp
          exact hb (Or.inr (hE.base ⟨⟨hbS, hbp⟩, hbS, hbq⟩))
        have hsucc : ∃ c, R b c := by
          by_contra hno
          push Not at hno
          exact hbq (hterm b hbS hno hbp)
        obtain ⟨c, hbc, hcX⟩ := (not_mem_preA_iff hsucc).mp
          fun hpre => hb (Or.inl (hX.step ⟨hbp, hpre⟩))
        refine ⟨c, hbc, (hin hbc).2, ?_⟩
        rintro (hc | hc)
        · exact hcX hc
        · exact hb (Or.inr (hE.step ⟨⟨hbS, hbq⟩, c, hbc, hc⟩))

end Duality

/-! ## Inevitability -/

variable {Q : α → Prop} {s : α}

/-- A state with a successor from which nothing leads around `Q` cannot avoid `Q`, when no successor
can. -/
theorem not_canAvoid_of_preA (h : s ∈ preA R {t | ¬ CanAvoid R Q t}) : ¬ CanAvoid R Q s := by
  rintro ⟨hs, t, hwalk, hend⟩
  obtain ⟨⟨b, hsb⟩, hall⟩ := h
  cases hwalk.cases_head with
  | inl heq =>
    subst heq
    rcases hend with hterm | hcycle
    · exact hterm b hsb
    · obtain ⟨c, hsc, hcs⟩ := TransGen.head'_iff.mp hcycle
      exact hall c hsc.1 ⟨hsc.2.2, s, hcs, Or.inr hcycle⟩
  | inr hstep =>
    obtain ⟨c, hsc, hct⟩ := hstep
    exact hall c hsc.1 ⟨hsc.2.2, t, hct, hend⟩

theorem exists_walk_of_isUntil_preA {p q X : Set α} (hX : IsUntil (preA R) p q X)
    (hs : s ∈ X) : ∃ t ∈ q, ReflTransGen R s t := by
  refine hX.induct (Z := {s | ∃ t ∈ q, ReflTransGen R s t}) ?_ ?_ hs
  · exact fun t ht => ⟨t, ht, ReflTransGen.refl⟩
  · rintro a ⟨_, ⟨b, hab⟩, hall⟩
    obtain ⟨t, ht, hbt⟩ := hall b hab
    exact ⟨t, ht, ReflTransGen.head hab hbt⟩

/-- **Inevitability.** In a finite graph the least solution of `X = q ∪ preA X` has exactly the states
that cannot avoid `q`: every maximal path from them meets it, ends of the graph included. -/
theorem mem_isUntil_preA_iff {q X : Set α} (hX : IsUntil (preA R) Set.univ q X) {U : Set α}
    (hU : U.Finite) (hclosed : Closed R U) {s : α} (hs : s ∈ U) :
    s ∈ X ↔ ¬ CanAvoid R (· ∈ q) s := by
  constructor
  · intro hmem
    refine hX.induct (Z := {t | ¬ CanAvoid R (· ∈ q) t}) ?_ ?_ hmem
    · exact fun t ht havoid => havoid.1 ht
    · exact fun t ht => not_canAvoid_of_preA ht.2
  · intro hno
    by_contra hbad
    -- outside the solution a state is an end or has a successor outside it
    have hout : ∀ t, t ∉ X → t ∉ q := fun t ht htq => ht (hX.base htq)
    have hnext : ∀ t, t ∉ X → ¬ Terminal R t → ∃ u, R t u ∧ u ∉ X := by
      intro t ht hterm
      by_contra hall
      push Not at hall
      have hsucc : ∃ u, R t u := by
        by_contra hnone
        exact hterm fun u hu => hnone ⟨u, hu⟩
      exact ht (hX.step ⟨trivial, hsucc, hall⟩)
    have houtside : ∀ {t}, ReflTransGen (avoiding R (· ∈ X)) s t → t ∉ X := by
      intro t hwalk
      cases hwalk with
      | refl => exact hbad
      | tail _ hstep => exact hstep.2.2
    by_cases hend : ∃ t, ReflTransGen (avoiding R (· ∈ X)) s t ∧ Terminal R t
    · obtain ⟨t, hwalk, hterm⟩ := hend
      have hmono : ∀ a b, avoiding R (· ∈ X) a b → avoiding R (· ∈ q) a b :=
        fun a b hab => ⟨hab.1, hout a hab.2.1, hout b hab.2.2⟩
      exact hno ⟨hout s hbad, t, ReflTransGen.mono hmono _ _ hwalk, Or.inl hterm⟩
    · push Not at hend
      -- no end within reach: an infinite path outside the solution
      obtain ⟨π, hstart, hπ⟩ := exists_seq (D := {t | ReflTransGen (avoiding R (· ∈ X)) s t})
        (T := R) (fun t ht => by
          obtain ⟨u, htu, hu⟩ := hnext t (houtside ht) (hend t ht)
          exact ⟨u, ht.tail ⟨htu, houtside ht, hu⟩, htu⟩) (a := s) ReflTransGen.refl
      subst hstart
      refine hno ((exists_avoiding_path_iff hU hclosed hs).mp
        ⟨MaximalPath.ofPath π fun i => (hπ i).2, fun i a ha => ?_⟩)
      rw [← Option.some.inj ha]
      exact hout _ (houtside (hπ i).1)

/-! ## Walks between two states -/

theorem avoiding_of_between {a b : α} (h : ReflTransGen R a b)
    (hQ : ∀ t, ReflTransGen R a t → ReflTransGen R t b → ¬ Q t) : ReflTransGen (avoiding R Q) a b := by
  induction h using ReflTransGen.head_induction_on with
  | refl => exact ReflTransGen.refl
  | @head a c hac hcb ih =>
    have hrest : ReflTransGen (avoiding R Q) c b := ih fun t hct htb => hQ t (ReflTransGen.head hac hct) htb
    exact ReflTransGen.head
      ⟨hac, hQ a ReflTransGen.refl (ReflTransGen.head hac hcb), hQ c (ReflTransGen.single hac) hcb⟩ hrest

theorem avoiding_cycle_of_between {a : α} (h : TransGen R a a)
    (hQ : ∀ t, ReflTransGen R a t → ReflTransGen R t a → ¬ Q t) : TransGen (avoiding R Q) a a := by
  obtain ⟨b, hab, hba⟩ := TransGen.head'_iff.mp h
  refine TransGen.head' ⟨hab, hQ a ReflTransGen.refl ReflTransGen.refl, hQ b (ReflTransGen.single hab) hba⟩ ?_
  exact avoiding_of_between hba fun t hbt hta => hQ t (ReflTransGen.head hab hbt) hta

theorem exists_terminal_or_cycle {U : Set α} (hU : U.Finite) (hclosed : Closed R U) (hs : s ∈ U) :
    ∃ t, ReflTransGen R s t ∧ (Terminal R t ∨ TransGen R t t) := by
  by_contra hno
  push Not at hno
  obtain ⟨π, -, hπ⟩ := exists_seq (D := {t | ReflTransGen R s t})
    (T := fun a b => R a b ∧ ReflTransGen R s a) (fun t ht => by
      have hsucc : ∃ u, R t u := by
        by_contra hnone
        exact (hno t ht).1 fun u hu => hnone ⟨u, hu⟩
      obtain ⟨u, htu⟩ := hsucc
      exact ⟨u, ht.tail htu, htu, ht⟩) (a := s) ReflTransGen.refl
  have hacyclic : ∀ a, ¬ TransGen (fun a b => R a b ∧ ReflTransGen R s a) a a := by
    intro a hcycle
    obtain ⟨b, hab, -⟩ := TransGen.head'_iff.mp hcycle
    exact (hno a hab.2).2 (hcycle.lift id fun _ _ h => h.1)
  obtain ⟨i, hi | hi⟩ := exists_leaves hU hacyclic (π := π)
  · exact hi (hclosed.walk hs (hπ i).1)
  · exact hi (hπ i).2

end Fsmc.Lib
