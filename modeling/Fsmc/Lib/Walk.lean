/-
# Fsmc.Lib.Walk — walks, infinite paths, maximal paths and cycles of a transition relation.

Everything is stated over an arbitrary relation `R : α → α → Prop`. Finite walks are Mathlib's
`Relation.ReflTransGen` and `Relation.TransGen`; an infinite path is a function on `ℕ`; a *maximal*
path is either infinite or ends in a state without successors, which is how a run of a machine that
may deadlock is read. The two directions every path argument needs are proved once: paths can be
built from walks (`MaximalPath.cons`, `exists_path_around`), and walks and cycles can be read off
paths (`MaximalPath.walk`, `MaximalPath.exists_repeat`, which is the pigeonhole over a finite set).
From these come the graph conditions for avoiding a set of states (`exists_avoiding_path_iff`), for
coming back to it (`forall_recurs_iff`) and for staying in it (`forall_settles_iff`).
-/
import Mathlib.Logic.Relation
import Mathlib.Data.Set.Finite.Basic
import Mathlib.Data.Set.Finite.Lattice
import Mathlib.Order.Interval.Set.Infinite

namespace Fsmc.Lib

open Relation

variable {α : Type*} {R : α → α → Prop}

/-- A state without successors. -/
def Terminal (R : α → α → Prop) (s : α) : Prop := ∀ t, ¬ R s t

def IsPath (R : α → α → Prop) (π : ℕ → α) : Prop := ∀ i, R (π i) (π (i + 1))

/-- The steps of `R` that stay among the states avoiding `Q`. -/
def avoiding (R : α → α → Prop) (Q : α → Prop) (a b : α) : Prop := R a b ∧ ¬ Q a ∧ ¬ Q b

/-- A set that no step of `R` leaves. -/
def Closed (R : α → α → Prop) (D : Set α) : Prop := ∀ a b, a ∈ D → R a b → b ∈ D

theorem Closed.walk {D : Set α} (hD : Closed R D) {a b : α} (ha : a ∈ D) (h : ReflTransGen R a b) : b ∈ D := by
  induction h with
  | refl => exact ha
  | tail _ hbc ih => exact hD _ _ ih hbc

/-! ## Maximal paths -/

/-- A maximal path from `s`: `visit i` is the state at position `i`, and `none` past the end. -/
structure MaximalPath (R : α → α → Prop) (s : α) where
  visit : ℕ → Option α
  start : visit 0 = some s
  step : ∀ i a b, visit i = some a → visit (i + 1) = some b → R a b
  stop : ∀ i a, visit i = some a → visit (i + 1) = none → Terminal R a
  ended : ∀ i, visit i = none → visit (i + 1) = none

namespace MaximalPath

variable {s : α}

/-- The path never ends. -/
def Infinite (p : MaximalPath R s) : Prop := ∀ i, (p.visit i).isSome = true

/-- The path ends, in the state `a`. -/
def EndsIn (p : MaximalPath R s) (a : α) : Prop :=
  ∃ i, p.visit i = some a ∧ p.visit (i + 1) = none

/-- An infinite path is a maximal path. -/
def ofPath (π : ℕ → α) (h : IsPath R π) : MaximalPath R (π 0) where
  visit i := some (π i)
  start := rfl
  step := by
    rintro i a b ha hb
    rw [← Option.some.inj ha, ← Option.some.inj hb]
    exact h i
  stop := by
    intro i a _ hb
    exact absurd hb (by simp)
  ended := by
    intro i hi
    exact absurd hi (by simp)

/-- A state without successors is a maximal path by itself. -/
def single (t : α) (h : Terminal R t) : MaximalPath R t where
  visit
    | 0 => some t
    | _ + 1 => none
  start := rfl
  step := by
    rintro (_ | i) a b ha hb <;> simp at hb
  stop := by
    rintro (_ | i) a ha _
    · rw [← Option.some.inj ha]
      exact h
    · exact absurd ha (by simp)
  ended := by
    rintro (_ | i) hi
    · exact absurd hi (by simp)
    · rfl

/-- A step in front of a maximal path gives a maximal path. -/
def cons {a : α} (h : R a s) (p : MaximalPath R s) : MaximalPath R a where
  visit
    | 0 => some a
    | i + 1 => p.visit i
  start := rfl
  step := by
    rintro (_ | i) x y hx hy
    · rw [← Option.some.inj hx, ← Option.some.inj (p.start.symm.trans hy)]
      exact h
    · exact p.step i x y hx hy
  stop := by
    rintro (_ | i) x hx hy
    · exact absurd (p.start.symm.trans hy) (by simp)
    · exact p.stop i x hx hy
  ended := by
    rintro (_ | i) hi
    · exact absurd hi (by simp)
    · exact p.ended i hi

variable {C : α → α → Prop}

/-- A walk of steps `C` can be put in front of a maximal path; the path is then seen from position `n`
on, and before it there is a step `C` from every position. -/
theorem exists_prepend (hC : ∀ x y, C x y → R x y) {a : α} (h : ReflTransGen C a s) (p : MaximalPath R s) :
    ∃ (q : MaximalPath R a) (n : ℕ), (∀ i, q.visit (n + i) = p.visit i) ∧
      ∀ i < n, ∀ x, q.visit i = some x → ∃ y, C x y := by
  induction h using ReflTransGen.head_induction_on with
  | refl =>
    refine ⟨p, 0, fun i => ?_, fun i hi => absurd hi (Nat.not_lt_zero i)⟩
    rw [Nat.zero_add]
  | @head x y hxy _ ih =>
    obtain ⟨q, n, hq, hsteps⟩ := ih
    refine ⟨cons (hC x y hxy) q, n + 1, fun i => ?_, ?_⟩
    · rw [Nat.add_right_comm]
      exact hq i
    · rintro (_ | i) hi z hz
      · rw [← Option.some.inj hz]
        exact ⟨y, hxy⟩
      · exact hsteps i (by omega) z hz

variable (p : MaximalPath R s) {i j : ℕ}

theorem none_of_le (hij : i ≤ j) (h : p.visit i = none) : p.visit j = none := by
  induction j, hij using Nat.le_induction with
  | base => exact h
  | succ j _ ih => exact p.ended j ih

theorem some_of_le {b : α} (hij : i ≤ j)
    (h : p.visit j = some b) : ∃ a, p.visit i = some a := by
  cases hi : p.visit i with
  | some a => exact ⟨a, rfl⟩
  | none => exact absurd (p.none_of_le hij hi) (by rw [h]; simp)

/-- The stretch of a maximal path between two positions is a walk, of whatever steps `C` it takes. -/
theorem walk_of_steps {a b : α} (hij : i ≤ j)
    (ha : p.visit i = some a) (hb : p.visit j = some b)
    (hC : ∀ k x y, i ≤ k → k < j → p.visit k = some x → p.visit (k + 1) = some y → C x y) :
    ReflTransGen C a b := by
  induction j, hij using Nat.le_induction generalizing b with
  | base =>
    rw [Option.some.inj (ha.symm.trans hb)]
  | succ j hij ih =>
    obtain ⟨c, hc⟩ := p.some_of_le (Nat.le_succ j) hb
    have hac : ReflTransGen C a c :=
      ih hc fun k x y hik hkj => hC k x y hik (Nat.lt_succ_of_lt hkj)
    exact hac.tail (hC j c b hij (Nat.lt_succ_self j) hc hb)

/-- The stretch between two different positions takes at least one step. -/
theorem cycle_of_steps {a b : α} (hij : i < j)
    (ha : p.visit i = some a) (hb : p.visit j = some b)
    (hC : ∀ k x y, i ≤ k → p.visit k = some x → p.visit (k + 1) = some y → C x y) :
    TransGen C a b := by
  obtain ⟨c, hc⟩ := p.some_of_le (Nat.succ_le_of_lt hij) hb
  have hcb : ReflTransGen C c b :=
    p.walk_of_steps hij hc hb fun k x y hik _ => hC k x y (by omega)
  exact TransGen.head' (hC i a c le_rfl ha hc) hcb

theorem walk {i : ℕ} {a : α} (ha : p.visit i = some a) : ReflTransGen R s a :=
  p.walk_of_steps (Nat.zero_le i) p.start ha fun k x y _ _ hx hy => p.step k x y hx hy

theorem infinite_or_ends : p.Infinite ∨ ∃ a, p.EndsIn a := by
  by_cases h : ∃ i, p.visit i = none
  · right
    classical
    have hfirst : p.visit (Nat.find h) = none := Nat.find_spec h
    cases hn : Nat.find h with
    | zero =>
      rw [hn, p.start] at hfirst
      exact absurd hfirst (by simp)
    | succ k =>
      have hk : p.visit k ≠ none := Nat.find_min h (by omega)
      obtain ⟨a, ha⟩ := Option.ne_none_iff_exists'.mp hk
      exact ⟨a, k, ha, hn ▸ hfirst⟩
  · left
    intro i
    rw [Option.isSome_iff_ne_none]
    exact fun hi => h ⟨i, hi⟩

theorem terminal_of_endsIn {p : MaximalPath R s} {a : α} (h : p.EndsIn a) : Terminal R a := by
  obtain ⟨i, ha, hnone⟩ := h
  exact p.stop i a ha hnone

/-- **Pigeonhole.** A path that infinitely often meets `B`, inside a finite set, meets some state of
`B` at two different positions, both past any given one. -/
theorem exists_repeat {U : Set α} (hU : U.Finite) {B : α → Prop} (n : ℕ)
    (hmem : ∀ i a, p.visit i = some a → a ∈ U)
    (hB : ∀ m, ∃ j a, m ≤ j ∧ p.visit j = some a ∧ B a) :
    ∃ i j a, n ≤ i ∧ i < j ∧ p.visit i = some a ∧ p.visit j = some a ∧ B a := by
  let J : Set ℕ := {j | n ≤ j ∧ ∃ a, p.visit j = some a ∧ B a}
  have hJ : J.Infinite := by
    refine Set.infinite_of_not_bddAbove fun ⟨m, hm⟩ => ?_
    obtain ⟨j, a, hj, ha, hBa⟩ := hB (max n (m + 1))
    have hle : j ≤ m := hm ⟨le_trans (le_max_left _ _) hj, a, ha, hBa⟩
    have hlt : m + 1 ≤ j := le_trans (le_max_right _ _) hj
    omega
  have hmaps : Set.MapsTo p.visit J (some '' U) := by
    rintro j ⟨_, a, ha, _⟩
    exact ⟨a, hmem j a ha, ha.symm⟩
  obtain ⟨i, hi, j, hj, hne, heq⟩ := hJ.exists_ne_map_eq_of_mapsTo hmaps (hU.image _)
  obtain ⟨hni, a, ha, hBa⟩ := hi
  rcases Nat.lt_or_gt_of_ne hne with hlt | hgt
  · exact ⟨i, j, a, hni, hlt, ha, heq ▸ ha, hBa⟩
  · exact ⟨j, i, a, hj.1, hgt, heq ▸ ha, ha, hBa⟩

end MaximalPath

/-! ## Cycles -/

variable {U : Set α} {Q : α → Prop}

/-- Without cycles, steps do not go on for ever inside a finite set. -/
theorem exists_leaves {π : ℕ → α} (hU : U.Finite) (hacyclic : ∀ a, ¬ TransGen R a a) :
    ∃ i, π i ∉ U ∨ ¬ R (π i) (π (i + 1)) := by
  by_contra hstays
  have hinside : ∀ i, π i ∈ U := fun i => by
    by_contra h
    exact hstays ⟨i, Or.inl h⟩
  have hstep : ∀ i, R (π i) (π (i + 1)) := fun i => by
    by_contra h
    exact hstays ⟨i, Or.inr h⟩
  have hwalk : ∀ i k, TransGen R (π i) (π (i + k + 1)) := by
    intro i k
    induction k with
    | zero => exact .single (hstep i)
    | succ k ih => exact ih.tail (hstep (i + k + 1))
  obtain ⟨i, -, j, -, hne, heq⟩ :=
    Set.infinite_univ.exists_ne_map_eq_of_mapsTo (fun i (_ : i ∈ Set.univ) => hinside i) hU
  -- two positions hold the same state, and the steps between them are a cycle
  rcases Nat.lt_or_gt_of_ne hne with hlt | hlt
  · obtain ⟨k, rfl⟩ := Nat.exists_eq_add_of_lt hlt
    exact hacyclic _ (heq ▸ hwalk i k)
  · obtain ⟨k, rfl⟩ := Nat.exists_eq_add_of_lt hlt
    exact hacyclic _ (heq ▸ hwalk j k)

theorem acyclic_of_rank (rank : α → ℕ) (h : ∀ a b, R a b → rank a < rank b) (a : α) : ¬ TransGen R a a := by
  have hlt : ∀ b, TransGen R a b → rank a < rank b := by
    intro b hb
    induction hb with
    | single hab => exact h _ _ hab
    | tail _ hbc ih => exact ih.trans (h _ _ hbc)
  exact fun hcycle => lt_irrefl _ (hlt a hcycle)

theorem exists_walk_of_reflTransGen {a b : α} (h : ReflTransGen R a b) :
    ∃ (n : ℕ) (f : ℕ → α), f 0 = a ∧ f n = b ∧ ∀ i < n, R (f i) (f (i + 1)) := by
  induction h using ReflTransGen.head_induction_on with
  | refl => exact ⟨0, fun _ => b, rfl, rfl, fun i hi => absurd hi (Nat.not_lt_zero i)⟩
  | @head a c hac _ ih =>
    obtain ⟨n, f, hf0, hfn, hf⟩ := ih
    refine ⟨n + 1, fun | 0 => a | i + 1 => f i, rfl, hfn, ?_⟩
    rintro (_ | i) hi
    · show R a (f 0)
      rw [hf0]
      exact hac
    · exact hf i (by omega)

/-- Going round a cycle forever is an infinite path that keeps coming back. -/
theorem exists_path_around {c : α} (h : TransGen R c c) : ∃ π, IsPath R π ∧ π 0 = c ∧ ∀ m, ∃ j, m ≤ j ∧ π j = c := by
  obtain ⟨d, hcd, hdc⟩ := TransGen.head'_iff.mp h
  obtain ⟨n, f, hf0, hfn, hf⟩ := exists_walk_of_reflTransGen hdc
  -- position `i` of the path is position `i % (n + 1)` of the round trip `c, f 0, …, f n = c`
  let g : ℕ → α := fun | 0 => c | k + 1 => f k
  have hg : ∀ k ≤ n, R (g k) (g (k + 1)) := by
    rintro (_ | k) hk
    · show R c (f 0)
      rw [hf0]
      exact hcd
    · exact hf k (by omega)
  refine ⟨fun i => g (i % (n + 1)), fun i => ?_, by simp [g], fun m => ?_⟩
  · have hlt : i % (n + 1) < n + 1 := Nat.mod_lt _ (Nat.succ_pos n)
    have hstep := hg (i % (n + 1)) (by omega)
    by_cases hlast : i % (n + 1) = n
    · have hnext : (i + 1) % (n + 1) = 0 := by
        rw [Nat.add_mod, hlast]
        rcases Nat.eq_zero_or_pos n with rfl | hn
        · simp
        · rw [Nat.mod_eq_of_lt (by omega : 1 < n + 1), Nat.mod_self]
      show R (g (i % (n + 1))) (g ((i + 1) % (n + 1)))
      rw [hnext]
      rw [hlast] at hstep ⊢
      have hback : g (n + 1) = c := hfn
      rw [hback] at hstep
      exact hstep
    · have hnext : (i + 1) % (n + 1) = i % (n + 1) + 1 := by
        rw [Nat.add_mod, Nat.mod_eq_of_lt (by omega : 1 < n + 1),
          Nat.mod_eq_of_lt (by omega : i % (n + 1) + 1 < n + 1)]
      show R (g (i % (n + 1))) (g ((i + 1) % (n + 1)))
      rw [hnext]
      exact hstep
  · refine ⟨m * (n + 1), Nat.le_mul_of_pos_right m (Nat.succ_pos n), ?_⟩
    simp [g]

/-- From `s` one can get along states that are not `Q` to an end of the graph, or to a cycle of such
states. -/
def CanAvoid (R : α → α → Prop) (Q : α → Prop) (s : α) : Prop :=
  ¬ Q s ∧ ∃ t, ReflTransGen (avoiding R Q) s t ∧ (Terminal R t ∨ TransGen (avoiding R Q) t t)

/-- **Avoiding a set of states.** In a finite graph some maximal path from `s` never meets `Q` exactly
when `Q` can be avoided on the way to an end or to a cycle. -/
theorem exists_avoiding_path_iff (hU : U.Finite) (hclosed : Closed R U)
    {s : α} (hs : s ∈ U) :
    (∃ p : MaximalPath R s, ∀ i a, p.visit i = some a → ¬ Q a) ↔ CanAvoid R Q s := by
  constructor
  · intro ⟨p, hp⟩
    have hstep : ∀ k x y, p.visit k = some x → p.visit (k + 1) = some y → avoiding R Q x y :=
      fun k x y hx hy => ⟨p.step k x y hx hy, hp k x hx, hp (k + 1) y hy⟩
    refine ⟨hp 0 s p.start, ?_⟩
    rcases p.infinite_or_ends with hinf | ⟨a, hends⟩
    · obtain ⟨i, j, a, _, hij, ha, ha', _⟩ := p.exists_repeat hU (B := fun _ => True) 0
        (fun i a ha => hclosed.walk hs (p.walk ha))
        (fun m => by
          obtain ⟨a, ha⟩ := Option.isSome_iff_exists.mp (hinf m)
          exact ⟨m, a, le_rfl, ha, trivial⟩)
      refine ⟨a, ?_, Or.inr ?_⟩
      · exact p.walk_of_steps (Nat.zero_le i) p.start ha fun k x y _ _ => hstep k x y
      · exact p.cycle_of_steps hij ha ha' fun k x y _ => hstep k x y
    · obtain ⟨i, ha, hnone⟩ := id hends
      refine ⟨a, ?_, Or.inl (MaximalPath.terminal_of_endsIn hends)⟩
      exact p.walk_of_steps (Nat.zero_le i) p.start ha fun k x y _ _ => hstep k x y
  · intro ⟨hsQ, t, hwalk, hend⟩
    have htQ : ¬ Q t := by
      cases hwalk with
      | refl => exact hsQ
      | tail _ hab => exact hab.2.2
    -- a path from `t` that keeps out of `Q`, whichever way `t` was reached
    have htail : ∃ p : MaximalPath R t, ∀ i a, p.visit i = some a → ¬ Q a := by
      rcases hend with hterm | hcycle
      · refine ⟨MaximalPath.single t hterm, ?_⟩
        rintro (_ | i) a ha
        · rw [← Option.some.inj ha]
          exact htQ
        · exact absurd ha (by simp [MaximalPath.single])
      · obtain ⟨π, hπ, h0, _⟩ := exists_path_around hcycle
        subst h0
        refine ⟨MaximalPath.ofPath π fun i => (hπ i).1, fun i a ha => ?_⟩
        rw [← Option.some.inj ha]
        exact (hπ i).2.1
    obtain ⟨p, hp⟩ := htail
    obtain ⟨q, n, hq, hsteps⟩ := p.exists_prepend (fun _ _ hab => hab.1) hwalk
    refine ⟨q, fun i a ha => ?_⟩
    rcases Nat.lt_or_ge i n with hlt | hge
    · obtain ⟨b, hab⟩ := hsteps i hlt a ha
      exact hab.2.1
    · obtain ⟨k, rfl⟩ := Nat.exists_eq_add_of_le hge
      rw [hq k] at ha
      exact hp k a ha

/-! ## Recurrence and persistence -/

namespace MaximalPath

variable {s : α}

/-- `Q` comes back: an infinite path meets it again and again, and a path that ends, ends in it. -/
def Recurs (p : MaximalPath R s) (Q : α → Prop) : Prop :=
  (p.Infinite → ∀ n, ∃ j a, n ≤ j ∧ p.visit j = some a ∧ Q a) ∧ ∀ a, p.EndsIn a → Q a

/-- `Q` stays: it holds from some position of the path on. -/
def Settles (p : MaximalPath R s) (Q : α → Prop) : Prop :=
  ∃ n, (∃ a, p.visit n = some a) ∧ ∀ j a, n ≤ j → p.visit j = some a → Q a

theorem exists_endsIn {t : α} (h : ReflTransGen R s t) (ht : Terminal R t) : ∃ p : MaximalPath R s, p.EndsIn t := by
  obtain ⟨p, n, hp, _⟩ := (single t ht).exists_prepend (fun _ _ h => h) h
  exact ⟨p, n, hp 0, hp 1⟩

/-- A walk to a cycle of steps `C` goes on as an infinite path that from some position on only takes
these steps, and keeps coming back. -/
theorem exists_around {C : α → α → Prop} (hC : ∀ x y, C x y → R x y) {t : α}
    (h : ReflTransGen R s t) (hcycle : TransGen C t t) :
    ∃ p : MaximalPath R s, p.Infinite ∧ (∀ m, ∃ j, m ≤ j ∧ p.visit j = some t) ∧
      ∃ n, ∀ j a, n ≤ j → p.visit j = some a → ∃ b, C a b := by
  obtain ⟨π, hπ, h0, hback⟩ := exists_path_around hcycle
  subst h0
  obtain ⟨p, n, hp, _⟩ :=
    (ofPath π fun i => hC _ _ (hπ i)).exists_prepend (fun _ _ h => h) h
  refine ⟨p, fun i => ?_, fun m => ?_, n, fun j a hj ha => ?_⟩
  · rw [Option.isSome_iff_ne_none]
    intro hi
    have hnone : p.visit (n + i) = none := p.none_of_le (Nat.le_add_left i n) hi
    rw [hp i] at hnone
    exact absurd hnone (Option.some_ne_none _)
  · obtain ⟨j, hj, hjt⟩ := hback m
    refine ⟨n + j, by omega, ?_⟩
    rw [hp j]
    exact congrArg some hjt
  · obtain ⟨k, rfl⟩ := Nat.exists_eq_add_of_le hj
    rw [hp k] at ha
    rw [← Option.some.inj ha]
    exact ⟨_, hπ k⟩

end MaximalPath

/-- **Recurrence.** In a finite graph `Q` comes back on every maximal path from `s` exactly when it
holds at every end of the graph and on every cycle that walks from `s` lead to. -/
theorem forall_recurs_iff (hU : U.Finite) (hclosed : Closed R U) {s : α} (hs : s ∈ U) :
    (∀ p : MaximalPath R s, p.Recurs Q) ↔
      (∀ t, ReflTransGen R s t → Terminal R t → Q t) ∧
        ∀ t, ReflTransGen R s t → ¬ TransGen (avoiding R Q) t t := by
  constructor
  · intro hrecurs
    refine ⟨fun t hwalk hterm => ?_, fun t hwalk hcycle => ?_⟩
    · obtain ⟨p, hends⟩ := MaximalPath.exists_endsIn hwalk hterm
      exact (hrecurs p).2 t hends
    · obtain ⟨p, hinf, _, n, hsteps⟩ :=
        MaximalPath.exists_around (fun _ _ hab => hab.1) hwalk hcycle
      obtain ⟨j, a, hj, ha, hQ⟩ := (hrecurs p).1 hinf n
      obtain ⟨b, hab⟩ := hsteps j a hj ha
      exact hab.2.1 hQ
  · intro ⟨hterm, hcycle⟩ p
    refine ⟨fun hinf => ?_, fun a hends => ?_⟩
    · by_contra hnever
      push Not at hnever
      obtain ⟨n, hn⟩ := hnever
      -- past `n` the path repeats a state, and all it meets in between avoids `Q`
      obtain ⟨i, j, a, hi, hij, ha, ha', _⟩ := p.exists_repeat hU (B := fun _ => True) n
        (fun i a ha => hclosed.walk hs (p.walk ha))
        (fun m => by
          obtain ⟨a, ha⟩ := Option.isSome_iff_exists.mp (hinf m)
          exact ⟨m, a, le_rfl, ha, trivial⟩)
      apply hcycle a (p.walk ha)
      apply p.cycle_of_steps hij ha ha'
      intro k x y hik hx hy
      exact ⟨p.step k x y hx hy, hn k x (by omega) hx, hn (k + 1) y (by omega) hy⟩
    · obtain ⟨i, ha, _⟩ := id hends
      exact hterm a (p.walk ha) (MaximalPath.terminal_of_endsIn hends)

/-- **Persistence.** In a finite graph every maximal path from `s` settles in `Q` exactly when `Q` holds
at every end of the graph and in every state on a cycle that walks from `s` lead to. -/
theorem forall_settles_iff (hU : U.Finite) (hclosed : Closed R U) {s : α} (hs : s ∈ U) :
    (∀ p : MaximalPath R s, p.Settles Q) ↔
      (∀ t, ReflTransGen R s t → Terminal R t → Q t) ∧
        ∀ t, ReflTransGen R s t → TransGen R t t → Q t := by
  constructor
  · intro hsettles
    refine ⟨fun t hwalk hterm => ?_, fun t hwalk hcycle => ?_⟩
    · obtain ⟨p, m, ht, hnone⟩ := MaximalPath.exists_endsIn hwalk hterm
      obtain ⟨n, ⟨a, ha⟩, hQ⟩ := hsettles p
      -- the position from which `Q` holds is not past the end
      have hnm : n ≤ m := by
        by_contra hlt
        have hn : p.visit n = none := p.none_of_le (by omega) hnone
        rw [hn] at ha
        exact absurd ha.symm (Option.some_ne_none a)
      exact hQ m t hnm ht
    · obtain ⟨p, _, hback, _⟩ := MaximalPath.exists_around (fun _ _ hab => hab) hwalk hcycle
      obtain ⟨n, _, hQ⟩ := hsettles p
      obtain ⟨j, hj, ht⟩ := hback n
      exact hQ j t hj ht
  · intro ⟨hterm, hcycle⟩ p
    cases p.infinite_or_ends with
    | inl hinf =>
      by_contra hnever
      obtain ⟨i, j, a, _, hij, ha, ha', hnot⟩ := p.exists_repeat hU (B := fun a => ¬ Q a) 0
        (fun i a ha => hclosed.walk hs (p.walk ha))
        (fun m => by
          by_contra hno
          push Not at hno
          exact hnever ⟨m, Option.isSome_iff_exists.mp (hinf m), hno⟩)
      apply hnot
      apply hcycle a (p.walk ha)
      exact p.cycle_of_steps hij ha ha' fun k x y _ => p.step k x y
    | inr hends =>
      obtain ⟨a, hends⟩ := hends
      obtain ⟨i, ha, hnone⟩ := id hends
      refine ⟨i, ⟨a, ha⟩, fun j b hj hb => ?_⟩
      have hji : j = i := by
        by_contra hne
        have hj' : p.visit j = none := p.none_of_le (by omega) hnone
        rw [hj'] at hb
        exact absurd hb.symm (Option.some_ne_none b)
      rw [hji, ha] at hb
      rw [← Option.some.inj hb]
      exact hterm a (p.walk ha) (MaximalPath.terminal_of_endsIn hends)

end Fsmc.Lib
