/-
# Fsmc.Lib.Fixpoint — computing least and greatest solutions by passes over finite sets.

`grow` adds elements until a pass adds none; the test for an element may look at what has been added
earlier in the same pass. `shrink` drops elements until a pass drops none. Both loops terminate inside a
finite universe, and what they compute is the solution of the fixpoint equation: `grow_isUntil` for the
least one, `shrink_isGlobally` for the greatest one.
-/
import Fsmc.Lib.Loop
import Fsmc.Lib.Ctl

namespace Fsmc.Lib

variable {α : Type*} [DecidableEq α]

/-! ## Growing -/

/-- One pass: every candidate that is not in the set yet and passes the test is added. -/
def sweep (ok : List α → α → Bool) (cands sat : List α) : List α × Bool :=
  cands.foldl (fun st s => if s ∉ st.1 ∧ ok st.1 s then (s :: st.1, true) else st) (sat, false)

/-- Passes until one adds nothing. -/
def grow (ok : List α → α → Bool) (cands : List α → List α) (n : Nat) (sat : List α) :
    Option (List α) :=
  whileChanged (fun sat => sweep ok (cands sat) sat) n sat

section Grow

variable {ok : List α → α → Bool}

/-- The pass from any intermediate state: nothing is lost, an unchanged flag means that no candidate
passed the test, and a flag that was raised on the way means that something was added. -/
theorem foldl_sweep (cands : List α) (st : List α × Bool) :
    let r := cands.foldl (fun st s => if s ∉ st.1 ∧ ok st.1 s then (s :: st.1, true) else st) st
    (∀ x ∈ st.1, x ∈ r.1) ∧
      (r.2 = false → r = st ∧ ∀ s ∈ cands, s ∉ st.1 → ok st.1 s = false) ∧
      (r.2 = true → st.2 = true ∨ ∃ x ∈ cands, x ∉ st.1 ∧ x ∈ r.1) := by
  induction cands generalizing st with
  | nil => exact ⟨fun _ hx => hx, fun _ => ⟨rfl, fun _ hs => absurd hs List.not_mem_nil⟩, Or.inl⟩
  | cons c cands ih =>
    rw [List.foldl_cons]
    by_cases hc : c ∉ st.1 ∧ ok st.1 c
    · rw [if_pos hc]
      obtain ⟨hsub, hsame, _⟩ := ih (c :: st.1, true)
      refine ⟨fun x hx => hsub x (List.mem_cons_of_mem _ hx), fun hflag => ?_, fun _ => ?_⟩
      · obtain ⟨heq, _⟩ := hsame hflag
        rw [heq] at hflag
        exact absurd hflag (by simp)
      · exact Or.inr ⟨c, List.mem_cons_self, hc.1, hsub c List.mem_cons_self⟩
    · rw [if_neg hc]
      obtain ⟨hsub, hsame, hnew⟩ := ih st
      refine ⟨hsub, fun hflag => ?_, fun hflag => ?_⟩
      · obtain ⟨heq, hrest⟩ := hsame hflag
        refine ⟨heq, fun s hs hsat => ?_⟩
        rcases List.mem_cons.mp hs with rfl | hs
        · simpa [hsat] using hc
        · exact hrest s hs hsat
      · refine (hnew hflag).imp id ?_
        rintro ⟨x, hx, hxst, hxr⟩
        exact ⟨x, List.mem_cons_of_mem _ hx, hxst, hxr⟩

variable {cands sat : List α}

theorem sweep_sub {x : α} (hx : x ∈ sat) : x ∈ (sweep ok cands sat).1 :=
  (foldl_sweep cands (sat, false)).1 x hx

theorem sweep_unchanged (h : (sweep ok cands sat).2 = false) :
    (sweep ok cands sat).1 = sat ∧ ∀ s ∈ cands, s ∉ sat → ok sat s = false := by
  obtain ⟨heq, hrest⟩ := (foldl_sweep cands (sat, false)).2.1 h
  exact ⟨congrArg Prod.fst heq, hrest⟩

theorem sweep_changed (h : (sweep ok cands sat).2 = true) : ∃ x ∈ cands, x ∉ sat ∧ x ∈ (sweep ok cands sat).1 :=
  ((foldl_sweep cands (sat, false)).2.2 h).resolve_left (by simp)

/-- A set that contains the start and every candidate that passes contains the result of the pass. -/
theorem sweep_sound {Z : Set α} (hsat : ∀ x ∈ sat, x ∈ Z)
    (hok : ∀ good, (∀ x ∈ good, x ∈ Z) → ∀ s ∈ cands, ok good s = true → s ∈ Z) :
    ∀ x ∈ (sweep ok cands sat).1, x ∈ Z := by
  have hfold : ∀ (cands : List α) (st : List α × Bool), (∀ x ∈ st.1, x ∈ Z) →
      (∀ good, (∀ x ∈ good, x ∈ Z) → ∀ s ∈ cands, ok good s = true → s ∈ Z) →
      ∀ x ∈ (cands.foldl
        (fun st s => if s ∉ st.1 ∧ ok st.1 s then (s :: st.1, true) else st) st).1, x ∈ Z := by
    intro cands
    induction cands with
    | nil => exact fun st hst _ => hst
    | cons c cands ih =>
      intro st hst hok
      rw [List.foldl_cons]
      refine ih _ ?_ fun good hgood s hs => hok good hgood s (List.mem_cons_of_mem _ hs)
      by_cases hc : c ∉ st.1 ∧ ok st.1 c
      · rw [if_pos hc]
        intro x hx
        rcases List.mem_cons.mp hx with rfl | hx
        · exact hok st.1 hst x List.mem_cons_self hc.2
        · exact hst x hx
      · rw [if_neg hc]
        exact hst
  exact hfold cands (sat, false) hsat hok

/-- **Termination of `grow`.** -/
theorem grow_isSome {cands : List α → List α} {univ : List α}
    (huniv : ∀ sat, ∀ s ∈ cands sat, s ∈ univ) {n : Nat} (hn : univ.length < n) (sat : List α) :
    (grow ok cands n sat).isSome = true := by
  refine whileChanged_isSome (fun _ => True) (fun sat => missing univ (· ∈ sat))
    (fun _ _ => trivial) ?_ trivial (lt_of_le_of_lt (missing_le_length _ _) hn)
  intro s _ hflag
  obtain ⟨x, hx, hxs, hxr⟩ := sweep_changed hflag
  exact missing_lt (fun y hy => sweep_sub hy) (huniv s x hx) hxs hxr

/-- **`grow` computes the least solution**, when a candidate that passes is one that the equation asks
for, and nothing that the equation asks for is missed. -/
theorem grow_isUntil {cands : List α → List α} {pre : Set α → Set α} {p : Set α}
    (hsound : ∀ sat good (Z : Set α), (∀ x ∈ sat, x ∈ Z) → (∀ x ∈ good, x ∈ Z) →
      ∀ s ∈ cands sat, ok good s = true → s ∈ p ∩ pre Z)
    (hcomplete : ∀ sat, ∀ s ∈ p ∩ pre {x | x ∈ sat}, s ∈ cands sat ∧ ok sat s = true)
    {n : Nat} {start r : List α} (h : grow ok cands n start = some r) :
    IsUntil pre p {x | x ∈ start} {x | x ∈ r} := by
  obtain ⟨last, ⟨hstart, hleast⟩, hflag, hr⟩ := whileChanged_spec
    (fun sat => (∀ x ∈ start, x ∈ sat) ∧
      ∀ Z : Set α, (∀ x ∈ start, x ∈ Z) → p ∩ pre Z ⊆ Z → ∀ x ∈ sat, x ∈ Z)
    (by
      rintro sat ⟨hstart, hleast⟩
      refine ⟨fun x hx => sweep_sub (hstart x hx), fun Z hZ hstep => ?_⟩
      refine sweep_sound (hleast Z hZ hstep) fun good hgood s hs hok => ?_
      exact hstep (hsound sat good Z (hleast Z hZ hstep) hgood s hs hok))
    ⟨fun _ hx => hx, fun _ hZ _ => hZ⟩ h
  obtain ⟨heq, hdone⟩ := sweep_unchanged hflag
  rw [heq] at hr
  subst hr
  constructor
  · rintro x (hx | hx)
    · exact hstart x hx
    · obtain ⟨hcand, hok⟩ := hcomplete last x hx
      by_contra hnot
      rw [hdone x hcand hnot] at hok
      exact absurd hok (by simp)
  · intro Z hZ x hx
    exact hleast Z (fun y hy => hZ (Or.inl hy)) (fun y hy => hZ (Or.inr hy)) x hx

end Grow

/-! ## Shrinking -/

/-- Equality of two lists as sets. -/
def sameSet (a b : List α) : Bool := a.all (· ∈ b) && b.all (· ∈ a)

/-- One pass: only what has a predecessor relation to the set stays. `iter` is the order in which the
set is iterated. -/
def shrinkPass (iter pre : List α → List α) (sat : List α) : List α × Bool :=
  let next := (iter sat).filter (· ∈ pre sat)
  if sameSet next sat then (sat, false) else (next, true)

/-- Passes until one drops nothing. -/
def shrink (iter pre : List α → List α) (n : Nat) (sat : List α) : Option (List α) :=
  whileChanged (shrinkPass iter pre) n sat

section Shrink

variable {iter pre : List α → List α}

theorem shrinkPass_unchanged {sat : List α} (h : (shrinkPass iter pre sat).2 = false) :
    (shrinkPass iter pre sat).1 = sat ∧ ∀ x ∈ sat, x ∈ pre sat := by
  by_cases hsame : sameSet ((iter sat).filter (· ∈ pre sat)) sat = true
  · refine ⟨by rw [shrinkPass, if_pos hsame], fun x hx => ?_⟩
    rw [sameSet, Bool.and_eq_true, List.all_eq_true, List.all_eq_true] at hsame
    have hmem := hsame.2 x hx
    rw [decide_eq_true_eq, List.mem_filter, decide_eq_true_eq] at hmem
    exact hmem.2
  · rw [shrinkPass, if_neg hsame] at h
    exact absurd h (by simp)

theorem mem_shrinkPass (hiter : ∀ l x, x ∈ iter l ↔ x ∈ l) {sat : List α} {x : α} :
    x ∈ (shrinkPass iter pre sat).1 → x ∈ sat := by
  intro hx
  by_cases hsame : sameSet ((iter sat).filter (· ∈ pre sat)) sat = true
  · rwa [shrinkPass, if_pos hsame] at hx
  · rw [shrinkPass, if_neg hsame] at hx
    exact (hiter sat x).mp (List.mem_filter.mp hx).1

/-- **Termination of `shrink`.** -/
theorem shrink_isSome (hlen : ∀ l, (iter l).length = l.length) (hiter : ∀ l x, x ∈ iter l ↔ x ∈ l)
    {n : Nat} {sat : List α} (hn : sat.length < n) : (shrink iter pre n sat).isSome = true := by
  refine whileChanged_isSome (fun _ => True) List.length (fun _ _ => trivial) ?_ trivial hn
  intro s _ hflag
  have hsame : ¬ sameSet ((iter s).filter (· ∈ pre s)) s = true := by
    intro hsame
    rw [shrinkPass, if_pos hsame] at hflag
    exact absurd hflag (by simp)
  have hout : ∃ x ∈ iter s, ¬ decide (x ∈ pre s) = true := by
    by_contra hall
    push Not at hall
    refine hsame ?_
    rw [sameSet, Bool.and_eq_true, List.all_eq_true, List.all_eq_true]
    constructor
    · intro x hx
      exact decide_eq_true ((hiter s x).mp (List.mem_filter.mp hx).1)
    · intro x hx
      have hxs : x ∈ iter s := (hiter s x).mpr hx
      exact decide_eq_true (List.mem_filter.mpr ⟨hxs, hall x hxs⟩)
  rw [shrinkPass, if_neg hsame, ← hlen s]
  exact List.length_filter_lt_length_iff_exists.mpr hout

/-- **`shrink` computes the greatest solution.** -/
theorem shrink_isGlobally (hiter : ∀ l x, x ∈ iter l ↔ x ∈ l) {preSet : Set α → Set α}
    (hmono : ∀ {Y Z : Set α}, Y ⊆ Z → preSet Y ⊆ preSet Z)
    (hpre : ∀ sat x, x ∈ pre sat ↔ x ∈ preSet {y | y ∈ sat}) {n : Nat} {start r : List α}
    (h : shrink iter pre n start = some r) :
    IsGlobally preSet {x | x ∈ start} {x | x ∈ r} := by
  obtain ⟨last, ⟨hstart, hgreatest⟩, hflag, hr⟩ := whileChanged_spec
    (fun sat => (∀ x ∈ sat, x ∈ start) ∧
      ∀ Z : Set α, Z ⊆ {x | x ∈ start} ∩ preSet Z → ∀ x ∈ Z, x ∈ sat)
    (by
      rintro sat ⟨hstart, hgreatest⟩
      refine ⟨fun x hx => hstart x (mem_shrinkPass hiter hx), fun Z hZ x hx => ?_⟩
      have hsat : ∀ y ∈ Z, y ∈ sat := hgreatest Z hZ
      by_cases hsame : sameSet ((iter sat).filter (· ∈ pre sat)) sat = true
      · rw [shrinkPass, if_pos hsame]
        exact hsat x hx
      · rw [shrinkPass, if_neg hsame]
        refine List.mem_filter.mpr ⟨(hiter sat x).mpr (hsat x hx), decide_eq_true ?_⟩
        exact (hpre sat x).mpr (hmono hsat (hZ hx).2))
    ⟨fun _ hx => hx, fun _ hZ x hx => (hZ hx).1⟩ h
  obtain ⟨heq, hdone⟩ := shrinkPass_unchanged hflag
  rw [heq] at hr
  subst hr
  exact ⟨fun x hx => ⟨hstart x hx, (hpre last x).mp (hdone x hx)⟩,
    fun Z hZ x hx => hgreatest Z hZ x hx⟩

end Shrink

end Fsmc.Lib
