/-
# Fsmc.ModelChecker.Engines — the linear-time verdicts as formulas of the CTL engine.

A check for a linear-time formula decides some condition on the graph, and that condition can often be
written in the other logic. Next verdicts are those of `AX`. A response verdict is that of `AG(P -> EF Q)`
and an eventuality verdict that of `EF P`, which is less than the formulas say. Recurrence and persistence
have no formula of their own, but each lies between two.
-/
import Fsmc.ModelChecker.Connectives
import Fsmc.ModelChecker.Liveness

namespace Fsmc

open Relation Fsmc.Lib Fsmc.Cpp Fsmc.Ir

namespace ModelChecker

variable {mc : ModelChecker} {prop : FormalProperty} {p trigger target : PropertyAstNode} {s : String}

/-! ## The CTL side -/

theorem verdict_ctl_root (hroot : mc.rootState ≠ "") (hp : isCtl p.op = true) :
    mc.verdict prop p = true ↔ mc.rootState ∈ mc.computeSat p := by
  rw [verdict_ctl hp]
  exact or_iff_right hroot

theorem mem_computeSat_ef_iff : s ∈ mc.computeSat (.unary .ef p) ↔
    ∃ t, ReflTransGen mc.Step s t ∧ t ∈ mc.computeSat p := by
  have hstep : (fun x y => mc.Step x y ∧ x ∈ (Set.univ : Set String)) = mc.Step := by
    funext x y
    exact propext (and_iff_left trivial)
  have hef := satEF_isUntil.unique (isUntil_preE_walk (R := mc.Step) Set.univ {s | s ∈ mc.computeSat p})
  rw [hstep, Set.ext_iff] at hef
  refine (hef s).trans ⟨?_, ?_⟩
  · rintro ⟨t, ht, hwalk⟩
    exact ⟨t, hwalk, ht⟩
  · rintro ⟨t, hwalk, ht⟩
    exact ⟨t, ht, hwalk⟩

theorem mem_computeSat_ag_iff (hs : s ∈ mc.allStates) : s ∈ mc.computeSat (.unary .ag p) ↔
    ∀ t, ReflTransGen mc.Step s t → t ∈ mc.computeSat p := by
  have hclosed : Closed mc.Step {s | s ∈ mc.allStates} := fun _ _ _ hab => (mc.step_allStates hab).2
  have hef : s ∈ mc.satEF (mc.statesWhere fun s => s ∉ mc.computeSat p) ↔
      ∃ t, ReflTransGen mc.Step s t ∧ t ∈ mc.computeSat (.unary .not p) :=
    mem_computeSat_ef_iff (p := .unary .not p)
  show s ∈ mc.statesWhere (fun s => s ∉ mc.satEF (mc.statesWhere fun s => s ∉ mc.computeSat p)) ↔ _
  rw [mem_statesWhere, decide_eq_true_eq, and_iff_right hs, hef]
  push Not
  refine forall_congr' fun t => imp_congr_right fun hwalk => ?_
  have ht : t ∈ mc.allStates := hclosed.walk hs hwalk
  show t ∉ mc.statesWhere (fun s => s ∉ mc.computeSat p) ↔ _
  rw [mem_statesWhere, decide_eq_true_eq, and_iff_right ht, not_not]

theorem mem_computeSat_implies_iff (hs : s ∈ mc.allStates) : s ∈ mc.computeSat (.binary .implies trigger target) ↔
      (s ∈ mc.computeSat trigger → s ∈ mc.computeSat target) := by
  show s ∈ mc.statesWhere (fun s => s ∉ mc.computeSat trigger || s ∈ mc.computeSat target) ↔ _
  rw [mem_statesWhere, and_iff_right hs, Bool.or_eq_true, decide_eq_true_eq, decide_eq_true_eq]
  exact imp_iff_not_or.symm

theorem verdict_ag_iff (hflat : ∀ s ∈ mc.ir.states, s.isComposite = false) (hroot : mc.rootState ≠ "") :
    mc.verdict prop (.unary .ag p) = true ↔ ∀ s ∈ mc.reachableStates, s ∈ mc.computeSat p := by
  rw [verdict_ctl_root hroot rfl, mem_computeSat_ag_iff (reachableStates_sub (rootState_reachable hroot))]
  constructor
  · exact fun h s hs => h s (walk_of_reachable_flat hflat hs)
  · exact fun h s hwalk => h s (reachable_of_walk hroot hwalk)

/-! ## The linear-time side -/

/-- Every successor satisfies the target, and there is one. -/
def NextHolds (mc : ModelChecker) (target : PropertyAstNode) (s : String) : Prop :=
  s ∈ preA mc.Step {t | mc.Holds target t}

theorem nextHolds_iff : mc.NextHolds target s ↔
    mc.edgesFrom s ≠ [] ∧ ∀ e ∈ mc.edgesFrom s, mc.Holds target e.target := by
  unfold NextHolds
  constructor
  · rintro ⟨⟨t, e, he, -⟩, hall⟩
    exact ⟨List.ne_nil_of_mem he, fun e he => hall e.target ⟨e, he, rfl⟩⟩
  · rintro ⟨hne, hall⟩
    obtain ⟨e, he⟩ := List.exists_mem_of_ne_nil _ hne
    refine ⟨⟨e.target, e, he, rfl⟩, ?_⟩
    rintro _ ⟨e', he', rfl⟩
    exact hall e' he'

theorem mem_computeSat_ax_holds (htarget : Propositional target) :
    s ∈ mc.computeSat (.unary .ax target) ↔ mc.NextHolds target s := by
  show s ∈ mc.preAll (mc.computeSat target) ↔ _
  rw [mem_preAll]
  refine and_congr_right fun _ => forall_congr' fun t => imp_congr_right fun hst => ?_
  exact mem_computeSat_iff htarget (mc.step_allStates hst).2

theorem checkNext_passed : (mc.checkNext prop target).passed = true ↔ mc.NextHolds target mc.rootState := by
  rw [nextHolds_iff]
  unfold checkNext
  by_cases hempty : mc.edgesFrom mc.rootState = []
  · simp [hempty]
  · rw [if_neg (by simpa using hempty)]
    cases hfind : (mc.edgesFrom mc.rootState).find? fun e => !mc.evalPredicate e.target target with
    | some e =>
      have hbad := List.find?_some hfind
      refine iff_of_false (by simp) fun h => ?_
      rw [h.2 e (List.mem_of_find?_eq_some hfind)] at hbad
      exact absurd hbad (by simp)
    | none =>
      have hgood : ∀ e ∈ mc.edgesFrom mc.rootState, mc.Holds target e.target := by
        intro e he
        simpa [Holds] using List.find?_eq_none.mp hfind e he
      exact iff_of_true rfl ⟨hempty, hgood⟩

theorem nextViolation_eq_none : mc.nextViolation prop trigger target s = none ↔
    (mc.Holds trigger s → mc.NextHolds target s) := by
  rw [nextHolds_iff]
  unfold nextViolation Holds
  by_cases htrigger : mc.evalPredicate s trigger = true
  · rw [if_pos htrigger]
    by_cases hempty : mc.edgesFrom s = []
    · simp [hempty, htrigger]
    · simp [hempty, htrigger, List.find?_eq_none]
  · simp [htrigger]

theorem checkNextResponse_passed {prop : FormalProperty} : (mc.checkNextResponse prop trigger target).passed = true ↔
      ∀ s ∈ mc.reachableStates, mc.Holds trigger s → mc.NextHolds target s := by
  have hnone : mc.reachableIter.findSome? (mc.nextViolation prop trigger target) = none ↔
      ∀ s ∈ mc.reachableStates, mc.Holds trigger s → mc.NextHolds target s := by
    rw [List.findSome?_eq_none_iff]
    exact forall_congr' fun s => imp_congr mc.order.mem_iter nextViolation_eq_none
  rw [← hnone]
  unfold checkNextResponse
  cases hfind : mc.reachableIter.findSome? (mc.nextViolation prop trigger target) with
  | none => simp
  | some result =>
    -- what a violation gives is a failure
    obtain ⟨s, -, hs⟩ := List.exists_of_findSome?_eq_some hfind
    have hfail : result.passed = false := by
      unfold nextViolation at hs
      split at hs
      · split at hs
        · rw [← Option.some.inj hs]
          rfl
        · obtain ⟨e, -, rfl⟩ := Option.map_eq_some_iff.mp hs
          rfl
      · cases hs
    simp [hfail]

/-! ## The verdicts -/

/-- `G(P -> X Q)`. -/
def nextResponse (trigger target : PropertyAstNode) : PropertyAstNode :=
  .unary .globally (.binary .implies trigger (.unary .next target))

section Agreement

variable (hroot : mc.rootState ≠ "") (htrigger : Propositional trigger) (htarget : Propositional target)

include hroot htarget in
theorem verdict_next_eq : mc.verdict prop (.unary .next target) = mc.verdict prop (.unary .ax target) := by
  rw [Bool.eq_iff_iff, verdict_ctl_root (p := .unary .ax target) hroot rfl, mem_computeSat_ax_holds htarget]
  exact checkNext_passed

variable (hflat : ∀ s ∈ mc.ir.states, s.isComposite = false)
include hroot htrigger htarget hflat

theorem verdict_nextResponse_eq : mc.verdict prop (nextResponse trigger target) =
    mc.verdict prop (.unary .ag (.binary .implies trigger (.unary .ax target))) := by
  rw [Bool.eq_iff_iff, verdict_ag_iff hflat hroot]
  refine checkNextResponse_passed.trans (forall₂_congr fun s hs => ?_)
  have hin := reachableStates_sub hs
  rw [mem_computeSat_implies_iff hin, mem_computeSat_iff htrigger hin, mem_computeSat_ax_holds htarget]
  rfl

theorem verdict_response_eq : mc.verdict prop (response trigger target) =
    mc.verdict prop (.unary .ag (.binary .implies trigger (.unary .ef target))) := by
  rw [Bool.eq_iff_iff, verdict_ag_iff hflat hroot]
  refine checkResponse_passed.trans (forall₂_congr fun s hs => ?_)
  have hin := reachableStates_sub hs
  rw [mem_computeSat_implies_iff hin, mem_computeSat_iff htrigger hin, mem_computeSat_ef_iff]
  refine imp_congr_right fun _ => exists_congr fun t => and_congr_right fun hwalk => ?_
  exact (mem_computeSat_iff htarget (reachableStates_sub (reachableStates_closed.walk hs hwalk))).symm

omit htrigger in
theorem verdict_finally_eq : mc.verdict prop (.unary .finally target) = mc.verdict prop (.unary .ef target) := by
  have hdispatch : mc.verdict prop (.unary .finally target) =
      (mc.checkReachability { prop with ast := some (.unary .finally target) } target).passed := by
    cases htarget <;> rfl
  rw [hdispatch, Bool.eq_iff_iff, checkReachability_passed, verdict_ctl_root hroot rfl, mem_computeSat_ef_iff]
  constructor
  · rintro ⟨s, hs, hp⟩
    exact ⟨s, walk_of_reachable_flat hflat hs, (mem_computeSat_iff htarget (reachableStates_sub hs)).mpr hp⟩
  · rintro ⟨s, hwalk, hp⟩
    have hs : s ∈ mc.reachableStates := reachable_of_walk hroot hwalk
    exact ⟨s, hs, (mem_computeSat_iff htarget (reachableStates_sub hs)).mp hp⟩

end Agreement

section Bounds

variable (hroot : mc.rootState ≠ "") (htarget : Propositional target)
  (hflat : ∀ s ∈ mc.ir.states, s.isComposite = false)
include hroot htarget hflat

theorem recurrence_of_ag_af (h : mc.verdict prop (.unary .ag (.unary .af target)) = true) :
    mc.verdict prop (.unary .globally (.unary .finally target)) = true := by
  have hall := (verdict_ag_iff hflat hroot).mp h
  refine checkInfinitelyOften_passed.mpr ⟨fun s hs hcycle => ?_, fun s hs hterm => ?_⟩
  · have hno := (mem_computeSat_af_iff htarget hs).mp (hall s hs)
    by_contra hnone
    push Not at hnone
    exact hno ⟨hnone s ReflTransGen.refl ReflTransGen.refl, s, ReflTransGen.refl,
      Or.inr (avoiding_cycle_of_between hcycle hnone)⟩
  · by_contra hnot
    exact (mem_computeSat_af_iff htarget hs).mp (hall s hs) ⟨hnot, s, ReflTransGen.refl, Or.inl hterm⟩

/-- Every explored state leads to an end or to a cycle, and there to the target. -/
theorem ag_ef_of_recurrence (h : mc.verdict prop (.unary .globally (.unary .finally target)) = true) :
    mc.verdict prop (.unary .ag (.unary .ef target)) = true := by
  obtain ⟨hcycles, hends⟩ := checkInfinitelyOften_passed.mp h
  refine (verdict_ag_iff hflat hroot).mpr fun s hs => mem_computeSat_ef_iff.mpr ?_
  have hfound : ∃ t, ReflTransGen mc.Step s t ∧ mc.Holds target t := by
    obtain ⟨t, hwalk, hterm | hcycle⟩ :=
      exists_terminal_or_cycle mc.finite_reachable reachableStates_closed (s := s) hs
    · exact ⟨t, hwalk, hends t (reachableStates_closed.walk hs hwalk) hterm⟩
    · obtain ⟨u, htu, -, hu⟩ := hcycles t (reachableStates_closed.walk hs hwalk) hcycle
      exact ⟨u, hwalk.trans htu, hu⟩
  obtain ⟨t, hwalk, ht⟩ := hfound
  have hreach : t ∈ mc.reachableStates := reachableStates_closed.walk hs hwalk
  exact ⟨t, hwalk, (mem_computeSat_iff htarget (reachableStates_sub hreach)).mpr ht⟩

/-- A run that reaches a state from which the target holds for good has it at its end and on its cycle. -/
theorem persistence_of_af_ag (h : mc.verdict prop (.unary .af (.unary .ag target)) = true) :
    mc.verdict prop (.unary .finally (.unary .globally target)) = true := by
  have hmem := (verdict_ctl_root hroot rfl).mp h
  have hin : mc.rootState ∈ mc.allStates := reachableStates_sub (rootState_reachable hroot)
  have hclosed : Closed mc.Step {s | s ∈ mc.allStates} := fun _ _ _ hab => (mc.step_allStates hab).2
  have hno := (mem_isUntil_preA_iff satAF_isUntil mc.allStates.finite_toSet hclosed hin).mp hmem
  have hsettled : ∀ s ∈ mc.reachableStates, Terminal mc.Step s ∨ TransGen mc.Step s s → mc.Holds target s := by
    intro s hs hend
    by_contra hnot
    have hwalk : ReflTransGen mc.Step mc.rootState s := walk_of_reachable_flat hflat hs
    -- no state that leads to `s` satisfies `AG`
    have hout : ∀ t, ReflTransGen mc.Step mc.rootState t → ReflTransGen mc.Step t s →
        t ∉ mc.computeSat (.unary .ag target) := by
      intro t hrt hts ht
      have hs' := (mem_computeSat_ag_iff (hclosed.walk hin hrt)).mp ht s hts
      exact hnot ((mem_computeSat_iff htarget (reachableStates_sub hs)).mp hs')
    refine hno ⟨hout _ ReflTransGen.refl hwalk, s, avoiding_of_between hwalk hout, hend.imp_right ?_⟩
    intro hcycle
    exact avoiding_cycle_of_between hcycle fun t hst hts => hout t (hwalk.trans hst) hts
  exact checkEventuallyAlways_passed.mpr
    ⟨fun s hs hcycle => hsettled s hs (Or.inr hcycle), fun s hs hterm => hsettled s hs (Or.inl hterm)⟩

end Bounds

/-- **Recurrence and persistence between CTL formulas.** On a model without composite states `AG AF P` passes
only if `G F P` does, and that only if `AG EF P` does; `AF AG P` passes only if `F G P` does, and that only if
`G F P` does. -/
theorem recurrence_and_persistence_bounds (mc : ModelChecker) (prop : FormalProperty) (target : PropertyAstNode)
    (hflat : ∀ s ∈ mc.ir.states, s.isComposite = false) (hroot : mc.rootState ≠ "")
    (htarget : Propositional target) :
    (mc.verdict prop (.unary .ag (.unary .af target)) = true →
        mc.verdict prop (.unary .globally (.unary .finally target)) = true) ∧
      (mc.verdict prop (.unary .globally (.unary .finally target)) = true →
        mc.verdict prop (.unary .ag (.unary .ef target)) = true) ∧
      (mc.verdict prop (.unary .af (.unary .ag target)) = true →
        mc.verdict prop (.unary .finally (.unary .globally target)) = true) ∧
      (mc.verdict prop (.unary .finally (.unary .globally target)) = true →
        mc.verdict prop (.unary .globally (.unary .finally target)) = true) := by
  refine ⟨recurrence_of_ag_af hroot htarget hflat, ag_ef_of_recurrence hroot htarget hflat,
    persistence_of_af_ag hroot htarget hflat, fun h => ?_⟩
  obtain ⟨hcycles, hends⟩ := checkEventuallyAlways_passed.mp h
  refine checkInfinitelyOften_passed.mpr ⟨fun s hs hcycle => ?_, hends⟩
  exact ⟨s, ReflTransGen.refl, ReflTransGen.refl, hcycles s hs hcycle⟩

theorem recurrence_and_persistence_bounds_lingering :
    lingering.verdict {} (.unary .ag (.unary .ef (.ofAtom "Serve"))) = true :=
  (recurrence_and_persistence_bounds lingering {} (.ofAtom "Serve") (by decide) (by decide) .atom).2.1
    (by decide)

end ModelChecker

end Fsmc
