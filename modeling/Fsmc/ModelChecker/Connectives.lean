/-
# Fsmc.ModelChecker.Connectives — CTL formulas under Boolean connectives.

`verify_property` looks at the root of a formula. A Boolean connective over CTL formulas is no CTL root,
so the formula is checked as an invariant, and the predicate evaluator takes every temporal operator to
be false. The verdict of the connective then has nothing to do with the verdicts of its operands:
a negation and an implication always pass, a conjunction and a disjunction fail as soon as there is a
root state.
-/
import Fsmc.ModelChecker.Agreement

namespace Fsmc

open Fsmc.Lib Fsmc.Cpp Fsmc.Ir

namespace ModelChecker

variable {mc : ModelChecker}

/-- The verdict for a formula. -/
def verdict (mc : ModelChecker) (prop : FormalProperty) (ast : PropertyAstNode) : Bool :=
  (mc.verifyProperty { prop with ast := some ast }).passed

theorem evalPredicate_ctl {p : PropertyAstNode} (hp : isCtl p.op = true) (s : String) :
    mc.evalPredicate s p = false := by
  obtain ⟨op, text, children⟩ := p
  unfold evalPredicate
  cases op <;> first | rfl | exact absurd hp (by simp [isCtl])

theorem forall_reachable_false_iff : (∀ s ∈ mc.reachableStates, false = true) ↔ mc.rootState = "" := by
  constructor
  · intro hall
    by_contra hroot
    exact absurd (hall _ (rootState_reachable hroot)) (by simp)
  · intro hroot s hs
    exact absurd hroot (mem_reachableStates.mp hs).1

section Verdicts

variable {prop : FormalProperty} {p q : PropertyAstNode}

theorem verdict_ctl (hp : isCtl p.op = true) :
    mc.verdict prop p = true ↔ mc.rootState = "" ∨ mc.rootState ∈ mc.computeSat p := by
  unfold verdict
  show (mc.verifyAst _ p).passed = true ↔ _
  unfold verifyAst
  rw [if_pos hp]
  exact checkCtl_passed

theorem verdict_not (hp : isCtl p.op = true) : mc.verdict prop (.unary .not p) = true := by
  apply checkInvariant_passed.mpr
  intro s _
  show (!mc.evalPredicate s p) = true
  rw [evalPredicate_ctl hp]
  rfl

theorem verdict_and (hp : isCtl p.op = true) : mc.verdict prop (.binary .and p q) = true ↔ mc.rootState = "" := by
  apply checkInvariant_passed.trans
  rw [← forall_reachable_false_iff]
  apply forall_congr'
  intro s
  show _ → mc.evalPredicate s (.mk .and "" [p, q]) = true ↔ _
  rw [evalPredicate_and, List.all_cons, evalPredicate_ctl hp, Bool.false_and]

theorem verdict_or (hp : isCtl p.op = true) (hq : isCtl q.op = true) :
    mc.verdict prop (.binary .or p q) = true ↔ mc.rootState = "" := by
  apply checkInvariant_passed.trans
  rw [← forall_reachable_false_iff]
  apply forall_congr'
  intro s
  show _ → mc.evalPredicate s (.mk .or "" [p, q]) = true ↔ _
  rw [evalPredicate_or, List.any_cons, List.any_cons, List.any_nil, evalPredicate_ctl hp,
    evalPredicate_ctl hq, Bool.or_self, Bool.or_self]

theorem verdict_implies (hp : isCtl p.op = true) : mc.verdict prop (.binary .implies p q) = true := by
  apply checkInvariant_passed.mpr
  intro s _
  show (!mc.evalPredicate s p || mc.evalPredicate s q) = true
  rw [evalPredicate_ctl hp]
  rfl

end Verdicts

/-- The verdicts of the four connectives over `p` and `q` are those of Boolean logic. -/
structure BooleanVerdicts (mc : ModelChecker) (prop : FormalProperty) (p q : PropertyAstNode) :
    Prop where
  not_iff : mc.verdict prop (.unary .not p) = true ↔ ¬ mc.verdict prop p = true
  and_iff : mc.verdict prop (.binary .and p q) = true ↔
    mc.verdict prop p = true ∧ mc.verdict prop q = true
  or_iff : mc.verdict prop (.binary .or p q) = true ↔
    mc.verdict prop p = true ∨ mc.verdict prop q = true
  implies_iff : mc.verdict prop (.binary .implies p q) = true ↔
    (¬ mc.verdict prop p = true ∨ mc.verdict prop q = true)

/-- **Connectives over CTL formulas.** Their verdicts are those of Boolean logic exactly when there is a
root state and neither formula holds in it. -/
theorem booleanVerdicts_iff (mc : ModelChecker) (prop : FormalProperty) (p q : PropertyAstNode)
    (hp : isCtl p.op = true) (hq : isCtl q.op = true) :
    mc.BooleanVerdicts prop p q ↔
      mc.rootState ≠ "" ∧ mc.rootState ∉ mc.computeSat p ∧ mc.rootState ∉ mc.computeSat q := by
  constructor
  · intro h
    have hpfail := h.not_iff.mp (verdict_not hp)
    rw [verdict_ctl hp, not_or] at hpfail
    -- a disjunction passes only without a root state, and then `p` would pass
    have hqfail : ¬ mc.verdict prop q = true :=
      fun hpass => hpfail.1 ((verdict_or hp hq).mp (h.or_iff.mpr (Or.inr hpass)))
    rw [verdict_ctl hq, not_or] at hqfail
    exact ⟨hpfail.1, hpfail.2, hqfail.2⟩
  · intro ⟨hroot, hpout, hqout⟩
    have hpfail : ¬ mc.verdict prop p = true := by
      rw [verdict_ctl hp, not_or]
      exact ⟨hroot, hpout⟩
    have hqfail : ¬ mc.verdict prop q = true := by
      rw [verdict_ctl hq, not_or]
      exact ⟨hroot, hqout⟩
    exact
      { not_iff := iff_of_true (verdict_not hp) hpfail
        and_iff := iff_of_false (fun h => hroot ((verdict_and hp).mp h)) fun h => hpfail h.1
        or_iff := iff_of_false (fun h => hroot ((verdict_or hp hq).mp h)) fun h => h.elim hpfail hqfail
        implies_iff := iff_of_true (verdict_implies hp) (Or.inl hpfail) }

/-- `EF A` holds on the model that is halted in `A`, and so does its negation. -/
theorem booleanVerdicts_fail_halted : halted.verdict {} (.unary .ef (.ofAtom "A")) = true ∧
      halted.verdict {} (.unary .not (.unary .ef (.ofAtom "A"))) = true ∧
      ¬ halted.BooleanVerdicts {} (.unary .ef (.ofAtom "A")) (.unary .ef (.ofAtom "A")) :=
  ⟨by decide, by decide, fun h => absurd (by decide) (h.not_iff.mp (by decide))⟩

/-- On that model `EX A` holds nowhere, and the connectives over it behave. -/
theorem booleanVerdicts_iff_halted :
    halted.BooleanVerdicts {} (.unary .ex (.ofAtom "A")) (.unary .ex (.ofAtom "A")) :=
  (booleanVerdicts_iff halted {} (.unary .ex (.ofAtom "A")) (.unary .ex (.ofAtom "A")) rfl rfl).mpr
    (by decide)

end ModelChecker

end Fsmc
