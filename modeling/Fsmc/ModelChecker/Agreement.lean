/-
# Fsmc.ModelChecker.Agreement — the linear-time checks against the CTL engine.

Some properties can be written in both logics, and the code has an engine for each. The two walk
different graphs: the linear-time checks look at the explored states, which include the children of
composite states, while the CTL engine follows transitions only. `checkUntil_eq_checkCtl` says that the
until is not affected by this; `checkInvariant_eq_iff` says exactly when an invariant is.
-/
import Fsmc.ModelChecker.Verify
import Fsmc.ModelChecker.CtlSemantics

namespace Fsmc

open Relation Fsmc.Lib Fsmc.Cpp Fsmc.Ir

namespace Ir

/-- Formulas of propositional logic, each operator with the right number of children. -/
inductive Propositional : PropertyAstNode → Prop
  | atom {text : String} : Propositional (.mk .atom text [])
  | not {text : String} {p : PropertyAstNode} : Propositional p → Propositional (.mk .not text [p])
  | and {text : String} {ps : List PropertyAstNode} :
      (∀ p ∈ ps, Propositional p) → Propositional (.mk .and text ps)
  | or {text : String} {ps : List PropertyAstNode} :
      (∀ p ∈ ps, Propositional p) → Propositional (.mk .or text ps)
  | implies {text : String} {p q : PropertyAstNode} :
      Propositional p → Propositional q → Propositional (.mk .implies text [p, q])
  | equivalent {text : String} {p q : PropertyAstNode} :
      Propositional p → Propositional q → Propositional (.mk .equivalent text [p, q])

end Ir

namespace ModelChecker

variable {mc : ModelChecker}

/-! ## Predicates in both engines -/

variable {p : PropertyAstNode} {left right : PropertyAstNode}

theorem mem_computeSat_iff (hp : Propositional p) {s : String}
    (hs : s ∈ mc.allStates) : s ∈ mc.computeSat p ↔ mc.evalPredicate s p = true := by
  induction hp with
  | atom =>
    show s ∈ mc.statesWhere _ ↔ _
    rw [mem_statesWhere]
    exact and_iff_right hs
  | @not _ p _ ih =>
    show s ∈ mc.statesWhere (fun s => s ∉ mc.computeSat p) ↔ (!mc.evalPredicate s p) = true
    rw [mem_statesWhere, decide_eq_true_eq, ih, Bool.not_eq_true', Bool.not_eq_true]
    exact and_iff_right hs
  | @and _ ps _ ih =>
    have hall : (∀ p ∈ ps, s ∈ mc.computeSat p) ↔ ∀ p ∈ ps, mc.evalPredicate s p = true :=
      forall_congr' fun p => forall_congr' fun hp => ih p hp
    rw [evalPredicate_and, List.all_eq_true]
    unfold computeSat
    rw [computeSats_eq_map]
    cases ps with
    | nil => exact ⟨fun _ _ h => absurd h List.not_mem_nil, fun _ => hs⟩
    | cons p ps =>
      show s ∈ List.foldl _ (mc.computeSat p) (ps.map mc.computeSat) ↔ _
      rw [mem_foldl_filter, List.forall_mem_map, ← hall, List.forall_mem_cons]
  | @or _ ps _ ih =>
    rw [evalPredicate_or, List.any_eq_true]
    unfold computeSat
    rw [computeSats_eq_map]
    show s ∈ List.foldl _ [] (ps.map mc.computeSat) ↔ _
    rw [mem_foldl_union]
    constructor
    · intro h
      obtain ⟨sub, hsub, hmem⟩ := h.resolve_left List.not_mem_nil
      obtain ⟨p, hp, rfl⟩ := List.mem_map.mp hsub
      exact ⟨p, hp, (ih p hp).mp hmem⟩
    · intro h
      obtain ⟨p, hp, hmem⟩ := h
      exact Or.inr ⟨_, List.mem_map_of_mem hp, (ih p hp).mpr hmem⟩
  | @implies _ p q _ _ ihp ihq =>
    show s ∈ mc.statesWhere (fun s => s ∉ mc.computeSat p || s ∈ mc.computeSat q) ↔
      (!mc.evalPredicate s p || mc.evalPredicate s q) = true
    rw [mem_statesWhere, Bool.or_eq_true, Bool.or_eq_true, decide_eq_true_eq, decide_eq_true_eq,
      ihp, ihq, Bool.not_eq_true', Bool.not_eq_true]
    exact and_iff_right hs
  | @equivalent _ p q _ _ ihp ihq =>
    show s ∈ mc.statesWhere (fun s => decide (s ∈ mc.computeSat p) == decide (s ∈ mc.computeSat q)) ↔
      (mc.evalPredicate s p == mc.evalPredicate s q) = true
    rw [mem_statesWhere, beq_iff_eq, beq_iff_eq, decide_eq_decide, ihp, ihq, ← Bool.eq_iff_iff]
    exact and_iff_right hs

theorem reachableStates_sub {s : String} (hs : s ∈ mc.reachableStates) : s ∈ mc.allStates := by
  obtain ⟨hroot, hwalk⟩ := mem_reachableStates.mp hs
  cases hwalk with
  | refl => exact mc.mem_allStates.mpr (Or.inr ⟨hroot, Or.inr rfl⟩)
  | tail _ hstep =>
    cases explore_iff.mp hstep with
    | inl hstep => exact (mc.step_allStates hstep).2
    | inr hchild =>
      obtain ⟨_, _, _, sub, hsub, _, hname⟩ := hchild
      exact mc.mem_allStates.mpr (Or.inl ⟨sub, hsub, hname⟩)

/-! ## Verdicts -/

variable {prop : FormalProperty}

theorem checkInvariant_passed : (mc.checkInvariant prop p).passed = true ↔
      ∀ s ∈ mc.reachableStates, mc.evalPredicate s p = true := by
  unfold checkInvariant
  split
  · next s hs =>
      have hmem := List.mem_of_find?_eq_some hs
      have hfalse := List.find?_some hs
      rw [reachableIter, HashOrder.mem_iter] at hmem
      refine ⟨fun h => absurd h (by simp), fun h => ?_⟩
      rw [h s hmem] at hfalse
      exact absurd hfalse (by simp)
  · next hnone =>
      refine ⟨fun _ s hs => ?_, fun _ => rfl⟩
      have htrue := List.find?_eq_none.mp hnone s (mc.order.mem_iter.mpr hs)
      simpa using htrue

theorem checkCtl_passed {node : PropertyAstNode} : (mc.checkCtl prop node).passed = true ↔
      mc.rootState = "" ∨ mc.rootState ∈ mc.computeSat node := by
  unfold checkCtl
  by_cases hroot : mc.rootState = ""
  · simp [hroot]
  · by_cases hmem : mc.rootState ∈ mc.computeSat node
    · simp [hroot, hmem]
    · simp [hroot, hmem]

theorem checkUntil_passed :
    (mc.checkUntil prop left right).passed = true ↔ mc.rootState ∈ mc.goodStates left right := by
  unfold checkUntil
  by_cases hmem : mc.rootState ∈ mc.goodStates left right
  · simp [hmem]
  · simp [hmem]

/-! ## Invariants -/

theorem checkCtl_ag_passed (hp : Propositional p)
    (hroot : mc.rootState ≠ "") : (mc.checkCtl prop (.unary .ag p)).passed = true ↔
      ∀ s, ReflTransGen mc.Step mc.rootState s → mc.evalPredicate s p = true := by
  have hin : mc.rootState ∈ mc.allStates := mc.mem_allStates.mpr (Or.inr ⟨hroot, Or.inr rfl⟩)
  have hclosed : Closed mc.Step {s | s ∈ mc.allStates} := fun _ _ _ hab => (mc.step_allStates hab).2
  have hstep : (fun x y => mc.Step x y ∧ x ∈ (Set.univ : Set String)) = mc.Step := by
    funext x y
    exact propext (and_iff_left trivial)
  have hef := satEF_isUntil.unique (isUntil_preE_walk (R := mc.Step) Set.univ
    {s | s ∈ mc.statesWhere fun s => s ∉ mc.computeSat p})
  rw [hstep, Set.ext_iff] at hef
  rw [checkCtl_passed, or_iff_right hroot]
  show mc.rootState ∈ mc.statesWhere
    (fun s => s ∉ mc.satEF (mc.statesWhere fun s => s ∉ mc.computeSat p)) ↔ _
  rw [mem_statesWhere, decide_eq_true_eq, and_iff_right hin]
  constructor
  · intro hno s hwalk
    have hs : s ∈ mc.allStates := hclosed.walk hin hwalk
    rw [← mem_computeSat_iff hp hs]
    by_contra hnot
    apply hno
    exact (hef mc.rootState).mpr ⟨s, mem_statesWhere.mpr ⟨hs, decide_eq_true hnot⟩, hwalk⟩
  · intro hall hmem
    obtain ⟨s, hs, hwalk⟩ := (hef mc.rootState).mp hmem
    have hs' := mem_statesWhere.mp hs
    rw [decide_eq_true_eq, mem_computeSat_iff hp hs'.1, hall s hwalk] at hs'
    exact hs'.2 rfl

/-- **Invariants in both engines.** `check_invariant(P)` and `check_ctl(AG P)` give the same verdict
exactly when a violation in a state that only composite entry leads to comes with a violation in a state
that transitions lead to. -/
theorem checkInvariant_eq_iff (mc : ModelChecker) (prop : FormalProperty) (p : PropertyAstNode)
    (hp : Propositional p) :
    (mc.checkInvariant prop p).passed = (mc.checkCtl prop (.unary .ag p)).passed ↔
      ((∃ s ∈ mc.reachableStates, ¬ ReflTransGen mc.Step mc.rootState s ∧
          mc.evalPredicate s p = false) →
        ∃ s, ReflTransGen mc.Step mc.rootState s ∧ mc.evalPredicate s p = false) := by
  rw [Bool.eq_iff_iff, checkInvariant_passed]
  by_cases hroot : mc.rootState = ""
  · -- without a root state nothing is explored and both verdicts are a pass
    have hnone : ∀ s, s ∉ mc.reachableStates := fun s hs => (mem_reachableStates.mp hs).1 hroot
    rw [checkCtl_passed]
    refine iff_of_true ?_ ?_
    · exact ⟨fun _ => Or.inl hroot, fun _ s hs => absurd hs (hnone s)⟩
    · intro ⟨s, hs, _⟩
      exact absurd hs (hnone s)
  · rw [checkCtl_ag_passed hp hroot]
    constructor
    · intro hagree ⟨s, hs, _, hfalse⟩
      by_contra hno
      have hall : ∀ s, ReflTransGen mc.Step mc.rootState s → mc.evalPredicate s p = true := by
        intro t ht
        by_contra hnot
        exact hno ⟨t, ht, by simpa using hnot⟩
      rw [hagree.mpr hall s hs] at hfalse
      exact absurd hfalse (by simp)
    · intro hcond
      refine ⟨fun hinv s hwalk => hinv s (reachable_of_walk hroot hwalk), fun hall s hs => ?_⟩
      by_contra hnot
      have hfalse : mc.evalPredicate s p = false := by simpa using hnot
      -- a violation that transitions do not lead to comes with one that they do
      have hfar : ¬ ReflTransGen mc.Step mc.rootState s := fun hwalk => hnot (hall s hwalk)
      obtain ⟨t, ht, htfalse⟩ := hcond ⟨s, hs, hfar, hfalse⟩
      rw [hall t ht] at htfalse
      exact absurd htfalse (by simp)

/-- A composite root state with one child and no transition. -/
def nested : ModelChecker where
  order := .insertion
  ir :=
    { initialState := "Operating"
      states := [{ name := "Operating", isComposite := true, initialSubState := "Fault" },
        { name := "Fault", parentState := "Operating" }] }
  stateIntervals := []

/-- `G !Fault` is violated and `AG !Fault` holds on the same model. -/
theorem checkInvariant_ne_checkCtl_nested :
    (nested.checkInvariant {} (.unary .not (.ofAtom "Fault"))).passed = false ∧
      (nested.checkCtl {} (.unary .ag (.unary .not (.ofAtom "Fault")))).passed = true := by
  decide

/-- On that model the two engines agree on `true`. -/
theorem checkInvariant_eq_iff_nested : (nested.checkInvariant {} (.ofAtom "true")).passed =
        (nested.checkCtl {} (.unary .ag (.ofAtom "true"))).passed ↔
      ((∃ s ∈ nested.reachableStates, ¬ ReflTransGen nested.Step nested.rootState s ∧
          nested.evalPredicate s (.ofAtom "true") = false) →
        ∃ s, ReflTransGen nested.Step nested.rootState s ∧
          nested.evalPredicate s (.ofAtom "true") = false) :=
  checkInvariant_eq_iff nested {} (.ofAtom "true") .atom

/-! ## Until -/

theorem goodStates_isUntil (hleft : Propositional left)
    (hright : Propositional right) :
    IsUntil (preA fun a b => mc.Step a b ∧ a ∈ {s | s ∈ mc.reachableStates})
      {s | s ∈ mc.computeSat left} ({s | s ∈ mc.computeSat right} ∩ {s | s ∈ mc.reachableStates})
      {s | s ∈ mc.goodStates left right} := by
  have hstart : {s | s ∈ mc.reachableIter.filter fun s => mc.evalPredicate s right} =
      {s | s ∈ mc.computeSat right} ∩ {s | s ∈ mc.reachableStates} := by
    ext s
    show s ∈ List.filter _ _ ↔ s ∈ mc.computeSat right ∧ s ∈ mc.reachableStates
    rw [List.mem_filter, reachableIter, HashOrder.mem_iter, and_comm]
    apply and_congr_left
    intro hs
    exact (mem_computeSat_iff hright (reachableStates_sub hs)).symm
  rw [← hstart]
  refine grow_isUntil ?_ ?_ (Option.some_get (grow_isSome (fun _ _ hs => mc.order.mem_iter.mp hs)
    (Nat.lt_succ_self _) _)).symm
  · intro _ good Z _ hgood s hcand hok
    have hs : s ∈ mc.reachableStates := mc.order.mem_iter.mp hcand
    simp only [untilOk, Bool.and_eq_true, Bool.not_eq_true', List.isEmpty_eq_false_iff,
      List.all_eq_true] at hok
    obtain ⟨⟨hleft', hne⟩, hall⟩ := hok
    obtain ⟨e, he⟩ := List.exists_mem_of_ne_nil _ hne
    refine ⟨(mem_computeSat_iff hleft (reachableStates_sub hs)).mpr hleft',
      ⟨e.target, ⟨e, he, rfl⟩, hs⟩, ?_⟩
    intro t ht
    obtain ⟨⟨e', he', ht⟩, _⟩ := ht
    have hreach : e'.target ∈ mc.reachableStates :=
      reachableStates_closed s _ hs ⟨e', he', rfl⟩
    have hgood' := hall e' he'
    rw [← ht]
    apply hgood
    simpa [hreach] using hgood'
  · intro sat s hs
    obtain ⟨hleft', ⟨t, ⟨e, he, _⟩, hs⟩, hall⟩ := hs
    refine ⟨mc.order.mem_iter.mpr hs, ?_⟩
    simp only [untilOk, Bool.and_eq_true, Bool.not_eq_true', List.isEmpty_eq_false_iff,
      List.all_eq_true]
    refine ⟨⟨(mem_computeSat_iff hleft (reachableStates_sub hs)).mp hleft',
      List.ne_nil_of_mem he⟩, fun e' he' => ?_⟩
    have hgood : e'.target ∈ sat := hall e'.target ⟨⟨e', he', rfl⟩, hs⟩
    simp [hgood]

/-- **Until in both engines.** With a root state, `check_until(P, Q)` and `check_ctl(A[P U Q])` give the
same verdict. -/
theorem checkUntil_eq_checkCtl (mc : ModelChecker) (prop : FormalProperty)
    (left right : PropertyAstNode) (hroot : mc.rootState ≠ "") (hleft : Propositional left)
    (hright : Propositional right) :
    (mc.checkUntil prop left right).passed =
      (mc.checkCtl prop (.binary .au left right)).passed := by
  have hau : IsUntil (preA mc.Step) {s | s ∈ mc.computeSat left} {s | s ∈ mc.computeSat right}
      {s | s ∈ mc.satAU (mc.computeSat left) (mc.computeSat right)} := satAU_isUntil
  -- no transition leaves the explored states, so the fixpoint over all states restricts to them
  have hgood := (goodStates_isUntil hleft hright).unique (hau.restrict_preA reachableStates_closed)
  have hmem : mc.rootState ∈ mc.goodStates left right ↔
      mc.rootState ∈ mc.satAU (mc.computeSat left) (mc.computeSat right) ∧
        mc.rootState ∈ mc.reachableStates := Set.ext_iff.mp hgood mc.rootState
  rw [Bool.eq_iff_iff, checkUntil_passed, checkCtl_passed, or_iff_right hroot, hmem,
    and_iff_left (rootState_reachable hroot)]
  exact Iff.rfl

/-- `A U B` on the model that settles in `B`. -/
theorem checkUntil_eq_checkCtl_settling : (settling.checkUntil {} (.ofAtom "A") (.ofAtom "B")).passed =
      (settling.checkCtl {} (.binary .au (.ofAtom "A") (.ofAtom "B"))).passed :=
  checkUntil_eq_checkCtl settling {} (.ofAtom "A") (.ofAtom "B") (by decide) .atom .atom

end ModelChecker

end Fsmc
