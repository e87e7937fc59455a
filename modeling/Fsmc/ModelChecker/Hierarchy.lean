/-
# Fsmc.ModelChecker.Hierarchy — the explored states against runs of the hierarchical machine.

In a run one leaf state is active together with its ancestors. Any transition out of an active state may
fire, guards left open, and entering a composite state goes on to its initial child. The exploration of
the model checker goes from a composite state to its children but never from a state to its parent, so a
state that is entered past its parent makes the parent active without its being explored.
`hierarchicalRuns_iff` says that this is all that can go wrong.
-/
import Fsmc.ModelChecker.Agreement
import Mathlib.Order.WellFoundedSet

namespace Fsmc

open Relation Fsmc.Lib Fsmc.Cpp Fsmc.Ir

/-! ## The hierarchy -/

namespace Ir.FsmIr

variable (ir : FsmIr)

/-- `p` is the parent state of `c`. -/
def Parent (c p : String) : Prop :=
  p ≠ "" ∧ ∃ s, ir.findState c = some s ∧ s.parentState = p

/-- `c` is the state that entering the composite state `b` goes on to. -/
def Initial (b c : String) : Prop :=
  c ≠ "" ∧ ∃ s, ir.findState b = some s ∧ s.isComposite = true ∧ s.initialSubState = c

/-- A model whose names resolve, as `is_well_formed` asks, with parent links that resolve and do not go
round, as `validate_state_hierarchy` asks, and with initial states that are children. -/
structure WellFormed : Prop where
  initialState : ir.initialState ≠ "" → (ir.findState ir.initialState).isSome = true
  source : ∀ t ∈ ir.transitions, t.source ≠ "" → (ir.findState t.source).isSome = true
  target : ∀ t ∈ ir.transitions, t.target ≠ "" → (ir.findState t.target).isSome = true
  parent : ∀ c p, ir.Parent c p → (ir.findState p).isSome = true
  acyclic : ∀ s, ¬ TransGen ir.Parent s s
  initialChild : ∀ b c, ir.Initial b c → ir.Parent c b

/-- With the leaf `leaf` the state `a` is active: it is the leaf or one of its ancestors. -/
def Active (leaf a : String) : Prop := ReflTransGen ir.Parent leaf a

/-- Entering `b` ends in the leaf `leaf`. -/
def Enters (b leaf : String) : Prop := ReflTransGen ir.Initial b leaf ∧ Terminal ir.Initial leaf

variable {ir}

theorem Parent.unique {c p q : String} (hp : ir.Parent c p) (hq : ir.Parent c q) : p = q := by
  obtain ⟨_, s, hs, rfl⟩ := hp
  obtain ⟨_, s', hs', rfl⟩ := hq
  rw [Option.some.inj (hs.symm.trans hs')]

theorem Enters.active (hwf : ir.WellFormed) {b leaf : String} (h : ir.Enters b leaf) : ir.Active leaf b := by
  have hwalk : ReflTransGen ir.Initial b leaf := h.1
  clear h
  induction hwalk with
  | refl => exact ReflTransGen.refl
  | tail _ hinitial ih => exact ReflTransGen.head (hwf.initialChild _ _ hinitial) ih

end Ir.FsmIr

/-! ## Runs -/

namespace ModelChecker

variable {mc : ModelChecker}

/-- The leaves of a run, the latest first, in which `ok` held whenever a state was entered: of the leaves
before, and the state. -/
inductive Runs (mc : ModelChecker) (ok : List String → String → Prop) : List String → Prop
  | start {leaf : String} : mc.rootState ≠ "" → ok [] mc.rootState →
      mc.ir.Enters mc.rootState leaf → Runs mc ok [leaf]
  | internal {leaf : String} {past : List String} {t : TransitionEdge} : Runs mc ok (leaf :: past) →
      t ∈ mc.ir.transitions → Resolved t → t.kind = .internal → mc.ir.Active leaf t.source →
      Runs mc ok (leaf :: leaf :: past)
  | external {leaf leaf' : String} {past : List String} {t : TransitionEdge} :
      Runs mc ok (leaf :: past) →
      t ∈ mc.ir.transitions → Resolved t → t.kind ≠ .internal → mc.ir.Active leaf t.source →
      ok (leaf :: past) t.target → mc.ir.Enters t.target leaf' → Runs mc ok (leaf' :: leaf :: past)

abbrev AllRuns (mc : ModelChecker) : List String → Prop := mc.Runs fun _ _ => True

/-- Entering `b` makes no state active that the exploration passes by: each ancestor of `b` has been
active before, or transitions and composite states lead to it from the root. -/
def Covered (mc : ModelChecker) (past : List String) (b : String) : Prop :=
  ∀ a, TransGen mc.ir.Parent b a →
    (∃ leaf ∈ past, mc.ir.Active leaf a) ∨ ReflTransGen mc.Explore mc.rootState a

/-- Every state that is active in the run is among `reachable_states_`. -/
def AllExplored (mc : ModelChecker) (run : List String) : Prop :=
  ∀ leaf ∈ run, ∀ a, mc.ir.Active leaf a → a ∈ mc.reachableStates

variable {run : List String}

variable {ok : List String → String → Prop} {past : List String}

theorem Runs.root_ne (h : mc.Runs ok run) : mc.rootState ≠ "" := by
  induction h with
  | start hroot => exact hroot
  | internal _ _ _ _ _ ih => exact ih
  | external _ _ _ _ _ _ _ ih => exact ih

theorem explore_of_initial (hwf : mc.ir.WellFormed) {b c : String} (h : mc.ir.Initial b c) : mc.Explore b c := by
  obtain ⟨_, sub, hsub, hparent⟩ := hwf.initialChild b c h
  obtain ⟨_, s, hs, hcomposite, _⟩ := h
  obtain ⟨hmem, hname⟩ := FsmIr.findState_spec hsub
  exact explore_iff.mpr (Or.inr ⟨s, hs, hcomposite, sub, hmem, hparent, hname⟩)

theorem reachableStates_explore {a b : String} (ha : a ∈ mc.reachableStates)
    (h : mc.Explore a b) : b ∈ mc.reachableStates := by
  obtain ⟨hroot, hwalk⟩ := mem_reachableStates.mp ha
  exact mem_reachableStates.mpr ⟨hroot, hwalk.tail h⟩

theorem explored_of_enters (hwf : mc.ir.WellFormed) {b leaf : String}
    (hb : ∀ a, mc.ir.Active b a → a ∈ mc.reachableStates) (h : mc.ir.Enters b leaf) :
    ∀ a, mc.ir.Active leaf a → a ∈ mc.reachableStates := by
  have hwalk : ReflTransGen mc.ir.Initial b leaf := h.1
  clear h
  induction hwalk with
  | refl => exact hb
  | @tail c d _ hinitial ih =>
    intro a ha
    cases ReflTransGen.cases_head ha with
    | inl heq =>
      subst heq
      exact reachableStates_explore (ih c ReflTransGen.refl) (explore_of_initial hwf hinitial)
    | inr hstep =>
      -- the parent of the child is the composite state it was entered from
      obtain ⟨p, hparent, hpa⟩ := hstep
      rw [hparent.unique (hwf.initialChild c d hinitial)] at hpa
      exact ih a hpa

theorem Covered.explored {b : String} (h : mc.Covered past b)
    (hroot : mc.rootState ≠ "") (hpast : mc.AllExplored past) (hb : b ∈ mc.reachableStates) :
    ∀ a, mc.ir.Active b a → a ∈ mc.reachableStates := by
  intro a ha
  cases reflTransGen_iff_eq_or_transGen.mp ha with
  | inl heq =>
    rw [heq]
    exact hb
  | inr hancestor =>
    cases h a hancestor with
    | inl hbefore =>
      obtain ⟨leaf, hleaf, hactive⟩ := hbefore
      exact hpast leaf hleaf a hactive
    | inr hwalk => exact mem_reachableStates.mpr ⟨hroot, hwalk⟩

theorem covered_of_explored (hwf : mc.ir.WellFormed) {b leaf : String}
    (henters : mc.ir.Enters b leaf)
    (h : ∀ a, mc.ir.Active leaf a → a ∈ mc.reachableStates) : mc.Covered past b := by
  intro a hancestor
  have hactive : mc.ir.Active leaf a := (henters.active hwf).trans hancestor.to_reflTransGen
  exact Or.inr (mem_reachableStates.mp (h a hactive)).2

theorem allExplored_cons {leaf : String} : mc.AllExplored (leaf :: past) ↔
    (∀ a, mc.ir.Active leaf a → a ∈ mc.reachableStates) ∧ mc.AllExplored past :=
  List.forall_mem_cons

/-- **Explored states of a run.** Induction over the run: entering covered states from explored ones
makes explored states active. -/
theorem Runs.allExplored (hwf : mc.ir.WellFormed) (h : mc.Runs mc.Covered run) : mc.AllExplored run := by
  induction h with
  | start hroot hcovered henters =>
    have hnone : mc.AllExplored [] := fun _ hleaf => absurd hleaf List.not_mem_nil
    have hactive := hcovered.explored hroot hnone (rootState_reachable hroot)
    exact allExplored_cons.mpr ⟨explored_of_enters hwf hactive henters, hnone⟩
  | internal _ _ _ _ _ ih => exact allExplored_cons.mpr ⟨(allExplored_cons.mp ih).1, ih⟩
  | @external leaf leaf' past t hrun ht hresolved _ hsource hcovered henters ih =>
    -- the transition may be that of an ancestor, which is explored like the leaf
    have hstep : mc.Step t.source t.target := step_iff.mpr ⟨t, ht, hresolved, rfl, rfl⟩
    have htarget : t.target ∈ mc.reachableStates :=
      reachableStates_closed _ _ ((allExplored_cons.mp ih).1 t.source hsource) hstep
    have hactive := hcovered.explored hrun.root_ne ih htarget
    exact allExplored_cons.mpr ⟨explored_of_enters hwf hactive henters, ih⟩

theorem Runs.allRuns (h : mc.Runs ok run) : mc.AllRuns run := by
  induction h with
  | start hroot _ henters => exact .start hroot trivial henters
  | internal _ ht hresolved hkind hsource ih => exact .internal ih ht hresolved hkind hsource
  | external _ ht hresolved hkind hsource _ henters ih =>
    exact .external ih ht hresolved hkind hsource trivial henters

theorem covered_of_allExplored (hwf : mc.ir.WellFormed) (h : mc.AllRuns run)
    (hexplored : mc.AllExplored run) : mc.Runs mc.Covered run := by
  induction h with
  | start hroot _ henters =>
    have hactive := (allExplored_cons.mp hexplored).1
    exact .start hroot (covered_of_explored hwf henters hactive) henters
  | internal _ ht hresolved hkind hsource ih =>
    exact .internal (ih (allExplored_cons.mp hexplored).2) ht hresolved hkind hsource
  | external _ ht hresolved hkind hsource _ henters ih =>
    obtain ⟨hactive, hpast⟩ := allExplored_cons.mp hexplored
    exact .external (ih hpast) ht hresolved hkind hsource
      (covered_of_explored hwf henters hactive) henters

theorem safety_passed {prop : FormalProperty} {bad : PropertyAstNode} (h : (mc.verifyProperty
      { prop with ast := some (.unary .globally (.unary .not bad)) }).passed = true) :
    ∀ s ∈ mc.reachableStates, mc.evalPredicate s bad = false := by
  intro s hs
  have hinvariant : (mc.checkInvariant { prop with ast := some (.unary .globally (.unary .not bad)) }
      (.unary .not bad)).passed = true := h
  have hvalue : (!mc.evalPredicate s bad) = true := checkInvariant_passed.mp hinvariant s hs
  rwa [Bool.not_eq_true'] at hvalue

/-- **Hierarchical runs.** In a well-formed model all states that a run makes active are explored
exactly when every state that the run enters is covered; in such a run a passing `G !bad` excludes
`bad`. -/
theorem hierarchicalRuns_iff (mc : ModelChecker) (hwf : mc.ir.WellFormed) (run : List String) :
    (mc.Runs mc.Covered run ↔ mc.AllRuns run ∧ mc.AllExplored run) ∧
      (mc.Runs mc.Covered run → ∀ (prop : FormalProperty) (bad : PropertyAstNode),
        (mc.verifyProperty
          { prop with ast := some (.unary .globally (.unary .not bad)) }).passed = true →
        ∀ leaf ∈ run, ∀ a, mc.ir.Active leaf a → mc.evalPredicate a bad = false) := by
  refine ⟨⟨fun h => ⟨h.allRuns, h.allExplored hwf⟩, fun h => ?_⟩, ?_⟩
  · exact covered_of_allExplored hwf h.1 h.2
  · intro hrun prop bad hpassed leaf hleaf a hactive
    exact safety_passed hpassed a (hrun.allExplored hwf leaf hleaf a hactive)

/-- The composite state `Group` has a transition to `Bad`, and its child `Inner` is entered directly. -/
def inherited : ModelChecker where
  order := .insertion
  ir :=
    { initialState := "Start"
      states := [{ name := "Start" }, { name := "Bad" },
        { name := "Group", isComposite := true, initialSubState := "Inner" },
        { name := "Inner", parentState := "Group" }]
      transitions := [{ source := "Start", target := "Inner" }, { source := "Group", target := "Bad" }] }
  stateIntervals := []

theorem inherited_parent {c p : String} (h : inherited.ir.Parent c p) : c = "Inner" ∧ p = "Group" := by
  obtain ⟨hp, s, hs, hparent⟩ := h
  obtain ⟨hmem, hname⟩ := FsmIr.findState_spec hs
  simp only [inherited, List.mem_cons, List.not_mem_nil, or_false] at hmem
  rcases hmem with rfl | rfl | rfl | rfl
  · exact absurd hparent.symm hp
  · exact absurd hparent.symm hp
  · exact absurd hparent.symm hp
  · exact ⟨hname.symm, hparent.symm⟩

theorem inherited_initial {b c : String} (h : inherited.ir.Initial b c) : b = "Group" ∧ c = "Inner" := by
  obtain ⟨_, s, hs, hcomposite, hinitial⟩ := h
  obtain ⟨hmem, hname⟩ := FsmIr.findState_spec hs
  simp only [inherited, List.mem_cons, List.not_mem_nil, or_false] at hmem
  rcases hmem with rfl | rfl | rfl | rfl
  · exact absurd hcomposite Bool.false_ne_true
  · exact absurd hcomposite Bool.false_ne_true
  · exact ⟨hname.symm, hinitial.symm⟩
  · exact absurd hcomposite Bool.false_ne_true

theorem inherited_group : inherited.ir.Parent "Inner" "Group" := ⟨by decide, _, rfl, rfl⟩

theorem inherited_wellFormed : inherited.ir.WellFormed where
  initialState := by decide
  source := by decide
  target := by decide
  parent c p h := by
    rw [(inherited_parent h).2]
    rfl
  acyclic s h := by
    obtain ⟨t, hst, hts⟩ := TransGen.head'_iff.mp h
    obtain ⟨rfl, rfl⟩ := inherited_parent hst
    cases ReflTransGen.cases_head hts with
    | inl heq => exact absurd heq (by decide)
    | inr hstep =>
      obtain ⟨p, hparent, _⟩ := hstep
      exact absurd (inherited_parent hparent).1 (by decide)
  initialChild b c h := by
    obtain ⟨rfl, rfl⟩ := inherited_initial h
    exact inherited_group

theorem inherited_enters {b : String} (hb : b ≠ "Group") : inherited.ir.Enters b b :=
  ⟨ReflTransGen.refl, fun _ h => hb (inherited_initial h).1⟩

/-- The model is well-formed and `G !Bad` passes, and a run goes through `Inner` to `Bad`: the states
`Group` and `Bad` become active in it, and neither is explored. -/
theorem safety_passes_inherited : inherited.ir.WellFormed ∧
      (inherited.verifyProperty
        { ast := some (.unary .globally (.unary .not (.ofAtom "Bad"))) }).passed = true ∧
      inherited.AllRuns ["Bad", "Inner", "Start"] ∧
      inherited.ir.Active "Inner" "Group" ∧ "Group" ∉ inherited.reachableStates ∧
      inherited.ir.Active "Bad" "Bad" ∧ "Bad" ∉ inherited.reachableStates ∧
      inherited.evalPredicate "Bad" (.ofAtom "Bad") = true := by
  have hgroup : inherited.ir.Active "Inner" "Group" := ReflTransGen.single inherited_group
  have hstart : inherited.AllRuns ["Start"] :=
    .start (by decide) trivial (inherited_enters (by decide))
  have hinner : inherited.AllRuns ["Inner", "Start"] :=
    .external (t := { source := "Start", target := "Inner" }) hstart List.mem_cons_self (by decide)
      (by decide) ReflTransGen.refl trivial (inherited_enters (by decide))
  have hbad : inherited.AllRuns ["Bad", "Inner", "Start"] :=
    .external (t := { source := "Group", target := "Bad" }) hinner
      (List.mem_cons_of_mem _ List.mem_cons_self) (by decide) (by decide) hgroup trivial
      (inherited_enters (by decide))
  exact ⟨inherited_wellFormed, by decide, hbad, hgroup, by decide, ReflTransGen.refl, by decide,
    by decide⟩

/-- The run that stays in the initial state enters covered states only. -/
theorem hierarchicalRuns_iff_inherited : inherited.AllRuns ["Start"] ∧ inherited.AllExplored ["Start"] ∧
      inherited.evalPredicate "Start" (.ofAtom "Bad") = false := by
  have hcovered : inherited.Covered [] inherited.rootState := by
    intro a h
    obtain ⟨p, hparent, _⟩ := TransGen.head'_iff.mp h
    exact absurd (inherited_parent hparent).1 (by decide)
  have hrun : inherited.Runs inherited.Covered ["Start"] :=
    .start (by decide) hcovered (inherited_enters (by decide))
  obtain ⟨hiff, hexcludes⟩ := hierarchicalRuns_iff inherited inherited_wellFormed ["Start"]
  obtain ⟨hall, hexplored⟩ := hiff.mp hrun
  exact ⟨hall, hexplored,
    hexcludes hrun {} (.ofAtom "Bad") (by decide) "Start" List.mem_cons_self "Start" ReflTransGen.refl⟩

end ModelChecker

end Fsmc
