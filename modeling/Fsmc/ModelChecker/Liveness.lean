/-
# Fsmc.ModelChecker.Liveness — response, eventuality, recurrence and persistence against maximal paths.

A run of the transition graph is a maximal path from the root: infinite, or ending in a state without
outgoing edges. The four checks decide a condition on the graph, and the file relates each to what the
property says about every run.

* `checkResponse` asks only for *some* walk from a trigger to a response (`checkResponse_passed`), so a
  pass can miss a branch or a cycle that avoids the response (`responseSound_iff`).
* `checkReachability` asks for the target in *some* explored state, so `F P` passes where `AF P` fails
  (`eventualitySound_iff`).
* `checkInfinitelyOften` asks for a target in every component with a cycle, but a component can have a
  smaller cycle without one (`recurrenceSound_iff`).
* `checkEventuallyAlways` asks for the target in every state of such a component, and that is exact on
  models without composite states (`checkEventuallyAlways_iff`).

The last two look at the components of the graph, which `find_sccs` computes exactly (`findSccs_exact`).
-/
import Fsmc.ModelChecker.Agreement

namespace Fsmc

open Relation Fsmc.Lib Fsmc.Cpp Fsmc.Ir

namespace ModelChecker

variable {mc : ModelChecker}

/-- A run of the transition graph. -/
abbrev Run (mc : ModelChecker) := MaximalPath mc.Step mc.rootState

/-- The predicate `p` holds in a state, as the code evaluates it. -/
def Holds (mc : ModelChecker) (p : PropertyAstNode) (s : String) : Prop :=
  mc.evalPredicate s p = true

instance (p : PropertyAstNode) (s : String) : Decidable (mc.Holds p s) :=
  inferInstanceAs (Decidable (_ = true))

theorem finite_reachable (mc : ModelChecker) : {s | s ∈ mc.reachableStates}.Finite :=
  mc.reachableStates.finite_toSet

/-! ## Response -/

variable {s : String} {target : PropertyAstNode} {prop : FormalProperty}

theorem responds_iff : mc.responds target s = true ↔ ∃ t, ReflTransGen mc.Step s t ∧ mc.Holds target t :=
  searchFrom_found mc.edgesFrom_target_mem

theorem checkResponse_passed {trigger target : PropertyAstNode} :
    (mc.checkResponse prop trigger target).passed = true ↔
      ∀ s ∈ mc.reachableStates, mc.Holds trigger s →
        ∃ t, ReflTransGen mc.Step s t ∧ mc.Holds target t := by
  unfold checkResponse
  split
  · next s hs =>
      have hmem := List.mem_of_find?_eq_some hs
      have hbad := List.find?_some hs
      rw [reachableIter, HashOrder.mem_iter] at hmem
      rw [Bool.and_eq_true, Bool.not_eq_true'] at hbad
      refine ⟨fun h => absurd h (by simp), fun h => ?_⟩
      rw [responds_iff.mpr (h s hmem hbad.1)] at hbad
      exact absurd hbad.2 (by simp)
  · next hnone =>
      refine ⟨fun _ s hs htrigger => ?_, fun _ => rfl⟩
      have hgood := List.find?_eq_none.mp hnone s (mc.order.mem_iter.mpr hs)
      rw [Bool.and_eq_true, not_and] at hgood
      exact responds_iff.mp (by simpa using hgood htrigger)

/-- On every run, a state in which the trigger holds is followed, then or later, by one in which the
target holds. -/
def ResponseSound (mc : ModelChecker) (trigger target : PropertyAstNode) : Prop :=
  mc.rootState ≠ "" → ∀ (run : mc.Run) (i : Nat) (s : String), run.visit i = some s →
    mc.Holds trigger s → ∃ j t, i ≤ j ∧ run.visit j = some t ∧ mc.Holds target t

/-- The part of a run from one of its positions on. -/
def Run.from (run : mc.Run) {i : Nat} {s : String} (hs : run.visit i = some s) :
    MaximalPath mc.Step s where
  visit k := run.visit (i + k)
  start := hs
  step k := run.step (i + k)
  stop k := run.stop (i + k)
  ended k := run.ended (i + k)

theorem responseSound_iff_not_canAvoid {trigger target : PropertyAstNode}
    (hroot : mc.rootState ≠ "") : mc.ResponseSound trigger target ↔
      ∀ s, ReflTransGen mc.Step mc.rootState s → mc.Holds trigger s →
        ¬ CanAvoid mc.Step (mc.Holds target) s := by
  constructor
  · intro hsound s hwalk htrigger havoid
    have hs : s ∈ mc.reachableStates := reachable_of_walk hroot hwalk
    -- a path that avoids the target, behind a walk from the root to the trigger
    obtain ⟨p, hp⟩ := (exists_avoiding_path_iff mc.finite_reachable reachableStates_closed hs).mpr havoid
    obtain ⟨run, n, hrun, _⟩ := p.exists_prepend (fun _ _ h => h) hwalk
    have hn : run.visit n = some s := (hrun 0).trans p.start
    obtain ⟨j, t, hj, ht, htarget⟩ := hsound hroot run n s hn htrigger
    obtain ⟨k, rfl⟩ := Nat.exists_eq_add_of_le hj
    rw [hrun k] at ht
    exact hp k t ht htarget
  · intro hno _ run i s hs htrigger
    by_contra hnever
    have hwalk : ReflTransGen mc.Step mc.rootState s := run.walk hs
    apply hno s hwalk htrigger
    apply (exists_avoiding_path_iff mc.finite_reachable reachableStates_closed
      (reachable_of_walk hroot hwalk)).mp
    refine ⟨run.from hs, fun k t ht htarget => hnever ?_⟩
    exact ⟨i + k, t, Nat.le_add_right i k, ht, htarget⟩

/-- A response property as the dispatcher recognises it. -/
def response (trigger target : PropertyAstNode) : PropertyAstNode :=
  .unary .globally (.binary .implies trigger (.unary .finally target))

/-- **Response verdicts.** A pass of `G(P -> F Q)` implies the property on every run exactly when some
explored `P`-state reaches no `Q`-state, so that the check fails, or no `P`-state that transitions lead to
can avoid `Q` on the way to an end of the graph or to a cycle. -/
theorem responseSound_iff (mc : ModelChecker) (prop : FormalProperty) (trigger target : PropertyAstNode) :
    ((mc.verifyProperty { prop with ast := some (response trigger target) }).passed = true →
        mc.ResponseSound trigger target) ↔
      ((∃ s ∈ mc.reachableStates, mc.Holds trigger s ∧
          ∀ t, ReflTransGen mc.Step s t → ¬ mc.Holds target t) ∨
        (mc.rootState ≠ "" → ∀ s, ReflTransGen mc.Step mc.rootState s → mc.Holds trigger s →
          ¬ CanAvoid mc.Step (mc.Holds target) s)) := by
  have hdispatch : (mc.verifyProperty { prop with ast := some (response trigger target) }).passed =
      (mc.checkResponse { prop with ast := some (response trigger target) } trigger target).passed :=
    rfl
  have hsound : mc.ResponseSound trigger target ↔
      (mc.rootState ≠ "" → ∀ s, ReflTransGen mc.Step mc.rootState s → mc.Holds trigger s →
        ¬ CanAvoid mc.Step (mc.Holds target) s) := by
    constructor
    · exact fun h hroot => (responseSound_iff_not_canAvoid hroot).mp h
    · exact fun h hroot => (responseSound_iff_not_canAvoid hroot).mpr (h hroot) hroot
  rw [hdispatch, checkResponse_passed, hsound, imp_iff_not_or]
  apply or_congr_left
  push Not
  exact Iff.rfl

/-- A request state with a branch to the response and a branch into a cycle that avoids it. -/
def branching : ModelChecker where
  order := .insertion
  ir :=
    { initialState := "Request"
      states := [{ name := "Request" }, { name := "Response" }, { name := "Spin" }]
      transitions := [{ source := "Request", target := "Response" },
        { source := "Request", target := "Spin" }, { source := "Spin", target := "Spin" }] }
  stateIntervals := []

theorem branching_canAvoid : CanAvoid branching.Step (branching.Holds (.ofAtom "Response")) "Request" := by
  have hspin : branching.Step "Spin" "Spin" := by decide
  have hnot : ¬ branching.Holds (.ofAtom "Response") "Spin" := by decide
  have hnot' : ¬ branching.Holds (.ofAtom "Response") "Request" := by decide
  refine ⟨hnot', "Spin", ReflTransGen.single ⟨by decide, hnot', hnot⟩, Or.inr ?_⟩
  exact TransGen.single ⟨hspin, hnot, hnot⟩

/-- `G(Request -> F Response)` passes on the branching model, and a run spins forever. -/
theorem response_passes_branching : (branching.verifyProperty
        { ast := some (response (.ofAtom "Request") (.ofAtom "Response")) }).passed = true ∧
      ¬ branching.ResponseSound (.ofAtom "Request") (.ofAtom "Response") := by
  refine ⟨by decide, fun hsound => ?_⟩
  have hno := (responseSound_iff_not_canAvoid (by decide)).mp hsound
  exact hno "Request" ReflTransGen.refl (by decide) branching_canAvoid

/-! ## Eventuality -/

theorem checkReachability_passed : (mc.checkReachability prop target).passed = true ↔
      ∃ s ∈ mc.reachableStates, mc.Holds target s := by
  have hany : (mc.reachableIter.any fun s => mc.evalPredicate s target) = true ↔
      ∃ s ∈ mc.reachableStates, mc.Holds target s := by
    rw [List.any_eq_true]
    exact exists_congr fun s => and_congr_left' mc.order.mem_iter
  unfold checkReachability
  by_cases hfound : (mc.reachableIter.any fun s => mc.evalPredicate s target) = true
  · rw [if_pos hfound]
    exact iff_of_true rfl (hany.mp hfound)
  · rw [if_neg hfound]
    exact iff_of_false (by simp) (fun h => hfound (hany.mpr h))

/-- Every run visits a state in which the target holds. -/
def EventualitySound (mc : ModelChecker) (target : PropertyAstNode) : Prop :=
  mc.rootState ≠ "" → ∀ run : mc.Run, ∃ i s, run.visit i = some s ∧ mc.Holds target s

theorem eventualitySound_iff_not_canAvoid (hroot : mc.rootState ≠ "") :
    mc.EventualitySound target ↔ ¬ CanAvoid mc.Step (mc.Holds target) mc.rootState := by
  rw [← exists_avoiding_path_iff mc.finite_reachable reachableStates_closed
    (rootState_reachable hroot)]
  push Not
  exact ⟨fun h => h hroot, fun h _ => h⟩

/-- The labelling of `AF` in an explored state: the target cannot be avoided, on the way to an end of the
graph or to a cycle, and so it can be reached. -/
theorem mem_computeSat_af_iff (htarget : Propositional target)
    (hs : s ∈ mc.reachableStates) : s ∈ mc.computeSat (.unary .af target) ↔
      ¬ CanAvoid mc.Step (mc.Holds target) s := by
  have hin : s ∈ mc.allStates := reachableStates_sub hs
  have hclosed : Closed mc.Step {s | s ∈ mc.allStates} := fun _ _ _ hab => (mc.step_allStates hab).2
  have hfinite : {s | s ∈ mc.allStates}.Finite := mc.allStates.finite_toSet
  refine Iff.trans (mem_isUntil_preA_iff satAF_isUntil hfinite hclosed hin) (not_congr ?_)
  -- the labelling of the target agrees with its evaluation on the states of the graph
  rw [← exists_avoiding_path_iff hfinite hclosed hin, ← exists_avoiding_path_iff hfinite hclosed hin]
  apply exists_congr
  intro p
  refine forall_congr' fun i => forall_congr' fun t => imp_congr_right fun ht => not_congr ?_
  exact mem_computeSat_iff htarget (hclosed.walk hin (p.walk ht))

theorem exists_holds_of_mem_af (htarget : Propositional target)
    (hs : s ∈ mc.reachableStates) (hmem : s ∈ mc.computeSat (.unary .af target)) :
    ∃ t ∈ mc.reachableStates, mc.Holds target t := by
  obtain ⟨t, ht, hwalk⟩ := exists_walk_of_isUntil_preA satAF_isUntil hmem
  have hreach : t ∈ mc.reachableStates := reachableStates_closed.walk hs hwalk
  exact ⟨t, hreach, (mem_computeSat_iff htarget (reachableStates_sub hreach)).mp ht⟩

/-- **Eventually verdicts.** On a model with an initial state a pass of `F P` is universal, and `F P`
agrees with `AF P`, exactly when no explored state satisfies `P`, so that the check fails, or `P` cannot
be avoided from the initial state on the way to an end of the graph or to a cycle. On a model without one
`AF P` passes and `F P` fails, which is an agreement only if it has states without successors. -/
theorem eventualitySound_iff (mc : ModelChecker) (prop : FormalProperty) (target : PropertyAstNode)
    (htarget : Propositional target) :
    (((mc.verifyProperty { prop with ast := some (.unary .finally target) }).passed = true →
          mc.EventualitySound target) ∧
        (mc.Total →
          (mc.verifyProperty { prop with ast := some (.unary .finally target) }).passed =
            (mc.checkCtl prop (.unary .af target)).passed)) ↔
      ((mc.rootState = "" ∧ ¬ mc.Total) ∨
        (mc.rootState ≠ "" ∧ ((∀ s ∈ mc.reachableStates, ¬ mc.Holds target s) ∨
          ¬ CanAvoid mc.Step (mc.Holds target) mc.rootState))) := by
  have hdispatch : (mc.verifyProperty { prop with ast := some (.unary .finally target) }).passed =
      (mc.checkReachability { prop with ast := some (.unary .finally target) } target).passed := by
    cases htarget <;> rfl
  have hagree := Bool.eq_iff_iff
    (a := (mc.checkReachability { prop with ast := some (.unary .finally target) } target).passed)
    (b := (mc.checkCtl prop (.unary .af target)).passed)
  rw [hdispatch, hagree, checkReachability_passed, checkCtl_passed]
  by_cases hroot : mc.rootState = ""
  · constructor
    · intro ⟨_, hboth⟩
      refine Or.inl ⟨hroot, fun htotal => ?_⟩
      obtain ⟨s, hs, _⟩ := (hboth htotal).mpr (Or.inl hroot)
      exact (mem_reachableStates.mp hs).1 hroot
    · intro hcond
      obtain ⟨_, hnot⟩ := hcond.resolve_right fun h => h.1 hroot
      exact ⟨fun ⟨_, hs, _⟩ => absurd hroot (mem_reachableStates.mp hs).1,
        fun htotal => absurd htotal hnot⟩
  · have hreach : mc.rootState ∈ mc.reachableStates := rootState_reachable hroot
    have haf := mem_computeSat_af_iff htarget hreach
    rw [eventualitySound_iff_not_canAvoid hroot, or_iff_right hroot, haf]
    constructor
    · intro ⟨hsound, _⟩
      refine Or.inr ⟨hroot, ?_⟩
      by_cases hsome : ∃ s ∈ mc.reachableStates, mc.Holds target s
      · exact Or.inr (hsound hsome)
      · exact Or.inl fun s hs hp => hsome ⟨s, hs, hp⟩
    · intro hcond
      obtain ⟨_, hcond⟩ := hcond.resolve_left fun h => hroot h.1
      have hsound : (∃ s ∈ mc.reachableStates, mc.Holds target s) →
          ¬ CanAvoid mc.Step (mc.Holds target) mc.rootState :=
        fun ⟨s, hs, hp⟩ => hcond.resolve_left fun hall => hall s hs hp
      exact ⟨hsound, fun _ => ⟨hsound, fun hno => exists_holds_of_mem_af htarget hreach (haf.mpr hno)⟩⟩

/-- `F Response` passes on the branching model, where a run spins forever. -/
theorem finally_passes_branching :
    (branching.verifyProperty { ast := some (.unary .finally (.ofAtom "Response")) }).passed = true ∧
      ¬ branching.EventualitySound (.ofAtom "Response") := by
  refine ⟨by decide, fun hsound => ?_⟩
  exact (eventualitySound_iff_not_canAvoid (by decide)).mp hsound branching_canAvoid

/-- On the branching model the verdict on `F Response` is not universal: `Response` is explored and can be
avoided. -/
theorem eventualitySound_iff_branching :
    (((branching.verifyProperty { ast := some (.unary .finally (.ofAtom "Response")) }).passed = true →
          branching.EventualitySound (.ofAtom "Response")) ∧
        (branching.Total →
          (branching.verifyProperty { ast := some (.unary .finally (.ofAtom "Response")) }).passed =
            (branching.checkCtl {} (.unary .af (.ofAtom "Response"))).passed)) ↔
      ((branching.rootState = "" ∧ ¬ branching.Total) ∨
        (branching.rootState ≠ "" ∧
          ((∀ s ∈ branching.reachableStates, ¬ branching.Holds (.ofAtom "Response") s) ∨
            ¬ CanAvoid branching.Step (branching.Holds (.ofAtom "Response")) branching.rootState))) :=
  eventualitySound_iff branching {} (.ofAtom "Response") .atom

/-! ## Components -/

theorem reach_sccSucc_iff {a b : String} (ha : a ∈ mc.reachableStates) :
    Reach mc.sccSucc a b ↔ ReflTransGen mc.Step a b := by
  have hstep : ∀ {x y}, SuccStep mc.sccSucc x y ↔ mc.Step x y ∧ y ∈ mc.reachableStates := by
    intro x y
    unfold SuccStep sccSucc
    rw [List.mem_filter, List.mem_map, decide_eq_true_eq]
    exact Iff.rfl
  constructor
  · exact fun h => ReflTransGen.mono (fun _ _ hxy => (hstep.mp hxy).1) _ _ h
  · intro h
    induction h with
    | refl => exact ReflTransGen.refl
    | @tail b c hab hbc ih =>
      have hb : b ∈ mc.reachableStates := reachableStates_closed.walk ha hab
      exact ih.tail (hstep.mpr ⟨hbc, reachableStates_closed b c hb hbc⟩)

theorem exists_findSccs_eq (mc : ModelChecker) : ∃ classes : List (List String),
    mc.findSccs = (classes.map fun states => ⟨states, mc.isCyclic states⟩) ∧
      (∀ c ∈ classes, c ≠ [] ∧
        ∀ x ∈ c, ∀ y, y ∈ c ↔ Reach mc.sccSucc x y ∧ Reach mc.sccSucc y x) ∧
      (∀ s, s ∈ classes.flatten ↔ s ∈ mc.reachableStates) ∧ classes.flatten.Nodup := by
  obtain ⟨st, hst, hclass, hroots, hinside, hnodup⟩ := components_spec mc.sccSucc_closed
    (fun s hs => mc.order.mem_iter.mp hs) (Nat.lt_succ_self mc.reachableStates.length)
  refine ⟨st.sccs, ?_, hclass, fun s => ⟨hinside s, fun hs => ?_⟩, hnodup⟩
  · unfold findSccs
    congr 2
    exact Option.get_of_eq_some _ hst
  · exact hroots s (mc.order.mem_iter.mpr hs)

/-- **`find_sccs`.** A component is a non-empty set of explored states, and its states are those that
lead to each other. Every explored state is in some component. -/
theorem findSccs_spec (mc : ModelChecker) : (∀ scc ∈ mc.findSccs, scc.states ≠ [] ∧ scc.states.Nodup ∧
        scc.isCyclic = mc.isCyclic scc.states ∧
        ∀ s ∈ scc.states, s ∈ mc.reachableStates ∧
          ∀ t, t ∈ scc.states ↔ ReflTransGen mc.Step s t ∧ ReflTransGen mc.Step t s) ∧
      ∀ s ∈ mc.reachableStates, ∃ scc ∈ mc.findSccs, s ∈ scc.states := by
  obtain ⟨classes, hget, hclass, hflat, hnodup⟩ := mc.exists_findSccs_eq
  rw [hget]
  constructor
  · intro scc hscc
    obtain ⟨states, hstates, rfl⟩ := List.mem_map.mp hscc
    have hmem : ∀ s ∈ states, s ∈ mc.reachableStates :=
      fun s hs => (hflat s).mp (List.mem_flatten.mpr ⟨states, hstates, hs⟩)
    refine ⟨(hclass states hstates).1, (List.nodup_flatten.mp hnodup).1 states hstates, rfl,
      fun s hs => ⟨hmem s hs, fun t => ?_⟩⟩
    rw [(hclass states hstates).2 s hs t, reach_sccSucc_iff (hmem s hs)]
    apply and_congr_right
    intro hwalk
    exact reach_sccSucc_iff (reachableStates_closed.walk (hmem s hs) hwalk)
  · intro s hs
    obtain ⟨states, hstates, hmem⟩ := List.mem_flatten.mp ((hflat s).mpr hs)
    exact ⟨_, List.mem_map_of_mem hstates, hmem⟩

theorem findSccs_nodup (mc : ModelChecker) : (mc.findSccs.map (·.states)).flatten.Nodup := by
  obtain ⟨classes, hget, _, _, hnodup⟩ := mc.exists_findSccs_eq
  rw [hget, List.map_map]
  have hid : ((fun scc : SccComponent => scc.states) ∘
      fun states => ⟨states, mc.isCyclic states⟩) = id := rfl
  rw [hid, List.map_id]
  exact hnodup

theorem isCyclic_iff {scc : SccComponent} (hscc : scc ∈ mc.findSccs)
    (hs : s ∈ scc.states) : scc.isCyclic = true ↔ TransGen mc.Step s s := by
  obtain ⟨_, hnodup, hflag, hclass⟩ := mc.findSccs_spec.1 scc hscc
  obtain ⟨_, hmem⟩ := hclass s hs
  rw [hflag]
  unfold isCyclic
  by_cases hlen : 1 < scc.states.length
  · rw [if_pos hlen]
    -- another state of the component: the walk there and back is a cycle
    obtain ⟨t, ht, hne⟩ : ∃ t ∈ scc.states, t ≠ s := by
      by_contra hno
      push Not at hno
      have hsub : scc.states ⊆ [s] := fun t ht => List.mem_singleton.mpr (hno t ht)
      have hle : scc.states.length ≤ 1 := List.Nodup.length_le_of_subset hnodup hsub
      omega
    obtain ⟨hst, hts⟩ := (hmem t).mp ht
    refine iff_of_true rfl ?_
    cases ReflTransGen.cases_head hst with
    | inl heq => exact absurd heq.symm hne
    | inr hstep =>
      obtain ⟨u, hsu, hut⟩ := hstep
      exact TransGen.head' hsu (hut.trans hts)
  · rw [if_neg hlen]
    have hsingle : scc.states = [s] := by
      cases hst : scc.states with
      | nil =>
        rw [hst] at hs
        exact absurd hs List.not_mem_nil
      | cons x rest =>
        rw [hst] at hs hlen
        rw [List.length_cons] at hlen
        have hrest : rest = [] := List.length_eq_zero_iff.mp (by omega)
        rw [hrest] at hs ⊢
        rw [List.mem_singleton.mp hs]
    rw [hsingle]
    show ((mc.edgesFrom s).any fun e => decide (e.target = s)) = true ↔ _
    rw [List.any_eq_true]
    constructor
    · intro ⟨e, he, htarget⟩
      exact TransGen.single ⟨e, he, by simpa using htarget⟩
    · intro hcycle
      obtain ⟨t, hst, hts⟩ := TransGen.head'_iff.mp hcycle
      have ht : t ∈ scc.states := (hmem t).mpr ⟨ReflTransGen.single hst, hts⟩
      rw [hsingle, List.mem_singleton] at ht
      obtain ⟨e, he, htarget⟩ := hst
      exact ⟨e, he, by simpa using htarget.trans ht⟩

/-- A step along an edge of the graph between explored states. -/
def ExploredStep (mc : ModelChecker) (a b : String) : Prop :=
  mc.Step a b ∧ a ∈ mc.reachableStates ∧ b ∈ mc.reachableStates

theorem exploredStep_walk_iff {a b : String} (ha : a ∈ mc.reachableStates) :
    ReflTransGen mc.ExploredStep a b ↔ ReflTransGen mc.Step a b := by
  constructor
  · exact fun h => ReflTransGen.mono (fun _ _ hxy => hxy.1) _ _ h
  · intro h
    induction h with
    | refl => exact ReflTransGen.refl
    | @tail b c hab hbc ih =>
      have hb : b ∈ mc.reachableStates := reachableStates_closed.walk ha hab
      exact ih.tail ⟨hbc, hb, reachableStates_closed b c hb hbc⟩

theorem exploredStep_cycle_iff (hs : s ∈ mc.reachableStates) :
    TransGen mc.ExploredStep s s ↔ TransGen mc.Step s s := by
  constructor
  · exact fun h => TransGen.mono (fun _ _ hxy => hxy.1) _ _ h
  · intro h
    obtain ⟨t, hst, hts⟩ := TransGen.head'_iff.mp h
    have ht : t ∈ mc.reachableStates := reachableStates_closed s t hs hst
    exact TransGen.head' ⟨hst, hs, ht⟩ ((exploredStep_walk_iff ht).mpr hts)

/-- **The components are exact.** They partition the explored states: none is empty, and their lists
together hold every explored state once. Two explored states share a component exactly when each is
reached from the other inside the explored states, and a component is marked cyclic exactly when one of
its states is on a cycle there. -/
theorem findSccs_exact (mc : ModelChecker) :
    ((∀ scc ∈ mc.findSccs, scc.states ≠ []) ∧ (mc.findSccs.map (·.states)).flatten.Nodup ∧
        ∀ s, s ∈ (mc.findSccs.map (·.states)).flatten ↔ s ∈ mc.reachableStates) ∧
      (∀ s ∈ mc.reachableStates, ∀ t ∈ mc.reachableStates,
        (∃ scc ∈ mc.findSccs, s ∈ scc.states ∧ t ∈ scc.states) ↔
          ReflTransGen mc.ExploredStep s t ∧ ReflTransGen mc.ExploredStep t s) ∧
      ∀ scc ∈ mc.findSccs, scc.isCyclic = true ↔ ∃ s ∈ scc.states, TransGen mc.ExploredStep s s := by
  obtain ⟨hspec, hcover⟩ := mc.findSccs_spec
  refine ⟨⟨fun scc hscc => (hspec scc hscc).1, mc.findSccs_nodup, fun s => ?_⟩, ?_, ?_⟩
  · constructor
    · intro hs
      obtain ⟨states, hstates, hmem⟩ := List.mem_flatten.mp hs
      obtain ⟨scc, hscc, rfl⟩ := List.mem_map.mp hstates
      exact ((hspec scc hscc).2.2.2 s hmem).1
    · intro hs
      obtain ⟨scc, hscc, hmem⟩ := hcover s hs
      exact List.mem_flatten.mpr ⟨scc.states, List.mem_map_of_mem hscc, hmem⟩
  · intro s hs t ht
    rw [exploredStep_walk_iff hs, exploredStep_walk_iff ht]
    constructor
    · intro ⟨scc, hscc, hmem, hmem'⟩
      exact (((hspec scc hscc).2.2.2 s hmem).2 t).mp hmem'
    · intro hmutual
      obtain ⟨scc, hscc, hmem⟩ := hcover s hs
      exact ⟨scc, hscc, hmem, (((hspec scc hscc).2.2.2 s hmem).2 t).mpr hmutual⟩
  · intro scc hscc
    have hinside : ∀ s ∈ scc.states, s ∈ mc.reachableStates :=
      fun s hs => ((hspec scc hscc).2.2.2 s hs).1
    constructor
    · intro hcyclic
      obtain ⟨s, hs⟩ := List.exists_mem_of_ne_nil _ (hspec scc hscc).1
      exact ⟨s, hs, (exploredStep_cycle_iff (hinside s hs)).mpr ((isCyclic_iff hscc hs).mp hcyclic)⟩
    · intro ⟨s, hs, hcycle⟩
      exact (isCyclic_iff hscc hs).mpr ((exploredStep_cycle_iff (hinside s hs)).mp hcycle)

/-! ## Recurrence -/

theorem terminalViolation_eq_none : mc.terminalViolation target = none ↔
    ∀ s ∈ mc.reachableStates, Terminal mc.Step s → mc.Holds target s := by
  unfold terminalViolation
  rw [List.find?_eq_none]
  constructor
  · intro h s hs hterm
    have hgood := h s (mc.order.mem_iter.mpr hs)
    rw [terminal_iff.mp hterm] at hgood
    simpa [Holds] using hgood
  · intro h s hs hbad
    rw [Bool.and_eq_true, List.isEmpty_iff, Bool.not_eq_true'] at hbad
    have hholds : mc.evalPredicate s target = true :=
      h s (mc.order.mem_iter.mp hs) (terminal_iff.mpr hbad.1)
    rw [hholds] at hbad
    exact absurd hbad.2 (by simp)

/-- The check looks for a target somewhere in the component of every cycle, and at every end. -/
theorem checkInfinitelyOften_passed : (mc.checkInfinitelyOften prop target).passed = true ↔
      (∀ s ∈ mc.reachableStates, TransGen mc.Step s s →
        ∃ t, ReflTransGen mc.Step s t ∧ ReflTransGen mc.Step t s ∧ mc.Holds target t) ∧
      ∀ s ∈ mc.reachableStates, Terminal mc.Step s → mc.Holds target s := by
  have hcomponents : (mc.findSccs.find? fun scc =>
        scc.isCyclic && !scc.states.any fun s => mc.evalPredicate s target) = none ↔
      ∀ s ∈ mc.reachableStates, TransGen mc.Step s s →
        ∃ t, ReflTransGen mc.Step s t ∧ ReflTransGen mc.Step t s ∧ mc.Holds target t := by
    rw [List.find?_eq_none]
    constructor
    · intro h s hs hcycle
      obtain ⟨scc, hscc, hmem⟩ := mc.findSccs_spec.2 s hs
      have hgood := h scc hscc
      rw [(isCyclic_iff hscc hmem).mpr hcycle] at hgood
      obtain ⟨t, ht, htarget⟩ := List.any_eq_true.mp (by simpa using hgood)
      obtain ⟨_, _, _, hclass⟩ := mc.findSccs_spec.1 scc hscc
      obtain ⟨hst, hts⟩ := ((hclass s hmem).2 t).mp ht
      exact ⟨t, hst, hts, htarget⟩
    · intro h scc hscc hbad
      rw [Bool.and_eq_true, Bool.not_eq_true'] at hbad
      obtain ⟨hne, _, _, hclass⟩ := mc.findSccs_spec.1 scc hscc
      obtain ⟨s, hs⟩ := List.exists_mem_of_ne_nil _ hne
      obtain ⟨t, hst, hts, htarget⟩ := h s (hclass s hs).1 ((isCyclic_iff hscc hs).mp hbad.1)
      have hany := List.any_eq_false.mp hbad.2 t (((hclass s hs).2 t).mpr ⟨hst, hts⟩)
      exact hany htarget
  rw [← hcomponents, ← terminalViolation_eq_none]
  unfold checkInfinitelyOften
  cases mc.findSccs.find? fun scc =>
      scc.isCyclic && !scc.states.any fun s => mc.evalPredicate s target with
  | some scc => simp
  | none =>
    cases mc.terminalViolation target with
    | some s => simp
    | none => simp

/-- On every run the target comes back, and a run that ends, ends in it. -/
def RecurrenceSound (mc : ModelChecker) (target : PropertyAstNode) : Prop :=
  mc.rootState ≠ "" → ∀ run : mc.Run, run.Recurs (mc.Holds target)

theorem recurrenceSound_iff_graph (hroot : mc.rootState ≠ "") : mc.RecurrenceSound target ↔
      (∀ s, ReflTransGen mc.Step mc.rootState s → Terminal mc.Step s → mc.Holds target s) ∧
        ∀ s, ReflTransGen mc.Step mc.rootState s →
          ¬ TransGen (avoiding mc.Step (mc.Holds target)) s s := by
  rw [← forall_recurs_iff mc.finite_reachable reachableStates_closed (rootState_reachable hroot)]
  exact ⟨fun h => h hroot, fun h _ => h⟩

/-- **Infinitely-often verdicts.** A pass of `G F P` implies the property on every run exactly when the
check fails, because a component with a cycle or an end of the graph lacks `P`, or no cycle that
transitions lead to avoids `P`. -/
theorem recurrenceSound_iff (mc : ModelChecker) (prop : FormalProperty) (target : PropertyAstNode) :
    ((mc.checkInfinitelyOften prop target).passed = true → mc.RecurrenceSound target) ↔
      ((∃ s ∈ mc.reachableStates, TransGen mc.Step s s ∧
          ∀ t, ReflTransGen mc.Step s t → ReflTransGen mc.Step t s → ¬ mc.Holds target t) ∨
        (∃ s ∈ mc.reachableStates, Terminal mc.Step s ∧ ¬ mc.Holds target s) ∨
        (mc.rootState ≠ "" → ∀ s, ReflTransGen mc.Step mc.rootState s →
          ¬ TransGen (avoiding mc.Step (mc.Holds target)) s s)) := by
  constructor
  · intro himp
    by_contra hno
    push Not at hno
    obtain ⟨hcomponents, hterminals, hroot, s, hwalk, hcycle⟩ := hno
    have hpassed : (mc.checkInfinitelyOften prop target).passed = true :=
      checkInfinitelyOften_passed.mpr ⟨hcomponents, hterminals⟩
    exact ((recurrenceSound_iff_graph hroot).mp (himp hpassed)).2 s hwalk hcycle
  · intro hcond hpassed hroot
    obtain ⟨hcomponents, hterminals⟩ := checkInfinitelyOften_passed.mp hpassed
    -- a pass settles the ends of the graph, the condition has to settle the cycles
    apply (recurrenceSound_iff_graph hroot).mpr ?_ hroot
    refine ⟨fun s hwalk => hterminals s (reachable_of_walk hroot hwalk), ?_⟩
    cases hcond with
    | inl hbad =>
      obtain ⟨s, hs, hcycle, hnone⟩ := hbad
      obtain ⟨t, hst, hts, htarget⟩ := hcomponents s hs hcycle
      exact absurd htarget (hnone t hst hts)
    | inr hcond =>
      cases hcond with
      | inl hbad =>
        obtain ⟨s, hs, hterm, hnot⟩ := hbad
        exact absurd (hterminals s hs hterm) hnot
      | inr hcycles => exact hcycles hroot

/-- A component of two states in which the one without the target has an edge to itself. -/
def lingering : ModelChecker where
  order := .insertion
  ir :=
    { initialState := "Wait"
      states := [{ name := "Wait" }, { name := "Serve" }]
      transitions := [{ source := "Wait", target := "Serve" },
        { source := "Serve", target := "Wait" }, { source := "Wait", target := "Wait" }] }
  stateIntervals := []

/-- `G F Serve` passes on the lingering model, and a run waits forever. -/
theorem infinitelyOften_passes_lingering : (lingering.checkInfinitelyOften {} (.ofAtom "Serve")).passed = true ∧
      ¬ lingering.RecurrenceSound (.ofAtom "Serve") := by
  refine ⟨by decide, fun hsound => ?_⟩
  have hno := ((recurrenceSound_iff_graph (by decide)).mp hsound).2
  have hwait : ¬ lingering.Holds (.ofAtom "Serve") "Wait" := by decide
  exact hno "Wait" ReflTransGen.refl (TransGen.single ⟨by decide, hwait, hwait⟩)

/-! ## Persistence -/

theorem checkEventuallyAlways_passed : (mc.checkEventuallyAlways prop target).passed = true ↔
      (∀ s ∈ mc.reachableStates, TransGen mc.Step s s → mc.Holds target s) ∧
        ∀ s ∈ mc.reachableStates, Terminal mc.Step s → mc.Holds target s := by
  have hcomponents : (mc.findSccs.findSome? fun scc =>
        if scc.isCyclic then scc.states.find? fun s => !mc.evalPredicate s target else none) = none ↔
      ∀ s ∈ mc.reachableStates, TransGen mc.Step s s → mc.Holds target s := by
    rw [List.findSome?_eq_none_iff]
    constructor
    · intro h s hs hcycle
      obtain ⟨scc, hscc, hmem⟩ := mc.findSccs_spec.2 s hs
      have hgood := h scc hscc
      rw [if_pos ((isCyclic_iff hscc hmem).mpr hcycle), List.find?_eq_none] at hgood
      simpa [Holds] using hgood s hmem
    · intro h scc hscc
      by_cases hcyclic : scc.isCyclic = true
      · rw [if_pos hcyclic, List.find?_eq_none]
        intro s hs
        obtain ⟨_, _, _, hclass⟩ := mc.findSccs_spec.1 scc hscc
        have hholds := h s (hclass s hs).1 ((isCyclic_iff hscc hs).mp hcyclic)
        simpa [Holds] using hholds
      · exact if_neg hcyclic
  rw [← hcomponents, ← terminalViolation_eq_none]
  unfold checkEventuallyAlways
  cases mc.findSccs.findSome? fun scc =>
      if scc.isCyclic then scc.states.find? fun s => !mc.evalPredicate s target else none with
  | some s => simp
  | none =>
    cases mc.terminalViolation target with
    | some s => simp
    | none => simp

/-- **Stability verdicts.** On a model without composite states `F G P` passes exactly when every run
has a suffix all of whose states satisfy `P`. -/
theorem checkEventuallyAlways_iff (mc : ModelChecker)
    (hflat : ∀ s ∈ mc.ir.states, s.isComposite = false) (prop : FormalProperty)
    (target : PropertyAstNode) :
    (mc.checkEventuallyAlways prop target).passed = true ↔
      (mc.rootState ≠ "" → ∀ run : mc.Run, run.Settles (mc.Holds target)) := by
  rw [checkEventuallyAlways_passed]
  constructor
  · intro ⟨hcycles, hterminals⟩ hroot
    rw [forall_settles_iff mc.finite_reachable reachableStates_closed (rootState_reachable hroot)]
    exact ⟨fun s hwalk => hterminals s (reachable_of_walk hroot hwalk),
      fun s hwalk => hcycles s (reachable_of_walk hroot hwalk)⟩
  · intro hsettles
    have hgraph : ∀ s ∈ mc.reachableStates,
        (TransGen mc.Step s s → mc.Holds target s) ∧ (Terminal mc.Step s → mc.Holds target s) := by
      intro s hs
      have hroot : mc.rootState ≠ "" := (mem_reachableStates.mp hs).1
      -- without composite states the explored states are those that runs visit
      have hwalk : ReflTransGen mc.Step mc.rootState s := walk_of_reachable_flat hflat hs
      obtain ⟨hterminals, hcycles⟩ := (forall_settles_iff mc.finite_reachable
        reachableStates_closed (rootState_reachable hroot)).mp (hsettles hroot)
      exact ⟨hcycles s hwalk, hterminals s hwalk⟩
    exact ⟨fun s hs => (hgraph s hs).1, fun s hs => (hgraph s hs).2⟩

/-- On the lingering model every run is asked to settle in `Serve`, and `F G Serve` fails. -/
theorem checkEventuallyAlways_iff_lingering : (∀ s ∈ lingering.ir.states, s.isComposite = false) ∧
      (lingering.checkEventuallyAlways {} (.ofAtom "Serve")).passed = false ∧
      ¬ (lingering.rootState ≠ "" →
        ∀ run : lingering.Run, run.Settles (lingering.Holds (.ofAtom "Serve"))) := by
  have hflat : ∀ s ∈ lingering.ir.states, s.isComposite = false := by decide
  have hfails : (lingering.checkEventuallyAlways {} (.ofAtom "Serve")).passed = false := by decide
  refine ⟨hflat, hfails, ?_⟩
  rw [← checkEventuallyAlways_iff lingering hflat {} (.ofAtom "Serve"), hfails]
  simp

end ModelChecker

end Fsmc
