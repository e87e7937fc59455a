/-
# Fsmc.ModelChecker.Counterexamples — the traces that the checks report.

* The trace of a failed `check_invariant` is read off the predecessor map. The exploration is
  breadth-first, so the map is a tree of shortest paths (`searchFrom_tree`), and the way back from the
  violating state is one of them (`reconstructTrace_shortest`). Its steps are transitions or entries into
  a child of a composite.
* The trace of a failed `check_until` is grown outside the good states. These are a fixpoint, so outside
  them there is always a step that stays outside (`untilNext_not_good`), and the branch of the source for
  the case that there is none never runs (`untilWalk_violation`).

`check_until` has no guard for a model without a root state. There it fails with the one-step trace `""`,
whatever the right side says about the empty name (`tracesGenuine_iff`); `check_ctl` passes on the same
model.
-/
import Fsmc.Lib.SearchTree
import Fsmc.ModelChecker.Liveness

namespace Fsmc

open Relation Fsmc.Lib Fsmc.Cpp Fsmc.Ir

namespace ModelChecker

variable {mc : ModelChecker}

/-! ## Invariants -/

/-- `es` are the edges of a shortest path of the exploration from the root to `s`: transitions, and
entries from a composite state into its children. -/
def IsShortestPath (mc : ModelChecker) (es : List GraphEdge) (s : String) : Prop :=
  EdgePath mc.outEdges GraphEdge.target mc.rootState es s ∧
    ∀ es', EdgePath mc.outEdges GraphEdge.target mc.rootState es' s → es.length ≤ es'.length

/-- How a path from `s` is shown: every state with the event and the guard of the edge that leaves it. -/
def shownPath (s : String) : List GraphEdge → List (String × String × String)
  | [] => [(s, "", "")]
  | e :: es => (s, e.event, e.guard) :: shownPath e.target es

/-- The state, the event and the guard of every step of a trace. -/
def shown (trace : List CounterexampleStep) : List (String × String × String) :=
  trace.map fun step => (step.stateName, step.eventName, step.guardCondition)

variable {n : Nat} {path : List (String × GraphEdge)}

theorem shown_traceSteps {targetState violationDesc s : String} :
    (s, (path.head?.map (·.2.event)).getD "", (path.head?.map (·.2.guard)).getD "") ::
        shown (traceSteps targetState violationDesc n path) =
      shownPath s (path.map Prod.snd) := by
  induction path generalizing n s with
  | nil => rfl
  | cons p rest ih =>
    rw [List.map_cons, shownPath, ← ih (n := n + 1)]
    rfl

theorem shown_reconstructTrace {targetState violationDesc : String} :
    shown (mc.reconstructTrace targetState violationDesc) =
      shownPath mc.rootState ((mc.tracePath targetState).map Prod.snd) :=
  shown_traceSteps

/-- Following the entries back from a state of the tree takes as many steps as the state is deep, and
arrives at the root. -/
theorem walkBack_spec {depth : String → ℕ}
    (htree : SearchTree mc.outEdges GraphEdge.target mc.rootState mc.explored depth)
    {curr : String} {visited : List String}
    (hcurr : curr ∈ mc.reachableStates) (hvisited : ∀ x ∈ visited, depth curr < depth x)
    (h : mc.walkBack n curr visited = some path) :
    EdgePath mc.outEdges GraphEdge.target mc.rootState (path.reverse.map Prod.snd) curr ∧
      path.length = depth curr := by
  induction n generalizing curr visited path with
  | zero => simp [walkBack] at h
  | succ n ih =>
    rw [walkBack] at h
    by_cases hroot : curr = mc.rootState
    · rw [if_pos hroot, Option.some.injEq] at h
      subst h
      exact ⟨hroot.symm, by rw [hroot, htree.root, List.length_nil]⟩
    · obtain ⟨y, e, hlookup, hy, he, htarget, hdepth⟩ := htree.entry curr hcurr hroot
      have hnew : curr ∉ visited := fun hmem => Nat.lt_irrefl _ (hvisited curr hmem)
      have hlookup' : mc.predecessorMap.lookup curr = some (y, e) := hlookup
      simp only [if_neg hroot, hlookup', hnew, if_false, Option.map_eq_some_iff] at h
      obtain ⟨path', hpath', rfl⟩ := h
      have habove : ∀ x ∈ curr :: visited, depth y < depth x := by
        intro x hx
        rcases List.mem_cons.mp hx with rfl | hx
        · omega
        · have := hvisited x hx
          omega
      obtain ⟨hedges, hlength⟩ := ih hy habove hpath'
      constructor
      · rw [List.reverse_cons, List.map_append, ← htarget]
        exact hedges.concat he
      · rw [List.length_cons, hlength, hdepth]

/-- **The predecessor map leads back along a shortest path.** -/
theorem reconstructTrace_shortest {s : String} (hs : s ∈ mc.reachableStates) (violationDesc : String) :
    ∃ es, mc.IsShortestPath es s ∧
      shown (mc.reconstructTrace s violationDesc) = shownPath mc.rootState es := by
  have hroot : mc.rootState ≠ "" := (mem_reachableStates.mp hs).1
  obtain ⟨depth, htree, hshortest⟩ := searchFrom_tree mc.target_mem_targets mc.rootState
  have htree' : SearchTree mc.outEdges GraphEdge.target mc.rootState mc.explored depth := by
    unfold explored
    rw [if_neg hroot]
    exact htree
  have hsome : (mc.walkBack (mc.predecessorMap.length + 1) s []).isSome = true :=
    mc.walkBack_isSome (lt_of_le_of_lt (missing_le_length _ _) (by simp))
  obtain ⟨hpath, hlength⟩ := walkBack_spec htree' hs (fun x hx => absurd hx List.not_mem_nil)
    (Option.some_get hsome).symm
  refine ⟨(mc.tracePath s).map Prod.snd, ⟨hpath, fun es' hes' => ?_⟩, shown_reconstructTrace⟩
  rw [List.length_map, tracePath, List.length_reverse, hlength]
  exact hshortest s es' hes'

/-- The trace of a failed invariant is a shortest path to an explored state that violates it. -/
def InvariantTraceGenuine (mc : ModelChecker) (prop : FormalProperty) (p : PropertyAstNode) : Prop :=
  (mc.checkInvariant prop p).passed = false →
    ∃ s ∈ mc.reachableStates, ¬ mc.Holds p s ∧ ∃ es, mc.IsShortestPath es s ∧
      shown (mc.checkInvariant prop p).counterexampleTrace = shownPath mc.rootState es

theorem invariantTraceGenuine (mc : ModelChecker) (prop : FormalProperty) (p : PropertyAstNode) :
    mc.InvariantTraceGenuine prop p := by
  unfold InvariantTraceGenuine checkInvariant
  split
  · next s hs =>
      intro _
      have hmem := List.mem_of_find?_eq_some hs
      rw [reachableIter, HashOrder.mem_iter] at hmem
      have hbad : mc.evalPredicate s p = false := by simpa using List.find?_some hs
      refine ⟨s, hmem, ?_, reconstructTrace_shortest hmem _⟩
      unfold Holds
      rw [hbad]
      exact Bool.false_ne_true
  · intro h
    exact absurd h (by simp)

/-! ## Until -/

/-- A walk from the root that shows that `left` does not hold until `right` does: `right` holds nowhere
on it, and it ends where `left` does not hold, where nothing leads on, or where it has been before. -/
structure UntilViolation (mc : ModelChecker) (left right : PropertyAstNode) (path : List String) :
    Prop where
  starts : path.head? = some mc.rootState
  walk : path.IsChain mc.Step
  avoids : ∀ s ∈ path, ¬ mc.Holds right s
  ends : ∃ s, path.getLast? = some s ∧
    (¬ mc.Holds left s ∨ Terminal mc.Step s ∨ s ∈ path.dropLast)

/-- The good states are explored; every explored state with the right side is one, and no other explored
state can be added to them. -/
theorem goodStates_spec {left right : PropertyAstNode} : (∀ s ∈ mc.goodStates left right, s ∈ mc.reachableStates) ∧
      ∀ s ∈ mc.reachableStates, s ∉ mc.goodStates left right → ¬ mc.Holds right s ∧
        mc.untilOk left (mc.goodStates left right) s = false := by
  have hiter : ∀ s ∈ mc.reachableIter, s ∈ mc.reachableStates := fun s hs => mc.order.mem_iter.mp hs
  have hsome : (grow (mc.untilOk left) (fun _ => mc.reachableIter) (mc.reachableStates.length + 1)
      (mc.reachableIter.filter fun s => mc.evalPredicate s right)).isSome = true :=
    grow_isSome (fun _ => hiter) (Nat.lt_succ_self _) _
  obtain ⟨last, ⟨hstart, hlast⟩, hflag, hr⟩ := whileChanged_spec
    (fun sat => (∀ x ∈ mc.reachableIter.filter fun s => mc.evalPredicate s right, x ∈ sat) ∧
      ∀ x ∈ sat, x ∈ mc.reachableStates)
    (fun sat hsat => ⟨fun x hx => sweep_sub (hsat.1 x hx),
      sweep_sound (Z := {s | s ∈ mc.reachableStates}) hsat.2 fun _ _ s hs _ => hiter s hs⟩)
    ⟨fun _ hx => hx, fun x hx => hiter x (List.mem_filter.mp hx).1⟩ (Option.some_get hsome).symm
  obtain ⟨hsame, hnone⟩ := sweep_unchanged hflag
  have hgood : mc.goodStates left right = last := hr.symm.trans hsame
  rw [hgood]
  refine ⟨hlast, fun s hs hbad => ?_⟩
  have hmem : s ∈ mc.reachableIter := mc.order.mem_iter.mpr hs
  exact ⟨fun hright => hbad (hstart s (List.mem_filter.mpr ⟨hmem, hright⟩)), hnone s hmem hbad⟩

/-- **The fallback never runs.** From an explored state outside the good ones in which the left side
holds, the walk steps to another explored state outside them. -/
theorem untilNext_not_good {left right : PropertyAstNode} {s : String} {front : GraphEdge}
    {rest : List GraphEdge} (hs : s ∈ mc.reachableStates) (hbad : s ∉ mc.goodStates left right)
    (hleft : mc.Holds left s) (hedges : mc.edgesFrom s = front :: rest) :
    mc.Step s (mc.untilNext (mc.goodStates left right) front rest) ∧
      mc.untilNext (mc.goodStates left right) front rest ∉ mc.goodStates left right := by
  have hok := (goodStates_spec.2 s hs hbad).2
  have hleft' : mc.evalPredicate s left = true := hleft
  have hsome : ((front :: rest).find? fun e =>
      e.target ∈ mc.reachableStates && e.target ∉ mc.goodStates left right).isSome = true := by
    by_contra hnone
    rw [Bool.not_eq_true, Option.isSome_eq_false_iff, Option.isNone_iff_eq_none,
      List.find?_eq_none] at hnone
    have hall : ((front :: rest).all fun e =>
        !(e.target ∈ mc.reachableStates && e.target ∉ mc.goodStates left right)) = true :=
      List.all_eq_true.mpr fun e he => by rw [Bool.not_eq_true']; simpa using hnone e he
    rw [untilOk, hleft', hedges, hall] at hok
    exact absurd hok (by simp)
  obtain ⟨e, he⟩ := Option.isSome_iff_exists.mp hsome
  have hmem : e ∈ mc.edgesFrom s := hedges ▸ List.mem_of_find?_eq_some he
  -- the edges of the graph have targets, so the choice is not mistaken for no choice
  have hne : e.target ≠ "" := by
    rw [edgesFrom_eq] at hmem
    obtain ⟨t, ht, rfl⟩ := List.mem_map.mp hmem
    rw [List.mem_filter, decide_eq_true_eq] at ht
    exact ht.2.1.2
  have hnext : mc.untilNext (mc.goodStates left right) front rest = e.target := by
    simp only [untilNext, he, if_neg hne]
  have hpred := List.find?_some he
  rw [Bool.and_eq_true, decide_eq_true_eq, decide_eq_true_eq] at hpred
  rw [hnext]
  exact ⟨⟨e, hmem, rfl⟩, hpred.2⟩

/-- The walk has come along `visited` to `curr`, outside the good states all the way. -/
structure UntilApproach (mc : ModelChecker) (left right : PropertyAstNode) (curr : String)
    (visited : List String) : Prop where
  starts : (curr :: visited).reverse.head? = some mc.rootState
  walk : (curr :: visited).reverse.IsChain mc.Step
  bad : ∀ s ∈ curr :: visited, s ∈ mc.reachableStates ∧ s ∉ mc.goodStates left right

namespace UntilApproach

variable {left right : PropertyAstNode} {curr next : String} {visited : List String}

theorem getLast_eq : (curr :: visited).reverse.getLast? = some curr := by
  rw [List.getLast?_reverse, List.head?_cons]

theorem avoids (h : mc.UntilApproach left right curr visited) :
    ∀ s ∈ (curr :: visited).reverse, ¬ mc.Holds right s := by
  intro s hs
  obtain ⟨hreach, hgood⟩ := h.bad s (List.mem_reverse.mp hs)
  exact (goodStates_spec.2 s hreach hgood).1

theorem snoc (h : mc.UntilApproach left right curr visited) (hstep : mc.Step curr next)
    (hnext : next ∉ mc.goodStates left right) :
    mc.UntilApproach left right next (curr :: visited) where
  starts := by
    rw [List.reverse_cons, List.head?_append, h.starts]
    rfl
  walk := by
    rw [List.reverse_cons]
    refine List.isChain_append.mpr ⟨h.walk, List.isChain_singleton next, ?_⟩
    intro x hx y hy
    rw [getLast_eq] at hx
    rw [← Option.some.inj hx, ← Option.some.inj hy]
    exact hstep
  bad := by
    intro s hs
    rcases List.mem_cons.mp hs with rfl | hs
    · exact ⟨reachableStates_closed curr s (h.bad curr List.mem_cons_self).1 hstep, hnext⟩
    · exact h.bad s hs

theorem violation (h : mc.UntilApproach left right curr visited)
    (hend : ¬ mc.Holds left curr ∨ Terminal mc.Step curr) :
    mc.UntilViolation left right ((curr :: visited).reverse ++ []) := by
  rw [List.append_nil]
  exact ⟨h.starts, h.walk, h.avoids, curr, getLast_eq, hend.imp id Or.inl⟩

end UntilApproach

theorem untilWalk_violation {left right : PropertyAstNode} {curr desc : String}
    {visited path : List String} (happroach : mc.UntilApproach left right curr visited)
    (h : mc.untilWalk left right (mc.goodStates left right) n curr (curr :: visited) =
      some (path, desc)) :
    mc.UntilViolation left right ((curr :: visited).reverse ++ path) := by
  induction n generalizing curr visited path desc with
  | zero => simp [untilWalk] at h
  | succ n ih =>
    obtain ⟨hreach, hgood⟩ := happroach.bad curr List.mem_cons_self
    have hright : ¬ mc.evalPredicate curr right = true := (goodStates_spec.2 curr hreach hgood).1
    rw [untilWalk, if_neg hright] at h
    by_cases hleft : mc.evalPredicate curr left = true
    · rw [hleft, if_neg (by simp)] at h
      cases hedges : mc.edgesFrom curr with
      | nil =>
        simp only [hedges, Option.some.injEq, Prod.mk.injEq] at h
        rw [← h.1]
        exact happroach.violation (Or.inr (terminal_iff.mpr hedges))
      | cons front rest =>
        obtain ⟨hstep, hnext⟩ := untilNext_not_good hreach hgood hleft hedges
        simp only [hedges] at h
        generalize mc.untilNext (mc.goodStates left right) front rest = next at h hstep hnext
        have happroach' := happroach.snoc hstep hnext
        by_cases hvis : next ∈ curr :: visited
        · -- the walk is back at a state it has been to
          simp only [if_pos hvis, Option.some.injEq, Prod.mk.injEq] at h
          rw [← h.1, ← List.reverse_cons]
          refine ⟨happroach'.starts, happroach'.walk, happroach'.avoids, next,
            UntilApproach.getLast_eq, Or.inr (Or.inr ?_)⟩
          rw [List.reverse_cons, List.dropLast_concat]
          exact List.mem_reverse.mpr hvis
        · simp only [if_neg hvis, Option.map_eq_some_iff, Prod.mk.injEq] at h
          obtain ⟨⟨path', desc'⟩, hrest, hpath, _⟩ := h
          have hsplit : (curr :: visited).reverse ++ path =
              (next :: curr :: visited).reverse ++ path' := by
            rw [← hpath, List.reverse_cons (a := next), List.append_assoc]
            rfl
          rw [hsplit]
          exact ih happroach' hrest
    · rw [Bool.not_eq_true] at hleft
      simp only [hleft, Bool.not_false, if_true, Option.some.injEq, Prod.mk.injEq] at h
      rw [← h.1]
      refine happroach.violation (Or.inl ?_)
      unfold Holds
      rw [hleft]
      exact Bool.false_ne_true

theorem map_stateName_untilTrace {violationDesc : String} {idx : Nat} {path : List String} :
    (untilTrace violationDesc idx path).map (·.stateName) = path := by
  induction path generalizing idx with
  | nil => rfl
  | cons s rest ih => rw [untilTrace, List.map_cons, ih]

theorem exists_checkUntil_trace (prop : FormalProperty) {left right : PropertyAstNode}
    (hfail : mc.rootState ∉ mc.goodStates left right) : ∃ n path desc,
    mc.untilWalk left right (mc.goodStates left right) n mc.rootState [mc.rootState] =
        some (path, desc) ∧
      (mc.checkUntil prop left right).counterexampleTrace.map (·.stateName) =
        mc.rootState :: path := by
  have hsome : (mc.untilWalk left right (mc.goodStates left right) (mc.targets.length + 1)
      mc.rootState [mc.rootState]).isSome = true :=
    mc.untilWalk_isSome (lt_of_le_of_lt (missing_le_length _ _) (Nat.lt_succ_self _))
  refine ⟨_, _, _, (Option.some_get hsome).symm, ?_⟩
  unfold checkUntil
  simp only [if_neg hfail]
  exact map_stateName_untilTrace

/-- The trace of a failed until is a walk that violates it. -/
def UntilTraceGenuine (mc : ModelChecker) (prop : FormalProperty) (left right : PropertyAstNode) :
    Prop :=
  (mc.checkUntil prop left right).passed = false →
    mc.UntilViolation left right
      ((mc.checkUntil prop left right).counterexampleTrace.map (·.stateName))

theorem untilTraceGenuine_of_root (hroot : mc.rootState ≠ "") (prop : FormalProperty)
    (left right : PropertyAstNode) : mc.UntilTraceGenuine prop left right := by
  intro hfail
  have hbad : mc.rootState ∉ mc.goodStates left right := fun hmem =>
    absurd (checkUntil_passed.mpr hmem) (by rw [hfail]; exact Bool.false_ne_true)
  obtain ⟨n, path, desc, hwalk, htrace⟩ := exists_checkUntil_trace prop hbad
  rw [htrace]
  have happroach : mc.UntilApproach left right mc.rootState [] := by
    refine ⟨rfl, List.isChain_singleton _, fun s hs => ?_⟩
    rw [List.mem_singleton.mp hs]
    exact ⟨rootState_reachable hroot, hbad⟩
  exact untilWalk_violation happroach hwalk

/-- Without a root state nothing is explored, and no transition leaves the empty name. -/
theorem reachableStates_of_no_root (hroot : mc.rootState = "") : mc.reachableStates = [] := by
  rw [reachableStates, explored, if_pos hroot]

theorem edgesFrom_empty : mc.edgesFrom "" = [] := by
  rw [edgesFrom_eq, List.map_eq_nil_iff, List.filter_eq_nil_iff]
  intro t _ ht
  rw [decide_eq_true_eq] at ht
  exact ht.1.1 ht.2

theorem untilTraceGenuine_iff_of_no_root (hroot : mc.rootState = "") (prop : FormalProperty)
    (left right : PropertyAstNode) :
    mc.UntilTraceGenuine prop left right ↔ ¬ mc.Holds right "" := by
  have hbad : mc.rootState ∉ mc.goodStates left right := by
    intro hmem
    have hnone := goodStates_spec.1 _ hmem
    rw [reachableStates_of_no_root hroot] at hnone
    exact absurd hnone List.not_mem_nil
  have hfail : (mc.checkUntil prop left right).passed = false := by
    rw [Bool.eq_false_iff]
    exact fun h => hbad (checkUntil_passed.mp h)
  obtain ⟨n, path, desc, hwalk, htrace⟩ := exists_checkUntil_trace prop hbad
  constructor
  · intro hgenuine
    have hviolation := hgenuine hfail
    rw [htrace] at hviolation
    exact hroot ▸ hviolation.avoids mc.rootState List.mem_cons_self
  · intro hright _
    rw [htrace]
    cases n with
    | zero => simp [untilWalk] at hwalk
    | succ n =>
      have hright' : ¬ mc.evalPredicate "" right = true := hright
      rw [hroot, untilWalk, if_neg hright', edgesFrom_empty] at hwalk
      have hpath : path = [] := by
        by_cases hleft : (!mc.evalPredicate "" left) = true
        · rw [if_pos hleft, Option.some.injEq, Prod.mk.injEq] at hwalk
          exact hwalk.1.symm
        · rw [if_neg hleft, Option.some.injEq, Prod.mk.injEq] at hwalk
          exact hwalk.1.symm
      rw [hpath, hroot]
      refine ⟨by rw [hroot]; rfl, List.isChain_singleton _, fun s hs => ?_, "", rfl,
        Or.inr (Or.inl (terminal_iff.mpr edgesFrom_empty))⟩
      rw [List.mem_singleton.mp hs]
      exact hright

/-- **Counterexamples are genuine exactly on models with a root state**, or whose right side does not
hold of the empty name. -/
theorem tracesGenuine_iff (mc : ModelChecker) (prop : FormalProperty) (p left right : PropertyAstNode) :
    (mc.InvariantTraceGenuine prop p ∧ mc.UntilTraceGenuine prop left right) ↔
      (mc.rootState ≠ "" ∨ ¬ mc.Holds right "") := by
  rw [and_iff_right (mc.invariantTraceGenuine prop p)]
  by_cases hroot : mc.rootState = ""
  · rw [untilTraceGenuine_iff_of_no_root hroot]
    exact ⟨Or.inr, fun h => h.resolve_left (fun hne => hne hroot)⟩
  · exact ⟨fun _ => Or.inl hroot, fun _ => mc.untilTraceGenuine_of_root hroot prop left right⟩

/-- A model without states. -/
def blank : ModelChecker where
  order := .insertion
  ir := {}
  stateIntervals := []

/-- `A U true` fails on the blank model, with a trace on which `true` holds. -/
theorem until_blank_not_genuine : ¬ blank.UntilTraceGenuine {} (.ofAtom "A") (.ofAtom "true") := by
  intro hgenuine
  have hviolation := hgenuine (by decide)
  exact hviolation.avoids "" (by decide) (by decide)

end ModelChecker

end Fsmc
