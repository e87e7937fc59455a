/-
# Fsmc.Analysis.ReachedRuns — the search of the validator against runs of the hierarchical machine.

Unlike the exploration of the model checker, the validator also goes from a state to its parent. So no run of
the machine makes a state active that it reports as unreachable, and a safety property that the model checker
passes holds in all runs as soon as the model checker explores what the validator reaches.
-/
import Fsmc.Analysis.ValidatorSearches
import Fsmc.ModelChecker.Hierarchy

namespace Fsmc.Analysis.FsmValidator

open Fsmc.Ir Fsmc.Lib Relation

variable {ir : FsmIr} {a b : String}

/-- Steps lead to it from the initial state. -/
def Reached (ir : FsmIr) (a : String) : Prop := ReflTransGen (Step ir) ir.initialState a

theorem Reached.parent (h : Reached ir a) (hp : ir.Parent a b) : Reached ir b := by
  obtain ⟨hne, s, hfind, hparent⟩ := hp
  refine h.tail ⟨?_, hne⟩
  unfold successors
  rw [hfind, ← hparent]
  simp

theorem Reached.active (h : Reached ir a) (hactive : ir.Active a b) : Reached ir b :=
  Closed.walk (D := {x | Reached ir x}) (fun _ _ hx hxy => hx.parent hxy) h hactive

theorem Reached.initial (h : Reached ir a) (hinitial : ir.Initial a b) : Reached ir b := by
  obtain ⟨hne, s, hfind, -, hsub⟩ := hinitial
  refine h.tail ⟨?_, hne⟩
  unfold successors
  rw [hfind, ← hsub]
  simp

theorem Reached.enters (h : Reached ir a) (henters : ir.Enters a b) : Reached ir b :=
  Closed.walk (D := {x | Reached ir x}) (fun _ _ hx hxy => hx.initial hxy) h henters.1

theorem Reached.target {t : TransitionEdge} (h : Reached ir t.source) (ht : t ∈ ir.transitions)
    (hne : t.target ≠ "") : Reached ir t.target := by
  refine h.tail ⟨List.mem_append_right _ (List.mem_flatMap.mpr ⟨t, ht, ?_⟩), hne⟩
  simp

/-- All leaves of a run are reached. By induction over the run: the transition that is taken may be that of an
ancestor, which is reached like the leaf. -/
theorem leaves_reached {mc : ModelChecker} (hroot : mc.rootState = mc.ir.initialState) {run : List String}
    (h : mc.AllRuns run) : ∀ leaf ∈ run, Reached mc.ir leaf := by
  induction h with
  | @start leaf _ _ henters =>
    have hstart : Reached mc.ir mc.rootState := hroot ▸ ReflTransGen.refl
    rw [List.forall_mem_singleton]
    exact hstart.enters henters
  | internal _ _ _ _ _ ih => exact List.forall_mem_cons.mpr ⟨ih _ List.mem_cons_self, ih⟩
  | external _ ht hresolved _ hsource _ henters ih =>
    have htaken := ((ih _ List.mem_cons_self).active hsource).target ht hresolved.2
    exact List.forall_mem_cons.mpr ⟨htaken.enters henters, ih⟩

theorem unreachableFinding_injective (h : unreachableFinding a = unreachableFinding b) : a = b := by
  have hmessage := congrArg DiagnosticMessage.message h
  simpa [unreachableFinding] using hmessage

/-- **Reports against runs.** No run makes a state active that the validator reports as unreachable. If the model
checker explores all states that the validator reaches, then a `G !bad` that passes excludes `bad` from all runs,
whatever parents and initial states there are. -/
theorem hierarchical_runs_reached (mc : ModelChecker) (hinitial : mc.ir.initialState ≠ "")
    (hroot : mc.rootState = mc.ir.initialState) :
    (∀ run, mc.AllRuns run → ∀ leaf ∈ run, ∀ a, mc.ir.Active leaf a →
      unreachableFinding a ∉ validateReachability mc.ir) ∧
      ((∀ a ∈ reachable mc.ir, a ∈ mc.reachableStates) → ∀ (prop : FormalProperty) (bad : PropertyAstNode),
        (mc.verifyProperty { prop with ast := some (.unary .globally (.unary .not bad)) }).passed = true →
        ∀ run, mc.AllRuns run → ∀ leaf ∈ run, ∀ a, mc.ir.Active leaf a → mc.evalPredicate a bad = false) := by
  have hactive : ∀ run, mc.AllRuns run → ∀ leaf ∈ run, ∀ a, mc.ir.Active leaf a → a ∈ reachable mc.ir :=
    fun run hrun leaf hleaf a ha => (mem_reachable hinitial).mpr ((leaves_reached hroot hrun leaf hleaf).active ha)
  refine ⟨fun run hrun leaf hleaf a ha hreport => ?_, fun hexplored prop bad hpassed run hrun leaf hleaf a ha => ?_⟩
  · unfold validateReachability at hreport
    obtain ⟨s, hs, heq⟩ := List.mem_map.mp hreport
    have hunreached := (List.mem_filter.mp hs).2
    rw [decide_eq_true_eq, unreachableFinding_injective heq] at hunreached
    exact hunreached (hactive run hrun leaf hleaf a ha)
  · exact ModelChecker.safety_passed hpassed a (hexplored a (hactive run hrun leaf hleaf a ha))

/-- The parent of the state that is entered past it is reached, and so is what its transition leads to. -/
theorem hierarchical_runs_reached_inherited :
    unreachableFinding "Group" ∉ validateReachability ModelChecker.inherited.ir := by
  have hstart : ModelChecker.inherited.AllRuns ["Start"] :=
    .start (by decide) trivial (ModelChecker.inherited_enters (by decide))
  have hinner : ModelChecker.inherited.AllRuns ["Inner", "Start"] :=
    .external (t := { source := "Start", target := "Inner" }) hstart List.mem_cons_self (by decide) (by decide)
      Relation.ReflTransGen.refl trivial (ModelChecker.inherited_enters (by decide))
  exact (hierarchical_runs_reached ModelChecker.inherited (by decide) (by decide)).1 _ hinner "Inner"
    List.mem_cons_self "Group" (ReflTransGen.single ModelChecker.inherited_group)

end Fsmc.Analysis.FsmValidator
