/-
# Fsmc.Passes.AdjacencyIndices — what the passes do to the transitions that a state lists.

The passes below erase, add and reorder transitions and leave the lists of the states as they are. So the
lists stay right only where no transition that touches a state is moved.
-/
import Fsmc.Lib.Places
import Fsmc.Passes.ConstantFolding
import Fsmc.Passes.DeadStatePruning
import Fsmc.Passes.DeterminismEnforcement
import Fsmc.Passes.EfsmDataPath
import Fsmc.Passes.ForkJoinLowering
import Fsmc.Passes.JunctionChaining

namespace Fsmc.Passes.AdjacencyIndices

open Fsmc.Cpp Fsmc.Ir Fsmc.Lib.FirstMatch Fsmc.Lib.Places List

/-! ## Lists and places -/

/-- A transition leaves, or enters, a state. -/
def touches (side : Side) (s : StateNode) (t : TransitionEdge) : Prop := s.name ∈ side.names t

instance (side : Side) (s : StateNode) (t : TransitionEdge) : Decidable (touches side s t) :=
  inferInstanceAs (Decidable (s.name ∈ side.names t))

theorem placeOf_eq_some_iff {states : List StateNode} (hnames : (states.map (·.name)).Nodup) {k : ℕ}
    {s : StateNode} (hs : states[k]? = some s) (name : String) :
    placeOf states name = some k ↔ name = s.name := by
  obtain ⟨hk, hsk⟩ := List.getElem?_eq_some_iff.mp hs
  unfold placeOf
  rw [List.findIdx?_eq_some_iff_getElem]
  constructor
  · rintro ⟨_, hname, -⟩
    rw [hsk] at hname
    exact (of_decide_eq_true hname).symm
  · rintro rfl
    refine ⟨hk, by simp [hsk], fun j hj => ?_⟩
    have hj' : j < (states.map (·.name)).length := by simp; omega
    have hk' : k < (states.map (·.name)).length := by simp; omega
    have hjk : (states.map (·.name))[j] ≠ (states.map (·.name))[k] :=
      fun heq => absurd (hnames.getElem_inj_iff.mp heq) (Nat.ne_of_lt hj)
    simpa [hsk] using hjk

theorem indexed_iff {ir : FsmIr} (hnames : (ir.states.map (·.name)).Nodup) : Indexed ir ↔
    ∀ side, ∀ s ∈ ir.states, ∀ i, i ∈ side.get s ↔ HasAt (touches side s) ir.transitions i := by
  have htouches : ∀ side k s, ir.states[k]? = some s → ∀ t,
      Touches ir.states side t k ↔ touches side s t := by
    intro side k s hs t
    unfold Touches touches
    constructor
    · rintro ⟨name, hname, hplace⟩
      rwa [← (placeOf_eq_some_iff hnames hs name).mp hplace]
    · exact fun hname => ⟨s.name, hname, (placeOf_eq_some_iff hnames hs s.name).mpr rfl⟩
  constructor
  · intro h side s hs i
    obtain ⟨k, hk⟩ := List.mem_iff_getElem?.mp hs
    rw [h side k s hk i]
    exact exists_congr fun t => and_congr_right fun _ => htouches side k s hk t
  · intro h side k s hk i
    rw [h side s (List.mem_of_getElem? hk) i]
    exact exists_congr fun t => and_congr_right fun _ => (htouches side k s hk t).symm

theorem indexed_iff_samePlaces {ir ir' : FsmIr} (hnames : (ir.states.map (·.name)).Nodup) (h : Indexed ir)
    (hstates : ir'.states.Sublist ir.states) : Indexed ir' ↔
      ∀ side, ∀ s ∈ ir'.states, SamePlaces (touches side s) ir.transitions ir'.transitions := by
  rw [indexed_iff (hnames.sublist (hstates.map _))]
  have hlists := (indexed_iff hnames).mp h
  constructor
  · exact fun h' side s hs i => (h' side s hs i).symm.trans (hlists side s (hstates.subset hs) i)
  · exact fun h' side s hs i => (hlists side s (hstates.subset hs) i).trans (h' side s hs i).symm

/-! ## The passes -/

/-- The passes that change the transitions of a machine and not the lists of its states. -/
inductive Pass where
  | deadStatePruning | choiceInlining | connectiveJunctionChaining | forkJoinLowering
  | efsmDataPath | constantFolding | determinismEnforcement
  deriving DecidableEq, Repr

variable (toInt64 : Double → Int)

/-- A pass, `none` where an exception leaves it. -/
def Pass.run : Pass → WholeIr → Option WholeIr
  | deadStatePruning, ir => some { ir with toFsmIr := DeadStatePruning.run ir.toFsmIr }
  | choiceInlining, ir => some { ir with toFsmIr := (ChoiceInlining.run ir.toFsmIr).1 }
  | connectiveJunctionChaining, ir => some { ir with toFsmIr := JunctionChaining.run ir.toFsmIr }
  | forkJoinLowering, ir => some { ir with toFsmIr := ForkJoinLowering.run ir.toFsmIr }
  | efsmDataPath, ir => (EfsmDataPath.run toInt64 true ir.toFsmIr).map fun ir' => { ir with toFsmIr := ir' }
  | constantFolding, ir => ConstantFolding.run ir
  | determinismEnforcement, ir => some { ir with toFsmIr := (DeterminismEnforcement.run ir.toFsmIr).1 }

/-- The lists of the states are right after the pass. -/
def KeepsIndices (p : Pass) (ir : WholeIr) : Prop := ∀ ir', p.run toInt64 ir = some ir' → Indexed ir'.toFsmIr

/-! ## When the lists stay right -/

/-- The transitions that touch the states which stay stand before all that are erased. -/
def ErasesBehind (stays : StateNode → Bool) (erased : TransitionEdge → Prop) (ir : FsmIr) : Prop :=
  ∀ side, ∀ s ∈ ir.states, stays s = true → OnlyBehind erased (touches side s) ir.transitions

/-- A node that is only entered, or only left. -/
def Dangles (ts : List TransitionEdge) (node : String) : Prop :=
  (∀ t ∈ ts, t.target ≠ node) ∨ ∀ t ∈ ts, t.source ≠ node

/-- No transition that touches a state which stays is moved. -/
def Steady : Pass → WholeIr → Prop
  | .deadStatePruning, ir => DeadStatePruning.root ir.toFsmIr ≠ "" →
    ErasesBehind (DeadStatePruning.keepsState ir.toFsmIr)
      (fun t => DeadStatePruning.keepsTransition ir.toFsmIr t = false) ir.toFsmIr
  | .choiceInlining, ir => ∀ choice ∈ ChoiceInlining.choiceNames ir.toFsmIr,
    ChoiceInlining.inlines choice ir.transitions = false
  | .connectiveJunctionChaining, ir =>
    JunctionChaining.junctionNames ir.toFsmIr = [] ∨ JunctionChaining.hasCycle ir.toFsmIr = true ∨
      JunctionChaining.entering ir.toFsmIr = [] ∧
        ErasesBehind (fun s => s.name ∉ JunctionChaining.junctionNames ir.toFsmIr)
          (fun t => JunctionChaining.touches ir.toFsmIr t = true) ir.toFsmIr
  | .forkJoinLowering, ir =>
    ∀ node ∈ ForkJoinLowering.forkNodes ir.toFsmIr ++ ForkJoinLowering.joinNodes ir.toFsmIr,
      Dangles ir.transitions node
  | .efsmDataPath, ir => ¬ (ir.vars.isEmpty && ir.ports.isEmpty) = true →
    ∀ findings, Analysis.EfsmInterval.analyze toInt64 ir.toFsmIr = some findings →
      ErasesBehind (fun _ => true) (fun t => ∃ f ∈ findings, EfsmDataPath.isOf f t = true) ir.toFsmIr
  | .constantFolding, ir => (∀ t ∈ ir.transitions, ConstantFolding.foldGuard t.guard ≠ none) →
    ErasesBehind (fun _ => true) (fun t => ConstantFolding.isFalse t = true) ir.toFsmIr
  | .determinismEnforcement, ir => ∀ side, ∀ s ∈ ir.states, ∀ before t after,
    ir.transitions = before ++ t :: after →
      (touches side s t ↔ HasAt (touches side s) ir.transitions
        (sortedPlace DeterminismEnforcement.sortKey ir.transitions before t))

/-- A pass that makes new transitions of others. -/
def Pass.composes : Pass → Bool
  | choiceInlining | connectiveJunctionChaining | forkJoinLowering => true
  | _ => false

/-! ## One pass after another -/

section Passes

variable {toInt64} {ir : WholeIr} (hnames : (ir.states.map (·.name)).Nodup) (h : Indexed ir.toFsmIr)

include hnames h

theorem deadStatePruning_iff : Indexed (DeadStatePruning.run ir.toFsmIr) ↔ Steady toInt64 .deadStatePruning ir := by
  by_cases hroot : DeadStatePruning.root ir.toFsmIr = ""
  · have hrun : DeadStatePruning.run ir.toFsmIr = ir.toFsmIr := if_pos hroot
    rw [hrun]
    exact iff_of_true h fun hne => absurd hroot hne
  · rw [DeadStatePruning.run_eq hroot, indexed_iff_samePlaces hnames h List.filter_sublist]
    show (∀ side, ∀ s ∈ ir.states.filter _, SamePlaces _ ir.transitions (ir.transitions.filter _)) ↔
      (_ → ErasesBehind _ _ _)
    simp only [samePlaces_filter_iff, List.mem_filter, and_imp]
    exact ⟨fun h _ => h, fun h => h hroot⟩

theorem constantFolding_iff : KeepsIndices toInt64 .constantFolding ir ↔ Steady toInt64 .constantFolding ir := by
  have hends : ∀ side s t, touches side s (ConstantFolding.foldTransition t) ↔ touches side s t := by
    intro side s t
    cases side <;> rfl
  -- Folding changes no end, so the folded transitions touch what the unfolded ones touch.
  have hplaces : ∀ ir', ConstantFolding.run ir = some ir' → ∀ side s,
      SamePlaces (touches side s) ir.transitions ir'.transitions ↔
        OnlyBehind (fun t => ConstantFolding.isFalse t = true) (touches side s) ir.transitions := by
    intro ir' hrun side s
    have hfilter := samePlaces_filter_iff (q := touches side s) (l := ir.transitions)
      fun t => !ConstantFolding.isFalse t
    simp only [Bool.not_eq_false'] at hfilter
    rw [← hfilter, ConstantFolding.transitions_run hrun]
    unfold SamePlaces
    simp only [hasAt_map, hends]
  unfold Steady ErasesBehind
  constructor
  · intro hkeeps hfolds side s hs _
    cases hrun : ConstantFolding.run ir with
    | none =>
      unfold ConstantFolding.run at hrun
      split at hrun
      · next hthrows =>
          obtain ⟨t, ht, hnone⟩ := List.any_eq_true.mp hthrows
          exact absurd (of_decide_eq_true hnone) (hfolds t ht)
      · exact absurd hrun (by simp)
    | some ir' =>
      have hstates := ConstantFolding.states_run hrun
      have hindexed := hkeeps ir' hrun
      rw [indexed_iff_samePlaces hnames h (by rw [hstates])] at hindexed
      exact (hplaces ir' hrun side s).mp (hindexed side s (by rw [hstates]; exact hs))
  · intro hsteady ir' hrun
    have hstates := ConstantFolding.states_run hrun
    have hfolds : ∀ t ∈ ir.transitions, ConstantFolding.foldGuard t.guard ≠ none := by
      intro t ht hnone
      have hthrows : ConstantFolding.run ir = none :=
        if_pos (List.any_eq_true.mpr ⟨t, ht, decide_eq_true hnone⟩)
      exact absurd (hthrows.symm.trans hrun) (by simp)
    rw [indexed_iff_samePlaces hnames h (by rw [hstates])]
    intro side s hs
    rw [hstates] at hs
    exact (hplaces ir' hrun side s).mpr (hsteady hfolds side s hs rfl)

theorem efsmDataPath_iff : KeepsIndices toInt64 .efsmDataPath ir ↔ Steady toInt64 .efsmDataPath ir := by
  show (∀ ir', (EfsmDataPath.run toInt64 true ir.toFsmIr).map _ = some ir' → _) ↔ (_ → ∀ _, _ → _)
  unfold EfsmDataPath.run
  by_cases hempty : (ir.vars.isEmpty && ir.ports.isEmpty) = true
  · rw [if_pos hempty]
    refine iff_of_true ?_ fun hne => absurd hempty hne
    rintro ir' hrun
    obtain rfl := Option.some.inj hrun
    exact h
  · rw [if_neg hempty]
    have hfindings : ∀ findings, Indexed { ir.toFsmIr with
        transitions := EfsmDataPath.prune findings ir.transitions } ↔
        ErasesBehind (fun _ => true) (fun t => ∃ f ∈ findings, EfsmDataPath.isOf f t = true) ir.toFsmIr := by
      intro findings
      have hstates : FsmIr.states { ir.toFsmIr with
          transitions := EfsmDataPath.prune findings ir.transitions } <+ ir.states :=
        List.Sublist.refl _
      rw [indexed_iff_samePlaces hnames h hstates]
      unfold EfsmDataPath.prune ErasesBehind
      simp only [samePlaces_foldl_eraseP_iff, true_implies]
    constructor
    · intro hkeeps _ findings hanalyze
      rw [← hfindings]
      exact hkeeps _ (by rw [hanalyze]; rfl)
    · intro hsteady ir' hrun
      cases hanalyze : Analysis.EfsmInterval.analyze toInt64 ir.toFsmIr with
      | none => rw [hanalyze] at hrun; exact absurd hrun (by simp)
      | some findings =>
        rw [hanalyze] at hrun
        obtain rfl := Option.some.inj hrun
        exact (hfindings findings).mpr (hsteady hempty findings hanalyze)

theorem determinismEnforcement_iff : Indexed (DeterminismEnforcement.run ir.toFsmIr).1 ↔
    Steady toInt64 .determinismEnforcement ir := by
  have hstates : (DeterminismEnforcement.run ir.toFsmIr).1.states <+ ir.states := List.Sublist.refl _
  rw [indexed_iff_samePlaces hnames h hstates, DeterminismEnforcement.run_transitions]
  unfold Steady
  simp only [samePlaces_sortByKey_iff]
  rfl

omit hnames in
theorem choiceInlining_indexed (hsteady : Steady toInt64 .choiceInlining ir) :
    Indexed (ChoiceInlining.run ir.toFsmIr).1 := by
  have hfold : ∀ (cs : List String), (∀ c ∈ cs, ChoiceInlining.inlines c ir.transitions = false) →
      cs.foldl ChoiceInlining.inlineStep (ir.toFsmIr, false) = (ir.toFsmIr, false) := by
    intro cs hcs
    induction cs with
    | nil => rfl
    | cons c cs ih =>
      have hstep : ChoiceInlining.inlineStep (ir.toFsmIr, false) c = (ir.toFsmIr, false) :=
        if_neg (by rw [hcs c List.mem_cons_self]; exact Bool.false_ne_true)
      rw [List.foldl_cons, hstep]
      exact ih fun c' hc' => hcs c' (List.mem_cons_of_mem _ hc')
  unfold ChoiceInlining.run
  split
  · exact h
  · rw [hfold _ hsteady]
    exact h

theorem junctionChaining_indexed (hsteady : Steady toInt64 .connectiveJunctionChaining ir) :
    Indexed (JunctionChaining.run ir.toFsmIr) := by
  unfold JunctionChaining.run
  split
  · exact h
  · next hacyclic =>
      obtain ⟨hentering, hbehind⟩ : JunctionChaining.entering ir.toFsmIr = [] ∧ _ :=
        (hsteady.resolve_left fun hnone => hacyclic (Or.inl hnone)).resolve_left
          fun hcycle => hacyclic (Or.inr hcycle)
      rw [indexed_iff_samePlaces hnames h List.filter_sublist]
      intro side s hs
      obtain ⟨hs, hstays⟩ := List.mem_filter.mp hs
      show SamePlaces _ ir.transitions (JunctionChaining.chained ir.toFsmIr)
      unfold JunctionChaining.chained
      rw [hentering, List.flatMap_nil, List.append_nil, samePlaces_filter_iff]
      simpa using hbehind side s hs hstays

theorem forkJoinLowering_indexed (hsteady : Steady toInt64 .forkJoinLowering ir) :
    Indexed (ForkJoinLowering.run ir.toFsmIr) := by
  have hrule : ∀ (R : Lib.NodeElimination.Rule TransitionEdge String) (nodes : List String),
      (∀ n ∈ nodes, (∀ t ∈ ir.transitions, R.merged t ≠ n) ∨ ∀ t ∈ ir.transitions, R.dropped t ≠ n) →
        R.eliminateAll ir.transitions nodes = ir.transitions := by
    intro R nodes hnodes
    unfold Lib.NodeElimination.Rule.eliminateAll
    induction nodes with
    | nil => rfl
    | cons n nodes ih =>
      have hedge : ∀ e, R.edge ir.transitions n e = some e := by
        intro e
        unfold Lib.NodeElimination.Rule.edge Lib.NodeElimination.Rule.mergedAt
          Lib.NodeElimination.Rule.droppedAt
        rw [if_pos]
        rcases hnodes n List.mem_cons_self with hn | hn
        · have hmerged : (ir.transitions.filter fun t => R.merged t = n) = [] := by
            simpa [List.filter_eq_nil_iff] using hn
          rw [hmerged]
          rfl
        · have hdropped : (ir.transitions.filter fun t => R.dropped t = n) = [] := by
            simpa [List.filter_eq_nil_iff] using hn
          rw [hdropped]
          exact Bool.or_true _
      have hstep : R.eliminate ir.transitions n = ir.transitions := by
        unfold Lib.NodeElimination.Rule.eliminate
        rw [funext hedge, List.filterMap_some]
      rw [List.foldl_cons, hstep]
      exact ih fun m hm => hnodes m (List.mem_cons_of_mem _ hm)
  have hforks : ForkJoinLowering.lowerForks ir.toFsmIr = ir.transitions :=
    hrule _ _ fun n hn => hsteady n (List.mem_append_left _ hn)
  have hjoins : ForkJoinLowering.lowerJoins ir.toFsmIr = ir.transitions := by
    unfold ForkJoinLowering.lowerJoins
    rw [hforks]
    exact hrule _ _ fun n hn => (hsteady n (List.mem_append_right _ hn)).symm
  unfold ForkJoinLowering.run
  split
  · exact h
  · rw [hjoins, indexed_iff_samePlaces hnames h List.filter_sublist]
    exact fun side s _ => SamePlaces.refl _ _

end Passes

/-- Lists that are right stay right where no transition that touches a state is moved, and the passes that
only erase or reorder transitions leave wrong lists everywhere else. -/
theorem keepsIndices_of_steady (ir : WholeIr) (hnames : (ir.states.map (·.name)).Nodup)
    (h : Indexed ir.toFsmIr) (p : Pass) :
    (Steady toInt64 p ir → KeepsIndices toInt64 p ir) ∧
      (p.composes = false → KeepsIndices toInt64 p ir → Steady toInt64 p ir) := by
  have hone : ∀ m : FsmIr, p.run toInt64 ir = some { ir with toFsmIr := m } →
      (KeepsIndices toInt64 p ir ↔ Indexed m) := by
    intro m hrun
    unfold KeepsIndices
    rw [hrun]
    exact ⟨fun hkeeps => hkeeps _ rfl, fun hm ir' heq => by obtain rfl := Option.some.inj heq; exact hm⟩
  cases p with
  | deadStatePruning =>
    rw [hone _ rfl, @deadStatePruning_iff toInt64 ir hnames h]
    exact ⟨id, fun _ => id⟩
  | choiceInlining =>
    rw [hone _ rfl]
    exact ⟨choiceInlining_indexed h, fun hcomposes => absurd hcomposes (by decide)⟩
  | connectiveJunctionChaining =>
    rw [hone _ rfl]
    exact ⟨junctionChaining_indexed hnames h, fun hcomposes => absurd hcomposes (by decide)⟩
  | forkJoinLowering =>
    rw [hone _ rfl]
    exact ⟨forkJoinLowering_indexed hnames h, fun hcomposes => absurd hcomposes (by decide)⟩
  | efsmDataPath =>
    rw [efsmDataPath_iff hnames h]
    exact ⟨id, fun _ => id⟩
  | constantFolding =>
    rw [constantFolding_iff hnames h]
    exact ⟨id, fun _ => id⟩
  | determinismEnforcement =>
    rw [hone _ rfl, @determinismEnforcement_iff toInt64 ir hnames h]
    exact ⟨id, fun _ => id⟩

/-- A machine that never goes from `Idle` to `Run`, whatever it is told. -/
def barred : WholeIr where
  name := "barred"
  initialState := "Idle"
  states := [{ id := "Idle", name := "Idle", fqn := "Idle" }, { id := "Run", name := "Run", fqn := "Run" }]
  transitions := [
    { id := "t1", source := "Idle", target := "Run", event := "go", guard := some "1 == 0" },
    { id := "t2", source := "Idle", target := "Run", event := "start" },
    { id := "t3", source := "Run", target := "Idle", event := "stop" }]

theorem barred_names : (canonicalizeWhole barred).states.map (·.name) = ["Idle", "Run"] := by
  have hrelisted := relisted_rebuildAdjacencyIndices (sortUsed (syncInterfaces (sortDeclared barred))).toFsmIr
  have hsorted : stableSort (fun a b => a.fqn < b.fqn) barred.states = barred.states :=
    stableSort_of_pairwise (by decide)
  calc (canonicalizeWhole barred).states.map (·.name)
      = (stableSort (fun a b => a.fqn < b.fqn) barred.states).map (·.name) := hrelisted.sameNames
    _ = ["Idle", "Run"] := by rw [hsorted]; rfl

theorem barred_transitions : (canonicalizeWhole barred).transitions = barred.transitions.map syncGuard := by
  have hrelisted := relisted_rebuildAdjacencyIndices (sortUsed (syncInterfaces (sortDeclared barred))).toFsmIr
  have hsorted : sortTransitionsByPriority barred.transitions = barred.transitions :=
    stableSort_of_pairwise (by decide)
  calc (canonicalizeWhole barred).transitions = (canonicalize barred.toFsmIr).transitions :=
        hrelisted.transitions
    _ = barred.transitions.map syncGuard := by rw [canonicalize_transitions, hsorted]

theorem barred_nodup : ((canonicalizeWhole barred).states.map (·.name)).Nodup := by
  rw [barred_names]
  decide

/-- The same machine with a guard that is always true. -/
def opened : WholeIr :=
  { barred with
    transitions := [
      { id := "t1", source := "Idle", target := "Run", event := "go", guard := some "1 == 1" },
      { id := "t2", source := "Run", target := "Idle", event := "stop" }] }

/-- No transition is erased, so the lists are right. -/
theorem opened_keepsIndices : KeepsIndices (fun _ => 0) .constantFolding (reindex opened) := by
  refine (keepsIndices_of_steady (fun _ => 0) (reindex opened) (by decide +kernel)
    (indexed_rebuildAdjacencyIndices _) .constantFolding).1 ?_
  rintro - side s - - d i - ⟨t, ht, hfalse⟩
  have hrows : (reindex opened).transitions = opened.transitions :=
    (relisted_rebuildAdjacencyIndices _).transitions
  have hnone : ∀ t ∈ opened.transitions, ConstantFolding.isFalse t = false := by decide +kernel
  rw [hrows] at ht
  exact absurd hfalse (by rw [hnone t (List.mem_of_getElem? ht)]; exact Bool.false_ne_true)

/-- Folding the constant guard erases the first transition, and the lists hold the places of the others as
they were. -/
theorem barred_not_keepsIndices : ¬ ∀ p, KeepsIndices (fun _ => 0) p (canonicalizeWhole barred) := by
  intro h
  have hsteady := (constantFolding_iff barred_nodup (indexed_rebuildAdjacencyIndices _)).mp
    (h .constantFolding)
  have hfolds : ∀ t ∈ (canonicalizeWhole barred).transitions, ConstantFolding.foldGuard t.guard ≠ none := by
    rw [barred_transitions]
    decide +kernel
  have hidle : "Idle" ∈ (canonicalizeWhole barred).states.map (·.name) := by
    rw [barred_names]
    decide
  obtain ⟨s, hs, hname⟩ := List.mem_map.mp hidle
  have hbehind := hsteady hfolds .outgoing s hs rfl 0 0 (Nat.le_refl 0)
  unfold HasAt touches at hbehind
  rw [barred_transitions, hname] at hbehind
  exact hbehind ⟨_, rfl, by decide +kernel⟩ ⟨_, rfl, by decide +kernel⟩

end Fsmc.Passes.AdjacencyIndices
