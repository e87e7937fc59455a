/-
# Fsmc.Passes.StructuralPasses — which passes keep a machine well formed.

The passes that only drop states and redirect transitions, and those that take the states one after another
and add none. For each of them: the condition, and that the references left are to states that are left.
-/
import Fsmc.Ir.WellFormed
import Fsmc.Passes.ChoiceInlining
import Fsmc.Passes.DeadStatePruning
import Fsmc.Passes.DeferredEventLowering
import Fsmc.Passes.ForkJoinLowering
import Fsmc.Passes.HistoryLowering
import Fsmc.Passes.JunctionChaining
import Fsmc.Passes.OrthogonalProduct
import Fsmc.Passes.StateMinimization
import Fsmc.Passes.TransitionFusion

namespace Fsmc.Passes.DeferredEventLowering

open Fsmc.Ir

/-- The pass keeps the names of the states and adds transitions from states to themselves. -/
theorem run_wellFormed {ir : FsmIr} (h : WellFormed ir) : WellFormed (run ir) := by
  have hstep : ∀ (rows : List TransitionEdge) (s : StateNode), s ∈ ir.states →
      (∀ t ∈ rows, Known ir.states t.source ∧ Known ir.states t.target) →
      ∀ t ∈ lowerState rows s, Known ir.states t.source ∧ Known ir.states t.target := by
    intro rows s hs hrows
    have hbuffer : ∀ (events : List String) (rows : List TransitionEdge),
        (∀ t ∈ rows, Known ir.states t.source ∧ Known ir.states t.target) →
        ∀ t ∈ events.foldl (bufferEvent s.name) rows,
          Known ir.states t.source ∧ Known ir.states t.target := by
      intro events
      induction events with
      | nil => exact fun rows hrows => hrows
      | cons event events ih =>
        intro rows hrows
        apply ih
        intro t ht
        unfold bufferEvent at ht
        split at ht
        · exact hrows t ht
        · rcases List.mem_append.mp ht with ht | ht
          · exact hrows t ht
          · rw [List.mem_singleton.mp ht]
            exact ⟨.of_mem hs, .of_mem hs⟩
    intro t ht
    unfold lowerState at ht
    split at ht
    · exact hrows t ht
    · obtain ⟨t', ht', rfl⟩ := List.mem_map.mp ht
      have hrow : (rowOf (recallEdge s.name t')).source = t'.source ∧
          (rowOf (recallEdge s.name t')).target = t'.target := by
        rw [rowOf_recallEdge]
        exact ⟨rfl, rfl⟩
      have hends := hbuffer s.deferredEvents rows hrows t' ht'
      rwa [← hrow.1, ← hrow.2] at hends
  have hfold : ∀ (todo : List StateNode) (rows : List TransitionEdge), todo ⊆ ir.states →
      (∀ t ∈ rows, Known ir.states t.source ∧ Known ir.states t.target) →
      ∀ t ∈ todo.foldl lowerState rows, Known ir.states t.source ∧ Known ir.states t.target := by
    intro todo
    induction todo with
    | nil => exact fun rows _ hrows => hrows
    | cons s todo ih =>
      intro rows hsub hrows
      exact ih _ (fun s' hs' => hsub (List.mem_cons_of_mem s hs'))
        (hstep rows s (hsub List.mem_cons_self) hrows)
  unfold run
  split
  · exact h
  · have hnames : ir.states.map (·.name) ⊆
        (ir.states.map fun s => { s with deferredEvents := [] }).map (·.name) := by
      rw [List.map_map]
      exact List.Subset.refl _
    refine ⟨h.initial.mono hnames, fun t ht => ?_⟩
    obtain ⟨hsource, htarget⟩ := hfold ir.states ir.transitions (List.Subset.refl _) h.ends t ht
    exact ⟨hsource.mono hnames, htarget.mono hnames⟩

end Fsmc.Passes.DeferredEventLowering

namespace Fsmc.Passes.JunctionChaining

open Fsmc.Ir

theorem target_of_mem_pathsFrom {ir : FsmIr} {n : ℕ} : ∀ {t : TransitionEdge}
    {path : List TransitionEdge}, path ∈ pathsFrom ir n t →
      (path.getLastD t).target ∉ junctionNames ir ∧
        (path.getLastD t = t ∨ path.getLastD t ∈ ir.transitions) := by
  induction n with
  | zero =>
    intro t path h
    unfold pathsFrom at h
    split at h
    · rename_i hstate
      obtain rfl := List.mem_singleton.mp h
      exact ⟨hstate, Or.inl rfl⟩
    · exact absurd h (by simp)
  | succ n ih =>
    intro t path h
    by_cases hjunction : t.target ∈ junctionNames ir
    · rw [pathsFrom_of_junction hjunction] at h
      obtain ⟨b, hb, hpath⟩ := List.mem_flatMap.mp h
      obtain ⟨tail, htail, rfl⟩ := List.mem_map.mp hpath
      obtain ⟨rest, rfl, -⟩ := shape_of_mem_pathsFrom htail
      have hlast : (t :: b :: rest).getLastD t = (b :: rest).getLastD b := by
        rw [List.getLastD_cons, List.getLastD_cons, List.getLastD_cons]
      rw [hlast]
      obtain ⟨hstate, hmem⟩ := ih htail
      refine ⟨hstate, Or.inr ?_⟩
      rcases hmem with heq | hmem
      · rw [heq]
        exact (mem_branchesOf.mp hb).1
      · exact hmem
    · rw [pathsFrom_of_state hjunction] at h
      obtain rfl := List.mem_singleton.mp h
      exact ⟨hjunction, Or.inl rfl⟩

theorem run_wellFormed {ir : FsmIr} (h : WellFormed ir)
    (hinitial : ir.initialState ≠ "" → ir.initialState ∉ junctionNames ir) : WellFormed (run ir) := by
  have hkept : ∀ {x : String}, Known ir.states x → x ∉ junctionNames ir →
      Known (ir.states.filter fun s => s.name ∉ junctionNames ir) x := by
    intro x hx hnot
    apply hx.filter
    intro s _ hname
    simpa [hname] using hnot
  have hstart : Known (ir.states.filter fun s => s.name ∉ junctionNames ir) ir.initialState := by
    by_cases hempty : ir.initialState = ""
    · exact Or.inl hempty
    · exact hkept h.initial (hinitial hempty)
  unfold run
  split
  · exact h
  · refine ⟨hstart, fun t ht => ?_⟩
    rcases List.mem_append.mp ht with ht | ht
    · obtain ⟨hmem, hnot⟩ := List.mem_filter.mp ht
      simp only [touches, Bool.not_eq_true', Bool.or_eq_false_iff, decide_eq_false_iff_not] at hnot
      exact ⟨hkept (h.ends t hmem).1 hnot.1, hkept (h.ends t hmem).2 hnot.2⟩
    · obtain ⟨e, he, ht⟩ := List.mem_flatMap.mp ht
      obtain ⟨path, hpath, rfl⟩ := List.mem_map.mp ht
      obtain ⟨hmem, hsource, -⟩ := mem_entering.mp he
      obtain ⟨hstate, hlast⟩ := target_of_mem_pathsFrom hpath
      refine ⟨hkept (h.ends e hmem).1 hsource, ?_⟩
      show Known _ (path.getLastD e).target
      rcases hlast with heq | hlast
      · rw [heq] at hstate ⊢
        exact hkept (h.ends e hmem).2 hstate
      · exact hkept (h.ends _ hlast).2 hstate

end Fsmc.Passes.JunctionChaining

namespace Fsmc.Passes.DeadStatePruning

open Fsmc.Ir Fsmc.Runtime

/-- A name that the pruning leaves. -/
def Survivor (ir : FsmIr) (name : String) : Prop :=
  name = "" ∨ ∃ s ∈ ir.states, s.name = name ∧
    (s.kind = .final ∨ ir.isChoiceNode name = true ∨ Reach ir name)

theorem known_run_iff {ir : FsmIr} {name : String} :
    Known (ir.states.filter (keepsState ir)) name ↔ Survivor ir name := by
  unfold Known Survivor
  apply or_congr_right
  rw [List.mem_map]
  constructor
  · rintro ⟨s, hs, rfl⟩
    obtain ⟨hmem, hkeeps⟩ := List.mem_filter.mp hs
    exact ⟨s, hmem, rfl, by simpa [keepsState, mem_reachable, or_assoc] using hkeeps⟩
  · rintro ⟨s, hs, rfl, hkeeps⟩
    exact ⟨s, List.mem_filter.mpr ⟨hs, by simpa [keepsState, mem_reachable, or_assoc] using hkeeps⟩, rfl⟩

/-- The initial state survives, and so do the targets of transitions without a source. -/
structure KeepsEnds (ir : FsmIr) : Prop where
  initial : Survivor ir ir.initialState
  targets : ∀ t ∈ ir.transitions, takeable t = true → t.source = "" → Survivor ir t.target

theorem run_wellFormed {ir : FsmIr} (h : WellFormed ir) (hkeeps : root ir ≠ "" → KeepsEnds ir) :
    WellFormed (run ir) := by
  by_cases hroot : root ir = ""
  · unfold run
    rw [if_pos hroot]
    exact h
  · have hreach : ∀ {name : String}, Known ir.states name → Reach ir name → Survivor ir name := by
      intro name hknown hreach
      apply hknown.imp_right
      intro hmem
      obtain ⟨s, hs, rfl⟩ := List.mem_map.mp hmem
      exact ⟨s, hs, rfl, Or.inr (Or.inr hreach)⟩
    unfold run
    rw [if_neg hroot]
    refine ⟨known_run_iff.mpr (hkeeps hroot).initial, fun t ht => ?_⟩
    obtain ⟨hmem, hkept⟩ := List.mem_filter.mp ht
    obtain ⟨htake, hsource⟩ := keepsTransition_iff.mp hkept
    show Known (ir.states.filter (keepsState ir)) t.source ∧
      Known (ir.states.filter (keepsState ir)) t.target
    rw [known_run_iff, known_run_iff]
    rcases hsource with hsource | hempty
    · refine ⟨hreach (h.ends t hmem).1 hsource, ?_⟩
      by_cases htarget : t.target = ""
      · exact Or.inl htarget
      · exact hreach (h.ends t hmem).2 (hsource.target hmem htake htarget)
    · exact ⟨Or.inl hempty, (hkeeps hroot).targets t hmem htake hempty⟩

end Fsmc.Passes.DeadStatePruning

namespace Fsmc.Passes.StateMinimization

open Fsmc.Ir Fsmc.Lib.PartitionRefinement

/-- The first member of a group, which stands for the others, is no later member of a group, and neither is
the initial state. -/
structure KeepsFirsts (ir : FsmIr) (partition : List (List String)) : Prop where
  firsts : ∀ c rest, c :: rest ∈ partition → ∀ c' rest', c' :: rest' ∈ partition → c ∉ rest'
  initial : ir.initialState ≠ "" → ∀ c rest, c :: rest ∈ partition → ir.initialState ∉ rest

variable {ir : FsmIr} {partition : List (List String)}

theorem mem_names_of_mem_finalPartition
    (h : finalPartition ir = some partition) {b : List String} (hb : b ∈ partition) :
    b ⊆ ir.states.map (·.name) := by
  unfold finalPartition at h
  split at h
  · simp at h
  · obtain ⟨hrefines, -⟩ := refine_spec (initialBlocks_refines ir) h
    obtain ⟨b₀, hb₀, hsub⟩ := hrefines.sublist b hb
    obtain ⟨group, hgroup, rfl⟩ := mem_initialBlocks hb₀
    exact (hsub.trans ((fillBlock_sublist ir group).trans ((sublist_of_mem_groupBy hgroup).map _))).subset

theorem known_merge {name : String}
    (hknown : Known ir.states name) (hkept : name ≠ "" → ∀ c, (name, c) ∉ remapping partition) :
    Known (ir.states.filter fun s => !(remapping partition).any fun p => p.1 = s.name) name := by
  by_cases hempty : name = ""
  · exact Or.inl hempty
  · apply hknown.filter
    intro s _ hname
    rw [hname, Bool.not_eq_true', List.any_eq_false]
    rintro ⟨a, c⟩ hmem heq
    obtain rfl := of_decide_eq_true heq
    exact hkept hempty c hmem

theorem run_wellFormed (h : WellFormed ir)
    (hkeeps : ∀ partition, finalPartition ir = some partition → KeepsFirsts ir partition) :
    WellFormed (run ir) := by
  unfold run
  cases hfinal : finalPartition ir with
  | none => exact h
  | some partition =>
    have hk := hkeeps partition hfinal
    have hend : ∀ {name : String}, Known ir.states name →
        Known (merge ir partition).states (representative partition name) := by
      intro name hname
      rcases representative_cases partition name with ⟨heq, hnot⟩ | hmem
      · rw [heq]
        exact known_merge hname fun _ => hnot
      · obtain ⟨rest, hb, -⟩ := mem_remapping_iff.mp hmem
        have hin := mem_names_of_mem_finalPartition hfinal hb List.mem_cons_self
        apply known_merge (Or.inr hin)
        rintro - c hreplaced
        obtain ⟨rest', hb', hrest'⟩ := mem_remapping_iff.mp hreplaced
        exact hk.firsts _ _ hb _ _ hb' hrest'
    dsimp only
    split
    · exact h
    · apply WellFormed.canonicalize
      refine ⟨known_merge h.initial fun hne c hreplaced => ?_, fun t ht => ?_⟩
      · obtain ⟨rest, hb, hrest⟩ := mem_remapping_iff.mp hreplaced
        exact hk.initial hne _ _ hb hrest
      · have hmem := (uniqueTransitions_sublist _).subset ht
        obtain ⟨t₀, ht₀, rfl⟩ := List.mem_map.mp hmem
        exact ⟨hend (h.ends t₀ ht₀).1, hend (h.ends t₀ ht₀).2⟩

end Fsmc.Passes.StateMinimization

namespace Fsmc.Passes.TransitionFusion

open Fsmc.Ir

/-- No turn of the loop fuses the initial state. -/
def SparesInitial : ℕ → FsmIr → Prop
  | 0, _ => True
  | fuel + 1, ir =>
    (ir.initialState ≠ "" → ∀ state, ir.states.find? (isTransient ir) = some state →
      state.name ≠ ir.initialState) ∧
      ∀ fused, fuseOnce ir = some fused → SparesInitial fuel fused

theorem fuseOnce_wellFormed {ir fused : FsmIr} (h : WellFormed ir) (hfuse : fuseOnce ir = some fused)
    (hinitial : ir.initialState ≠ "" → ∀ state, ir.states.find? (isTransient ir) = some state →
      state.name ≠ ir.initialState) : WellFormed fused := by
  obtain ⟨state, hmem, outEdge, hfirst, hedge, rfl⟩ := exists_of_fuseOnce hfuse
  have hkept : ∀ {name : String}, Known ir.states name → (name ≠ "" → name ≠ state.name) →
      Known (ir.states.eraseP (isTransient ir)) name := by
    intro name hknown hne
    by_cases hempty : name = ""
    · exact Or.inl hempty
    · refine Or.inr ?_
      obtain ⟨s, hs, rfl⟩ := List.mem_map.mp (hknown.resolve_left hempty)
      refine List.mem_map_of_mem ?_
      obtain ⟨htransient, front, back, hsplit, hfront⟩ := List.find?_eq_some_iff_append.mp hfirst
      rw [hsplit] at hs ⊢
      rw [List.eraseP_append_right _ (by simpa using hfront), List.eraseP_cons_of_pos htransient]
      rcases List.mem_append.mp hs with hs | hs
      · exact List.mem_append_left _ hs
      · rcases List.mem_cons.mp hs with rfl | hs
        · exact absurd rfl (hne hempty)
        · exact List.mem_append_right _ hs
  have hsingle : ir.transitions.filter (leavesState state) = [outEdge] ∧
      entersState state outEdge = false := by
    unfold transientEdge at hedge
    split at hedge
    · cases hedge
    · split at hedge
      · next out hout =>
          split at hedge
          · next hcond =>
              obtain rfl := Option.some.inj hedge
              simp only [Bool.and_eq_true, Bool.not_eq_true'] at hcond
              exact ⟨hout, hcond.2⟩
          · cases hedge
      · cases hedge
  have hsource : ∀ t ∈ ir.transitions, entersState state t = true → t.source ≠ state.name := by
    intro t ht henters heq
    have hleaves : t ∈ ir.transitions.filter (leavesState state) :=
      List.mem_filter.mpr ⟨ht, by simp [leavesState, heq]⟩
    rw [hsingle.1, List.mem_singleton] at hleaves
    rw [hleaves, hsingle.2] at henters
    cases henters
  have hout : outEdge ∈ ir.transitions := by
    have hmem : outEdge ∈ ir.transitions.filter (leavesState state) := by simp [hsingle.1]
    exact (List.mem_filter.mp hmem).1
  have htarget : outEdge.target ≠ state.name := by
    intro heq
    have henters := hsingle.2
    simp [entersState, heq] at henters
  refine ⟨hkept h.initial fun hne => (hinitial hne state hfirst).symm, fun t ht => ?_⟩
  rcases List.mem_append.mp ht with ht | ht
  · obtain ⟨hmem, hapart⟩ := List.mem_filter.mp ht
    have hnot : t.source ≠ state.name ∧ t.target ≠ state.name := by
      simp only [Bool.not_eq_true', Bool.or_eq_false_iff] at hapart
      constructor
      · rintro heq
        simp [leavesState, heq] at hapart
      · rintro heq
        simp [entersState, heq] at hapart
    exact ⟨hkept (h.ends t hmem).1 fun _ => hnot.1, hkept (h.ends t hmem).2 fun _ => hnot.2⟩
  · obtain ⟨inEdge, hin, rfl⟩ := List.mem_map.mp ht
    obtain ⟨hmem, henters⟩ := List.mem_filter.mp hin
    exact ⟨hkept (h.ends inEdge hmem).1 fun _ => hsource inEdge hmem henters,
      hkept (h.ends outEdge hout).2 fun _ => htarget⟩

theorem fuseAll_wellFormed : ∀ (fuel : ℕ) {ir : FsmIr}, WellFormed ir → SparesInitial fuel ir →
    WellFormed (fuseAll fuel ir).1 := by
  intro fuel
  induction fuel with
  | zero => exact fun h _ => h
  | succ fuel ih =>
    intro ir h hspares
    unfold fuseAll
    cases hfuse : fuseOnce ir with
    | none => exact h
    | some fused => exact ih (fuseOnce_wellFormed h hfuse hspares.1) (hspares.2 fused hfuse)

theorem run_wellFormed {ir : FsmIr} (h : WellFormed ir) (hspares : SparesInitial ir.states.length ir) :
    WellFormed (run ir) := by
  have hall := fuseAll_wellFormed ir.states.length h hspares
  unfold run
  dsimp only
  split
  · exact hall.canonicalize
  · exact hall

end Fsmc.Passes.TransitionFusion

namespace Fsmc.Passes.ForkJoinLowering

open Fsmc.Ir Fsmc.Lib Fsmc.Lib.NodeElimination

/-- The initial state is no fork and no join, and each fork and each join is bridged at its turn. -/
structure AllBridged (ir : FsmIr) : Prop where
  initial : ir.initialState ≠ "" → ir.initialState ∉ pseudoNodes ir
  forks : Meets (Bridged forkRule) forkRule.eliminate (forkNodes ir) ir.transitions
  joins : Meets (Bridged joinRule) joinRule.eliminate (joinNodes ir) (lowerForks ir)

theorem mem_pseudoNodes {ir : FsmIr} {s : StateNode} (hs : s ∈ ir.states)
    (hkind : s.kind = .fork ∨ s.kind = .join) : s.name ∈ pseudoNodes ir := by
  rcases hkind with hkind | hkind
  · exact mem_pseudo_of_fork (List.mem_map_of_mem (List.mem_filter.mpr ⟨hs, by simp [hkind]⟩))
  · exact mem_pseudo_of_join (List.mem_map_of_mem (List.mem_filter.mpr ⟨hs, by simp [hkind]⟩))

/-- Lowering removes forks and joins, and no transition touches one any more. -/
theorem run_wellFormed {ir : FsmIr} (h : WellFormed ir) (hbridged : AllBridged ir) : WellFormed (run ir) := by
  have hkept : ∀ {x : String}, Known ir.states x → (x ≠ "" → x ∉ pseudoNodes ir) →
      Known (ir.states.filter fun s => !(s.kind = .fork || s.kind = .join)) x := by
    intro x hx hnot
    by_cases hempty : x = ""
    · exact Or.inl hempty
    · apply hx.filter
      intro s hs hname
      have hkind : ¬ (s.kind = .fork ∨ s.kind = .join) := fun hkind =>
        hnot hempty (hname ▸ mem_pseudoNodes hs hkind)
      simpa using hkind
  obtain ⟨hforks, hforkEnds⟩ := gone_eliminateAll forkRule_lawful hbridged.forks
  obtain ⟨hjoins, hjoinEnds⟩ := gone_eliminateAll joinRule_lawful hbridged.joins
  unfold run
  split
  · exact h
  · refine ⟨hkept h.initial hbridged.initial, fun x hx => ?_⟩
    -- the ends of what is left are ends that were left by the forks, and those ends of the machine
    obtain ⟨⟨d, hd, hdropped⟩, e, he, hmerged⟩ := hjoinEnds x hx
    have htarget : d.target = x.target := hdropped
    have hsource : e.source = x.source := hmerged
    have hends : (Known ir.states x.source ∧ Known ir.states x.target) := by
      obtain ⟨⟨s, hs, hs'⟩, -⟩ := hforkEnds e he
      obtain ⟨-, t, ht, ht'⟩ := hforkEnds d hd
      have hs'' : s.source = x.source := hs'.trans hsource
      have ht'' : t.target = x.target := ht'.trans htarget
      exact ⟨hs'' ▸ (h.ends s hs).1, ht'' ▸ (h.ends t ht).2⟩
    have hapart : x.source ∉ pseudoNodes ir ∧ x.target ∉ pseudoNodes ir := by
      constructor
      · intro hmem
        rcases List.mem_append.mp hmem with hmem | hmem
        · exact (hforks _ hmem e he).1 hsource
        · exact (hjoins _ hmem x hx).2 rfl
      · intro hmem
        rcases List.mem_append.mp hmem with hmem | hmem
        · exact (hforks _ hmem d hd).2 htarget
        · exact (hjoins _ hmem x hx).1 rfl
    exact ⟨hkept hends.1 fun _ => hapart.1, hkept hends.2 fun _ => hapart.2⟩

end Fsmc.Passes.ForkJoinLowering

namespace Fsmc.Passes.ChoiceInlining

open Fsmc.Ir Fsmc.Lib

/-- A choice that is inlined is not the initial state and has no edge to itself. -/
def Passable (acc : FsmIr × Bool) (choice : String) : Prop :=
  choice ≠ "" → inlines choice acc.1.transitions = true →
    acc.1.initialState ≠ choice ∧ ∀ t ∈ acc.1.transitions, t.target = choice → t.source ≠ choice

theorem inlineStep_wellFormed {acc : FsmIr × Bool} {choice : String} (h : WellFormed acc.1)
    (hpass : Passable acc choice) : WellFormed (inlineStep acc choice).1 := by
  have hkept : ∀ {x : String}, Known acc.1.states x → (choice ≠ "" → x ≠ choice) →
      Known (acc.1.states.filter fun s => s.name ≠ choice) x := by
    intro x hx hne
    by_cases hempty : x = ""
    · exact Or.inl hempty
    · apply hx.filter
      intro s _ hname
      have hnot : s.name ≠ choice := by
        intro heq
        have hx' : x = choice := hname.symm.trans heq
        exact hne (hx' ▸ hempty) hx'
      simpa using hnot
  unfold inlineStep
  split
  · next hinlines =>
      have hpass' := fun hne => hpass hne hinlines
      refine ⟨hkept h.initial fun hne => (hpass' hne).1, fun b hb => ?_⟩
      rcases mem_inlineChoice.mp hb with ⟨hmem, htarget, hsource⟩ | hb
      · exact ⟨hkept (h.ends b hmem).1 fun _ => hsource, hkept (h.ends b hmem).2 fun _ => htarget⟩
      · obtain ⟨i, himem, hitarget, o, homem, ⟨hotarget, -⟩, rfl⟩ := hb
        exact ⟨hkept (h.ends i himem).1 fun hne => (hpass' hne).2 i himem hitarget,
          hkept (h.ends o homem).2 fun _ => hotarget⟩
  · exact h

theorem run_wellFormed {ir : FsmIr} (h : WellFormed ir)
    (hpass : Meets Passable inlineStep (choiceNames ir) (ir, false)) : WellFormed (run ir).1 := by
  unfold run
  split
  · exact h
  · exact foldl_inv_of_meets (fun _ acc => WellFormed acc.1)
      (fun _ _ _ _ hacc hok => inlineStep_wellFormed hacc hok) hpass h

end Fsmc.Passes.ChoiceInlining
