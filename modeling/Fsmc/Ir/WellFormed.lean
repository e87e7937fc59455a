/-
# Fsmc.Ir.WellFormed — the references of a machine that must lead to states.

The initial state and the ends of the transitions name states, or nothing. What a pass does to a machine
is checked against this in two parts: the names that it uses, and the states that it leaves.
-/
import Fsmc.Ir.GraphOps

namespace Fsmc.Ir

inductive EventDispatchSemantics where
  | singleEventRunToCompletion
  | synchronousReactive
  | activeObjectAsynchronous
  deriving DecidableEq, Repr

inductive OrthogonalConflictResolution where
  | interleaved
  | simultaneousSynchronous
  | priorityOrdered
  | documentOrder
  deriving DecidableEq, Repr

inductive DatapathIsolation where
  | sharedDatapath
  | partitionedDatapath
  deriving DecidableEq, Repr

/-- `ConcurrencySemantics`, which a machine carries along and no transformation looks at. -/
structure ConcurrencySemantics where
  dispatch : EventDispatchSemantics := .singleEventRunToCompletion
  orthogonalConflict : OrthogonalConflictResolution := .simultaneousSynchronous
  datapathIsolation : DatapathIsolation := .sharedDatapath
  deriving DecidableEq, Repr

def ConcurrencySemantics.isValid (c : ConcurrencySemantics) : Bool :=
  !(c.dispatch = .synchronousReactive && c.orthogonalConflict = .interleaved)

def isWellFormed (concurrency : ConcurrencySemantics) (ir : FsmIr) : Bool :=
  concurrency.isValid &&
    !(ir.initialState ≠ "" && (ir.findState ir.initialState).isNone) &&
      ir.transitions.all fun tr =>
        !(tr.source ≠ "" && (ir.findState tr.source).isNone) &&
          !(tr.target ≠ "" && (ir.findState tr.target).isNone)

/-- A reference that is empty or leads to a state. -/
def Known (states : List StateNode) (name : String) : Prop := name = "" ∨ name ∈ states.map (·.name)

/-- All references are empty or lead to states. -/
structure WellFormed (ir : FsmIr) : Prop where
  initial : Known ir.states ir.initialState
  ends : ∀ t ∈ ir.transitions, Known ir.states t.source ∧ Known ir.states t.target

variable {ir ir' : FsmIr} {states states' : List StateNode} {name : String}

theorem known_iff : Known ir.states name ↔ (!(name ≠ "" && (ir.findState name).isNone)) = true := by
  unfold Known FsmIr.findState
  by_cases hempty : name = ""
  · simp [hempty]
  · simp [hempty]

theorem isWellFormed_iff {c : ConcurrencySemantics} :
    isWellFormed c ir = true ↔ c.isValid = true ∧ WellFormed ir := by
  unfold isWellFormed
  rw [Bool.and_eq_true, Bool.and_eq_true, ← known_iff, List.all_eq_true, and_assoc]
  apply and_congr_right
  intro _
  constructor
  · rintro ⟨hinitial, hends⟩
    refine ⟨hinitial, fun t ht => ?_⟩
    have h := hends t ht
    rw [Bool.and_eq_true, ← known_iff, ← known_iff] at h
    exact h
  · rintro ⟨hinitial, hends⟩
    refine ⟨hinitial, fun t ht => ?_⟩
    rw [Bool.and_eq_true, ← known_iff, ← known_iff]
    exact hends t ht

theorem Known.of_mem {s : StateNode} (h : s ∈ states) : Known states s.name :=
  Or.inr (List.mem_map_of_mem h)

theorem Known.mono (h : Known states name) (hsub : states.map (·.name) ⊆ states'.map (·.name)) : Known states' name :=
  h.imp_right fun hmem => hsub hmem

theorem Known.filter (h : Known states name) {p : StateNode → Bool}
    (hp : ∀ s ∈ states, s.name = name → p s = true) : Known (states.filter p) name := by
  apply h.imp_right
  intro hmem
  obtain ⟨s, hs, hname⟩ := List.mem_map.mp hmem
  exact List.mem_map.mpr ⟨s, List.mem_filter.mpr ⟨hs, hp s hs hname⟩, hname⟩

theorem WellFormed.congr (h : WellFormed ir) (hinitial : ir'.initialState = ir.initialState)
    (hstates : ir.states.map (·.name) ⊆ ir'.states.map (·.name))
    (hends : ∀ t' ∈ ir'.transitions, ∃ t ∈ ir.transitions, t.source = t'.source ∧ t.target = t'.target) :
    WellFormed ir' := by
  refine ⟨hinitial ▸ h.initial.mono hstates, fun t' ht' => ?_⟩
  obtain ⟨t, ht, hsource, htarget⟩ := hends t' ht'
  rw [← hsource, ← htarget]
  exact ⟨(h.ends t ht).1.mono hstates, (h.ends t ht).2.mono hstates⟩

theorem map_name_modifyState (ir : FsmIr) (stateName : String) {f : StateNode → StateNode}
    (hf : ∀ s, (f s).name = s.name) :
    (ir.modifyState stateName f).states.map (·.name) = ir.states.map (·.name) :=
  map_modifyFirst hf ir.states

theorem WellFormed.canonicalize (h : WellFormed ir) : WellFormed (canonicalize ir) := by
  refine h.congr (rfl : (Fsmc.Ir.canonicalize ir).initialState = ir.initialState) ?_ ?_
  · intro name hmem
    obtain ⟨s, hs, rfl⟩ := List.mem_map.mp hmem
    exact List.mem_map_of_mem (List.mem_mergeSort.mpr hs)
  · intro t' ht'
    obtain ⟨t, ht, rfl⟩ := List.mem_map.mp (List.mem_mergeSort.mp ht')
    exact ⟨t, ht, rfl, rfl⟩

theorem WellFormed.normalizeHierarchy (h : WellFormed ir) : WellFormed (normalizeHierarchy ir) := by
  have hinitial : (Fsmc.Ir.normalizeHierarchy ir).initialState = ir.initialState := by
    have hfold : ∀ (rows : List TransitionEdge) (m : FsmIr),
        (rows.foldl clearParent m).initialState = m.initialState := by
      intro rows
      induction rows with
      | nil => exact fun m => rfl
      | cons t rows ih =>
        intro m
        refine (ih _).trans ?_
        unfold clearParent
        split <;> rfl
    show (ir.transitions.foldl clearParent _).initialState = _
    rw [hfold]
    split <;> rfl
  apply h.congr hinitial
  · intro name hmem
    have hsame := (sameStates_normalizeHierarchy ir)
    obtain ⟨s, hs, rfl⟩ := List.mem_map.mp hmem
    obtain ⟨i, hi, rfl⟩ := List.mem_iff_getElem.mp hs
    have hlength := hsame.length_eq
    have hrel := (List.forall₂_iff_get.mp hsame).2 i hi (hlength ▸ hi)
    exact List.mem_map.mpr ⟨_, List.get_mem _ _, hrel.name⟩
  · intro t ht
    rw [normalizeHierarchy_transitions] at ht
    exact ⟨t, ht, rfl, rfl⟩

end Fsmc.Ir
