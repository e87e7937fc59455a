/-
# Fsmc.ModelChecker.Graph — the state graph and its exploration.

The model checker works on two graphs over state names. `adj_` holds the transitions (`edgesFrom`,
`Step`). The breadth-first exploration that computes `reachable_states_` follows these edges and, out of
a composite state, also enters its children (`outEdges`, `Explore`). Everything that is explored comes
from the root state; `mem_reachableStates` says that it is exactly what walks of `Explore` reach.
-/
import Fsmc.Lib.Worklist
import Fsmc.Cpp.Hash
import Fsmc.Ir.FsmIr
import Fsmc.Analysis.Interval

namespace Fsmc

open Relation Fsmc.Lib Fsmc.Cpp Fsmc.Ir Fsmc.Analysis

/-- `GraphEdge`: where an edge leads, and the event and guard it is shown with. -/
structure GraphEdge where
  target : String
  event : String
  guard : String
  deriving DecidableEq, Repr

/-- `ModelChecker`: the model it was built from and the intervals of its data paths. What the source
keeps in further members (`root_state_`, `adj_`, `reachable_states_`, `predecessor_map_`) is computed
from the model below. `order` is the iteration order of its unordered containers. -/
structure ModelChecker where
  order : HashOrder
  ir : FsmIr
  stateIntervals : StateIntervals

/-- The edge that a transition contributes. -/
def edgeOf (t : TransitionEdge) : GraphEdge where
  target := t.target
  event := if t.event = "" then t.getTriggerName else t.event
  guard := t.guard.getD ""

/-- Whether a transition has both ends. -/
def Resolved (t : TransitionEdge) : Prop := t.source ≠ "" ∧ t.target ≠ ""

instance (t : TransitionEdge) : Decidable (Resolved t) :=
  inferInstanceAs (Decidable (_ ∧ _))

/-- What `build_graph` does with a transition: its edge is stored under its source. -/
def addEdge (adj : List (String × List GraphEdge)) (t : TransitionEdge) :
    List (String × List GraphEdge) :=
  if Resolved t then pushBack t.source (edgeOf t) adj else adj

namespace ModelChecker

variable (mc : ModelChecker)

def rootState : String :=
  let root := if mc.ir.initialStateId = "" then mc.ir.initialState else mc.ir.initialStateId
  -- a model that names no initial state starts in its first one
  if root = "" then
    match mc.ir.states with
    | [] => root
    | s :: _ => s.name
  else root

/-- `adj_`: the edges of each source, in the order of the transitions. -/
def adj : List (String × List GraphEdge) :=
  mc.ir.transitions.foldl addEdge []

/-- The edges out of a state; a state without an entry in `adj_` has none. -/
def edgesFrom (s : String) : List GraphEdge := valuesAt mc.adj s

/-- The edges by which a composite state enters its children. -/
def childEdges (curr : String) : List GraphEdge :=
  match mc.ir.findState curr with
  | some s =>
    -- every child is entered, not only the initial one, and never the parent of `curr`
    if s.isComposite then
      (mc.ir.states.filter fun sub => sub.parentState = curr).map fun sub =>
        ⟨sub.name, "enter_composite", ""⟩
    else []
  | none => []

/-- The edges that the exploration follows out of a state, in this order. -/
def outEdges (curr : String) : List GraphEdge := mc.childEdges curr ++ mc.edgesFrom curr

def Step : String → String → Prop := EdgeStep mc.edgesFrom GraphEdge.target

def Explore : String → String → Prop := EdgeStep mc.outEdges GraphEdge.target

instance (a b : String) : Decidable (mc.Step a b) :=
  inferInstanceAs (Decidable (∃ e ∈ mc.edgesFrom a, e.target = b))

/-! ## The edges -/

variable {mc}

variable {s : String} {a b : String}

variable {acc : List (String × List GraphEdge)} {ts : List TransitionEdge}

theorem valuesAt_foldl_addEdge :
    valuesAt (ts.foldl addEdge acc) s =
      valuesAt acc s ++ (ts.filter fun t => decide (Resolved t ∧ t.source = s)).map edgeOf := by
  induction ts generalizing acc with
  | nil => simp
  | cons t ts ih =>
    rw [List.foldl_cons, ih]
    by_cases hr : Resolved t
    · rw [addEdge, if_pos hr, valuesAt_pushBack, List.append_assoc]
      by_cases hs : t.source = s
      · rw [if_pos hs.symm, List.filter_cons_of_pos (by simp [hr, hs])]
        rfl
      · rw [if_neg (Ne.symm hs), List.filter_cons_of_neg (by simp [hs])]
        rfl
    · rw [addEdge, if_neg hr, List.filter_cons_of_neg (by simp [hr])]

theorem edgesFrom_eq (s : String) : mc.edgesFrom s =
    (mc.ir.transitions.filter fun t => decide (Resolved t ∧ t.source = s)).map edgeOf := by
  rw [edgesFrom, adj, valuesAt_foldl_addEdge]
  rfl

theorem step_iff : mc.Step a b ↔ ∃ t ∈ mc.ir.transitions, Resolved t ∧ t.source = a ∧ t.target = b := by
  constructor
  · rintro ⟨e, he, rfl⟩
    rw [edgesFrom_eq] at he
    obtain ⟨t, ht, rfl⟩ := List.mem_map.mp he
    rw [List.mem_filter, decide_eq_true_eq] at ht
    exact ⟨t, ht.1, ht.2.1, ht.2.2, rfl⟩
  · rintro ⟨t, ht, hr, rfl, rfl⟩
    refine ⟨edgeOf t, ?_, rfl⟩
    rw [edgesFrom_eq]
    exact List.mem_map.mpr ⟨t, List.mem_filter.mpr ⟨ht, by simp [hr]⟩, rfl⟩

theorem terminal_iff : Terminal mc.Step s ↔ mc.edgesFrom s = [] := by
  constructor
  · intro h
    refine List.eq_nil_iff_forall_not_mem.mpr fun e he => ?_
    exact h e.target ⟨e, he, rfl⟩
  · rintro h t ⟨e, he, _⟩
    rw [h] at he
    exact absurd he List.not_mem_nil

theorem nodup_keys_foldl_addEdge
    (h : (acc.map Prod.fst).Nodup) :
    ((ts.foldl addEdge acc).map Prod.fst).Nodup := by
  induction ts generalizing acc with
  | nil => exact h
  | cons t ts ih =>
    rw [List.foldl_cons]
    refine ih ?_
    by_cases hr : Resolved t
    · rw [addEdge, if_pos hr]
      exact nodup_keys_pushBack h
    · rwa [addEdge, if_neg hr]

theorem nodup_keys_adj : (mc.adj.map Prod.fst).Nodup :=
  nodup_keys_foldl_addEdge List.nodup_nil

theorem mem_adj_iff {es : List GraphEdge} (hes : es ≠ []) : (s, es) ∈ mc.adj ↔ mc.edgesFrom s = es := by
  constructor
  · exact fun h => valuesAt_of_mem nodup_keys_adj h
  · rintro rfl
    exact mem_of_valuesAt_ne_nil hes

theorem explore_iff : mc.Explore a b ↔ mc.Step a b ∨ ∃ s, mc.ir.findState a = some s ∧ s.isComposite = true ∧
      ∃ sub ∈ mc.ir.states, sub.parentState = a ∧ sub.name = b := by
  have hchild : (∃ e ∈ mc.childEdges a, e.target = b) ↔ ∃ s, mc.ir.findState a = some s ∧
      s.isComposite = true ∧ ∃ sub ∈ mc.ir.states, sub.parentState = a ∧ sub.name = b := by
    cases hs : mc.ir.findState a with
    | none => simp [childEdges, hs]
    | some s =>
      by_cases hc : s.isComposite = true
      · simp [childEdges, hs, hc, and_assoc]
      · simp [childEdges, hs, hc]
  rw [← hchild, or_comm]
  simp only [Explore, EdgeStep, outEdges, List.mem_append, or_and_right, exists_or, Step]

theorem Step.explore (h : mc.Step a b) : mc.Explore a b :=
  explore_iff.mpr (Or.inl h)

theorem explore_of_flat (hflat : ∀ s ∈ mc.ir.states, s.isComposite = false) : mc.Explore a b ↔ mc.Step a b := by
  rw [explore_iff]
  refine ⟨fun h => h.resolve_right ?_, Or.inl⟩
  rintro ⟨s, hs, hc, _⟩
  have hmem : s ∈ mc.ir.states := (FsmIr.findState_spec hs).1
  exact absurd hc (by simp [hflat s hmem])

/-! ## The exploration -/

variable (mc)

/-- Every name that an edge leads to. -/
def targets : List String := mc.ir.states.map (·.name) ++ mc.ir.transitions.map (·.target)

theorem target_mem_targets (a : String) : ∀ e ∈ mc.outEdges a, e.target ∈ mc.targets := by
  intro e he
  have hstep : mc.Explore a e.target := ⟨e, he, rfl⟩
  rcases explore_iff.mp hstep with hstep | ⟨_, _, _, sub, hsub, _, hname⟩
  · obtain ⟨t, ht, _, _, htarget⟩ := step_iff.mp hstep
    rw [← htarget]
    exact List.mem_append_right _ (List.mem_map_of_mem ht)
  · rw [← hname]
    exact List.mem_append_left _ (List.mem_map_of_mem hsub)

/-- The breadth-first search of `build_graph`, from the root state on. -/
def explored : Frontier String GraphEdge :=
  if mc.rootState = "" then ⟨[], [], []⟩
  else (searchFrom mc.target_mem_targets (fun _ => false) mc.rootState).2

def reachableStates : List String := mc.explored.seen

/-- `predecessor_map_`: the state and the edge through which a state was discovered. -/
def predecessorMap : List (String × String × GraphEdge) := mc.explored.predecessors

variable {mc}

/-- **The explored states** are those that walks of the exploration reach from the root. -/
theorem mem_reachableStates :
    s ∈ mc.reachableStates ↔ mc.rootState ≠ "" ∧ ReflTransGen mc.Explore mc.rootState s := by
  by_cases hroot : mc.rootState = ""
  · simp [reachableStates, explored, hroot]
  · rcases searchFrom_spec mc.target_mem_targets (fun _ => false) mc.rootState with ⟨_, _, _, hstop⟩ | ⟨_, hseen, _⟩
    · exact absurd hstop (by simp)
    · rw [reachableStates, explored, if_neg hroot, hseen s]
      exact ⟨fun h => ⟨hroot, h⟩, fun h => h.2⟩

theorem rootState_reachable (h : mc.rootState ≠ "") : mc.rootState ∈ mc.reachableStates :=
  mem_reachableStates.mpr ⟨h, ReflTransGen.refl⟩

theorem reachableStates_closed : Closed mc.Step {s | s ∈ mc.reachableStates} := by
  intro a b ha hab
  obtain ⟨hroot, hwalk⟩ := mem_reachableStates.mp ha
  exact mem_reachableStates.mpr ⟨hroot, hwalk.tail hab.explore⟩

theorem reachable_of_walk (hroot : mc.rootState ≠ "")
    (h : ReflTransGen mc.Step mc.rootState s) : s ∈ mc.reachableStates :=
  reachableStates_closed.walk (rootState_reachable hroot) h

theorem walk_of_reachable_flat (hflat : ∀ s ∈ mc.ir.states, s.isComposite = false)
    (h : s ∈ mc.reachableStates) : ReflTransGen mc.Step mc.rootState s :=
  ReflTransGen.mono (fun _ _ => (explore_of_flat hflat).mp) _ _ (mem_reachableStates.mp h).2

end ModelChecker

end Fsmc
