/-
# Fsmc.Ir.GraphOps — operations on the state graph.
-/
import Fsmc.Cpp.Algorithm
import Fsmc.Ir.FsmIr
import Mathlib.Data.Prod.Lex

namespace Fsmc.Ir

open Fsmc.Cpp Fsmc.Lib.FirstMatch

/-- The number that stands for a priority in a sort: `0` counts as the largest number. -/
def precedence (priority : UInt32) : ℕ := if priority = 0 then 4294967295 else priority.toNat

theorem precedence_le (priority : UInt32) : precedence priority ≤ 4294967295 := by
  have hlt : priority.toNat < 4294967296 := priority.toNat_lt
  unfold precedence
  split <;> omega

/-- `source_order`: the position of the first transition of a source. -/
def sourceOrder (transitions : List TransitionEdge) (source : String) : ℕ :=
  (transitions.map (·.source)).idxOf source

/-- The comparator of `sort_transitions_by_priority`. -/
def byPriority (transitions : List TransitionEdge) (a b : TransitionEdge) : Bool :=
  if a.source ≠ b.source then sourceOrder transitions a.source < sourceOrder transitions b.source
  else precedence a.priority < precedence b.priority

def sortTransitionsByPriority (transitions : List TransitionEdge) : List TransitionEdge :=
  stableSort (byPriority transitions) transitions

theorem sourceOrder_inj {transitions : List TransitionEdge} {a b : TransitionEdge} (ha : a ∈ transitions)
    (h : sourceOrder transitions a.source = sourceOrder transitions b.source) :
    a.source = b.source :=
  (List.idxOf_inj (List.mem_map_of_mem ha)).mp h

theorem sortTransitionsByPriority_eq (transitions : List TransitionEdge) : sortTransitionsByPriority transitions =
      sortByKey (fun t => toLex (sourceOrder transitions t.source, precedence t.priority))
        transitions := by
  apply stableSort_eq_sortByKey
  intro a ha b hb
  unfold byPriority
  simp only [Prod.Lex.toLex_lt_toLex]
  by_cases hs : a.source = b.source
  · simp [hs]
  · have hne : sourceOrder transitions a.source ≠ sourceOrder transitions b.source :=
      fun h => hs (sourceOrder_inj ha h)
    simp [hs, hne]

/-- The guard text follows the structured guard, which is made from the text when it is missing. -/
def syncGuard (t : TransitionEdge) : TransitionEdge :=
  { t with
    guard :=
      match t.guardAst with
      | some ast => some ast.toCpp
      | none => t.guard
    guardAst :=
      match t.guardAst, t.guard with
      | some ast, _ => some ast
      | none, some text => if text ≠ "" then some { expression := text } else none
      | none, none => none }

/-- `canonicalize`; the interface tables and adjacency indices that it rebuilds are left out. -/
def canonicalize (ir : FsmIr) : FsmIr :=
  { ir with
    initialStateId := if ir.initialStateId = "" then ir.initialState else ir.initialStateId
    transitions := sortTransitionsByPriority (ir.transitions.map syncGuard)
    states := stableSort (fun a b => a.fqn < b.fqn) ir.states
    ports := stableSort (fun a b => a.name < b.name) ir.ports
    vars := stableSort (fun a b => a.name < b.name) ir.vars
    properties := stableSort (fun a b => a.name < b.name) ir.properties }

@[simp] theorem syncGuard_getGuard (t : TransitionEdge) : (syncGuard t).getGuard = t.getGuard := by
  unfold syncGuard TransitionEdge.getGuard
  cases hast : t.guardAst with
  | some ast => simp
  | none =>
    cases hguard : t.guard with
    | none => rfl
    | some text => by_cases htext : text = "" <;> simp [htext, GuardAstNode.toCpp]

/-! ## Hierarchy -/

/-- Change the first element that has a property. -/
def modifyFirst {α : Type*} (p : α → Bool) (f : α → α) : List α → List α
  | [] => []
  | a :: l => if p a then f a :: l else a :: modifyFirst p f l

theorem map_modifyFirst {α β : Type*} {p : α → Bool} {f : α → α} {g : α → β} (hg : ∀ a, g (f a) = g a)
    (l : List α) : (modifyFirst p f l).map g = l.map g := by
  induction l with
  | nil => rfl
  | cons a l ih =>
    unfold modifyFirst
    split
    · rw [List.map_cons, List.map_cons, hg]
    · rw [List.map_cons, List.map_cons, ih]

/-- Change the state that `find_state_mut` finds. -/
def FsmIr.modifyState (ir : FsmIr) (stateName : String) (f : StateNode → StateNode) : FsmIr :=
  { ir with states := modifyFirst (fun s => s.name = stateName) f ir.states }

theorem FsmIr.findState_name {ir : FsmIr} (h : (ir.states.map (·.name)).Nodup) {n : StateNode}
    (hn : n ∈ ir.states) : ir.findState n.name = some n := by
  unfold FsmIr.findState
  obtain ⟨l, l', hsplit⟩ := List.append_of_mem hn
  rw [hsplit, List.map_append, List.map_cons] at h
  have hfirst : ∀ m ∈ l, m.name ≠ n.name := fun m hm =>
    (List.nodup_append.mp h).2.2 m.name (List.mem_map_of_mem hm) n.name List.mem_cons_self
  rw [hsplit, List.find?_append, List.find?_eq_none.mpr (by simpa using hfirst)]
  simp

variable (ir : FsmIr) {f : StateNode → StateNode}

/-- A change that keeps the names is seen by those who look for that state only. -/
theorem FsmIr.findState_modifyState (stateName s : String)
    (hf : ∀ n, (f n).name = n.name) :
    (ir.modifyState stateName f).findState s =
      if s = stateName then (ir.findState s).map f else ir.findState s := by
  show (modifyFirst _ f ir.states).find? _ = if _ then (ir.states.find? _).map f else ir.states.find? _
  induction ir.states with
  | nil => simp [modifyFirst]
  | cons n states ih =>
    unfold modifyFirst
    by_cases hn : n.name = stateName
    · by_cases hs : s = stateName
      · simp [hn, hs, hf]
      · have hne : ¬ stateName = s := fun h => hs h.symm
        simp [hn, hs, hf, hne]
    · by_cases hs : n.name = s
      · have hne : ¬ s = stateName := fun h => hn (hs.trans h)
        simp [hs, hne]
      · simp [hn, hs, ih]

/-- The source of a transition at the root scope is at the root, unless its parent is pinned. -/
def clearParent (ir : FsmIr) (t : TransitionEdge) : FsmIr :=
  if t.parentScope = "" ∧ t.source ≠ "" then
    ir.modifyState t.source fun s => if s.pinnedParent then s else { s with parentState := "" }
  else ir

/-- The children of a state are those that name it as their parent. -/
def rebuildChildren (states : List StateNode) (p : StateNode) : StateNode :=
  let children := states.filter fun c => c.parentState = p.name
  let isComposite := !children.isEmpty || p.initialSubState ≠ ""
  { p with
    childrenIds := children.map (·.id)
    isComposite := isComposite
    kind := if isComposite && p.kind = .atomic then .composite else p.kind }

def normalizeHierarchy (ir : FsmIr) : FsmIr :=
  let rooted :=
    if ir.initialState = "" then ir
    else ir.modifyState ir.initialState fun s => { s with parentState := "" }
  let cleared := ir.transitions.foldl clearParent rooted
  { cleared with states := cleared.states.map (rebuildChildren cleared.states) }

/-- A state that is entered and left like another one of the same name. -/
structure SameState (s s' : StateNode) : Prop where
  name : s'.name = s.name
  entryActions : s'.entryActions = s.entryActions
  exitActions : s'.exitActions = s.exitActions

/-- The states of two machines are the same, one by one. -/
abbrev SameStates (ir ir' : FsmIr) : Prop := List.Forall₂ SameState ir.states ir'.states

theorem sameState_trans {l l' l'' : List StateNode} (h : List.Forall₂ SameState l l')
    (h' : List.Forall₂ SameState l' l'') : List.Forall₂ SameState l l'' := by
  induction h generalizing l'' with
  | nil => exact h'
  | cons hs _ ih =>
    cases h' with
    | cons hs' hrest =>
      exact .cons ⟨hs'.name.trans hs.name, hs'.entryActions.trans hs.entryActions,
        hs'.exitActions.trans hs.exitActions⟩ (ih hrest)

theorem forall₂_sameState_refl (l : List StateNode) : List.Forall₂ SameState l l :=
  List.forall₂_same.mpr fun _ _ => ⟨rfl, rfl, rfl⟩

theorem sameStates_modifyState (stateName : String)
    (hf : ∀ s, SameState s (f s)) : SameStates ir (ir.modifyState stateName f) := by
  show List.Forall₂ SameState ir.states (modifyFirst _ f ir.states)
  induction ir.states with
  | nil => exact .nil
  | cons s states ih =>
    unfold modifyFirst
    split
    · exact .cons (hf s) (forall₂_sameState_refl states)
    · exact .cons ⟨rfl, rfl, rfl⟩ ih

theorem sameStates_normalizeHierarchy : SameStates ir (normalizeHierarchy ir) := by
  let rooted :=
    if ir.initialState = "" then ir
    else ir.modifyState ir.initialState fun s => { s with parentState := "" }
  have hrooted : SameStates ir rooted := by
    show SameStates ir (if ir.initialState = "" then ir else _)
    split
    · exact forall₂_sameState_refl _
    · exact sameStates_modifyState ir _ fun s => ⟨rfl, rfl, rfl⟩
  have hcleared : ∀ (rows : List TransitionEdge) (m : FsmIr), SameStates m (rows.foldl clearParent m) := by
    intro rows
    induction rows with
    | nil => exact fun m => forall₂_sameState_refl _
    | cons t rows ih =>
      intro m
      have hstep : SameStates m (clearParent m t) := by
        unfold clearParent
        split
        · apply sameStates_modifyState
          intro s
          split <;> exact ⟨rfl, rfl, rfl⟩
        · exact forall₂_sameState_refl _
      exact sameState_trans hstep (ih _)
  have hchildren : ∀ m : FsmIr,
      SameStates m { m with states := m.states.map (rebuildChildren m.states) } := by
    intro m
    show List.Forall₂ SameState m.states (m.states.map _)
    rw [List.forall₂_map_right_iff]
    exact List.forall₂_same.mpr fun s _ => ⟨rfl, rfl, rfl⟩
  exact sameState_trans (sameState_trans hrooted (hcleared ir.transitions rooted)) (hchildren _)

theorem normalizeHierarchy_transitions : (normalizeHierarchy ir).transitions = ir.transitions := by
  have hmodify : ∀ (m : FsmIr) (t : TransitionEdge), (clearParent m t).transitions = m.transitions := by
    intro m t
    unfold clearParent
    split <;> rfl
  have hfold : ∀ (rows : List TransitionEdge) (m : FsmIr),
      (rows.foldl clearParent m).transitions = m.transitions := by
    intro rows
    induction rows with
    | nil => exact fun m => rfl
    | cons t rows ih => exact fun m => (ih _).trans (hmodify m t)
  show (ir.transitions.foldl clearParent _).transitions = _
  rw [hfold]
  split <;> rfl

end Fsmc.Ir
