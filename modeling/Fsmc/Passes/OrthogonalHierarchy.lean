/-
# Fsmc.Passes.OrthogonalHierarchy — the hierarchy after regions are flattened.

Expanding a composite leaves the states around it as they are, but the pass ends with a normalisation of
the whole machine. That one moves every state to the root that a transition without a scope leaves, be it
near the composite or not, unless its parent is pinned, and computes anew which states are composites.
-/
import Fsmc.Passes.StructuralLowering

namespace Fsmc.Ir

/-! ## What normalising does to a state -/

theorem modifyFirst_eq_map {α κ : Type*} [DecidableEq κ] {key : α → κ} {f : α → α} {k : κ} :
    ∀ {l : List α}, (l.map key).Nodup →
      modifyFirst (fun a => key a = k) f l = l.map fun a => if key a = k then f a else a
  | [], _ => rfl
  | a :: l, h => by
    obtain ⟨hnot, hl⟩ := List.nodup_cons.mp h
    unfold modifyFirst
    by_cases hk : key a = k
    · have hrest : l.map (fun b => if key b = k then f b else b) = l := by
        have hself : ∀ b ∈ l, (if key b = k then f b else b) = b := by
          intro b hb
          have hne : key b ≠ k := fun hb' => hnot (by rw [hk, ← hb']; exact List.mem_map_of_mem hb)
          exact if_neg hne
        rw [List.map_congr_left hself, List.map_id']
      simp [hk, hrest]
    · simp [hk, modifyFirst_eq_map hl]

/-- A transition without a scope leaves the state. -/
def leavesUnscoped (transitions : List TransitionEdge) (name : String) : Bool :=
  transitions.any fun t => t.parentScope = "" && t.source = name

/-- Normalising moves the state to the root. -/
def losesParent (ir : FsmIr) (s : StateNode) : Bool :=
  s.name ≠ "" && (s.name = ir.initialState || !s.pinnedParent && leavesUnscoped ir.transitions s.name)

/-- The parent of a state after normalising. -/
def settledParent (ir : FsmIr) (s : StateNode) : String :=
  if losesParent ir s then "" else s.parentState

/-- A state after its parent was cleared, if it is. -/
def settle (ir : FsmIr) (s : StateNode) : StateNode := { s with parentState := settledParent ir s }

/-- A state without its parent. -/
def rooted (s : StateNode) : StateNode := { s with parentState := "" }

theorem settle_eq (ir : FsmIr) (s : StateNode) : settle ir s = if losesParent ir s then rooted s else s := by
  unfold settle settledParent
  split <;> rfl

/-- Some of the transitions clear the parent of the state. -/
def clearedBy (rows : List TransitionEdge) (s : StateNode) : Bool :=
  s.name ≠ "" && (!s.pinnedParent && leavesUnscoped rows s.name)

/-- A state after some transitions. -/
def clearedState (rows : List TransitionEdge) (s : StateNode) : StateNode :=
  if clearedBy rows s then rooted s else s

theorem clearedState_name (rows : List TransitionEdge) (s : StateNode) : (clearedState rows s).name = s.name := by
  unfold clearedState
  split <;> rfl

variable (t : TransitionEdge)

theorem clearedBy_cons (rows : List TransitionEdge) (s : StateNode) :
    clearedBy (t :: rows) s = (clearedBy [t] s || clearedBy rows s) := by
  unfold clearedBy leavesUnscoped
  cases decide (s.name ≠ "") <;> cases s.pinnedParent <;> simp

theorem clearedState_cons (rows : List TransitionEdge) (s : StateNode) :
    clearedState rows (clearedState [t] s) = clearedState (t :: rows) s := by
  have hrooted : clearedBy rows (rooted s) = clearedBy rows s := rfl
  unfold clearedState
  rw [clearedBy_cons t rows s]
  cases hfirst : clearedBy [t] s with
  | true =>
    rw [if_pos rfl, hrooted, Bool.true_or, if_pos rfl]
    split <;> rfl
  | false => rw [if_neg Bool.false_ne_true, Bool.false_or]

theorem clearParent_states {ir : FsmIr} (h : (ir.states.map (·.name)).Nodup) (t : TransitionEdge) :
    (clearParent ir t).states = ir.states.map (clearedState [t]) := by
  unfold clearParent
  split
  · next hscope =>
      show modifyFirst (fun s => s.name = t.source) _ ir.states = _
      rw [modifyFirst_eq_map h]
      refine List.map_congr_left fun s _ => ?_
      unfold clearedState clearedBy leavesUnscoped
      by_cases hname : s.name = t.source
      · have hne : ¬t.source = "" := hscope.2
        by_cases hpinned : s.pinnedParent = true
        · simp [hname, hpinned]
        · simp [hname, hpinned, hscope.1, hne, rooted]
      · have hne : ¬t.source = s.name := fun h => hname h.symm
        simp [hname, hne]
  · next hscope =>
      have hself : ∀ s, clearedState [t] s = s := by
        intro s
        unfold clearedState clearedBy leavesUnscoped
        rw [if_neg]
        simp only [List.any_cons, List.any_nil, Bool.or_false, Bool.and_eq_true, decide_eq_true_eq]
        rintro ⟨hne, -, hempty, hsource⟩
        exact hscope ⟨hempty, hsource ▸ hne⟩
      rw [List.map_congr_left fun s _ => hself s, List.map_id']

theorem foldl_clearParent_states : ∀ (rows : List TransitionEdge) {ir : FsmIr}, (ir.states.map (·.name)).Nodup →
      (rows.foldl clearParent ir).states = ir.states.map (clearedState rows) := by
  intro rows
  induction rows with
  | nil =>
    intro ir _
    have hself : ∀ s, clearedState [] s = s := by
      intro s
      simp [clearedState, clearedBy, leavesUnscoped]
    rw [List.map_congr_left fun s _ => hself s, List.map_id']
    rfl
  | cons t rows ih =>
    intro ir h
    have hstep := clearParent_states h t
    have hnames : ((clearParent ir t).states.map (·.name)).Nodup := by
      have hsame : ir.states.map ((·.name) ∘ clearedState [t]) = ir.states.map (·.name) :=
        List.map_congr_left fun s _ => clearedState_name [t] s
      rw [hstep, List.map_map]
      rwa [hsame]
    rw [List.foldl_cons, ih hnames, hstep, List.map_map]
    exact List.map_congr_left fun s _ => clearedState_cons t rows s

theorem normalizeHierarchy_states {ir : FsmIr} (h : (ir.states.map (·.name)).Nodup) : (normalizeHierarchy ir).states =
      ir.states.map fun s => rebuildChildren (ir.states.map (settle ir)) (settle ir s) := by
  let start := if ir.initialState = "" then ir else ir.modifyState ir.initialState rooted
  have hstart : start.states = ir.states.map fun s =>
      if s.name ≠ "" ∧ s.name = ir.initialState then rooted s else s := by
    show (if ir.initialState = "" then ir else _ : FsmIr).states = _
    split
    · next hempty =>
        have hself : ∀ s ∈ ir.states, (if s.name ≠ "" ∧ s.name = ir.initialState then rooted s else s) = s := by
          intro s _
          exact if_neg fun h => h.1 (h.2.trans hempty)
        rw [List.map_congr_left hself, List.map_id']
    · next hne =>
        show modifyFirst (fun s => s.name = ir.initialState) rooted ir.states = _
        rw [modifyFirst_eq_map h]
        refine List.map_congr_left fun s _ => ?_
        by_cases hname : s.name = ir.initialState <;> simp [hname, hne]
  have hnames : (start.states.map (·.name)).Nodup := by
    have hsame : ir.states.map ((·.name) ∘ fun s =>
        if s.name ≠ "" ∧ s.name = ir.initialState then rooted s else s) = ir.states.map (·.name) := by
      refine List.map_congr_left fun s _ => ?_
      show (if _ then rooted s else s).name = s.name
      split <;> rfl
    rw [hstart, List.map_map]
    rwa [hsame]
  have hcleared : (ir.transitions.foldl clearParent start).states = ir.states.map (settle ir) := by
    rw [foldl_clearParent_states ir.transitions hnames, hstart, List.map_map]
    refine List.map_congr_left fun s _ => ?_
    show clearedState ir.transitions (if _ then rooted s else s) = settle ir s
    rw [settle_eq]
    by_cases hinitial : s.name ≠ "" ∧ s.name = ir.initialState
    · have hloses : losesParent ir s = true := by
        unfold losesParent
        rw [decide_eq_true hinitial.1, decide_eq_true hinitial.2]
        rfl
      rw [if_pos hinitial, if_pos hloses]
      unfold clearedState
      split <;> rfl
    · have hloses : losesParent ir s = clearedBy ir.transitions s := by
        unfold losesParent clearedBy
        by_cases hname : s.name = ""
        · rw [decide_eq_false (not_not.mpr hname), Bool.false_and, Bool.false_and]
        · rw [decide_eq_false fun h => hinitial ⟨hname, h⟩, Bool.false_or]
      rw [if_neg hinitial, hloses]
      rfl
  show (ir.transitions.foldl clearParent start).states.map
    (rebuildChildren (ir.transitions.foldl clearParent start).states) = _
  rw [hcleared, List.map_map]
  rfl

end Fsmc.Ir

namespace Fsmc.Passes.OrthogonalProduct

open Fsmc.Ir Fsmc.Lib Fsmc.Lib.Cartesian

/-! ## The states around a composite -/

theorem mem_modifyFirst {α : Type*} {p : α → Bool} {f : α → α} {a : α} (hp : p a = false) :
    ∀ {l : List α}, a ∈ l → a ∈ modifyFirst p f l
  | b :: l, ha => by
    unfold modifyFirst
    rcases List.mem_cons.mp ha with rfl | ha
    · rw [if_neg (by simp [hp])]
      exact List.mem_cons_self
    · split
      · exact List.mem_cons_of_mem _ ha
      · exact List.mem_cons_of_mem _ (mem_modifyFirst hp ha)

variable {s : StateNode} {n : ℕ} {ir : FsmIr}

theorem mem_foldl_addState {nodes : List StateNode} (hs : s.name ∉ nodes.map (·.name)) :
    ∀ {states : List StateNode}, s ∈ states → s ∈ nodes.foldl addState states := by
  induction nodes with
  | nil => exact fun h => h
  | cons node nodes ih =>
    intro states h
    have hne : s.name ≠ node.name := fun heq => hs (by simp [heq])
    apply ih fun hmem => hs (List.mem_cons_of_mem _ hmem)
    unfold addState
    split
    · exact mem_modifyFirst (by simpa using hne) h
    · exact List.mem_append_left _ h

theorem nodup_addState {states : List StateNode} (h : (states.map (·.name)).Nodup) (node : StateNode) :
    ((addState states node).map (·.name)).Nodup := by
  unfold addState
  split
  · have hsame : (modifyFirst (fun s => s.name = node.name) (fun _ => node) states).map (·.name) =
        states.map (·.name) := by
      rw [modifyFirst_eq_map h, List.map_map]
      refine List.map_congr_left fun s _ => ?_
      show (if s.name = node.name then node else s).name = s.name
      split
      · next hname => exact hname.symm
      · rfl
    rwa [hsame]
  · next hnone =>
      have hnew : ∀ s ∈ states, s.name ≠ node.name := by simpa using hnone
      rw [List.map_append, List.nodup_append]
      refine ⟨h, List.nodup_singleton _, fun x hx y hy => ?_⟩
      obtain ⟨s, hs, rfl⟩ := List.mem_map.mp hx
      obtain rfl := List.mem_singleton.mp hy
      exact hnew s hs

theorem nodup_foldl_addState (nodes : List StateNode) : ∀ {states : List StateNode},
    (states.map (·.name)).Nodup → ((nodes.foldl addState states).map (·.name)).Nodup := by
  induction nodes with
  | nil => exact fun h => h
  | cons node nodes ih => exact fun h => ih (nodup_addState h node)

/-- Outside of the composite of a turn: the state is neither the composite nor removed with its regions,
and no product state takes its name. -/
structure Outside (s : StateNode) (acc : FsmIr × Bool) (parentName : String) : Prop where
  name : s.name ≠ parentName
  kept : ∀ parent, acc.1.findState parentName = some parent →
    s.name ∉ parent.orthogonalRegions.map (·.id) ++ parent.orthogonalRegions.map (·.name) ++
      subStates (regionsOf acc.1 parent)
  product : ∀ parent, acc.1.findState parentName = some parent →
    s.name ∉ (productTuples (regionsOf acc.1 parent)).map (tupleToName parentName)

variable {acc : FsmIr × Bool}

theorem mem_expandNamed {parentName : String}
    (h : Outside s acc parentName) (hs : s ∈ acc.1.states) :
    s ∈ (expandNamed n acc parentName).1.states := by
  unfold expandNamed
  split
  · exact hs
  · next parent hparent =>
      have hname : parent.name = parentName := (FsmIr.findState_spec hparent).2
      split
      · exact hs
      · show s ∈ (expandParallelState n acc.1 parent).1.states
        unfold expandParallelState
        dsimp only
        split
        · exact hs
        · have hkept : s ∈ keptStates acc.1 parent (subStates (regionsOf acc.1 parent)) := by
            have hout := h.kept parent hparent
            simp only [List.mem_append, List.mem_map, not_or, not_exists, not_and] at hout
            refine List.mem_filter.mpr ⟨hs, ?_⟩
            simp only [Bool.and_eq_true, Bool.not_eq_true', List.any_eq_false, Bool.or_eq_true,
              decide_eq_true_eq, decide_eq_false_iff_not, not_or]
            exact ⟨fun reg hreg => ⟨fun h => hout.1.1 reg hreg h.symm, fun h => hout.1.2 reg hreg h.symm⟩,
              hout.2⟩
          have hadded : s ∈ ((productTuples (regionsOf acc.1 parent)).map
              (productNode acc.1 parent.name)).foldl addState
                (keptStates acc.1 parent (subStates (regionsOf acc.1 parent))) := by
            refine mem_foldl_addState ?_ hkept
            rw [List.map_map]
            have hproduct := h.product parent hparent
            rw [← hname] at hproduct
            exact hproduct
          split
          · exact hadded
          · refine mem_modifyFirst ?_ hadded
            simpa [hname] using h.name

theorem nodup_expandNamed (parentName : String) (h : (acc.1.states.map (·.name)).Nodup) :
    ((expandNamed n acc parentName).1.states.map (·.name)).Nodup := by
  unfold expandNamed
  split
  · exact h
  · next parent _ =>
      split
      · exact h
      · show ((expandParallelState n acc.1 parent).1.states.map (·.name)).Nodup
        unfold expandParallelState
        dsimp only
        split
        · exact h
        · have hkept : ((keptStates acc.1 parent (subStates (regionsOf acc.1 parent))).map
              (·.name)).Nodup :=
            (List.filter_sublist.map _).nodup h
          split
          · exact nodup_foldl_addState _ hkept
          · rw [map_name_modifyState]
            · exact nodup_foldl_addState _ hkept
            · exact fun _ => rfl

/-! ## The pass -/

/-- The machine before the final normalisation, and whether a composite was expanded. -/
def expandAll (maxProductStates : ℕ) (ir : FsmIr) : FsmIr × Bool :=
  (parallelStateNames ir).foldl (expandNamed maxProductStates) (ir, false)

/-- A state that survives: at every turn it is outside of the composite that is expanded. -/
def StaysOutside (maxProductStates : ℕ) (ir : FsmIr) (s : StateNode) : Prop :=
  s ∈ ir.states ∧ Meets (Outside s) (expandNamed maxProductStates) (parallelStateNames ir) (ir, false)

/-- Where a composite is expanded, the states outside keep their parents and flags. -/
def KeepsHierarchy (maxProductStates : ℕ) (ir : FsmIr) : Prop :=
  (expandAll maxProductStates ir).2 = true → ∀ s, StaysOutside maxProductStates ir s →
    ∀ s' ∈ (run maxProductStates ir).states, s'.name = s.name →
      s'.parentState = s.parentState ∧ s'.isComposite = s.isComposite

/-- Normalising agrees with what a state says of its place: it keeps the parent that the state names, and
the state is marked as a composite just if it has an initial sub-state or a child after it. -/
structure Placed (m : FsmIr) (s : StateNode) : Prop where
  parent : s.parentState = "" ∨ losesParent m s = false
  flag : s.isComposite = true ↔ s.initialSubState ≠ "" ∨ ∃ c ∈ m.states, settledParent m c = s.name

theorem StaysOutside.mem_expandAll (h : StaysOutside n ir s) : s ∈ (expandAll n ir).1.states :=
  foldl_inv_of_meets (fun _ acc => s ∈ acc.1.states) (fun _ _ _ _ hacc hok => mem_expandNamed hok hacc)
    h.2 h.1

theorem nodup_expandAll (h : (ir.states.map (·.name)).Nodup) : ((expandAll n ir).1.states.map (·.name)).Nodup := by
  have hfold : ∀ (names : List String) (acc : FsmIr × Bool), (acc.1.states.map (·.name)).Nodup →
      ((names.foldl (expandNamed n) acc).1.states.map (·.name)).Nodup := by
    intro names
    induction names with
    | nil => exact fun acc hacc => hacc
    | cons name names ih => exact fun acc hacc => ih _ (nodup_expandNamed name hacc)
  exact hfold _ (ir, false) h

theorem placed_iff {m : FsmIr} :
    Placed m s ↔ (rebuildChildren (m.states.map (settle m)) (settle m s)).parentState = s.parentState ∧
      (rebuildChildren (m.states.map (settle m)) (settle m s)).isComposite = s.isComposite := by
  have hparent : settledParent m s = s.parentState ↔ s.parentState = "" ∨ losesParent m s = false := by
    unfold settledParent
    cases losesParent m s with
    | true =>
      rw [if_pos rfl]
      exact ⟨fun h => .inl h.symm, fun h => h.elim Eq.symm fun h => nomatch h⟩
    | false => simp
  have hflag : (rebuildChildren (m.states.map (settle m)) (settle m s)).isComposite = true ↔
      s.initialSubState ≠ "" ∨ ∃ c ∈ m.states, settledParent m c = s.name := by
    show (!((m.states.map (settle m)).filter fun c => c.parentState = s.name).isEmpty ||
      decide (s.initialSubState ≠ "")) = true ↔ _
    rw [Bool.or_eq_true, decide_eq_true_eq, or_comm]
    apply or_congr_right
    rw [Bool.not_eq_true', List.isEmpty_eq_false_iff_exists_mem]
    constructor
    · rintro ⟨c', hc'⟩
      obtain ⟨hc', hname⟩ := List.mem_filter.mp hc'
      obtain ⟨c, hc, rfl⟩ := List.mem_map.mp hc'
      exact ⟨c, hc, of_decide_eq_true hname⟩
    · rintro ⟨c, hc, hname⟩
      exact ⟨settle m c, List.mem_filter.mpr ⟨List.mem_map_of_mem hc, decide_eq_true hname⟩⟩
  constructor
  · intro h
    refine ⟨hparent.mpr h.parent, ?_⟩
    rw [Bool.eq_iff_iff, hflag]
    exact h.flag.symm
  · rintro ⟨h, h'⟩
    refine ⟨hparent.mp h, ?_⟩
    rw [← h', hflag]

theorem mem_states_run_iff (hnames : (ir.states.map (·.name)).Nodup)
    (hexpanded : (expandAll n ir).2 = true) {s' : StateNode} :
    s' ∈ (run n ir).states ↔ ∃ c ∈ (expandAll n ir).1.states,
      rebuildChildren ((expandAll n ir).1.states.map (settle (expandAll n ir).1))
        (settle (expandAll n ir).1 c) = s' := by
  have hrun : run n ir = canonicalize (normalizeHierarchy (expandAll n ir).1) := by
    show (if (expandAll n ir).2 then canonicalize (normalizeHierarchy (expandAll n ir).1) else _) = _
    rw [if_pos hexpanded]
  rw [hrun]
  show s' ∈ (normalizeHierarchy (expandAll n ir).1).states.mergeSort _ ↔ _
  rw [List.mem_mergeSort, normalizeHierarchy_states (nodup_expandAll hnames), List.mem_map]

theorem KeepsHierarchy.placed (h : KeepsHierarchy n ir)
    (hnames : (ir.states.map (·.name)).Nodup) (hexpanded : (expandAll n ir).2 = true)
    (hs : StaysOutside n ir s) : Placed (expandAll n ir).1 s :=
  placed_iff.mpr <|
    h hexpanded s hs _ ((mem_states_run_iff hnames hexpanded).mpr ⟨s, hs.mem_expandAll, rfl⟩) rfl

theorem keepsHierarchy_of_placed (hnames : (ir.states.map (·.name)).Nodup)
    (h : (expandAll n ir).2 = true → ∀ s, StaysOutside n ir s → Placed (expandAll n ir).1 s) :
    KeepsHierarchy n ir := by
  intro hexpanded s hs s' hs' hname
  obtain ⟨c, hc, rfl⟩ := (mem_states_run_iff hnames hexpanded).mp hs'
  have hkey : c.name = s.name := hname
  obtain rfl : c = s :=
    List.inj_on_of_nodup_map (nodup_expandAll (n := n) hnames) hc hs.mem_expandAll hkey
  exact placed_iff.mp (h hexpanded c hs)

/-- A composite with regions, next to one that is left from its inner state by a transition with a scope. -/
def boxed (parentScope : String) : FsmIr where
  initialState := "Off"
  states := [
    { id := "Off", name := "Off" },
    { id := "P", name := "P", kind := .parallel, isComposite := true
      orthogonalRegions := [{ name := "r", initialStateId := "a", stateIds := ["a"] },
        { name := "s", initialStateId := "b", stateIds := ["b"] }] },
    { id := "a", name := "a", parentState := "P" },
    { id := "b", name := "b", parentState := "P" },
    { id := "Box", name := "Box", kind := .composite, isComposite := true },
    { id := "Inner", name := "Inner", parentState := "Box" }]
  transitions := [
    { source := "Inner", target := "Off", event := "stop", trigger := .signal "stop"
      parentScope := parentScope }]

end Fsmc.Passes.OrthogonalProduct
