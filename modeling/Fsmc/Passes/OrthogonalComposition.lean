/-
# Fsmc.Passes.OrthogonalComposition — when the product behaves like its regions.

The product follows the composition on an event on which the states of a tuple have nothing but
transitions that leave the composite on completion, or one transition that leaves it with a priority of
its own, or transitions inside the regions that agree on their guard.
-/
import Fsmc.Passes.OrthogonalProduct

namespace Fsmc.Passes.OrthogonalProduct

open Fsmc.Ir Fsmc.Runtime Fsmc.Lib.Cartesian Fsmc.Lib.FirstMatch

/-! ## What the pass should keep -/

/-- The state of the flat machine for a place of the composite. -/
def placeName (parentName : String) : Place → String
  | .inside tup => tupleToName parentName tup
  | .outside s => s

/-- A conjunction of guard texts holds when all of them do. -/
def Conjunctive (v : GuardHistory) : Prop :=
  ∀ w guards, guards ≠ [] → v w (conjoin guards) = guards.all (v w)

/-- The flat machine should go where the regions go, and execute what they execute, until they leave
the composite. -/
def FollowsRegions (maxProductStates : ℕ) (ir : FsmIr) (parent : StateNode) (v : GuardHistory)
    (tup : List String) (w : Observation) (events : List String) : Prop :=
  ∃ r rest, Follows ir (subStates (regionsOf ir parent)) v (tup, w) events r rest ∧
    dispatchAll (flatten maxProductStates ir parent) v (tupleToName parent.name tup, w) events =
      dispatchAll (flatten maxProductStates ir parent) v (placeName parent.name r.1, r.2) rest

/-! ## The condition -/

/-- The transitions of the states of a tuple for an event. -/
def edgesOf (ir : FsmIr) (tup : List String) (event : String) : List TransitionEdge :=
  ir.transitions.filter (triedIn tup event)

/-- The first transition of a state for an event. -/
def firstEdge (ir : FsmIr) (event s : String) : Option TransitionEdge :=
  ir.transitions.find? (tried s event)

/-- The first transitions of the states of a tuple for an event. -/
def firstEdges (ir : FsmIr) (tup : List String) (event : String) : List TransitionEdge :=
  tup.filterMap (firstEdge ir event)

/-- Where the first transitions of the states of a tuple lead. -/
def firstTargets (ir : FsmIr) (tup : List String) (event : String) : List String :=
  tup.map fun s => ((firstEdge ir event s).map (·.target)).getD s

/-- The actions of the states of a tuple have different names. -/
def ActionsApart (ir : FsmIr) (acts : StateNode → List ActionSignature) (tup : List String) : Prop :=
  (((memberNodes ir tup).flatMap acts).map (·.name)).Nodup

/-- A transition that leads to a state which stays where it is. -/
structure LeavesPlainly (ir : FsmIr) (parent : StateNode) (t : TransitionEdge) : Prop where
  leaves : leaves parent.name (regionsOf ir parent) t = true
  external : t.kind ≠ .internal
  kept : ∀ reg ∈ parent.orthogonalRegions, t.target ≠ reg.id ∧ t.target ≠ reg.name
  fresh : t.target ∉ (productTuples (regionsOf ir parent)).map (tupleToName parent.name)

/-- Completion transitions that lead out of the composite. -/
structure Completes (ir : FsmIr) (parent : StateNode) (tup : List String) (event : String) : Prop where
  completion : event = ""
  leaves : ∀ t ∈ edgesOf ir tup event, LeavesPlainly ir parent t
  exits : edgesOf ir tup event ≠ [] → ActionsApart ir (·.exitActions) tup

/-- One transition leads out of the composite, and is tried before the product transition. -/
structure LeavesAlone (ir : FsmIr) (parent : StateNode) (tup : List String) (event : String)
    (t : TransitionEdge) : Prop where
  only : edgesOf ir tup event = [t]
  leaves : LeavesPlainly ir parent t
  text : t.guard.getD "" = t.getGuard
  before : precedence t.priority < precedence 0 ∨
    isFirst parent.name (regionsOf ir parent) tup t.source = true
  exits : ActionsApart ir (·.exitActions) tup

/-- A transition of which the product keeps everything. -/
structure KeptWhole (t : TransitionEdge) : Prop where
  external : t.kind ≠ .internal
  text : t.guard.getD "" = t.getGuard
  guard : t.getGuard ≠ "else" ∧ t.getGuard ≠ "default"
  conditionAction : t.conditionAction = none
  clockResets : t.clockResets = []
  instructions : ∀ act, t.transitionAction = some act → act.instructions = []

/-- The transitions stay in their regions, the first ones are the ones that may be chosen, and they agree
on their guard. -/
structure MovesTogether (ir : FsmIr) (parent : StateNode) (tup : List String) (event : String) :
    Prop where
  triggered : event ≠ ""
  inner : ∀ t ∈ edgesOf ir tup event, ∀ reg ∈ regionsOf ir parent,
    t.source ∈ reg.states → t.target ∈ reg.states
  whole : ∀ t ∈ firstEdges ir tup event, KeptWhole t
  leads : ∀ t ∈ firstEdges ir tup event, ∀ u ∈ ir.transitions.filter (tried t.source event),
    ir.transitions.filter (tried t.source event) = [t] ∨
      t.getGuard = "" ∧ precedence t.priority ≤ precedence u.priority
  guards : ∀ t ∈ firstEdges ir tup event, ∀ u ∈ firstEdges ir tup event, t.getGuard = u.getGuard
  names : (actionNames (firstEdges ir tup event)).length ≤ 1
  named : actionNames (firstEdges ir tup event) = [] → assignmentsOf (firstEdges ir tup event) = []
  still : firstEdges ir tup event ≠ [] → ∀ s ∈ tup, firstEdge ir event s = none →
    ∀ node, ir.findState s = some node → node.entryActions = [] ∧ node.exitActions = []
  exits : firstEdges ir tup event ≠ [] → ActionsApart ir (·.exitActions) tup
  entries : firstEdges ir tup event ≠ [] →
    ActionsApart ir (·.entryActions) (firstTargets ir tup event)

/-- An event on which the product of a tuple does what the regions do. -/
inductive Faithful (ir : FsmIr) (parent : StateNode) (tup : List String) (event : String) : Prop where
  | completes : Completes ir parent tup event → Faithful ir parent tup event
  | leavesAlone {t : TransitionEdge} : LeavesAlone ir parent tup event t →
      Faithful ir parent tup event
  | movesTogether : MovesTogether ir parent tup event → Faithful ir parent tup event

/-! ## Actions -/

variable {acts : List ActionSignature} {moves : List TransitionEdge}

theorem uniqueActions_of_nodup (h : (acts.map (·.name)).Nodup) :
    uniqueActions acts = acts := by
  have hfold : ∀ (rest unique : List ActionSignature), ((unique ++ rest).map (·.name)).Nodup →
      rest.foldl (fun unique act => if unique.any fun u => u.name = act.name then unique
        else unique ++ [act]) unique = unique ++ rest := by
    intro rest
    induction rest with
    | nil => simp
    | cons act rest ih =>
      intro unique hnodup
      have hnew : (unique.any fun u => u.name = act.name) = false := by
        rw [List.map_append, List.nodup_append] at hnodup
        rw [List.any_eq_false]
        intro u hu heq
        exact hnodup.2.2 u.name (List.mem_map_of_mem hu) act.name (by simp) (of_decide_eq_true heq)
      rw [List.foldl_cons, hnew]
      have hrest := ih (unique ++ [act]) (by rwa [List.append_assoc])
      rwa [List.append_assoc] at hrest
  exact hfold acts [] h

theorem observeActions_memberNodes (ir : FsmIr) (acts : StateNode → List ActionSignature) (tup : List String) :
    observeActions ((memberNodes ir tup).flatMap acts) =
      (tup.map fun s => observeActions (((ir.findState s).map acts).getD [])).prod := by
  induction tup with
  | nil => rfl
  | cons s tup ih =>
    rw [List.map_cons, List.prod_cons, ← ih]
    unfold memberNodes
    cases hfind : ir.findState s with
    | none =>
      rw [List.filterMap_cons_none hfind]
      exact (one_mul _).symm
    | some node =>
      rw [List.filterMap_cons_some hfind, List.flatMap_cons, observeActions_append]
      rfl

/-- Names joined one after the other. -/
def joinAll (names : List String) : String := names.foldr joinNames ""

theorem prod_observeAction (h : ∀ act ∈ acts, act.instructions = []) :
    (acts.map observeAction).prod =
      { callbacks := joinAll (acts.map (·.name)), assignments := acts.flatMap (·.assignments) } := by
  induction acts with
  | nil => rfl
  | cons act acts ih =>
    rw [List.map_cons, List.prod_cons, ih fun a ha => h a (List.mem_cons_of_mem _ ha)]
    show Observation.append _ _ = _
    simp [Observation.append, observeAction, joinAll, h act List.mem_cons_self]

theorem joinAll_filter (names : List String) : joinAll (names.filter (· ≠ "")) = joinAll names := by
  induction names with
  | nil => rfl
  | cons name names ih =>
    by_cases hname : name = ""
    · subst hname
      show joinAll (names.filter (· ≠ "")) = joinNames "" (joinAll names)
      rw [ih, empty_joinNames]
    · rw [List.filter_cons_of_pos (by simpa using hname)]
      show joinNames name (joinAll _) = joinNames name (joinAll _)
      rw [ih]

theorem joinAll_of_length_le_one {names : List String} (h : names.length ≤ 1) :
    joinAll names = "; ".intercalate names := by
  match names, h with
  | [], _ => rfl
  | [name], _ => simp [joinAll]

theorem observeAction?_combinedAction (src dst : String)
    (hwhole : ∀ t ∈ moves, KeptWhole t) (hnames : (actionNames moves).length ≤ 1)
    (hnamed : actionNames moves = [] → assignmentsOf moves = []) :
    observeAction? (combinedAction src dst moves) = (moves.map observeEffect).prod := by
  have hinstructions : ∀ act ∈ moves.filterMap (·.transitionAction), act.instructions = [] := by
    intro act hact
    obtain ⟨t, ht, hsome⟩ := List.mem_filterMap.mp hact
    exact (hwhole t ht).instructions act hsome
  have heffect : ∀ t ∈ moves, observeEffect t = observeAction? t.transitionAction := by
    intro t ht
    unfold observeEffect
    rw [(hwhole t ht).conditionAction, (hwhole t ht).clockResets]
    show 1 * observeAction? t.transitionAction * 1 = _
    rw [one_mul, mul_one]
  have hactions : ∀ l : List TransitionEdge, (l.map fun t => observeAction? t.transitionAction).prod =
      ((l.filterMap (·.transitionAction)).map observeAction).prod := by
    intro l
    induction l with
    | nil => rfl
    | cons t l ih =>
      rw [List.map_cons, List.prod_cons, ih]
      cases hact : t.transitionAction with
      | none =>
        rw [List.filterMap_cons_none hact]
        exact one_mul _
      | some act =>
        rw [List.filterMap_cons_some hact]
        rfl
  rw [List.map_congr_left heffect, hactions, prod_observeAction hinstructions]
  have hjoin : joinAll ((moves.filterMap (·.transitionAction)).map (·.name)) =
      "; ".intercalate (actionNames moves) := by
    rw [← joinAll_filter]
    exact joinAll_of_length_le_one hnames
  rw [hjoin]
  unfold combinedAction
  cases hcase : actionNames moves with
  | nil =>
    have hassign := hnamed hcase
    unfold assignmentsOf at hassign ⊢
    rw [hassign]
    rfl
  | cons name names =>
    have hne : "; ".intercalate (name :: names) ≠ "" := by
      rw [hcase] at hnames
      have hnil : names = [] := List.length_eq_zero_iff.mp (by
        simp only [List.length_cons] at hnames
        omega)
      have hname : name ∈ actionNames moves := by simp [hcase]
      rw [hnil, String.intercalate_singleton]
      exact of_decide_eq_true (List.mem_filter.mp hname).2
    dsimp only
    rw [if_neg (by simp), if_neg hne]
    rfl

/-! ## Guards -/

theorem conjoin_ne {guards : List String} (h : guards ≠ []) (text : String)
    (htext : text.toList.head? ≠ some '(') : conjoin guards ≠ text := by
  cases guards with
  | nil => exact absurd rfl h
  | cons guard guards =>
    rintro rfl
    apply htext
    unfold conjoin
    rw [List.map_cons, String.append_assoc, String.intercalate_cons_append, String.toList_append]
    rfl

theorem guardPassed_conjoin {v : GuardHistory} (hv : Conjunctive v) (w : Observation)
    (hne : moves ≠ []) {text : String}
    (htext : ∀ t ∈ moves, t.guard.getD "" = text) :
    guardPassed (v w) (some ((if (guardsOf moves).isEmpty then none
      else some (conjoin (guardsOf moves))).getD "")) = (decide (text = "") || v w text) := by
  by_cases hempty : text = ""
  · have hnil : guardsOf moves = [] := by
      unfold guardsOf
      rw [List.filterMap_eq_nil_iff]
      intro t ht
      have hguard := htext t ht
      cases hcase : t.guard with
      | none => rfl
      | some guard =>
        rw [hcase, hempty] at hguard
        obtain rfl : guard = "" := hguard
        rfl
    rw [hnil]
    simp [guardPassed, hempty]
  · have hall : guardsOf moves = moves.map fun _ => text := by
      unfold guardsOf
      rw [← List.filterMap_eq_map]
      apply List.filterMap_congr
      intro t ht
      have hguard := htext t ht
      cases hcase : t.guard with
      | none =>
        rw [hcase] at hguard
        exact absurd hguard.symm hempty
      | some guard =>
        rw [hcase] at hguard
        obtain rfl : guard = text := hguard
        simp [hempty]
    have hguards : guardsOf moves ≠ [] := by
      rw [hall]
      simpa using hne
    have hisEmpty : (guardsOf moves).isEmpty = false := by simpa using hguards
    rw [hisEmpty]
    show guardPassed (v w) (some (conjoin (guardsOf moves))) = _
    unfold guardPassed
    dsimp only
    rw [decide_eq_false (conjoin_ne hguards "" (by decide)),
      decide_eq_false (conjoin_ne hguards "else" (by decide)),
      decide_eq_false (conjoin_ne hguards "default" (by decide)), hv w _ hguards, hall,
      decide_eq_false hempty]
    simp only [Bool.false_or]
    obtain ⟨t, ht⟩ := List.exists_mem_of_ne_nil _ hne
    rw [Bool.eq_iff_iff, List.all_eq_true]
    refine ⟨fun hpass => hpass text (List.mem_map_of_mem ht), ?_⟩
    intro hpass guard hguard
    obtain ⟨-, -, rfl⟩ := List.mem_map.mp hguard
    exact hpass

/-! ## Entry and exit -/

theorem getD_of_sameState {node node' : Option StateNode} (h : Option.Rel SameState node node')
    {acts : StateNode → List ActionSignature} (hacts : ∀ s s', SameState s s' → acts s' = acts s) :
    (node'.map acts).getD [] = (node.map acts).getD [] := by
  cases h with
  | none => rfl
  | some hsame => exact hacts _ _ hsame

section States

variable {n : ℕ} {ir : FsmIr} {parent : StateNode} (h : Separate n ir parent)
include h

theorem find?_product {tup : List String} (htup : tup ∈ productTuples (regionsOf ir parent)) :
    ((flatStates ir parent).find? fun s => s.name = tupleToName parent.name tup) =
      some (productNode ir parent.name tup) := by
  have hmem : productNode ir parent.name tup ∈ flatStates ir parent :=
    List.mem_append_right _ (List.mem_map_of_mem htup)
  exact find?_name_of_mem (flatStates_nodup h) hmem

theorem observeExit_product {tup : List String} (htup : tup ∈ productTuples (regionsOf ir parent))
    (hapart : ActionsApart ir (·.exitActions) tup) :
    observeExit (flatten n ir parent) (tupleToName parent.name tup) =
      (tup.map (observeExit ir)).prod := by
  have hrel := findState_flatten h (tupleToName parent.name tup)
  rw [find?_product h htup] at hrel
  unfold observeExit
  rw [getD_of_sameState hrel fun _ _ hsame => hsame.exitActions, ← observeActions_memberNodes]
  exact congrArg observeActions (uniqueActions_of_nodup hapart)

theorem observeEntry_product {tup : List String} (htup : tup ∈ productTuples (regionsOf ir parent))
    (hapart : ActionsApart ir (·.entryActions) tup) :
    observeEntry (flatten n ir parent) (tupleToName parent.name tup) =
      (tup.map (observeEntry ir)).prod := by
  have hrel := findState_flatten h (tupleToName parent.name tup)
  rw [find?_product h htup] at hrel
  unfold observeEntry
  rw [getD_of_sameState hrel fun _ _ hsame => hsame.entryActions, ← observeActions_memberNodes]
  exact congrArg observeActions (uniqueActions_of_nodup hapart)

theorem observeEntry_outside {t : TransitionEdge} (ht : LeavesPlainly ir parent t) :
    observeEntry (flatten n ir parent) t.target = observeEntry ir t.target := by
  have hleaves := ht.leaves
  unfold leaves at hleaves
  simp only [Bool.and_eq_true, Bool.not_eq_true', decide_eq_false_iff_not] at hleaves
  have hkept : (parent.orthogonalRegions.any fun reg =>
      t.target = reg.id || t.target = reg.name) = false := by
    rw [List.any_eq_false]
    intro reg hreg
    simpa using ht.kept reg hreg
  have hfind : ((flatStates ir parent).find? fun s => s.name = t.target) =
      ir.findState t.target := by
    have hproducts : (((productTuples (regionsOf ir parent)).map (productNode ir parent.name)).find?
        fun s => s.name = t.target) = none := by
      rw [List.find?_eq_none]
      intro node hnode
      obtain ⟨tup, htup, rfl⟩ := List.mem_map.mp hnode
      intro heq
      exact ht.fresh (of_decide_eq_true heq ▸ List.mem_map_of_mem htup)
    unfold flatStates
    rw [List.find?_append, hproducts, Option.or_none]
    unfold keptStates FsmIr.findState
    rw [List.find?_filter]
    apply List.find?_congr
    intro node _
    by_cases hname : node.name = t.target
    · rw [hname, hkept]
      simp [hleaves.1]
    · simp [hname]
  have hrel := findState_flatten h t.target
  rw [hfind] at hrel
  unfold observeEntry
  rw [getD_of_sameState hrel fun _ _ hsame => hsame.entryActions]

end States

/-! ## One event -/

/-- The flat machine does what the regions do on one event, and stays in a product state if they stay in
the composite. -/
def FollowsStep (maxProductStates : ℕ) (ir : FsmIr) (parent : StateNode) (v : GuardHistory)
    (tup : List String) (w : Observation) (event : String) : Prop :=
  ∃ r, Composed ir (subStates (regionsOf ir parent)) v (tup, w) event r ∧
    dispatch (flatten maxProductStates ir parent) v (tupleToName parent.name tup, w) event =
      (placeName parent.name r.1, r.2) ∧
    ∀ tup', r.1 = .inside tup' → tup' ∈ productTuples (regionsOf ir parent)

section Step

variable {n : ℕ} {ir : FsmIr} {parent : StateNode} (h : Separate n ir parent) {v : GuardHistory}
  {tup : List String} (htup : tup ∈ productTuples (regionsOf ir parent)) {w : Observation}
  {event : String}
include h htup

omit h in
theorem followsStep_of_none (hflat : chosen (flatten n ir parent) (tupleToName parent.name tup) event (v w) = none)
    (hregions : ∀ s ∈ tup, chosen ir s event (v w) = none) :
    FollowsStep n ir parent v tup w event := by
  refine ⟨(.inside tup, w), Composed.stay hregions, ?_, ?_⟩
  · unfold dispatch
    dsimp only
    rw [hflat]
    rfl
  · intro tup' heq
    cases heq
    exact htup

variable {t : TransitionEdge}

theorem followsStep_of_leave (ht : LeavesPlainly ir parent t)
    (hexits : ActionsApart ir (·.exitActions) tup) (hin : t.source ∈ tup)
    (hchosen : chosen ir t.source event (v w) = some t)
    (hflat : chosen (flatten n ir parent) (tupleToName parent.name tup) event (v w) =
      some (syncGuard { t with source := tupleToName parent.name tup })) :
    FollowsStep n ir parent v tup w event := by
  have hleaves := ht.leaves
  unfold leaves at hleaves
  simp only [Bool.and_eq_true, Bool.not_eq_true', decide_eq_false_iff_not] at hleaves
  refine ⟨_, Composed.leave hin hchosen hleaves.1, ?_, ?_⟩
  · unfold dispatch
    dsimp only
    rw [hflat]
    let u := syncGuard { t with source := tupleToName parent.name tup }
    have hkind : u.kind ≠ .internal := ht.external
    show (nextState (tupleToName parent.name tup) u,
      w * observeStep (flatten n ir parent) (tupleToName parent.name tup) u) = _
    unfold nextState observeStep
    rw [if_neg hkind, if_neg hkind, observeExit_product h htup hexits]
    show (t.target, w * (_ * observeEffect t * observeEntry (flatten n ir parent) t.target)) = _
    rw [observeEntry_outside h ht]
    rfl
  · intro tup' heq
    cases heq

theorem chosen_product (g : GuardValuation) : chosen (flatten n ir parent) (tupleToName parent.name tup) event g =
      ((((exitsOf ir parent tup event true).map (atProduct parent tup) ++
        synthesized ir parent tup event ++
        (exitsOf ir parent tup event false).map (atProduct parent tup)).filter
          fun t => guardPassed g (some t.getGuard)).argmin fun t => precedence t.priority).map
            syncGuard := by
  rw [chosen_flatten h, flatTransitions_tried h htup]

omit h htup in
theorem filter_ready (s : String) (g : GuardValuation) : ir.transitions.filter (ready s event g) =
      (ir.transitions.filter (tried s event)).filter fun u => guardPassed g (some u.getGuard) := by
  rw [List.filter_filter]
  exact List.filter_congr fun u _ => Bool.and_comm _ _

/-- **Completion**: the regions leave by the completion transition of best precedence. -/
theorem followsStep_of_completes (hc : Completes ir parent tup event) : FollowsStep n ir parent v tup w event := by
  let passes := fun t : TransitionEdge => guardPassed (v w) (some t.getGuard)
  let exits := exitsOf ir parent tup event true ++ exitsOf ir parent tup event false
  have hchosen : chosen (flatten n ir parent) (tupleToName parent.name tup) event (v w) =
      ((exits.filter passes).argmin fun t => precedence t.priority).map fun t =>
        syncGuard (atProduct parent tup t) := by
    have hnone : synthesized ir parent tup event = [] := if_pos hc.completion
    rw [chosen_product h htup, hnone, List.append_nil, ← List.map_append, List.filter_map,
      argmin_map, Option.map_map]
    rfl
  have hplain : ∀ t ∈ ir.transitions, t.source ∈ tup → t.event = event →
      LeavesPlainly ir parent t := by
    intro t ht hin hevent
    exact hc.leaves t (List.mem_filter.mpr ⟨ht, by simp [triedIn, hin, hevent]⟩)
  have hstate : ∀ s ∈ tup, (exits.filter passes).filter (fun t => t.source = s) =
      ir.transitions.filter (ready s event (v w)) := by
    intro s hs
    have hall : exits.filter (fun t => t.source = s) = ir.transitions.filter (tried s event) := by
      have hleaves : ir.transitions.filter (fun t =>
          tried s event t && leaves parent.name (regionsOf ir parent) t) =
          ir.transitions.filter (tried s event) := by
        apply List.filter_congr
        intro t ht
        by_cases htried : t.source = s ∧ t.event = event
        · have hleaves := (hplain t ht (htried.1 ▸ hs) htried.2).leaves
          simp [hleaves]
        · have hnot : tried s event t = false := by simpa [tried] using htried
          simp [hnot]
      rw [List.filter_append, exitsOf_source event hs, exitsOf_source event hs, hleaves]
      cases isFirst parent.name (regionsOf ir parent) tup s <;> simp
    rw [List.filter_filter]
    have hswap : exits.filter (fun t => decide (t.source = s) && passes t) =
        (exits.filter fun t => t.source = s).filter passes := by
      rw [List.filter_filter]
      exact List.filter_congr fun t _ => Bool.and_comm _ _
    rw [hswap, hall, filter_ready]
  cases hmin : (exits.filter passes).argmin fun t => precedence t.priority with
  | none =>
    apply followsStep_of_none htup
    · rw [hchosen, hmin]
      rfl
    · intro s hs
      unfold chosen
      rw [← hstate s hs, List.argmin_eq_none.mp hmin]
      rfl
  | some t =>
    obtain ⟨hexit, -⟩ := List.mem_filter.mp (List.argmin_mem hmin)
    obtain ⟨first, hmem⟩ : ∃ first, t ∈ exitsOf ir parent tup event first := by
      rcases List.mem_append.mp hexit with hmem | hmem
      · exact ⟨_, hmem⟩
      · exact ⟨_, hmem⟩
    obtain ⟨ht, hkept⟩ := List.mem_filter.mp hmem
    simp only [triedIn, Bool.and_eq_true, decide_eq_true_eq] at hkept
    obtain ⟨⟨⟨hin, hevent⟩, -⟩, -⟩ := hkept
    have hedges : edgesOf ir tup event ≠ [] := by
      intro hnil
      have hedge : t ∈ edgesOf ir tup event :=
        List.mem_filter.mpr ⟨ht, by simp [triedIn, hin, hevent]⟩
      rw [hnil] at hedge
      exact List.not_mem_nil hedge
    apply followsStep_of_leave h htup (hplain t ht hin hevent) (hc.exits hedges) hin
    · have hfilter := argmin_filter_of_argmin (p := fun u => u.source = t.source) hmin (by simp)
      rwa [hstate t.source hin] at hfilter
    · rw [hchosen, hmin]
      rfl

omit h htup in
theorem mem_edgesOf : t ∈ edgesOf ir tup event ↔ t ∈ ir.transitions ∧ t.source ∈ tup ∧ t.event = event := by
  unfold edgesOf
  rw [List.mem_filter]
  simp [triedIn]

omit h htup in
theorem mem_firstEdges (ht : t ∈ firstEdges ir tup event) :
    t ∈ edgesOf ir tup event ∧ firstEdge ir event t.source = some t := by
  obtain ⟨s, hs, hfirst⟩ := List.mem_filterMap.mp ht
  have htried := List.find?_some hfirst
  simp only [tried, Bool.and_eq_true, decide_eq_true_eq] at htried
  obtain ⟨rfl, hevent⟩ := htried
  exact ⟨mem_edgesOf.mpr ⟨List.mem_of_find?_eq_some hfirst, hs, hevent⟩, hfirst⟩

variable {s : String} {u : TransitionEdge}

omit h htup in
theorem leading_eq (hs : s ∈ subStates (regionsOf ir parent)) :
    leading (intraTransitions ir (subStates (regionsOf ir parent))) event s =
      firstEdge ir event s := by
  unfold leading intraTransitions firstEdge
  rw [List.find?_filter]
  apply List.find?_congr
  intro t _
  by_cases htried : tried s event t = true
  · have hsource : t.source = s := by
      simp only [tried, Bool.and_eq_true, decide_eq_true_eq] at htried
      exact htried.1
    simp [htried, hsource, hs]
  · simp [htried]

theorem synthesized_eq (hevent : event ≠ "") : synthesized ir parent tup event =
      if (firstEdges ir tup event).isEmpty then []
      else
        [{ source := tupleToName parent.name tup
           target := tupleToName parent.name (firstTargets ir tup event)
           event := event
           guard :=
            if (guardsOf (firstEdges ir tup event)).isEmpty then none
            else some (conjoin (guardsOf (firstEdges ir tup event)))
           transitionAction := combinedAction (tupleToName parent.name tup)
            (tupleToName parent.name (firstTargets ir tup event)) (firstEdges ir tup event) }] := by
  have hleading : ∀ s ∈ tup, leading (intraTransitions ir (subStates (regionsOf ir parent))) event s =
      firstEdge ir event s := fun s hs => leading_eq ((keep_nodup h htup).2 s hs)
  have hmoves : tup.filterMap (leading (intraTransitions ir (subStates (regionsOf ir parent))) event) =
      firstEdges ir tup event := List.filterMap_congr hleading
  have htargets : nextTuple (intraTransitions ir (subStates (regionsOf ir parent))) event tup =
      firstTargets ir tup event := by
    apply List.map_congr_left
    intro s hs
    rw [hleading s hs]
  unfold synthesized productEdge
  rw [if_neg hevent]
  dsimp only
  rw [hmoves, htargets]
  split <;> rfl

omit h htup in
theorem synthesized_priority (hu : u ∈ synthesized ir parent tup event) : u.priority = 0 := by
  unfold synthesized at hu
  split at hu
  · exact absurd hu List.not_mem_nil
  · have hedge := Option.mem_toList.mp hu
    unfold productEdge at hedge
    dsimp only at hedge
    split at hedge
    · exact absurd hedge (by simp)
    · obtain rfl := Option.some.inj hedge
      rfl

theorem guardPassed_synthesized (hv : Conjunctive v) {text : String}
    (htext : ∀ t ∈ firstEdges ir tup event, t.guard.getD "" = text)
    (hu : u ∈ synthesized ir parent tup event) :
    guardPassed (v w) (some u.getGuard) = (decide (text = "") || v w text) := by
  have hevent : event ≠ "" := by
    rintro rfl
    exact List.not_mem_nil hu
  rw [synthesized_eq h htup hevent] at hu
  split at hu
  · exact absurd hu List.not_mem_nil
  · next hne =>
      obtain rfl := List.mem_singleton.mp hu
      exact guardPassed_conjoin hv w (by simpa using hne) htext

omit h htup in
theorem filter_tried_of_mem (hs : s ∈ tup) :
    ir.transitions.filter (tried s event) = (edgesOf ir tup event).filter fun u => u.source = s := by
  unfold edgesOf
  rw [List.filter_filter]
  apply List.filter_congr
  intro u _
  by_cases hsource : u.source = s
  · simp [tried, triedIn, hsource, hs]
  · simp [tried, hsource]

omit h htup in
theorem exitsOf_of_leavesAlone (hc : LeavesAlone ir parent tup event t)
    (first : Bool) : exitsOf ir parent tup event first =
      if isFirst parent.name (regionsOf ir parent) tup t.source = first then [t] else [] := by
  have hsplit : exitsOf ir parent tup event first = (edgesOf ir tup event).filter fun u =>
      leaves parent.name (regionsOf ir parent) u &&
        decide (isFirst parent.name (regionsOf ir parent) tup u.source = first) := by
    unfold exitsOf edgesOf
    rw [List.filter_filter]
    apply List.filter_congr
    intro u _
    rw [Bool.and_assoc, Bool.and_comm]
  rw [hsplit, hc.only]
  by_cases hkind : isFirst parent.name (regionsOf ir parent) tup t.source = first <;>
    simp [hc.leaves.leaves, hkind]

omit h htup in
theorem chosen_of_leavesAlone (hc : LeavesAlone ir parent tup event t)
    (g : GuardValuation) (hs : s ∈ tup) : chosen ir s event g =
      if t.source = s ∧ guardPassed g (some t.getGuard) = true then some t else none := by
  unfold chosen
  rw [filter_ready, filter_tried_of_mem hs, hc.only]
  by_cases hsource : t.source = s
  · cases hpass : guardPassed g (some t.getGuard) <;> simp [hsource, hpass]
  · simp [hsource]

/-- The copy of the only row comes before the product transition, by its place or by its priority. -/
theorem chosen_flat_of_leavesAlone (hc : LeavesAlone ir parent tup event t)
    {g : GuardValuation} (hpass : guardPassed g (some t.getGuard) = true) :
    chosen (flatten n ir parent) (tupleToName parent.name tup) event g =
      some (syncGuard (atProduct parent tup t)) := by
  let passes := fun u : TransitionEdge => guardPassed g (some u.getGuard)
  have hpass' : guardPassed g (some (atProduct parent tup t).getGuard) = true := hpass
  have hpriority : ∀ u ∈ (synthesized ir parent tup event).filter passes, u.priority = 0 := fun u hu =>
    synthesized_priority (List.mem_of_mem_filter hu)
  rw [chosen_product h htup, exitsOf_of_leavesAlone hc, exitsOf_of_leavesAlone hc]
  cases hkind : isFirst parent.name (regionsOf ir parent) tup t.source with
  | true =>
    rw [if_pos rfl, if_neg (by simp), List.map_nil, List.append_nil, List.map_singleton,
      List.singleton_append, List.filter_cons_of_pos (p := passes) hpass']
    have hleast : IsFirstLeast (fun u : TransitionEdge => precedence u.priority) []
        (atProduct parent tup t) ((synthesized ir parent tup event).filter passes) := by
      refine ⟨by simp, fun u hu => ?_⟩
      rw [hpriority u hu]
      exact precedence_le _
    exact congrArg (Option.map syncGuard) (argmin_of_isFirstLeast hleast)
  | false =>
    rw [if_neg (by simp), if_pos rfl, List.map_nil, List.nil_append, List.map_singleton,
      List.filter_append, List.filter_cons_of_pos (p := passes) hpass', List.filter_nil]
    have hleast : IsFirstLeast (fun u : TransitionEdge => precedence u.priority)
        ((synthesized ir parent tup event).filter passes) (atProduct parent tup t) [] := by
      refine ⟨fun u hu => ?_, by simp⟩
      rw [hpriority u hu]
      exact hc.before.resolve_right (by simp [hkind])
    exact congrArg (Option.map syncGuard) (argmin_of_isFirstLeast hleast)

/-- When the guard of the only row fails, so does that of the product transition made from it. -/
theorem chosen_flat_of_leavesAlone_fails (hv : Conjunctive v)
    (hc : LeavesAlone ir parent tup event t) (hfail : guardPassed (v w) (some t.getGuard) = false) :
    chosen (flatten n ir parent) (tupleToName parent.name tup) event (v w) = none := by
  have hexit : ∀ first, ∀ u ∈ (exitsOf ir parent tup event first).map (atProduct parent tup),
      ¬guardPassed (v w) (some u.getGuard) = true := by
    intro first u hu
    obtain ⟨u, hmem, rfl⟩ := List.mem_map.mp hu
    rw [exitsOf_of_leavesAlone hc] at hmem
    split at hmem
    · obtain rfl := List.mem_singleton.mp hmem
      rw [Bool.not_eq_true]
      exact hfail
    · exact absurd hmem List.not_mem_nil
  have htext : ∀ m ∈ firstEdges ir tup event, m.guard.getD "" = t.getGuard := by
    intro m hm
    have hedge := (mem_firstEdges hm).1
    rw [hc.only] at hedge
    rw [List.mem_singleton.mp hedge]
    exact hc.text
  have hproduct : ∀ u ∈ synthesized ir parent tup event, ¬guardPassed (v w) (some u.getGuard) = true := by
    intro u hu
    rw [guardPassed_synthesized h htup hv htext hu]
    unfold guardPassed at hfail
    simp only [Bool.or_eq_false_iff] at hfail
    rw [hfail.1.1.1, hfail.2]
    simp
  have hall : ∀ u ∈ (exitsOf ir parent tup event true).map (atProduct parent tup) ++
      synthesized ir parent tup event ++
      (exitsOf ir parent tup event false).map (atProduct parent tup),
      ¬guardPassed (v w) (some u.getGuard) = true := by
    intro u hu
    rcases List.mem_append.mp hu with hu | hu
    · rcases List.mem_append.mp hu with hu | hu
      · exact hexit _ u hu
      · exact hproduct u hu
    · exact hexit _ u hu
  rw [chosen_product h htup, List.filter_eq_nil_iff.mpr hall]
  rfl

/-- **A single exit** with a priority of its own is taken before the product transition. -/
theorem followsStep_of_leavesAlone (hv : Conjunctive v)
    (hc : LeavesAlone ir parent tup event t) : FollowsStep n ir parent v tup w event := by
  have hmem : t ∈ edgesOf ir tup event := by simp [hc.only]
  have hin : t.source ∈ tup := (mem_edgesOf.mp hmem).2.1
  cases hpass : guardPassed (v w) (some t.getGuard) with
  | true =>
    apply followsStep_of_leave h htup hc.leaves hc.exits hin
    · rw [chosen_of_leavesAlone hc _ hin, if_pos ⟨rfl, hpass⟩]
    · exact chosen_flat_of_leavesAlone h htup hc hpass
  | false =>
    apply followsStep_of_none htup
    · exact chosen_flat_of_leavesAlone_fails h htup hv hc hpass
    · intro s hs
      rw [chosen_of_leavesAlone hc _ hs, hpass]
      simp

omit h in
theorem exitsOf_of_movesTogether (hc : MovesTogether ir parent tup event) (first : Bool) :
    exitsOf ir parent tup event first = [] := by
  unfold exitsOf
  rw [List.filter_eq_nil_iff]
  intro t ht hkept
  simp only [triedIn, leaves, Bool.and_eq_true, Bool.not_eq_true', decide_eq_false_iff_not,
    decide_eq_true_eq] at hkept
  obtain ⟨⟨⟨hin, hevent⟩, hout, -⟩, -⟩ := hkept
  obtain ⟨l, hl, hmem⟩ := exists_mem_of_mem_product htup hin
  obtain ⟨reg, hreg, rfl⟩ := List.mem_map.mp hl
  have htarget := hc.inner t (mem_edgesOf.mpr ⟨ht, hin, hevent⟩) reg hreg hmem
  exact hout (List.mem_flatten.mpr ⟨_, List.mem_map_of_mem hreg, htarget⟩)

omit h htup in
theorem chosen_of_movesTogether (hc : MovesTogether ir parent tup event) (g : GuardValuation)
    (hs : s ∈ tup) :
    chosen ir s event g = (firstEdge ir event s).filter fun t => guardPassed g (some t.getGuard) := by
  let passes := fun u : TransitionEdge => guardPassed g (some u.getGuard)
  have hhead : (ir.transitions.filter (tried s event)).head? = firstEdge ir event s :=
    List.head?_filter
  unfold chosen
  rw [filter_ready]
  cases hrows : ir.transitions.filter (tried s event) with
  | nil =>
    rw [hrows] at hhead
    rw [← hhead]
    rfl
  | cons t rest =>
    rw [hrows] at hhead
    have hfirst : t ∈ firstEdges ir tup event := List.mem_filterMap.mpr ⟨s, hs, hhead.symm⟩
    have hsource : t.source = s := by
      have hmem : t ∈ ir.transitions.filter (tried s event) := by simp [hrows]
      have htried := (List.mem_filter.mp hmem).2
      simp only [tried, Bool.and_eq_true, decide_eq_true_eq] at htried
      exact htried.1
    have hleads := hc.leads t hfirst
    rw [hsource, hrows] at hleads
    rw [← hhead]
    cases hpass : guardPassed g (some t.getGuard) with
    | true =>
      rw [List.filter_cons_of_pos (p := passes) hpass]
      have hleast : IsFirstLeast (fun u : TransitionEdge => precedence u.priority) [] t
          (rest.filter passes) := by
        refine ⟨by simp, fun u hu => ?_⟩
        have hmem := List.mem_of_mem_filter hu
        rcases hleads u (List.mem_cons_of_mem _ hmem) with hsingle | ⟨-, hle⟩
        · rw [(List.cons.inj hsingle).2] at hmem
          exact absurd hmem List.not_mem_nil
        · exact hle
      have hself : (some t).filter passes = some t := by simp [passes, hpass]
      exact (argmin_of_isFirstLeast hleast).trans hself.symm
    | false =>
      have hnil : rest = [] := by
        rcases hleads t List.mem_cons_self with hsingle | ⟨hempty, -⟩
        · exact (List.cons.inj hsingle).2
        · rw [hempty] at hpass
          exact absurd hpass (by simp [guardPassed])
      rw [hnil]
      simp [hpass, Option.filter]

omit h htup in
theorem prod_filterMap (f : String → Option TransitionEdge) (observe : TransitionEdge → Observation)
    (states : List String) :
    (states.map fun s => ((f s).map observe).getD 1).prod =
      ((states.filterMap f).map observe).prod := by
  induction states with
  | nil => rfl
  | cons s states ih =>
    rw [List.map_cons, List.prod_cons, ih]
    cases hf : f s with
    | none =>
      rw [List.filterMap_cons_none hf]
      exact one_mul _
    | some t =>
      rw [List.filterMap_cons_some hf]
      rfl

omit h in
theorem firstTargets_mem (hc : MovesTogether ir parent tup event) :
    firstTargets ir tup event ∈ productTuples (regionsOf ir parent) := by
  apply map_mem_product htup
  intro l hl s hs hmem
  obtain ⟨reg, hreg, rfl⟩ := List.mem_map.mp hl
  cases hfirst : firstEdge ir event s with
  | none => exact hmem
  | some t =>
    have htried := List.find?_some hfirst
    simp only [tried, Bool.and_eq_true, decide_eq_true_eq] at htried
    have hedge : t ∈ edgesOf ir tup event :=
      mem_edgesOf.mpr ⟨List.mem_of_find?_eq_some hfirst, htried.1 ▸ hs, htried.2⟩
    exact hc.inner t hedge reg hreg (htried.1.symm ▸ hmem)

section Moves

variable (hc : MovesTogether ir parent tup event) {g : GuardValuation}
  (hmoves : ∀ s ∈ tup, chosen ir s event g = firstEdge ir event s)
include hc

omit h htup in
theorem external_of_movesTogether {s : String} (hs : s ∈ tup) {t : TransitionEdge}
    (ht : firstEdge ir event s = some t) : t.kind ≠ .internal :=
  (hc.whole t (List.mem_filterMap.mpr ⟨s, hs, ht⟩)).external

omit h htup in
theorem silent_of_movesTogether (hne : firstEdges ir tup event ≠ []) {s : String} (hs : s ∈ tup)
    (hfirst : firstEdge ir event s = none) : observeEntry ir s = 1 ∧ observeExit ir s = 1 := by
  unfold observeEntry observeExit
  cases hfind : ir.findState s with
  | none => exact ⟨rfl, rfl⟩
  | some node =>
    obtain ⟨hentry, hexit⟩ := hc.still hne s hs hfirst node hfind
    show observeActions node.entryActions = 1 ∧ observeActions node.exitActions = 1
    rw [hentry, hexit]
    exact ⟨rfl, rfl⟩

include hmoves

omit h htup in
theorem map_regionNext : tup.map (regionNext ir event g) = firstTargets ir tup event := by
  apply List.map_congr_left
  intro s hs
  unfold regionNext
  rw [hmoves s hs]
  cases hfirst : firstEdge ir event s with
  | none => rfl
  | some t => exact if_neg (external_of_movesTogether hc hs hfirst)

omit h htup in
theorem prod_regionExit (hne : firstEdges ir tup event ≠ []) :
    (tup.map (regionExit ir event g)).prod = (tup.map (observeExit ir)).prod := by
  congr 1
  apply List.map_congr_left
  intro s hs
  unfold regionExit
  rw [hmoves s hs]
  cases hfirst : firstEdge ir event s with
  | none => exact (silent_of_movesTogether hc hne hs hfirst).2.symm
  | some t => exact if_neg (external_of_movesTogether hc hs hfirst)

omit h htup hc in
theorem prod_regionEffect :
    (tup.map (regionEffect ir event g)).prod = ((firstEdges ir tup event).map observeEffect).prod := by
  unfold firstEdges
  rw [← prod_filterMap]
  congr 1
  apply List.map_congr_left
  intro s hs
  unfold regionEffect
  rw [hmoves s hs]
  cases firstEdge ir event s <;> rfl

omit h htup in
theorem prod_regionEntry (hne : firstEdges ir tup event ≠ []) : (tup.map (regionEntry ir event g)).prod =
      ((firstTargets ir tup event).map (observeEntry ir)).prod := by
  unfold firstTargets
  rw [List.map_map]
  congr 1
  apply List.map_congr_left
  intro s hs
  unfold regionEntry
  rw [hmoves s hs]
  show _ = observeEntry ir (((firstEdge ir event s).map (·.target)).getD s)
  cases hfirst : firstEdge ir event s with
  | none => exact (silent_of_movesTogether hc hne hs hfirst).1.symm
  | some t => exact if_neg (external_of_movesTogether hc hs hfirst)

end Moves

omit h in
theorem composed_of_movesTogether (hc : MovesTogether ir parent tup event)
    (hmoves : ∀ s ∈ tup, chosen ir s event (v w) = firstEdge ir event s) :
    Composed ir (subStates (regionsOf ir parent)) v (tup, w) event
      (.inside (tup.map (regionNext ir event (v w))), w * observeMoves ir event (v w) tup) := by
  apply Composed.move
  intro s hs t ht
  rw [hmoves s hs] at ht
  have hmem : t ∈ firstEdges ir tup event := List.mem_filterMap.mpr ⟨s, hs, ht⟩
  obtain ⟨l, hl, hsl⟩ := exists_mem_of_mem_product htup (mem_edgesOf.mp (mem_firstEdges hmem).1).2.1
  obtain ⟨reg, hreg, rfl⟩ := List.mem_map.mp hl
  have htarget := hc.inner t (mem_firstEdges hmem).1 reg hreg hsl
  exact List.mem_flatten.mpr ⟨_, List.mem_map_of_mem hreg, htarget⟩

theorem dispatch_of_movesTogether (hc : MovesTogether ir parent tup event) (hne : firstEdges ir tup event ≠ [])
    (hmoves : ∀ s ∈ tup, chosen ir s event (v w) = firstEdge ir event s)
    (hflat : chosen (flatten n ir parent) (tupleToName parent.name tup) event (v w) =
      ((synthesized ir parent tup event).argmin fun t => precedence t.priority).map syncGuard) :
    dispatch (flatten n ir parent) v (tupleToName parent.name tup, w) event =
      (tupleToName parent.name (firstTargets ir tup event), w * observeMoves ir event (v w) tup) := by
  have hisEmpty : (firstEdges ir tup event).isEmpty = false := by simpa using hne
  have hsynthesized := synthesized_eq h htup hc.triggered
  rw [hisEmpty] at hsynthesized
  rw [hsynthesized] at hflat
  unfold dispatch
  dsimp only
  rw [hflat]
  show (tupleToName parent.name (firstTargets ir tup event),
    w * (observeExit (flatten n ir parent) (tupleToName parent.name tup) *
      (1 * observeAction? (combinedAction _ _ (firstEdges ir tup event)) * 1) *
        observeEntry (flatten n ir parent) (tupleToName parent.name (firstTargets ir tup event)))) = _
  rw [observeExit_product h htup (hc.exits hne),
    observeEntry_product h (firstTargets_mem htup hc) (hc.entries hne), one_mul, mul_one,
    observeAction?_combinedAction _ _ hc.whole hc.names hc.named]
  unfold observeMoves
  rw [prod_regionExit hc hmoves hne, prod_regionEffect hmoves, prod_regionEntry hc hmoves hne]

/-- **Moves inside**: the product takes the first transitions of the regions at once. -/
theorem followsStep_of_movesTogether (hv : Conjunctive v) (hc : MovesTogether ir parent tup event) :
    FollowsStep n ir parent v tup w event := by
  have hflat : chosen (flatten n ir parent) (tupleToName parent.name tup) event (v w) =
      (((synthesized ir parent tup event).filter fun t =>
        guardPassed (v w) (some t.getGuard)).argmin fun t => precedence t.priority).map syncGuard := by
    rw [chosen_product h htup, exitsOf_of_movesTogether htup hc, exitsOf_of_movesTogether htup hc,
      List.map_nil, List.nil_append, List.append_nil]
  by_cases hnone : firstEdges ir tup event = []
  · apply followsStep_of_none htup
    · rw [hflat, synthesized_eq h htup hc.triggered, hnone]
      rfl
    · intro s hs
      rw [chosen_of_movesTogether hc _ hs]
      have hfirst : firstEdge ir event s = none := List.filterMap_eq_nil_iff.mp hnone s hs
      rw [hfirst]
      rfl
  · -- the regions that move share one guard, which is that of the product transition
    obtain ⟨t₀, ht₀⟩ := List.exists_mem_of_ne_nil _ hnone
    have htext : ∀ t ∈ firstEdges ir tup event, t.guard.getD "" = t₀.getGuard := fun t ht =>
      (hc.whole t ht).text.trans (hc.guards t ht t₀ ht₀)
    have hpasses : ∀ t ∈ firstEdges ir tup event, guardPassed (v w) (some t.getGuard) =
        (decide (t₀.getGuard = "") || v w t₀.getGuard) := by
      intro t ht
      obtain ⟨helse, hdefault⟩ := (hc.whole t₀ ht₀).guard
      rw [hc.guards t ht t₀ ht₀]
      simp [guardPassed, helse, hdefault]
    have hregion : ∀ s ∈ tup, chosen ir s event (v w) =
        if (decide (t₀.getGuard = "") || v w t₀.getGuard) = true then firstEdge ir event s
        else none := by
      intro s hs
      rw [chosen_of_movesTogether hc _ hs]
      cases hfirst : firstEdge ir event s with
      | none => simp
      | some t =>
        have ht : t ∈ firstEdges ir tup event := List.mem_filterMap.mpr ⟨s, hs, hfirst⟩
        rw [← hpasses t ht]
        rfl
    cases hpass : (decide (t₀.getGuard = "") || v w t₀.getGuard) with
    | false =>
      apply followsStep_of_none htup
      · rw [hflat, List.filter_eq_nil_iff.mpr]
        · rfl
        · intro u hu
          rw [guardPassed_synthesized h htup hv htext hu, hpass]
          exact Bool.false_ne_true
      · intro s hs
        rw [hregion s hs, hpass]
        rfl
    | true =>
      have hmoves : ∀ s ∈ tup, chosen ir s event (v w) = firstEdge ir event s := by
        intro s hs
        rw [hregion s hs, hpass]
        rfl
      have hfire : ∀ u ∈ synthesized ir parent tup event,
          guardPassed (v w) (some u.getGuard) = true := by
        intro u hu
        rw [guardPassed_synthesized h htup hv htext hu, hpass]
      rw [List.filter_eq_self.mpr hfire] at hflat
      have hnext := map_regionNext hc hmoves
      refine ⟨_, composed_of_movesTogether htup hc hmoves, ?_, ?_⟩
      · show _ = (tupleToName parent.name (tup.map (regionNext ir event (v w))), _)
        rw [hnext]
        exact dispatch_of_movesTogether h htup hc hnone hmoves hflat
      · intro tup' heq
        rw [hnext] at heq
        cases heq
        exact firstTargets_mem htup hc

/-- **One event** on which the product of the tuple is faithful. -/
theorem followsStep_of_faithful (hv : Conjunctive v) (hc : Faithful ir parent tup event) :
    FollowsStep n ir parent v tup w event := by
  cases hc with
  | completes hc => exact followsStep_of_completes h htup hc
  | leavesAlone hc => exact followsStep_of_leavesAlone h htup hv hc
  | movesTogether hc => exact followsStep_of_movesTogether h htup hv hc

end Step

/-! ## Runs -/

/-- **The product follows its regions** in every run in which each event finds the regions in a tuple
whose product is faithful on it. -/
theorem product_follows_regions (n : ℕ) (ir : FsmIr) (parent : StateNode) (h : Separate n ir parent)
    (v : GuardHistory) (hv : Conjunctive v) (tup : List String)
    (htup : tup ∈ productTuples (regionsOf ir parent)) (w : Observation) (events : List String)
    (hfaithful : ∀ past event future tup' w', events = past ++ event :: future →
      Follows ir (subStates (regionsOf ir parent)) v (tup, w) past (.inside tup', w') [] →
        Faithful ir parent tup' event) :
    FollowsRegions n ir parent v tup w events := by
  induction events generalizing tup w with
  | nil => exact ⟨(.inside tup, w), [], .done, rfl⟩
  | cons event events ih =>
    have hfirst := hfaithful [] event events tup w rfl .done
    obtain ⟨⟨place, w'⟩, hstep, hdispatch, hinside⟩ := followsStep_of_faithful h htup hv hfirst
    have hrun : dispatchAll (flatten n ir parent) v (tupleToName parent.name tup, w)
        (event :: events) =
        dispatchAll (flatten n ir parent) v (placeName parent.name place, w') events := by
      unfold dispatchAll
      rw [List.foldl_cons, hdispatch]
    cases place with
    | outside s => exact ⟨(.outside s, w'), events, .leave hstep, hrun⟩
    | inside tup' =>
      obtain ⟨r, rest, hfollows, hrest⟩ := ih tup' (hinside tup' rfl) w' (by
        intro past e future tup'' w'' heq hpast
        exact hfaithful (event :: past) e future tup'' w'' (by rw [heq]; rfl)
          (.step hstep hpast))
      exact ⟨r, rest, .step hstep hfollows, hrun.trans hrest⟩

theorem run_eq_flatten {n : ℕ} {ir : FsmIr} {parent : StateNode}
    (hnames : (ir.states.filter fun s => s.kind = .parallel || !s.orthogonalRegions.isEmpty).map
      (·.name) = [parent.name])
    (hfind : ir.findState parent.name = some parent) (hregions : 2 ≤ parent.orthogonalRegions.length)
    (hexpanded : (expandParallelState n ir parent).2 = true) : run n ir = flatten n ir parent := by
  have hstep : expandNamed n (ir, false) parent.name =
      ((expandParallelState n ir parent).1, (expandParallelState n ir parent).2) := by
    unfold expandNamed
    dsimp only
    rw [hfind]
    dsimp only
    rw [if_neg (by omega), Bool.false_or]
  unfold run flatten
  dsimp only
  rw [hnames, List.foldl_cons, List.foldl_nil, hstep, hexpanded]
  rfl

/-- A composite of two channels. -/
def dual : StateNode :=
  { name := "Dual"
    kind := .parallel
    orthogonalRegions := [
      { id := "A", name := "A", initialStateId := "A1", stateIds := ["A1", "A2"] },
      { id := "B", name := "B", initialStateId := "B1", stateIds := ["B1", "B2"] }] }

/-- Channels that go on under the given guards. -/
def channels (guardA guardB : String) : FsmIr :=
  { initialState := "Dual"
    states := [dual, { name := "A1" }, { name := "A2" }, { name := "B1" }, { name := "B2" }]
    transitions := [
      { source := "A1", event := "go", guard := some guardA, target := "A2" },
      { source := "B1", event := "go", guard := some guardB, target := "B2" }] }

/-- The guards that hold are those without the letter `z`. -/
def withoutZ : GuardHistory := fun _ text => text.toList.all (· ≠ 'z')

theorem conjunctive_withoutZ : Conjunctive withoutZ := by
  intro w guards hne
  unfold withoutZ conjoin
  induction guards with
  | nil => exact absurd rfl hne
  | cons guard guards ih =>
    cases guards with
    | nil => simp [List.all_append]
    | cons guard' guards =>
      have hrest := ih (by simp)
      rw [List.map_cons] at hrest ⊢
      rw [List.map_cons, String.intercalate_cons_cons, String.toList_append, List.all_append,
        hrest, List.all_cons]
      congr 1
      simp [List.all_append]

theorem separate_channels (guardA guardB : String) : Separate 1024 (channels guardA guardB) dual := by
  have hregions : regionsOf (channels guardA guardB) dual =
      [⟨"A", ["A1", "A2"], "A1"⟩, ⟨"B", ["B1", "B2"], "B1"⟩] := rfl
  have hnames : (channels guardA guardB).states.map (·.name) = ["Dual", "A1", "A2", "B1", "B2"] := rfl
  have hsources : (channels guardA guardB).transitions.map (·.source) = ["A1", "B1"] := rfl
  refine ⟨?_, ?_, ?_, ?_, ?_, ?_, ?_⟩
  · rw [hnames]
    decide
  · rw [hregions]
    decide
  · rw [hregions]
    decide
  · rw [hregions]
    decide
  · rw [hregions]
    decide
  · rw [hregions, hnames, hsources]
    decide
  · rw [hregions]
    intro t ht
    rcases List.mem_pair.mp ht with rfl | rfl
    · exact ⟨fun _ => rfl, fun s hs => absurd hs List.not_mem_nil⟩
    · exact ⟨fun _ => rfl, fun s hs => absurd hs List.not_mem_nil⟩

/-- Channels that share their guard go on together. -/
theorem channels_follow_regions :
    FollowsRegions 1024 (channels "ready" "ready") dual withoutZ ["A1", "B1"] 1 ["go"] := by
  let ir := channels "ready" "ready"
  have hmoves : MovesTogether ir dual ["A1", "B1"] "go" := by
    have hfirst : firstEdges ir ["A1", "B1"] "go" = ir.transitions := rfl
    refine ⟨by decide, by decide, ?_, ?_, ?_, by decide, fun _ => by decide, ?_,
      fun _ => List.nodup_nil, fun _ => List.nodup_nil⟩
    · rw [hfirst]
      intro t ht
      rcases List.mem_pair.mp ht with rfl | rfl
      · exact ⟨by decide, rfl, by decide, rfl, rfl, fun _ hact => absurd hact (by simp)⟩
      · exact ⟨by decide, rfl, by decide, rfl, rfl, fun _ hact => absurd hact (by simp)⟩
    · rw [hfirst]
      intro t ht u _
      rcases List.mem_pair.mp ht with rfl | rfl
      · exact Or.inl rfl
      · exact Or.inl rfl
    · rw [hfirst]
      decide
    · intro _ s hs hnone
      rcases List.mem_pair.mp hs with rfl | rfl
      · exact absurd hnone (by decide)
      · exact absurd hnone (by decide)
  apply product_follows_regions 1024 ir dual (separate_channels _ _) withoutZ conjunctive_withoutZ
  · decide
  · intro past event future tup' w' heq hpast
    cases past with
    | cons _ past => simp at heq
    | nil =>
      obtain ⟨rfl, -⟩ := List.cons.inj heq
      cases hpast
      exact .movesTogether hmoves

/-- Channels of which only one is ready: the product requires both guards. -/
theorem channels_not_followed : run 1024 (channels "ready" "zero") = flatten 1024 (channels "ready" "zero") dual ∧
      ¬FollowsRegions 1024 (channels "ready" "zero") dual withoutZ ["A1", "B1"] 1 ["go"] := by
  let ir := channels "ready" "zero"
  refine ⟨run_eq_flatten (by decide) rfl (by decide) (by decide), ?_⟩
  rintro ⟨r, rest, hfollows, hrun⟩
  have hinner : ∀ t ∈ ir.transitions, t.target ∈ subStates (regionsOf ir dual) := by decide
  cases hfollows with
  | leave hstep =>
    obtain ⟨t, ht, hout⟩ := hstep.outside_inv
    exact hout (hinner t ht)
  | @step _ c' _ _ _ _ hstep hrest =>
    obtain ⟨tup', w'⟩ := c'
    have hnext : tup' = ["A2", "B1"] := hstep.inside_inv.trans (by decide)
    have hstays : chosen (flatten 1024 ir dual) (tupleToName dual.name ["A1", "B1"]) "go"
        (withoutZ 1) = none := by
      rw [chosen_flatten (separate_channels _ _)]
      have hnone : ((flatTransitions ir dual.name (regionsOf ir dual)).filter
          (tried (tupleToName dual.name ["A1", "B1"]) "go")).all (fun t =>
            !guardPassed (withoutZ 1) (some t.getGuard)) = true := by decide
      rw [List.filter_eq_nil_iff.mpr]
      · rfl
      · intro t ht
        simpa using List.all_eq_true.mp hnone t ht
    cases hrest
    have hplace : dispatchAll (flatten 1024 ir dual) withoutZ
        (tupleToName dual.name ["A1", "B1"], 1) ["go"] =
          (tupleToName dual.name ["A1", "B1"], 1) := by
      show dispatch _ _ _ _ = _
      unfold dispatch
      dsimp only
      rw [hstays]
    have hsame : tupleToName dual.name ["A1", "B1"] = tupleToName dual.name tup' :=
      congrArg Prod.fst (hplace.symm.trans hrun)
    rw [hnext] at hsame
    exact absurd hsame (by decide)

end Fsmc.Passes.OrthogonalProduct
