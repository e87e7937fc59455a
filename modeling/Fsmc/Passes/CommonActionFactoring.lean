/-
# Fsmc.Passes.CommonActionFactoring — sharing the action of all edges of a state.

When all edges into a state have one action, the state runs it on entry instead; when all edges out of a
state have one, it runs it on exit. A state is also entered on the way to a descendant, by default and at
the start, and it is left with an ancestor: there the action comes in addition. Where an edge does not
leave its source or enter its target it is lost, and next to the hooks of the ancestors it changes place.
-/
import Fsmc.Ir.GraphOps
import Fsmc.Runtime.HookTrace

namespace Fsmc.Passes.CommonActionFactoring

open Fsmc.Ir Fsmc.Runtime

/-! ## The pass -/

def matchesState (refName refId : String) (st : StateNode) : Bool :=
  refName ≠ "" && (refName = st.name || refName = st.id) ||
    refId ≠ "" && (refId = st.id || refId = st.name)

def isPseudostate (ir : FsmIr) (st : StateNode) : Bool :=
  ir.isChoiceNode st.name || ir.isChoiceNode st.id ||
    match st.kind with
    | .atomic | .composite | .parallel | .final => false
    | _ => true

def isInitial (ir : FsmIr) (st : StateNode) : Bool :=
  ir.initialState ≠ "" && (st.name = ir.initialState || st.id = ir.initialState) ||
    ir.initialStateId ≠ "" && (st.name = ir.initialStateId || st.id = ir.initialStateId)

/-- An edge into a state, which internal transitions are not. -/
def arrives (st : StateNode) (t : TransitionEdge) : Bool :=
  t.kind ≠ .internal && matchesState t.target t.targetId st

def leaves (st : StateNode) (t : TransitionEdge) : Bool :=
  t.kind ≠ .internal && matchesState t.source t.sourceId st

def hasAction (t : TransitionEdge) : Bool := t.transitionAction.any fun a => !a.empty

/-- The action that two edges or more have in common. -/
def common (edges : List TransitionEdge) : Option ActionSignature :=
  if 2 ≤ edges.length ∧ edges.all hasAction then
    (edges.head?.bind (·.transitionAction)).filter fun first =>
      edges.all fun t => t.transitionAction = some first
  else none

/-- `transition_action = std::nullopt`. -/
def dropAction (t : TransitionEdge) : TransitionEdge := { t with transitionAction := none }

def prependEntry (act : ActionSignature) (s : StateNode) : StateNode :=
  { s with entryActions := act :: s.entryActions }

def appendExit (act : ActionSignature) (s : StateNode) : StateNode :=
  { s with exitActions := s.exitActions ++ [act] }

section Loop

variable (edge : StateNode → TransitionEdge → Bool) (skip : StateNode → Bool)
  (put : ActionSignature → StateNode → StateNode)

/-- What the turn of a state finds: the action of all its edges. -/
def gain (ts : List TransitionEdge) (s : StateNode) : Option ActionSignature :=
  if skip s then none else common (ts.filter (edge s))

/-- The loop over the states. -/
def factor : List StateNode → List TransitionEdge → List StateNode × List TransitionEdge
  | [], ts => ([], ts)
  | s :: states, ts =>
    match gain edge skip ts s with
    | some act =>
      let rest := factor states (ts.map fun t => if edge s t then dropAction t else t)
      (put act s :: rest.1, rest.2)
    | none =>
      let rest := factor states ts
      (s :: rest.1, rest.2)

end Loop

/-- The states that the first loop passes over. -/
def skipEntry (ir : FsmIr) (s : StateNode) : Bool := isPseudostate ir s || isInitial ir s

/-- The first loop; names and kinds do not change in it. -/
def factorEntry (ir : FsmIr) : FsmIr :=
  let out := factor arrives (skipEntry ir) prependEntry ir.states ir.transitions
  { ir with states := out.1, transitions := out.2 }

/-- The second loop. -/
def factorExit (ir : FsmIr) : FsmIr :=
  let out := factor leaves (isPseudostate ir) appendExit ir.states ir.transitions
  { ir with states := out.1, transitions := out.2 }

/-- `CommonActionFactoringPass::run`. -/
def run (ir : FsmIr) : FsmIr := factorExit (factorEntry ir)

/-! ## Each loop at once -/

section Loop

variable {edge : StateNode → TransitionEdge → Bool} {skip : StateNode → Bool}
  {put : ActionSignature → StateNode → StateNode}

/-- A state after its turn, when the loop finds its edges as they are here. -/
def settle (edge : StateNode → TransitionEdge → Bool) (skip : StateNode → Bool)
    (put : ActionSignature → StateNode → StateNode) (ts : List TransitionEdge) (s : StateNode) :
    StateNode :=
  match gain edge skip ts s with
  | some act => put act s
  | none => s

/-- An edge gives up its action to one of some states. -/
def relieved (edge : StateNode → TransitionEdge → Bool) (skip : StateNode → Bool)
    (ts : List TransitionEdge) (states : List StateNode) (t : TransitionEdge) : Bool :=
  states.any fun s => (gain edge skip ts s).isSome && edge s t

/-- A transition after the turns of some states. -/
def relieve (edge : StateNode → TransitionEdge → Bool) (skip : StateNode → Bool)
    (ts : List TransitionEdge) (states : List StateNode) (t : TransitionEdge) : TransitionEdge :=
  if relieved edge skip ts states t then dropAction t else t

theorem settle_congr {β : Type*} (add : ActionSignature → StateNode → StateNode) (f : StateNode → β)
    (hadd : ∀ act n, f (add act n) = f n) (ts : List TransitionEdge) (n : StateNode) :
    f (settle edge skip add ts n) = f n := by
  unfold settle
  split
  · exact hadd _ n
  · rfl

variable {ts : List TransitionEdge} {act : ActionSignature}

theorem factor_eq (hdrop : ∀ s t, edge s (dropAction t) = edge s t) {states : List StateNode}
    (hone : states.Pairwise fun s s' => ∀ t ∈ ts, edge s t = true → edge s' t = false) :
    factor edge skip put states ts =
      (states.map (settle edge skip put ts), ts.map (relieve edge skip ts states)) := by
  induction states generalizing ts with
  | nil =>
    have hsame : ts.map (relieve edge skip ts []) = ts :=
      List.map_id'' (fun t => by simp [relieve, relieved]) ts
    simp [factor, hsame]
  | cons s states ih =>
    obtain ⟨hs, hrest⟩ := List.pairwise_cons.mp hone
    unfold factor
    cases hgain : gain edge skip ts s with
    | none =>
      simp only [ih hrest, List.map_cons, settle, hgain]
      congr 1
      apply List.map_congr_left
      intro t _
      simp [relieve, relieved, hgain]
    | some act =>
      let strip := fun t => if edge s t then dropAction t else t
      have hstrip : ∀ s' t, edge s' (strip t) = edge s' t := by
        intro s' t
        show edge s' (if edge s t then dropAction t else t) = _
        split
        · exact hdrop s' t
        · rfl
      have hfilter : ∀ s' ∈ states, (ts.map strip).filter (edge s') = ts.filter (edge s') := by
        intro s' hs'
        rw [List.filter_map]
        have hkeep : ∀ t ∈ ts.filter (edge s' ∘ strip), strip t = t := by
          intro t ht
          obtain ⟨hmem, hedge⟩ := List.mem_filter.mp ht
          have hedge' : edge s' t = true := (hstrip s' t).symm.trans hedge
          show (if edge s t then dropAction t else t) = t
          split
          · next h => simp [hs s' hs' t hmem h] at hedge'
          · rfl
        rw [List.map_congr_left hkeep, List.map_id']
        exact congrArg (List.filter · ts) (funext (hstrip s'))
      have hgains : ∀ s' ∈ states, gain edge skip (ts.map strip) s' = gain edge skip ts s' := by
        intro s' hs'
        unfold gain
        rw [hfilter s' hs']
      have hone' : states.Pairwise fun s₁ s₂ =>
          ∀ t ∈ ts.map strip, edge s₁ t = true → edge s₂ t = false := by
        refine hrest.imp fun {s₁ s₂} h t ht hedge => ?_
        obtain ⟨t₀, ht₀, rfl⟩ := List.mem_map.mp ht
        rw [hstrip] at hedge ⊢
        exact h t₀ ht₀ hedge
      have hstates : states.map (settle edge skip put (ts.map strip)) =
          states.map (settle edge skip put ts) := by
        apply List.map_congr_left
        intro s' hs'
        unfold settle
        rw [hgains s' hs']
      have hany : ∀ t, (states.any fun s' =>
          (gain edge skip (ts.map strip) s').isSome && edge s' (strip t)) =
            states.any fun s' => (gain edge skip ts s').isSome && edge s' t := by
        intro t
        apply Bool.eq_iff_iff.mpr
        simp only [List.any_eq_true]
        refine exists_congr fun s' => and_congr_right fun hs' => ?_
        rw [hgains s' hs', hstrip]
      show (put act s :: (factor edge skip put states (ts.map strip)).1,
        (factor edge skip put states (ts.map strip)).2) = _
      rw [ih hone', List.map_map, hstates]
      have hput : settle edge skip put ts s = put act s := by simp [settle, hgain]
      rw [List.map_cons, hput]
      refine Prod.ext rfl (List.map_congr_left fun t ht => ?_)
      unfold Function.comp relieve relieved
      rw [hany, List.any_cons, hgain]
      by_cases hedge : edge s t = true
      · have hothers : (states.any fun s' => (gain edge skip ts s').isSome && edge s' t) = false := by
          apply List.any_eq_false.mpr
          intro s' hs'
          simp [hs s' hs' t ht hedge]
        simp [hothers, hedge, strip]
      · simp [hedge, strip]

theorem relieve_eq_or (ts : List TransitionEdge) (states : List StateNode) (t : TransitionEdge) :
    relieve edge skip ts states t = t ∨ relieve edge skip ts states t = dropAction t := by
  unfold relieve
  split
  · exact .inr rfl
  · exact .inl rfl

theorem common_spec {edges : List TransitionEdge} (h : common edges = some act) :
    ∀ t ∈ edges, t.transitionAction = some act := by
  unfold common at h
  split at h
  · have hall := (Option.filter_eq_some_iff.mp h).2
    intro t ht
    simpa using List.all_eq_true.mp hall t ht
  · cases h

theorem gain_spec {s : StateNode}
    (h : gain edge skip ts s = some act) {t : TransitionEdge} (ht : t ∈ ts) (hedge : edge s t = true) :
    t.transitionAction = some act := by
  unfold gain at h
  split at h
  · cases h
  · exact common_spec h t (List.mem_filter.mpr ⟨ht, hedge⟩)

end Loop

/-! ## Edges between states -/

/-- Each end of a transition refers to the one state that its name is. -/
structure Resolved (ir : FsmIr) : Prop where
  names : (ir.states.map (·.name)).Nodup
  named : ∀ n ∈ ir.states, n.name ≠ ""
  target : ∀ t ∈ ir.transitions, ∀ n ∈ ir.states,
    matchesState t.target t.targetId n = true → n.name = t.target
  source : ∀ t ∈ ir.transitions, ∀ n ∈ ir.states,
    matchesState t.source t.sourceId n = true → n.name = t.source

theorem matchesState_name {st : StateNode} (h : st.name ≠ "") (refId : String) :
    matchesState st.name refId st = true := by
  simp [matchesState, h]

namespace Resolved

variable {ir : FsmIr} {n : StateNode} {t : TransitionEdge}

theorem arrives_iff (h : Resolved ir) (hn : n ∈ ir.states) (ht : t ∈ ir.transitions) :
    arrives n t = true ↔ t.kind ≠ .internal ∧ n.name = t.target := by
  have hmatch : matchesState t.target t.targetId n = true ↔ n.name = t.target := by
    refine ⟨h.target t ht n hn, fun hname => ?_⟩
    rw [← hname]
    exact matchesState_name (h.named n hn) _
  simp [arrives, hmatch]

theorem leaves_iff (h : Resolved ir) (hn : n ∈ ir.states) (ht : t ∈ ir.transitions) :
    leaves n t = true ↔ t.kind ≠ .internal ∧ n.name = t.source := by
  have hmatch : matchesState t.source t.sourceId n = true ↔ n.name = t.source := by
    refine ⟨h.source t ht n hn, fun hname => ?_⟩
    rw [← hname]
    exact matchesState_name (h.named n hn) _
  simp [leaves, hmatch]

theorem distinct (h : Resolved ir) :
    ir.states.Pairwise fun n n' => n ∈ ir.states ∧ n' ∈ ir.states ∧ n.name ≠ n'.name := by
  have hpair : ir.states.Pairwise fun n n' => n.name ≠ n'.name := List.pairwise_map.mp h.names
  exact hpair.imp_of_mem fun hn hn' hne => ⟨hn, hn', hne⟩

theorem factorEntry_eq (h : Resolved ir) : factorEntry ir =
      { ir with
        states := ir.states.map (settle arrives (skipEntry ir) prependEntry ir.transitions)
        transitions := ir.transitions.map (relieve arrives (skipEntry ir) ir.transitions ir.states) } := by
  unfold factorEntry
  rw [factor_eq (fun _ _ => rfl)]
  refine h.distinct.imp fun hpair t ht hedge => ?_
  obtain ⟨hn, hn', hne⟩ := hpair
  apply Bool.eq_false_iff.mpr
  intro hedge'
  exact hne (((h.arrives_iff hn ht).mp hedge).2.trans ((h.arrives_iff hn' ht).mp hedge').2.symm)

theorem factorExit_eq (h : Resolved ir) : factorExit ir =
      { ir with
        states := ir.states.map (settle leaves (isPseudostate ir) appendExit ir.transitions)
        transitions :=
          ir.transitions.map (relieve leaves (isPseudostate ir) ir.transitions ir.states) } := by
  unfold factorExit
  rw [factor_eq (fun _ _ => rfl)]
  refine h.distinct.imp fun hpair t ht hedge => ?_
  obtain ⟨hn, hn', hne⟩ := hpair
  apply Bool.eq_false_iff.mpr
  intro hedge'
  exact hne (((h.leaves_iff hn ht).mp hedge).2.trans ((h.leaves_iff hn' ht).mp hedge').2.symm)

end Resolved

/-! ## What a state gains -/

section Gains

variable {ir : FsmIr}

/-- The action that a state runs first on entry: it has several edges into it, all with this action. -/
def entryGain (ir : FsmIr) (s : String) : Option ActionSignature :=
  (ir.findState s).bind (gain arrives (skipEntry ir) ir.transitions)

/-- The action that a state would run last on exit, if no edge had given up its action before. -/
def exitGain (ir : FsmIr) (s : String) : Option ActionSignature :=
  (ir.findState s).bind (gain leaves (isPseudostate ir) ir.transitions)

theorem sameEnds_relieve {edge : StateNode → TransitionEdge → Bool} {skip : StateNode → Bool}
    (ts : List TransitionEdge) (states : List StateNode) (t : TransitionEdge) :
    SameEnds t (relieve edge skip ts states t) := by
  rcases relieve_eq_or ts states t with ht | ht <;> rw [ht] <;> exact ⟨rfl, rfl, rfl⟩

theorem sameShape_factorEntry (h : Resolved ir) : SameShape ir (factorEntry ir) := by
  rw [h.factorEntry_eq]
  exact .of_map rfl rfl rfl (settle_congr prependEntry (·.name) (fun _ _ => rfl) _)
    (settle_congr prependEntry (·.parentState) (fun _ _ => rfl) _)
    (settle_congr prependEntry (·.initialSubState) (fun _ _ => rfl) _) (sameEnds_relieve _ _)

theorem sameShape_factorExit (h : Resolved ir) : SameShape ir (factorExit ir) := by
  rw [h.factorExit_eq]
  exact .of_map rfl rfl rfl (settle_congr appendExit (·.name) (fun _ _ => rfl) _)
    (settle_congr appendExit (·.parentState) (fun _ _ => rfl) _)
    (settle_congr appendExit (·.initialSubState) (fun _ _ => rfl) _) (sameEnds_relieve _ _)

theorem findState_factorEntry (h : Resolved ir) (s : String) : (factorEntry ir).findState s =
      (ir.findState s).map (settle arrives (skipEntry ir) prependEntry ir.transitions) := by
  rw [h.factorEntry_eq]
  exact SameShape.findState_of_map rfl (settle_congr prependEntry (·.name) (fun _ _ => rfl) _) s

theorem findState_factorExit (h : Resolved ir) (s : String) : (factorExit ir).findState s =
      (ir.findState s).map (settle leaves (isPseudostate ir) appendExit ir.transitions) := by
  rw [h.factorExit_eq]
  exact SameShape.findState_of_map rfl (settle_congr appendExit (·.name) (fun _ _ => rfl) _) s

theorem entryHooks_factorEntry (h : Resolved ir) (s : String) :
    entryHooks (factorEntry ir) s = (entryGain ir s).toList ++ entryHooks ir s := by
  unfold entryHooks entryGain
  rw [findState_factorEntry h]
  cases ir.findState s with
  | none => rfl
  | some n =>
    show (settle arrives (skipEntry ir) prependEntry ir.transitions n).entryActions =
      (gain arrives (skipEntry ir) ir.transitions n).toList ++ n.entryActions
    unfold settle
    cases gain arrives (skipEntry ir) ir.transitions n <;> rfl

theorem exitHooks_factorEntry (h : Resolved ir) (s : String) : exitHooks (factorEntry ir) s = exitHooks ir s := by
  unfold exitHooks
  rw [findState_factorEntry h]
  cases ir.findState s with
  | none => rfl
  | some n => exact settle_congr prependEntry (·.exitActions) (fun _ _ => rfl) _ n

theorem exitHooks_factorExit (h : Resolved ir) (s : String) :
    exitHooks (factorExit ir) s = exitHooks ir s ++ (exitGain ir s).toList := by
  unfold exitHooks exitGain
  rw [findState_factorExit h]
  cases ir.findState s with
  | none => rfl
  | some n =>
    show (settle leaves (isPseudostate ir) appendExit ir.transitions n).exitActions =
      n.exitActions ++ (gain leaves (isPseudostate ir) ir.transitions n).toList
    unfold settle
    cases gain leaves (isPseudostate ir) ir.transitions n with
    | none => simp
    | some act => rfl

theorem entryHooks_factorExit (h : Resolved ir) (s : String) : entryHooks (factorExit ir) s = entryHooks ir s := by
  unfold entryHooks
  rw [findState_factorExit h]
  cases ir.findState s with
  | none => rfl
  | some n => exact settle_congr appendExit (·.entryActions) (fun _ _ => rfl) _ n

variable {t : TransitionEdge}

theorem relieved_arrives (h : Resolved ir) (ht : t ∈ ir.transitions) (hkind : t.kind ≠ .internal)
    (hfound : (ir.findState t.target).isSome = true) :
    relieved arrives (skipEntry ir) ir.transitions ir.states t = (entryGain ir t.target).isSome := by
  obtain ⟨n, hn⟩ := Option.isSome_iff_exists.mp hfound
  obtain ⟨hmem, hname⟩ := FsmIr.findState_spec hn
  apply Bool.eq_iff_iff.mpr
  simp only [relieved, List.any_eq_true, Bool.and_eq_true, entryGain, hn, Option.bind_some]
  refine ⟨fun ⟨m, hm, hgain, hedge⟩ => ?_, fun hgain => ⟨n, hmem, hgain, ?_⟩⟩
  · have hsame := FsmIr.findState_name h.names hm
    rw [((h.arrives_iff hm ht).mp hedge).2, hn] at hsame
    cases hsame
    exact hgain
  · exact (h.arrives_iff hmem ht).mpr ⟨hkind, hname⟩

theorem relieved_leaves (h : Resolved ir) (ht : t ∈ ir.transitions) (hkind : t.kind ≠ .internal)
    (hfound : (ir.findState t.source).isSome = true) :
    relieved leaves (isPseudostate ir) ir.transitions ir.states t = (exitGain ir t.source).isSome := by
  obtain ⟨n, hn⟩ := Option.isSome_iff_exists.mp hfound
  obtain ⟨hmem, hname⟩ := FsmIr.findState_spec hn
  apply Bool.eq_iff_iff.mpr
  simp only [relieved, List.any_eq_true, Bool.and_eq_true, exitGain, hn, Option.bind_some]
  refine ⟨fun ⟨m, hm, hgain, hedge⟩ => ?_, fun hgain => ⟨n, hmem, hgain, ?_⟩⟩
  · have hsame := FsmIr.findState_name h.names hm
    rw [((h.leaves_iff hm ht).mp hedge).2, hn] at hsame
    cases hsame
    exact hgain
  · exact (h.leaves_iff hmem ht).mpr ⟨hkind, hname⟩

variable {act : ActionSignature}

theorem action_of_entryGain (h : Resolved ir) (ht : t ∈ ir.transitions) (hkind : t.kind ≠ .internal)
    (hgain : entryGain ir t.target = some act) : t.transitionAction = some act := by
  obtain ⟨n, hn, hgain⟩ := Option.bind_eq_some_iff.mp hgain
  obtain ⟨hmem, hname⟩ := FsmIr.findState_spec hn
  exact gain_spec hgain ht ((h.arrives_iff hmem ht).mpr ⟨hkind, hname⟩)

theorem action_of_exitGain (h : Resolved ir) (ht : t ∈ ir.transitions) (hkind : t.kind ≠ .internal)
    (hgain : exitGain ir t.source = some act) : t.transitionAction = some act := by
  obtain ⟨n, hn, hgain⟩ := Option.bind_eq_some_iff.mp hgain
  obtain ⟨hmem, hname⟩ := FsmIr.findState_spec hn
  exact gain_spec hgain ht ((h.leaves_iff hmem ht).mpr ⟨hkind, hname⟩)

theorem relieve_internal {edge : StateNode → TransitionEdge → Bool} {skip : StateNode → Bool}
    {ts : List TransitionEdge} {states : List StateNode} (hedge : ∀ s, edge s t = false) :
    relieve edge skip ts states t = t := by
  simp [relieve, relieved, hedge]

/-- The action that a state runs last on exit: it has several edges out of it, all with this action, and
none of them gives its action up to its target. -/
def laterGain (ir : FsmIr) (s : String) : Option ActionSignature :=
  (ir.findState s).bind fun n =>
    if (ir.transitions.filter (leaves n)).any
        (relieved arrives (skipEntry ir) ir.transitions ir.states) then none
    else gain leaves (isPseudostate ir) ir.transitions n

theorem isPseudostate_factorEntry (h : Resolved ir) (n : StateNode) :
    isPseudostate (factorEntry ir) n = isPseudostate ir n := by
  have hchoice : ∀ x, (factorEntry ir).isChoiceNode x = ir.isChoiceNode x := by
    intro x
    unfold FsmIr.isChoiceNode
    rw [findState_factorEntry h]
    have hnodes : (factorEntry ir).choiceNodes = ir.choiceNodes := rfl
    rw [hnodes]
    cases ir.findState x with
    | none => rfl
    | some m =>
      show (_ || decide ((settle arrives (skipEntry ir) prependEntry ir.transitions m).kind = _)) = _
      rw [settle_congr prependEntry (·.kind) (fun _ _ => rfl)]
  unfold isPseudostate
  rw [hchoice, hchoice]

theorem exitGain_factorEntry (h : Resolved ir) (s : String) : exitGain (factorEntry ir) s = laterGain ir s := by
  unfold exitGain laterGain
  rw [findState_factorEntry h]
  cases ir.findState s with
  | none => rfl
  | some n =>
    let r := relieve arrives (skipEntry ir) ir.transitions ir.states
    have htransitions : (factorEntry ir).transitions = ir.transitions.map r := by
      rw [h.factorEntry_eq]
    have hname : (settle arrives (skipEntry ir) prependEntry ir.transitions n).name = n.name :=
      settle_congr prependEntry (·.name) (fun _ _ => rfl) _ n
    have hid : (settle arrives (skipEntry ir) prependEntry ir.transitions n).id = n.id :=
      settle_congr prependEntry (·.id) (fun _ _ => rfl) _ n
    have hkind : (settle arrives (skipEntry ir) prependEntry ir.transitions n).kind = n.kind :=
      settle_congr prependEntry (·.kind) (fun _ _ => rfl) _ n
    have hskip : isPseudostate (factorEntry ir)
        (settle arrives (skipEntry ir) prependEntry ir.transitions n) = isPseudostate ir n := by
      rw [isPseudostate_factorEntry h]
      unfold isPseudostate
      rw [hname, hid, hkind]
    have hedge : ∀ t, leaves (settle arrives (skipEntry ir) prependEntry ir.transitions n) (r t) =
        leaves n t := by
      intro t
      unfold leaves matchesState
      rw [hname, hid]
      have hr : r t = t ∨ r t = dropAction t := relieve_eq_or ir.transitions ir.states t
      rcases hr with hr | hr
      · rw [hr]
      · rw [hr]
        rfl
    have hfilter : ((ir.transitions.map r).filter
        (leaves (settle arrives (skipEntry ir) prependEntry ir.transitions n))) =
          (ir.transitions.filter (leaves n)).map r := by
      rw [List.filter_map]
      exact congrArg (fun p => (ir.transitions.filter p).map r) (funext hedge)
    simp only [Option.map_some, Option.bind_some, gain, hskip, htransitions, hfilter]
    split
    · simp
    · split
      · next hrelieved =>
          obtain ⟨t, ht, hr⟩ := List.any_eq_true.mp hrelieved
          cases hcommon : common ((ir.transitions.filter (leaves n)).map r) with
          | none => rfl
          | some act =>
            have haction := common_spec hcommon (r t) (List.mem_map_of_mem ht)
            simp [r, relieve, hr, dropAction] at haction
      · next hkept =>
          have hsame : (ir.transitions.filter (leaves n)).map r = ir.transitions.filter (leaves n) := by
            conv_rhs => rw [← List.map_id (ir.transitions.filter (leaves n))]
            apply List.map_congr_left
            intro t ht
            have hr : relieved arrives (skipEntry ir) ir.transitions ir.states t ≠ true :=
              fun hr => hkept (List.any_eq_true.mpr ⟨t, ht, hr⟩)
            show relieve _ _ _ _ t = t
            rw [relieve, if_neg hr]
          rw [hsame]

end Gains

/-! ## Runs -/

section Runs

variable {ir : FsmIr} {s : String} {t : TransitionEdge} {ds : List String}

/-- The states that a transition leaves, innermost first. -/
def left (ir : FsmIr) (s : String) (t : TransitionEdge) : List String := below ir s (lcaOf ir t)

/-- The states that a transition enters, outermost first. -/
def entered (ir : FsmIr) (t : TransitionEdge) (ds : List String) : List String :=
  (below ir t.target (lcaOf ir t)).reverse ++ ds

/-- Among the states entered only the target gains an action; then it is entered, and what is entered
before it has no other hooks. -/
structure CleanEntry (ir : FsmIr) (t : TransitionEdge) (ds : List String) : Prop where
  only : ∀ x ∈ entered ir t ds, (entryGain ir x).isSome = true → x = t.target
  first : ∀ act ∈ entryGain ir t.target, t.target ∈ below ir t.target (lcaOf ir t) ∧
    ∀ x ∈ (below ir t.target (lcaOf ir t)).tail, ∀ hook ∈ entryHooks ir x, hook = act

/-- Among the states left only the source gains an action; then it is left, and what is left after it has
no other hooks. -/
structure CleanExit (ir : FsmIr) (gained : String → Option ActionSignature) (s : String)
    (t : TransitionEdge) : Prop where
  only : ∀ x ∈ left ir s t, (gained x).isSome = true → x = t.source
  last : ∀ act ∈ gained t.source, t.source ∈ left ir s t ∧
    ∀ x ∈ ((left ir s t).dropWhile fun x => x ≠ t.source).tail, ∀ hook ∈ exitHooks ir x, hook = act

/-- What a state gains comes once, and where the action of the edge came before. -/
structure CleanStep (ir : FsmIr) (s : String) (t : TransitionEdge) (ds : List String) : Prop where
  exits : t.kind ≠ .internal → CleanExit ir (laterGain ir) s t
  entries : t.kind ≠ .internal → CleanEntry ir t ds

/-- No state that is entered at the start gains an action. -/
def CleanStart (ir : FsmIr) (ds : List String) : Prop :=
  ∀ x ∈ chain ir (initialName ir) ++ ds, entryGain ir x = none

theorem append_cons_of_all {α : Type*} {l r : List α} {a : α} (h : ∀ b ∈ l, b = a) : l ++ a :: r = a :: (l ++ r) := by
  induction l with
  | nil => rfl
  | cons b l ih =>
    obtain rfl := h b List.mem_cons_self
    rw [List.cons_append, ih fun c hc => h c (List.mem_cons_of_mem _ hc)]
    rfl

variable {names : List String}

theorem flatMap_entryHooks_of_none (h : Resolved ir)
    (hnone : ∀ x ∈ names, entryGain ir x = none) :
    names.flatMap (entryHooks (factorEntry ir)) = names.flatMap (entryHooks ir) := by
  apply List.flatMap_congr
  intro x hx
  rw [entryHooks_factorEntry h, hnone x hx]
  rfl

theorem flatMap_exitHooks_of_none (h : Resolved ir)
    (hnone : ∀ x ∈ names, exitGain ir x = none) :
    names.flatMap (exitHooks (factorExit ir)) = names.flatMap (exitHooks ir) := by
  apply List.flatMap_congr
  intro x hx
  rw [exitHooks_factorExit h, hnone x hx]
  simp

theorem entries_eq (h : Resolved ir) (hdefaults : Defaults ir t.target ds)
    (hclean : CleanEntry ir t ds) (haction : ∀ act, entryGain ir t.target = some act →
      t.transitionAction = some act) :
    (if (entryGain ir t.target).isSome then [] else t.transitionAction.toList) ++
        (entered ir t ds).flatMap (entryHooks (factorEntry ir)) =
      t.transitionAction.toList ++ (entered ir t ds).flatMap (entryHooks ir) := by
  have hnone : ∀ x ∈ entered ir t ds, x ≠ t.target → entryGain ir x = none := by
    intro x hx hne
    by_contra hsome
    exact hne (hclean.only x hx (Option.isSome_iff_ne_none.mpr hsome))
  cases hgain : entryGain ir t.target with
  | none =>
    have hall : ∀ x ∈ entered ir t ds, entryGain ir x = none := by
      intro x hx
      by_cases hne : x = t.target
      · rw [hne, hgain]
      · exact hnone x hx hne
    rw [flatMap_entryHooks_of_none h hall]
    rfl
  | some act =>
    obtain ⟨htarget, hhooks⟩ := hclean.first act hgain
    have hchain : ∃ q, below ir t.target (lcaOf ir t) = t.target :: q := by
      have hne : t.target ≠ "" := by
        intro hempty
        rw [hempty] at htarget
        exact empty_notMem_chain ir "" (List.takeWhile_subset _ htarget)
      obtain ⟨q, hq⟩ := chain_head ir hne
      unfold below at htarget ⊢
      rw [hq, List.takeWhile_cons] at htarget ⊢
      split at htarget
      · next hpass => exact ⟨_, by rw [if_pos hpass]⟩
      · simp at htarget
    obtain ⟨q, hq⟩ := hchain
    have hnodup : (t.target :: q).Nodup :=
      hq ▸ (chain_nodup ir t.target).sublist (List.takeWhile_sublist _)
    have hentered : entered ir t ds = q.reverse ++ t.target :: ds := by
      simp [entered, hq]
    have hbefore : ∀ x ∈ q.reverse, entryGain ir x = none := by
      intro x hx
      refine hnone x (by simp [hentered, List.mem_reverse.mp hx]) ?_
      rintro rfl
      exact (List.nodup_cons.mp hnodup).1 (List.mem_reverse.mp hx)
    have hafter : ∀ x ∈ ds, entryGain ir x = none := by
      intro x hx
      refine hnone x (by simp [hentered, hx]) ?_
      rintro rfl
      exact hdefaults.notMem hx
    have hsame : ∀ hook ∈ q.reverse.flatMap (entryHooks ir), hook = act := by
      intro hook hhook
      obtain ⟨x, hx, hhook⟩ := List.mem_flatMap.mp hhook
      exact hhooks x (by simpa [hq] using hx) hook hhook
    rw [hentered, haction act hgain]
    simp only [List.flatMap_append, List.flatMap_cons, flatMap_entryHooks_of_none h hbefore,
      flatMap_entryHooks_of_none h hafter, entryHooks_factorEntry h t.target, hgain]
    exact append_cons_of_all hsame

theorem exits_eq (h : Resolved ir) (hclean : CleanExit ir (exitGain ir) s t)
    (haction : ∀ act, exitGain ir t.source = some act → t.transitionAction = some act) :
    (left ir s t).flatMap (exitHooks (factorExit ir)) ++
        (if (exitGain ir t.source).isSome then [] else t.transitionAction.toList) =
      (left ir s t).flatMap (exitHooks ir) ++ t.transitionAction.toList := by
  have hnone : ∀ x ∈ left ir s t, x ≠ t.source → exitGain ir x = none := by
    intro x hx hne
    by_contra hsome
    exact hne (hclean.only x hx (Option.isSome_iff_ne_none.mpr hsome))
  cases hgain : exitGain ir t.source with
  | none =>
    have hall : ∀ x ∈ left ir s t, exitGain ir x = none := by
      intro x hx
      by_cases hne : x = t.source
      · rw [hne, hgain]
      · exact hnone x hx hne
    rw [flatMap_exitHooks_of_none h hall]
    rfl
  | some act =>
    obtain ⟨hsource, hhooks⟩ := hclean.last act hgain
    have hnodup : (left ir s t).Nodup := (chain_nodup ir s).sublist (List.takeWhile_sublist _)
    obtain ⟨l, r, hsplit⟩ := List.append_of_mem hsource
    rw [hsplit] at hnodup
    have hl : ∀ x ∈ l, x ≠ t.source := fun x hx =>
      (List.nodup_append.mp hnodup).2.2 x hx t.source List.mem_cons_self
    have hr : t.source ∉ r := (List.nodup_cons.mp (List.nodup_append.mp hnodup).2.1).1
    have habove : ((left ir s t).dropWhile fun x => x ≠ t.source).tail = r := by
      have hpass : ∀ x ∈ l, decide (x ≠ t.source) = true := fun x hx => by simpa using hl x hx
      rw [hsplit, List.dropWhile_append_of_pos hpass]
      simp
    rw [habove] at hhooks
    have hbefore : ∀ x ∈ l, exitGain ir x = none := fun x hx =>
      hnone x (by simp [hsplit, hx]) (hl x hx)
    have hafter : ∀ x ∈ r, exitGain ir x = none := by
      intro x hx
      refine hnone x (by simp [hsplit, hx]) ?_
      rintro rfl
      exact hr hx
    have hsame : ∀ hook ∈ r.flatMap (exitHooks ir), hook = act := by
      intro hook hhook
      obtain ⟨x, hx, hhook⟩ := List.mem_flatMap.mp hhook
      exact hhooks x hx hook hhook
    have hswap : r.flatMap (exitHooks ir) ++ [act] = act :: r.flatMap (exitHooks ir) := by
      simpa using append_cons_of_all (r := []) hsame
    rw [hsplit, haction act hgain]
    simp only [List.flatMap_append, List.flatMap_cons, flatMap_exitHooks_of_none h hbefore,
      flatMap_exitHooks_of_none h hafter, exitHooks_factorExit h t.source, hgain]
    simp [hswap]

/-- Factoring entry actions keeps the ends of the transitions, and so the states that they refer to. -/
theorem resolved_factorEntry (h : Resolved ir) : Resolved (factorEntry ir) := by
  let f := settle arrives (skipEntry ir) prependEntry ir.transitions
  have hname : ∀ n, (f n).name = n.name := settle_congr prependEntry (·.name) (fun _ _ => rfl) _
  have hid : ∀ n, (f n).id = n.id := settle_congr prependEntry (·.id) (fun _ _ => rfl) _
  have hmatch : ∀ a b n, matchesState a b (f n) = matchesState a b n := by
    intro a b n
    unfold matchesState
    rw [hname, hid]
  rw [h.factorEntry_eq]
  refine ⟨?_, ?_, ?_, ?_⟩
  · show ((ir.states.map f).map (·.name)).Nodup
    rw [List.map_map]
    exact (List.map_congr_left fun n _ => hname n : ir.states.map _ = _) ▸ h.names
  · intro n hn
    obtain ⟨m, hm, rfl⟩ := List.mem_map.mp hn
    exact (hname m).trans_ne (h.named m hm)
  · intro t ht n hn hedge
    obtain ⟨m, hm, rfl⟩ := List.mem_map.mp hn
    obtain ⟨t₀, ht₀, rfl⟩ := List.mem_map.mp ht
    refine (hname m).trans ?_
    replace hedge := (hmatch _ _ m).symm.trans hedge
    rcases relieve_eq_or ir.transitions ir.states t₀ with hr | hr
    · rw [hr] at hedge ⊢
      exact h.target t₀ ht₀ m hm hedge
    · rw [hr] at hedge ⊢
      exact h.target t₀ ht₀ m hm hedge
  · intro t ht n hn hedge
    obtain ⟨m, hm, rfl⟩ := List.mem_map.mp hn
    obtain ⟨t₀, ht₀, rfl⟩ := List.mem_map.mp ht
    refine (hname m).trans ?_
    replace hedge := (hmatch _ _ m).symm.trans hedge
    rcases relieve_eq_or ir.transitions ir.states t₀ with hr | hr
    · rw [hr] at hedge ⊢
      exact h.source t₀ ht₀ m hm hedge
    · rw [hr] at hedge ⊢
      exact h.source t₀ ht₀ m hm hedge

theorem stepActions_factorEntry (h : Resolved ir) (ht : t ∈ ir.transitions) (hfires : Fires ir s t ds)
    (hclean : t.kind ≠ .internal → CleanEntry ir t ds) :
    stepActions (factorEntry ir) s (relieve arrives (skipEntry ir) ir.transitions ir.states t) ds =
      stepActions ir s t ds := by
  have hshape := sameShape_factorEntry h
  have hends : SameEnds t (relieve arrives (skipEntry ir) ir.transitions ir.states t) :=
    sameEnds_relieve _ _ t
  have hcondition : (relieve arrives (skipEntry ir) ir.transitions ir.states t).conditionAction =
      t.conditionAction := by
    unfold relieve
    split <;> rfl
  unfold stepActions
  rw [hends.kind, hends.target, hshape.lcaOf_eq hends, hshape.below_eq, hshape.below_eq, hcondition,
    funext (exitHooks_factorEntry h)]
  by_cases hkind : t.kind = .internal
  · rw [if_pos hkind, if_pos hkind, relieve_internal fun n => by simp [arrives, hkind]]
  · rw [if_neg hkind, if_neg hkind]
    have haction : (relieve arrives (skipEntry ir) ir.transitions ir.states t).transitionAction.toList =
        if (entryGain ir t.target).isSome then [] else t.transitionAction.toList := by
      unfold relieve
      rw [relieved_arrives h ht hkind hfires.target]
      split <;> rfl
    have hentries := entries_eq h (hfires.defaults hkind) (hclean hkind)
      fun act hgain => action_of_entryGain h ht hkind hgain
    rw [haction, List.append_assoc, List.append_assoc _ t.transitionAction.toList]
    exact congrArg _ hentries

theorem stepActions_factorExit (h : Resolved ir) (ht : t ∈ ir.transitions) (hfires : Fires ir s t ds)
    (hclean : t.kind ≠ .internal → CleanExit ir (exitGain ir) s t) :
    stepActions (factorExit ir) s (relieve leaves (isPseudostate ir) ir.transitions ir.states t) ds =
      stepActions ir s t ds := by
  have hshape := sameShape_factorExit h
  have hends : SameEnds t (relieve leaves (isPseudostate ir) ir.transitions ir.states t) :=
    sameEnds_relieve _ _ t
  have hcondition : (relieve leaves (isPseudostate ir) ir.transitions ir.states t).conditionAction =
      t.conditionAction := by
    unfold relieve
    split <;> rfl
  unfold stepActions
  rw [hends.kind, hends.target, hshape.lcaOf_eq hends, hshape.below_eq, hshape.below_eq, hcondition,
    funext (entryHooks_factorExit h)]
  by_cases hkind : t.kind = .internal
  · rw [if_pos hkind, if_pos hkind, relieve_internal fun n => by simp [leaves, hkind]]
  · rw [if_neg hkind, if_neg hkind]
    have haction : (relieve leaves (isPseudostate ir) ir.transitions ir.states t).transitionAction.toList =
        if (exitGain ir t.source).isSome then [] else t.transitionAction.toList := by
      unfold relieve
      rw [relieved_leaves h ht hkind hfires.source]
      split <;> rfl
    have hexits := exits_eq h (hclean hkind) fun act hgain => action_of_exitGain h ht hkind hgain
    have hframe := congrArg (fun l => t.conditionAction.toList ++ l ++
      (entered ir t ds).flatMap (entryHooks ir)) hexits
    rw [haction]
    simpa only [List.append_assoc, left, entered] using hframe

/-- A run on which what a state gains comes once, and in its place, runs the same actions afterwards. -/
theorem factoring_preservesTraces {ir : FsmIr} (h : Resolved ir) :
    PreservesTraces (fun a => [a]) (CleanStart ir) (CleanStep ir) ir (run ir) := by
  have hentry := sameShape_factorEntry h
  have hresolved := resolved_factorEntry h
  have hexit := sameShape_factorExit hresolved
  have hshape : SameShape ir (run ir) := hentry.trans hexit
  apply hshape.preservesTraces
  · intro ds hds
    have hsame : startActions (run ir) ds = startActions ir ds := by
      unfold startActions
      rw [hshape.chain_eq, hshape.initial]
      show _ = ((chain ir (initialName ir)).reverse ++ ds).flatMap _
      unfold run
      rw [funext (entryHooks_factorExit hresolved)]
      exact flatMap_entryHooks_of_none h fun x hx => hds x (by simpa using hx)
    rw [hsame]
  · intro i t t' s ds hi hi' _ hfires hok
    let t₁ := relieve arrives (skipEntry ir) ir.transitions ir.states t
    have ht : t ∈ ir.transitions := List.mem_of_getElem? hi
    have hends : SameEnds t t₁ := sameEnds_relieve ir.transitions ir.states t
    have hi₁ : (factorEntry ir).transitions[i]? = some t₁ := by
      rw [h.factorEntry_eq]
      simp [hi, t₁]
    have ht' : t' = relieve leaves (isPseudostate (factorEntry ir)) (factorEntry ir).transitions
        (factorEntry ir).states t₁ := by
      have hrun : (run ir).transitions = _ := congrArg FsmIr.transitions hresolved.factorExit_eq
      rw [hrun, List.getElem?_map, hi₁] at hi'
      exact (Option.some.inj hi').symm
    have hleft : left (factorEntry ir) s t₁ = left ir s t := by
      unfold left
      rw [hentry.lcaOf_eq hends, hentry.below_eq]
    have hexits : t₁.kind ≠ .internal →
        CleanExit (factorEntry ir) (exitGain (factorEntry ir)) s t₁ := by
      intro hkind
      have hclean := hok.exits (hends.kind ▸ hkind)
      refine ⟨?_, ?_⟩
      · rw [hleft, funext (exitGain_factorEntry h), hends.source]
        exact hclean.only
      · rw [hleft, funext (exitGain_factorEntry h), hends.source, funext (exitHooks_factorEntry h)]
        exact hclean.last
    have hfirst := stepActions_factorEntry h ht hfires hok.entries
    have hsecond := stepActions_factorExit hresolved (List.mem_of_getElem? hi₁)
      (hentry.fires hends hfires) hexits
    rw [ht']
    show ((stepActions (factorExit (factorEntry ir)) s _ ds).flatMap _) = _
    rw [hsecond, hfirst]

end Runs

/-! ## A gate and a press -/

def lampOn : ActionSignature := { assignments := [{ target := { name := "lamp" }, expression := "1" }] }

/-- A gate that opens from two states, with its lamp on. -/
def gate : FsmIr :=
  { initialState := "Closed"
    states := [{ name := "Closed" }, { name := "Open" }, { name := "Jammed" }]
    transitions :=
      [{ source := "Closed", target := "Open", event := "open", transitionAction := some lampOn },
        { source := "Jammed", target := "Open", event := "free", transitionAction := some lampOn },
        { source := "Open", target := "Closed", event := "close" }] }

/-- The gate opens and closes, and its lamp is switched on before and after factoring. -/
theorem gate_preservesTraces : PreservesTraces (fun a => [a]) (CleanStart gate) (CleanStep gate) gate (run gate) ∧
      Run gate (CleanStart gate) (CleanStep gate) [0, 2] [lampOn] "Closed" := by
  have hresolved : Resolved gate :=
    ⟨by decide +kernel, by decide +kernel, by decide +kernel, by decide +kernel⟩
  have hclosed : Run gate (CleanStart gate) (CleanStep gate) [] (startActions gate []) "Closed" :=
    Run.start (by decide +kernel) (.leaf (by decide +kernel))
      (show ∀ x ∈ chain gate (initialName gate) ++ [], entryGain gate x = none by decide +kernel)
  have hopen := hclosed.step (i := 0) rfl
    ⟨by decide +kernel, by decide +kernel, by decide +kernel, fun _ => .leaf (by decide +kernel)⟩
    ⟨fun _ => ⟨by decide +kernel, by decide +kernel⟩, fun _ => ⟨by decide +kernel, by decide +kernel⟩⟩
  have hback := hopen.step (i := 2) rfl
    ⟨by decide +kernel, by decide +kernel, by decide +kernel, fun _ => .leaf (by decide +kernel)⟩
    ⟨fun _ => ⟨by decide +kernel, by decide +kernel⟩, fun _ => ⟨by decide +kernel, by decide +kernel⟩⟩
  exact ⟨factoring_preservesTraces hresolved, hback⟩

/-- A press that is idle by default when it is active, and to which two transitions return. -/
def press : FsmIr :=
  { initialState := "Active"
    states :=
      [{ name := "Active", kind := .composite, initialSubState := "Idle" },
        { name := "Idle", parentState := "Active" }, { name := "Busy", parentState := "Active" }]
    transitions :=
      [{ source := "Idle", target := "Busy", event := "go" },
        { source := "Busy", target := "Idle", event := "done", transitionAction := some lampOn },
        { source := "Busy", target := "Idle", event := "abort", transitionAction := some lampOn }] }

/-- The press switches its lamp on at the start once the action is factored. -/
theorem press_not_preservesTraces :
    ¬ PreservesTraces (fun a => [a]) (fun _ => True) (fun _ _ _ => True) press (run press) := by
  intro h
  have hstart : AnyRun press [] (startActions press ["Idle"]) "Idle" :=
    Run.start (by decide +kernel) (.down (by decide +kernel) (.leaf (by decide +kernel))) trivial
  obtain ⟨acts', hrun, hsame⟩ := h _ _ _ hstart
  obtain ⟨ds, hds, rfl⟩ := hrun.of_nil rfl
  have hidle : Defaults (run press) (initialName (run press)) ["Idle"] :=
    .down (by decide +kernel) (.leaf (by decide +kernel))
  obtain rfl := hds.unique hidle
  exact absurd hsame (by decide +kernel)

end Fsmc.Passes.CommonActionFactoring
