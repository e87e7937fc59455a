/-
# Fsmc.Passes.TriggerConsistency — event names and triggers say the same.

A transition has an event name and a trigger, and the passes write them one by one. Its readers differ in
what they look at: whether the trigger is the anonymous one, whether fusion takes it for immediate, and
whether the search for livelocks takes the transition for one that needs no time. For each reader there
are three places at which a transition with an event can become one that the reader takes for eventless.
-/
import Fsmc.Passes.SampledChangeTrigger
import Fsmc.Passes.StructuralLowering

namespace Fsmc.Passes

open Fsmc.Ir Fsmc.Lib Fsmc.Lib.Cartesian

/-! ## The readers -/

/-- `is_eventless` of `is_zero_time_transition`. -/
def isEventless (event : String) : Bool :=
  event = "" || event = "anonymous_event" || event = "completion_event" || event = "AnonymousEvent" ||
    event = "anonymous"

/-- `is_zero_time_transition`, for an event and a trigger; a duration is its number of milliseconds. -/
def isZeroTimeTransition (event : String) (trigger : TriggerVariant) : Bool :=
  isEventless event &&
    match trigger with
    | .signal signalName => signalName = ""
    | .time durationMs _ _ => durationMs = 0
    | .change _ _ _ => false
    | .anonymous => true

/-- Who looks at the trigger of a transition. -/
inductive TriggerReader where
  | variant
  | fusion
  | livelock
  deriving DecidableEq, Repr

/-- The reader does not take a trigger, next to an event, for none. -/
def TriggerReader.admits : TriggerReader → String → TriggerVariant → Bool
  | variant, _, .anonymous => false
  | variant, _, _ => true
  | fusion, _, trigger => !TransitionFusion.isImmediateTrigger trigger
  | livelock, event, trigger => !isZeroTimeTransition event trigger

theorem TriggerReader.admits_signal (reader : TriggerReader) {event : String} (h : event ≠ "") :
    reader.admits event (.signal event) = true := by
  cases reader with
  | variant => rfl
  | fusion => simpa [admits, TransitionFusion.isImmediateTrigger] using h
  | livelock => simp [admits, isZeroTimeTransition, h]

/-- No transition with an event is taken for one without. -/
def Consistent (reader : TriggerReader) (transitions : List TransitionEdge) : Prop :=
  ∀ t ∈ transitions, t.event ≠ "" → reader.admits t.event t.trigger = true

variable {reader : TriggerReader} {ir : FsmIr} {ts ts' : List TransitionEdge}

theorem Consistent.of_copies (h : Consistent reader ts)
    (hcopies : ∀ t' ∈ ts', t'.event ≠ "" → ∃ t ∈ ts, t.event = t'.event ∧ t.trigger = t'.trigger) :
    Consistent reader ts' := by
  intro t' ht' hevent
  obtain ⟨t, ht, he, htrigger⟩ := hcopies t' ht' hevent
  rw [← he, ← htrigger]
  exact h t ht (he ▸ hevent)

theorem Consistent.append (h : Consistent reader ts) (h' : Consistent reader ts') :
    Consistent reader (ts ++ ts') := by
  intro t ht
  rcases List.mem_append.mp ht with ht | ht
  · exact h t ht
  · exact h' t ht

theorem Consistent.filter (h : Consistent reader ts) (p : TransitionEdge → Bool) : Consistent reader (ts.filter p) :=
  fun t ht => h t (List.mem_of_mem_filter ht)

theorem Consistent.canonicalize (h : Consistent reader ir.transitions) :
    Consistent reader (canonicalize ir).transitions := by
  refine h.of_copies fun t' ht' _ => ?_
  obtain ⟨t, ht, rfl⟩ := List.mem_map.mp (List.mem_mergeSort.mp ht')
  exact ⟨t, ht, rfl, rfl⟩

/-! ## Choices -/

/-- No edge without an event that enters the choice is composed with a branch that has one, unless the
trigger of the edge goes with that event. -/
def ChoiceInlining.Unmixed (reader : TriggerReader) (acc : FsmIr × Bool) (choice : String) : Prop :=
  ∀ i ∈ incoming choice acc.1.transitions, ∀ o ∈ outgoing choice acc.1.transitions,
    i.event = "" → o.event ≠ "" → reader.admits o.event i.trigger = true

variable {acc : FsmIr × Bool} {n : ℕ} (parentName : String) {regions : List RegionInfo}

theorem ChoiceInlining.inlineStep_consistent {choice : String}
    (h : Consistent reader acc.1.transitions) (hok : Unmixed reader acc choice) :
    Consistent reader (inlineStep acc choice).1.transitions := by
  unfold inlineStep
  split
  · refine (h.filter _).append ?_
    intro t ht hevent
    obtain ⟨i, hi, ht⟩ := List.mem_flatMap.mp ht
    obtain ⟨o, ho, rfl⟩ := List.mem_map.mp ht
    have heq : (composite i o).event = if i.event = "" then o.event else i.event := rfl
    have htrigger : (composite i o).trigger = i.trigger := rfl
    rw [htrigger]
    rw [heq] at hevent ⊢
    split at hevent
    · next hi' =>
        rw [if_pos hi']
        exact hok i hi o ho hi' hevent
    · next hi' =>
        rw [if_neg hi']
        exact h i (List.mem_of_mem_filter hi) hi'
  · exact h

theorem ChoiceInlining.run_consistent (h : Consistent reader ir.transitions)
    (hok : Meets (Unmixed reader) inlineStep (choiceNames ir) (ir, false)) :
    Consistent reader (ChoiceInlining.run ir).1.transitions := by
  unfold ChoiceInlining.run
  split
  · exact h
  · exact foldl_inv_of_meets (fun _ acc => Consistent reader acc.1.transitions)
      (fun _ _ _ _ hacc hstep => inlineStep_consistent hacc hstep) hok h

/-! ## Junctions -/

theorem JunctionChaining.mem_of_mem_pathsFrom : ∀ {t : TransitionEdge} {path : List TransitionEdge},
    t ∈ ir.transitions → path ∈ pathsFrom ir n t → ∀ x ∈ path, x ∈ ir.transitions := by
  induction n with
  | zero =>
    intro t path ht hpath x hx
    unfold pathsFrom at hpath
    split at hpath
    · obtain rfl := List.mem_singleton.mp hpath
      exact List.mem_singleton.mp hx ▸ ht
    · cases hpath
  | succ n ih =>
    intro t path ht hpath x hx
    unfold pathsFrom at hpath
    split at hpath
    · obtain rfl := List.mem_singleton.mp hpath
      exact List.mem_singleton.mp hx ▸ ht
    · obtain ⟨b, hb, hpath⟩ := List.mem_flatMap.mp hpath
      obtain ⟨rest, hrest, rfl⟩ := List.mem_map.mp hpath
      rcases List.mem_cons.mp hx with rfl | hx
      · exact ht
      · exact ih (List.mem_of_mem_filter hb) hrest x hx

theorem JunctionChaining.run_consistent (h : Consistent reader ir.transitions) :
    Consistent reader (JunctionChaining.run ir).transitions := by
  unfold JunctionChaining.run
  split
  · exact h
  · refine (h.filter _).append (h.of_copies ?_)
    intro t' ht' hevent
    obtain ⟨t, ht, ht'⟩ := List.mem_flatMap.mp ht'
    obtain ⟨path, hpath, rfl⟩ := List.mem_map.mp ht'
    -- event and trigger are those of the first edge of the path that has an event
    cases htriggered : path.find? fun t => t.event ≠ "" with
    | none =>
      have hnone : (composite t path).event = "" := by
        show ((path.find? fun t => t.event ≠ "").map (·.event)).getD "" = ""
        rw [htriggered]
        rfl
      exact absurd hnone hevent
    | some u =>
      have hu : u ∈ ir.transitions :=
        mem_of_mem_pathsFrom (List.mem_of_mem_filter ht) hpath u (List.mem_of_find?_eq_some htriggered)
      refine ⟨u, hu, ?_, ?_⟩
      · show u.event = ((path.find? fun t => t.event ≠ "").map (·.event)).getD ""
        rw [htriggered]
        rfl
      · show u.trigger = ((path.find? fun t => t.event ≠ "").map (·.trigger)).getD .anonymous
        rw [htriggered]
        rfl

/-! ## Orthogonal regions -/

/-- No event of a transition that leaves a member of a composite that is expanded needs a trigger. -/
def OrthogonalProduct.Untriggered (reader : TriggerReader) (maxProductStates : ℕ) (acc : FsmIr × Bool)
    (parentName : String) : Prop :=
  ∀ parent, acc.1.findState parentName = some parent → 2 ≤ parent.orthogonalRegions.length →
    withinBound maxProductStates (regionsOf acc.1 parent) 1 = true →
      ∀ t ∈ acc.1.transitions, t.source ∈ subStates (regionsOf acc.1 parent) → t.event ≠ "" →
        reader.admits t.event .anonymous = true

theorem OrthogonalProduct.remapIncoming_copy (regions : List RegionInfo)
    (t : TransitionEdge) : (remapIncoming parentName regions t).event = t.event ∧
      (remapIncoming parentName regions t).trigger = t.trigger := by
  unfold remapIncoming
  dsimp only
  split
  · exact ⟨rfl, rfl⟩
  · split
    · split <;> exact ⟨rfl, rfl⟩
    · split
      · exact ⟨rfl, rfl⟩
      · split <;> exact ⟨rfl, rfl⟩

theorem OrthogonalProduct.remapOutgoing_copy (regions : List RegionInfo)
    (t : TransitionEdge) : ∀ t' ∈ (remapOutgoing parentName regions t).1 ::
      (remapOutgoing parentName regions t).2, t'.event = t.event ∧ t'.trigger = t.trigger := by
  intro t' ht'
  unfold remapOutgoing at ht'
  dsimp only at ht'
  split at ht'
  · obtain rfl := List.mem_singleton.mp ht'
    exact ⟨rfl, rfl⟩
  · split at ht'
    · split at ht'
      · obtain rfl := List.mem_singleton.mp ht'
        exact ⟨rfl, rfl⟩
      · obtain rfl := List.mem_singleton.mp ht'
        exact ⟨rfl, rfl⟩
    · split at ht'
      · split at ht'
        · obtain rfl := List.mem_singleton.mp ht'
          exact ⟨rfl, rfl⟩
        · rcases List.mem_cons.mp ht' with rfl | ht'
          · exact ⟨rfl, rfl⟩
          · obtain ⟨p, -, rfl⟩ := List.mem_map.mp ht'
            exact ⟨rfl, rfl⟩
      · obtain rfl := List.mem_singleton.mp ht'
        exact ⟨rfl, rfl⟩

theorem OrthogonalProduct.productEdges_event {parentName : String}
    {intra : List TransitionEdge} {u : TransitionEdge} (hu : u ∈ productEdges parentName regions intra) :
    u.trigger = .anonymous ∧ ∃ t ∈ intra, t.source ∈ subStates regions ∧ t.event = u.event := by
  obtain ⟨tup, htup, hu⟩ := List.mem_flatMap.mp hu
  obtain ⟨event, -, hu⟩ := List.mem_filterMap.mp hu
  unfold productEdge at hu
  dsimp only at hu
  split at hu
  · cases hu
  · next hmoves =>
      obtain rfl := Option.some.inj hu
      refine ⟨rfl, ?_⟩
      obtain ⟨t, ht⟩ : ∃ t, t ∈ tup.filterMap (leading intra event) := by
        apply List.exists_mem_of_ne_nil
        simpa using hmoves
      obtain ⟨s, hs, ht⟩ := List.mem_filterMap.mp ht
      have htried : t.source = s ∧ t.event = event := by
        simpa [Runtime.tried] using List.find?_some ht
      obtain ⟨l, hl, hmem⟩ := exists_mem_of_mem_product htup hs
      refine ⟨t, List.mem_of_find?_eq_some ht, ?_, htried.2⟩
      rw [htried.1]
      exact List.mem_flatten.mpr ⟨l, hl, hmem⟩

theorem OrthogonalProduct.flatTransitions_consistent {parentName : String}
    (h : Consistent reader ir.transitions)
    (hok : ∀ t ∈ ir.transitions, t.source ∈ subStates regions → t.event ≠ "" →
      reader.admits t.event .anonymous = true) :
    Consistent reader (flatTransitions ir parentName regions) := by
  have hremapped : ∀ t ∈ ir.transitions, ∀ t' ∈
      (remapOutgoing parentName regions (remapIncoming parentName regions t)).1 ::
        (remapOutgoing parentName regions (remapIncoming parentName regions t)).2,
      t.event = t'.event ∧ t.trigger = t'.trigger := by
    intro t _ t' ht'
    obtain ⟨he, htrigger⟩ := remapOutgoing_copy parentName regions _ t' ht'
    obtain ⟨he', htrigger'⟩ := remapIncoming_copy parentName regions t
    exact ⟨(he.trans he').symm, (htrigger.trans htrigger').symm⟩
  unfold flatTransitions
  refine Consistent.append (Consistent.append (Consistent.filter (h.of_copies ?_) _) ?_) (h.of_copies ?_)
  · intro t' ht' _
    obtain ⟨pair, hpair, rfl⟩ := List.mem_map.mp ht'
    obtain ⟨t, ht, rfl⟩ := List.mem_map.mp hpair
    exact ⟨t, ht, hremapped t ht _ List.mem_cons_self⟩
  · intro u hu hevent
    obtain ⟨htrigger, t, ht, hsource, he⟩ := productEdges_event hu
    rw [htrigger, ← he]
    exact hok t (List.mem_of_mem_filter ht) hsource (he ▸ hevent)
  · intro t' ht' _
    obtain ⟨pair, hpair, ht'⟩ := List.mem_flatMap.mp ht'
    obtain ⟨t, ht, rfl⟩ := List.mem_map.mp hpair
    exact ⟨t, ht, hremapped t ht t' (List.mem_cons_of_mem _ ht')⟩

theorem OrthogonalProduct.expandNamed_consistent {name : String}
    (h : Consistent reader acc.1.transitions) (hok : Untriggered reader n acc name) :
    Consistent reader (expandNamed n acc name).1.transitions := by
  unfold expandNamed
  split
  · exact h
  · next parent hparent =>
      split
      · exact h
      · next hregions =>
          show Consistent reader (expandParallelState n acc.1 parent).1.transitions
          unfold expandParallelState
          dsimp only
          split
          · exact h
          · next hbound =>
              have hwithin : withinBound n (regionsOf acc.1 parent) 1 = true := by
                simpa using (not_or.mp hbound).2
              have hflat : Consistent reader (flatTransitions acc.1 parent.name (regionsOf acc.1 parent)) :=
                flatTransitions_consistent h (hok parent hparent (by omega) hwithin)
              split <;> exact hflat

theorem OrthogonalProduct.run_consistent (h : Consistent reader ir.transitions)
    (hok : Meets (Untriggered reader n) (expandNamed n) (parallelStateNames ir) (ir, false)) :
    Consistent reader (OrthogonalProduct.run n ir).transitions := by
  have hfold : Consistent reader
      ((parallelStateNames ir).foldl (expandNamed n) (ir, false)).1.transitions :=
    foldl_inv_of_meets (fun _ acc => Consistent reader acc.1.transitions)
      (fun _ _ _ _ hacc hstep => expandNamed_consistent hacc hstep) hok h
  show Consistent reader
    (if ((parallelStateNames ir).foldl (expandNamed n) (ir, false)).2 then _ else _ : FsmIr).transitions
  split
  · apply Consistent.canonicalize
    rw [normalizeHierarchy_transitions]
    exact hfold
  · exact hfold

/-! ## Change triggers -/

/-- No transition with an event waits for a change of nothing. -/
def SampledChangeTrigger.Watched (reader : TriggerReader) (ts : List TransitionEdge) : Prop :=
  ∀ t ∈ ts, ∀ predicate activeOnTrue, t.trigger = .change "" predicate activeOnTrue → t.event ≠ "" →
    reader.admits t.event .anonymous = true

theorem SampledChangeTrigger.lowerEdge_consistent {i : ℕ} {t : TransitionEdge}
    (h : Consistent reader [t]) (hok : Watched reader [t]) :
    Consistent reader [lowerEdge i t] ∧ Watched reader [lowerEdge i t] := by
  unfold lowerEdge
  split
  · next raw predicate activeOnTrue htrigger =>
      split
      · next hraw =>
          subst hraw
          refine ⟨fun u hu hevent => ?_, fun u hu p b hchange _ => ?_⟩
          · obtain rfl := List.mem_singleton.mp hu
            exact hok t List.mem_cons_self predicate activeOnTrue htrigger hevent
          · obtain rfl := List.mem_singleton.mp hu
            cases hchange
      · refine ⟨fun u hu hevent => ?_, fun u hu p b hchange _ => ?_⟩
        · obtain rfl := List.mem_singleton.mp hu
          exact absurd rfl hevent
        · obtain rfl := List.mem_singleton.mp hu
          cases hchange
  · exact ⟨h, hok⟩

theorem SampledChangeTrigger.lowerOne_consistent {i : ℕ}
    (h : Consistent reader ir.transitions ∧ Watched reader ir.transitions) :
    Consistent reader (lowerOne ir i).transitions ∧ Watched reader (lowerOne ir i).transitions := by
  unfold lowerOne
  cases ht : ir.transitions[i]? with
  | none => exact h
  | some t =>
    have hmem : t ∈ ir.transitions := List.mem_of_getElem? ht
    have hsingle : ∀ u ∈ [t], u ∈ ir.transitions := fun u hu => List.mem_singleton.mp hu ▸ hmem
    obtain ⟨hnew, hwatched⟩ := lowerEdge_consistent (i := i)
      (fun u hu => h.1 u (hsingle u hu)) (fun u hu => h.2 u (hsingle u hu))
    refine ⟨fun u hu => ?_, fun u hu => ?_⟩
    · rcases List.mem_or_eq_of_mem_set hu with hu | rfl
      · exact h.1 u hu
      · exact hnew _ List.mem_cons_self
    · rcases List.mem_or_eq_of_mem_set hu with hu | rfl
      · exact h.2 u hu
      · exact hwatched _ List.mem_cons_self

theorem SampledChangeTrigger.run_consistent (h : Consistent reader ir.transitions)
    (hok : Watched reader ir.transitions) :
    Consistent reader (SampledChangeTrigger.run ir).transitions := by
  have hupTo : ∀ n, Consistent reader (lowerUpTo ir n).transitions ∧
      Watched reader (lowerUpTo ir n).transitions := by
    intro n
    unfold lowerUpTo
    induction n with
    | zero => exact ⟨h, hok⟩
    | succ n ih =>
      rw [List.range_succ, List.foldl_append]
      exact lowerOne_consistent ih
  exact (hupTo _).1

/-! ## Fusion -/

theorem TransitionFusion.fuseAll_consistent : ∀ (fuel : ℕ) {ir : FsmIr}, Consistent reader ir.transitions →
    Consistent reader (fuseAll fuel ir).1.transitions := by
  intro fuel
  induction fuel with
  | zero => exact fun h => h
  | succ fuel ih =>
    intro ir h
    unfold fuseAll
    split
    · exact h
    · next fused hfused =>
        obtain ⟨s, -, out, -, -, rfl⟩ := exists_of_fuseOnce hfused
        apply ih
        refine (h.filter _).append (h.of_copies fun t' ht' _ => ?_)
        obtain ⟨t, ht, rfl⟩ := List.mem_map.mp ht'
        exact ⟨t, List.mem_of_mem_filter ht, rfl, rfl⟩

theorem TransitionFusion.run_consistent (h : Consistent reader ir.transitions) :
    Consistent reader (TransitionFusion.run ir).transitions := by
  have hall := fuseAll_consistent ir.states.length h
  show Consistent reader (if (fuseAll ir.states.length ir).2 then _ else _ : FsmIr).transitions
  split
  · exact hall.canonicalize
  · exact hall

/-! ## Deferred events -/

theorem DeferredEventLowering.lowerState_consistent (h : Consistent reader ts) (s : StateNode) :
    Consistent reader (lowerState ts s) := by
  have hbuffer : ∀ (events : List String) (rows : List TransitionEdge), Consistent reader rows →
      Consistent reader (events.foldl (bufferEvent s.name) rows) := by
    intro events
    induction events with
    | nil => exact fun rows hrows => hrows
    | cons event events ih =>
      intro rows hrows
      apply ih
      unfold bufferEvent
      split
      · exact hrows
      · refine hrows.append fun t ht hevent => ?_
        obtain rfl := List.mem_singleton.mp ht
        have hne : event ≠ "" := hevent
        show reader.admits event (if event = "" then .anonymous else .signal event) = true
        rw [if_neg hne]
        exact reader.admits_signal hne
  unfold lowerState
  split
  · exact h
  · refine (hbuffer s.deferredEvents ts h).of_copies fun t' ht' _ => ?_
    obtain ⟨t, ht, rfl⟩ := List.mem_map.mp ht'
    refine ⟨t, ht, ?_⟩
    unfold recallEdge
    split
    · split <;> exact ⟨rfl, rfl⟩
    · exact ⟨rfl, rfl⟩

theorem DeferredEventLowering.run_consistent (h : Consistent reader ir.transitions) :
    Consistent reader (DeferredEventLowering.run ir).transitions := by
  have hfold : ∀ (states : List StateNode) (rows : List TransitionEdge), Consistent reader rows →
      Consistent reader (states.foldl lowerState rows) := by
    intro states
    induction states with
    | nil => exact fun rows hrows => hrows
    | cons s states ih => exact fun rows hrows => ih _ (lowerState_consistent hrows s)
  unfold DeferredEventLowering.run
  split
  · exact h
  · exact hfold ir.states ir.transitions h

/-! ## Sequences of passes -/

/-- The passes that build transitions or change their triggers. -/
inductive TriggerPass where
  | choiceInlining
  | connectiveJunctionChaining
  | orthogonalProduct (maxProductStates : ℕ)
  | sampledChangeTrigger
  | transitionFusion
  | deferredEventLowering
  deriving DecidableEq, Repr

/-- What a pass makes of a machine. -/
def TriggerPass.run : FsmIr → TriggerPass → FsmIr
  | ir, choiceInlining => (ChoiceInlining.run ir).1
  | ir, connectiveJunctionChaining => JunctionChaining.run ir
  | ir, orthogonalProduct maxProductStates => OrthogonalProduct.run maxProductStates ir
  | ir, sampledChangeTrigger => SampledChangeTrigger.run ir
  | ir, transitionFusion => TransitionFusion.run ir
  | ir, deferredEventLowering => DeferredEventLowering.run ir

/-- The pass gives no event to a transition whose trigger does not go with it. -/
def TriggerPass.Keeps (reader : TriggerReader) : FsmIr → TriggerPass → Prop
  | ir, choiceInlining =>
    Meets (ChoiceInlining.Unmixed reader) ChoiceInlining.inlineStep (ChoiceInlining.choiceNames ir)
      (ir, false)
  | _, connectiveJunctionChaining => True
  | ir, orthogonalProduct maxProductStates =>
    Meets (OrthogonalProduct.Untriggered reader maxProductStates)
      (OrthogonalProduct.expandNamed maxProductStates) (OrthogonalProduct.parallelStateNames ir)
      (ir, false)
  | ir, sampledChangeTrigger => SampledChangeTrigger.Watched reader ir.transitions
  | _, transitionFusion => True
  | _, deferredEventLowering => True

theorem TriggerPass.run_consistent {pass : TriggerPass} (h : Consistent reader ir.transitions)
    (hok : pass.Keeps reader ir) : Consistent reader (pass.run ir).transitions := by
  cases pass with
  | choiceInlining => exact ChoiceInlining.run_consistent h hok
  | connectiveJunctionChaining => exact JunctionChaining.run_consistent h
  | orthogonalProduct n => exact OrthogonalProduct.run_consistent h hok
  | sampledChangeTrigger => exact SampledChangeTrigger.run_consistent h hok
  | transitionFusion => exact TransitionFusion.run_consistent h
  | deferredEventLowering => exact DeferredEventLowering.run_consistent h

/-- **Consistency.** Whoever reads the triggers: after a sequence of passes each of which meets the
condition at its turn, no transition with an event is taken for one without, if none was before. -/
theorem passes_consistent (reader : TriggerReader) (passes : List TriggerPass) (ir : FsmIr)
    (h : Consistent reader ir.transitions)
    (hok : Meets (fun m pass => pass.Keeps reader m) (fun m pass => pass.run m) passes ir) :
    Consistent reader (passes.foldl (fun m pass => pass.run m) ir).transitions :=
  foldl_inv_of_meets (fun _ m => Consistent reader m.transitions)
    (fun _ _ _ _ hm hstep => TriggerPass.run_consistent hm hstep) hok h

/-- A machine that reacts to an event by way of a choice. -/
def switch : FsmIr where
  initialState := "A"
  states := [{ id := "A", name := "A" }, { id := "B", name := "B" }, { id := "C", name := "C", kind := .choice }]
  transitions := [
    { source := "A", target := "C", event := "e", trigger := .signal "e" },
    { source := "C", target := "B", guard := some "hot" }]

theorem switch_consistent : Consistent .variant
    ([TriggerPass.choiceInlining, .sampledChangeTrigger, .transitionFusion].foldl
      (fun m pass => pass.run m) switch).transitions := by
  refine passes_consistent .variant _ switch ?_ ?_
  · simp [Consistent, switch, TriggerReader.admits]
  · have hchoices : ChoiceInlining.choiceNames switch = ["C"] := by decide
    refine ⟨?_, ?_, trivial, trivial⟩
    · show Meets _ _ (ChoiceInlining.choiceNames switch) _
      rw [hchoices]
      refine ⟨fun i hi o _ hevent _ => ?_, trivial⟩
      have hall : ∀ i ∈ ChoiceInlining.incoming "C" switch.transitions, i.event ≠ "" := by decide
      exact absurd hevent (hall i hi)
    · intro t ht predicate activeOnTrue hchange _
      have hrun : (ChoiceInlining.run switch).1.transitions.map (·.trigger) = [.signal "e"] := by
        unfold ChoiceInlining.run
        rw [hchoices]
        rfl
      have hmem : t.trigger ∈ (ChoiceInlining.run switch).1.transitions.map (·.trigger) :=
        List.mem_map_of_mem ht
      rw [hrun, List.mem_singleton, hchange] at hmem
      cases hmem

/-- Two regions of one state, the first of which reacts to an event. -/
def duet : FsmIr where
  initialState := "P"
  states := [
    { id := "P", name := "P", kind := .parallel, isComposite := true
      orthogonalRegions := [{ name := "r", initialStateId := "a", stateIds := ["a"] },
        { name := "s", initialStateId := "b", stateIds := ["b"] }] },
    { id := "a", name := "a", parentState := "P" },
    { id := "b", name := "b", parentState := "P" }]
  transitions := [{ source := "a", target := "a", event := "e", trigger := .signal "e" }]

theorem duet_not_consistent : Consistent .variant duet.transitions ∧
    ¬Consistent .variant (TriggerPass.run duet (.orthogonalProduct 64)).transitions := by
  refine ⟨by simp [Consistent, duet, TriggerReader.admits], fun h => ?_⟩
  let expanded := (OrthogonalProduct.parallelStateNames duet).foldl (OrthogonalProduct.expandNamed 64)
    (duet, false)
  have hrun : TriggerPass.run duet (.orthogonalProduct 64) =
      canonicalize (normalizeHierarchy expanded.1) := by
    have hexpanded : expanded.2 = true := by decide +kernel
    show (if expanded.2 then canonicalize (normalizeHierarchy expanded.1) else expanded.1) = _
    rw [if_pos hexpanded]
  have hbad : expanded.1.transitions.any
      (fun t => t.event ≠ "" && !TriggerReader.variant.admits t.event t.trigger) = true := by
    decide +kernel
  obtain ⟨t, ht, hbad⟩ := List.any_eq_true.mp hbad
  obtain ⟨hevent, hadmits⟩ : t.event ≠ "" ∧ TriggerReader.variant.admits t.event t.trigger = false := by
    simpa using hbad
  -- the final normalisation keeps the product transition
  have hmem : syncGuard t ∈ (TriggerPass.run duet (.orthogonalProduct 64)).transitions := by
    rw [hrun]
    refine List.mem_mergeSort.mpr (List.mem_map_of_mem ?_)
    rw [normalizeHierarchy_transitions]
    exact ht
  have hkept : TriggerReader.variant.admits t.event t.trigger = true :=
    h (syncGuard t) hmem hevent
  rw [hadmits] at hkept
  cases hkept

end Fsmc.Passes
