/-
# Fsmc.Smv.Simulation — runs of a machine as runs of the module it is exported as.

A run whose steps the module follows is shown by a run of the module: the states, the events and the values are
the same, and a counter has the number of steps in its state. A transition that a leaf inherits breaks this.
-/
import Fsmc.Runtime.Datapath
import Fsmc.Smv.Branches

namespace Fsmc.Smv

open Fsmc.Ir Fsmc.Cpp Fsmc.Runtime Fsmc.Lib.SmvModule

variable {E : Type} {R : Reader} {S : TypedSource} {M : Meaning Datum E} {run : MachineRun S M}

/-! ## The module is accepted -/

theorem state_mem_declarations (S : TypedSource) :
    ("state", VarType.symbols ((stateNames S.toSource).map sanitizeSmvIdent)) ∈ declarations S := List.mem_cons_self

theorem event_mem_declarations (S : TypedSource) :
    ("event", VarType.symbols ("none" :: (eventNames S.toSource).map sanitizeSmvIdent)) ∈ declarations S :=
  List.mem_cons_of_mem _ List.mem_cons_self

theorem variable_mem_declarations {S : TypedSource} {v : VariableDefinition} (h : v ∈ S.ir.vars) :
    variableDecl S v ∈ declarations S := by
  unfold declarations
  simp only [List.mem_cons, List.mem_append]
  exact Or.inr (Or.inr (Or.inl (Or.inl (Or.inl (List.mem_map_of_mem h)))))

theorem free_mem_declarations {S : TypedSource} {name : String} (h : name ∈ freeGuardVars S.toSource) :
    (name, VarType.boolean) ∈ declarations S := by
  unfold declarations
  simp only [List.mem_cons, List.mem_append, List.mem_map]
  exact Or.inr (Or.inr (Or.inl (Or.inr ⟨name, h, rfl⟩)))

theorem timer_mem_declarations {S : TypedSource} {entry : String × ℕ} (h : entry ∈ stateMaxTimeouts S.ir) :
    (timerName entry.1, VarType.range 0 entry.2) ∈ declarations S := by
  unfold declarations
  simp only [List.mem_cons, List.mem_append, List.mem_map]
  exact Or.inr (Or.inr (Or.inr ⟨entry, h, rfl⟩))

theorem mem_stateConstants {S : Source} {s : String} (h : s ∈ declaredStates S) :
    sanitizeSmvIdent s ∈ (stateNames S).map sanitizeSmvIdent := by
  rw [← sanitizeSmvIdent_idem]
  exact List.mem_map_of_mem (mem_stateNames h)

@[simp] theorem constants_toSmvType (boolean : Bool) (lo hi : Option ℤ) :
    (toSmvType boolean lo hi).constants = [] := by
  unfold toSmvType
  split
  · rfl
  · split
    · rfl
    · rfl

theorem constants_serialize (S : TypedSource) : (serialize S).constants = constantNames S.toSource := by
  unfold Module.constants serialize declarations constantNames
  simp [List.flatMap_map, variableDecl, portDecl]

section

variable (hdecl : Declarable R S)
include hdecl

theorem asks_transitionBranch {t : TransitionEdge} (ht : t ∈ S.ir.transitions) (hends : hasEnds t = true)
    {c : Condition} (hc : c ∈ (transitionBranch S.ir t).conditions) : (serialize S).Asks R c := by
  obtain ⟨hne, htarget⟩ := ends_ne hends
  change c ∈ .equals "state" (sanitizeSmvIdent t.source) ::
    (triggerConditions t ++ (guardPredicate S.ir t).toList.map .formula) at hc
  simp only [List.mem_cons, List.mem_append] at hc
  rcases hc with rfl | htrigger | hguard
  · exact ⟨_, state_mem_declarations S,
      mem_stateConstants ((mem_declaredStates ht).1 (hdecl.sources t ht hne (Or.inl htarget)))⟩
  · cases hticks : ticksOf t with
    | some n =>
      have hc : c = .atLeast (timerName t.source) n := by simpa [triggerConditions, hticks] using htrigger
      rw [hc]
      have hentry := mem_stateMaxTimeouts ht hne (by rw [hticks]; rfl)
      have hmem := timer_mem_declarations hentry
      exact ⟨_, _, hmem⟩
    | none =>
      cases hless : isEventless t.getTriggerName with
      | true => simp [triggerConditions, hticks, hless] at htrigger
      | false =>
        have hc : c = .equals "event" (sanitizeSmvIdent t.getTriggerName) := by
          simpa [triggerConditions, hticks, hless] using htrigger
        rw [hc]
        exact ⟨_, event_mem_declarations S,
          List.mem_cons_of_mem _ (List.mem_map_of_mem (mem_eventNames ht hless))⟩
  · obtain ⟨text, htext, rfl⟩ := List.mem_map.mp hguard
    have hprinted : guardPredicate S.ir t = some text := Option.mem_toList.mp htext
    intro ν htyped
    rcases hdecl.guards t ht hends text hprinted with ⟨hword, hfree⟩ | hsome
    · have hboolean := htyped _ (free_mem_declarations (mem_freeGuardVars ht hprinted hword hfree))
      cases hvalue : ν text with
      | bool b => rw [truth_name hword hvalue]; rfl
      | number q => rw [hvalue] at hboolean; exact hboolean.elim
      | symbol name => rw [hvalue] at hboolean; exact hboolean.elim
    · exact hsome ν htyped

theorem mem_stateBranches {b : Branch} (hb : b ∈ stateBranches S.ir) : b = ⟨[], .same "state"⟩ ∨
      ∃ t ∈ S.ir.transitions, hasEnds t = true ∧ isStateName t.target = true ∧ b = transitionBranch S.ir t := by
  unfold stateBranches at hb
  rcases List.mem_append.mp hb with hb | hb
  · obtain ⟨t, ht, rfl⟩ := List.mem_map.mp hb
    obtain ⟨ht, hends⟩ := List.mem_filter.mp ht
    have ht' := mem_stableSort.mp ht
    exact Or.inr ⟨t, ht', hends, hdecl.targets t ht' hends, rfl⟩
  · exact Or.inl (List.mem_singleton.mp hb)

theorem accepted_serialize (hstart : StartsAlike R S run)
    (hvars : ∀ v ∈ S.ir.vars, (variableDecl S v).2.Contains (M.initial v.name)) : (serialize S).Accepted R where
  names := by
    intro name hname
    rw [constants_serialize] at hname
    exact hdecl.names name (map_fst_declarations S ▸ hname)
  nodup := (map_fst_declarations S).symm ▸ hdecl.distinct
  apart := by
    intro d hd
    rw [constants_serialize]
    exact hdecl.apart _ (map_fst_declarations S ▸ List.mem_map_of_mem hd)
  conditions := by
    intro c hc
    obtain ⟨a, ha, hc⟩ := List.mem_flatMap.mp hc
    obtain ⟨b, hb, hc⟩ := List.mem_flatMap.mp hc
    rcases List.mem_append.mp ha with ha | ha
    · obtain ⟨entry, hentry, rfl⟩ := List.mem_map.mp ha
      obtain ⟨t, ht, hsource, hne, hticks⟩ := exists_of_mem_stateMaxTimeouts hentry
      simp only [timerBranches, List.mem_cons, List.not_mem_nil, or_false] at hb
      rcases hb with rfl | rfl
      · simp only [List.mem_cons, List.not_mem_nil, or_false] at hc
        rcases hc with rfl | rfl
        · exact ⟨_, state_mem_declarations S,
            mem_stateConstants (hsource ▸ (mem_declaredStates ht).1 (hdecl.sources t ht hne (Or.inr hticks)))⟩
        · exact ⟨_, _, timer_mem_declarations hentry⟩
      · exact absurd hc List.not_mem_nil
    · rw [List.mem_singleton.mp ha] at hb
      rcases mem_stateBranches hdecl hb with rfl | ⟨t, ht, hends, -, rfl⟩
      · exact absurd hc List.not_mem_nil
      · exact asks_transitionBranch hdecl ht hends hc
  init := by
    intro a ha
    rcases List.mem_cons.mp ha with rfl | ha
    · refine ⟨_, state_mem_declarations S, ?_⟩
      rw [hstart.state]
      exact mem_stateConstants hstart.declared
    rcases List.mem_append.mp ha with ha | ha
    · obtain ⟨v, hv, rfl⟩ := List.mem_map.mp ha
      exact ⟨_, _, hstart.vars v hv, variable_mem_declarations hv, hvars v hv⟩
    · obtain ⟨entry, -, rfl⟩ := List.mem_map.mp ha
      exact trivial
  next := by
    intro a ha b hb
    rcases List.mem_append.mp ha with ha | ha
    · obtain ⟨entry, -, rfl⟩ := List.mem_map.mp ha
      simp only [timerBranches, List.mem_cons, List.not_mem_nil, or_false] at hb
      rcases hb with rfl | rfl
      · exact trivial
      · exact trivial
    · rw [List.mem_singleton.mp ha] at hb ⊢
      rcases mem_stateBranches hdecl hb with rfl | ⟨t, ht, -, htarget, rfl⟩
      · exact trivial
      · exact ⟨_, state_mem_declarations S, mem_stateConstants ((mem_declaredStates ht).2 htarget)⟩

end

/-! ## The simulation -/

theorem isRun_valuationAt (hdecl : Declarable R S) (hstart : StartsAlike R S run)
    (hsteps : ∀ i, Followed R S run i) : (serialize S).IsRun R (valuationAt run) where
  accepted := accepted_serialize hdecl hstart fun v hv => run.starts.vars ▸ (hsteps 0).vars v hv
  typed := fun i => typed_valuationAt run i hdecl.distinct (leaf_declared hdecl hstart hsteps i) (hsteps i).vars
    (hsteps i).ports
  init := by
    intro a ha
    have hshows := shows_valuationAt run 0 hdecl.distinct
    rcases List.mem_cons.mp ha with rfl | ha
    · rw [hshows.state, ← hstart.state]
      rfl
    rcases List.mem_append.mp ha with ha | ha
    · obtain ⟨v, hv, rfl⟩ := List.mem_map.mp ha
      rw [hshows.vars v hv, run.starts.vars]
      exact hstart.vars v hv
    · obtain ⟨entry, hentry, rfl⟩ := List.mem_map.mp ha
      rw [valuationAt_timer run 0 hdecl.distinct hentry]
      rfl
  next := by
    intro i a ha
    rcases List.mem_append.mp ha with ha | ha
    · obtain ⟨entry, hentry, rfl⟩ := List.mem_map.mp ha
      rw [valuationAt_timer run (i + 1) hdecl.distinct hentry]
      exact caseValue_timer hdecl (leaf_declared hdecl hstart hsteps i) hentry
    · rw [List.mem_singleton.mp ha, (shows_valuationAt run (i + 1) hdecl.distinct).state]
      exact caseValue_state hdecl (hsteps i) (leaf_declared hdecl hstart hsteps i)

/-- A run whose steps the module follows is simulated. -/
theorem simulates_run (run : MachineRun S M) (hdecl : Declarable R S) (hstart : StartsAlike R S run)
    (hsteps : ∀ i, Followed R S run i) : Simulates R S run where
  shown := ⟨valuationAt run, isRun_valuationAt hdecl hstart hsteps,
    fun i => shows_valuationAt run i hdecl.distinct⟩
  states := hdecl.states
  events := fun _ _ he he' h => eventConstant_injective hdecl.events he he' h
  carried := fun _ hall => ⟨valuationAt run, fun i => shows_valuationAt run i hdecl.distinct,
    hall _ (isRun_valuationAt hdecl hstart hsteps)⟩

/-- A reader of names, truth values and numbers. -/
def plainReader : Reader where
  term := fun text =>
    if text = "TRUE" then some (.bool true)
    else if text = "FALSE" then some (.bool false)
    else if text.toList.all Char.isDigit then some (.number (Datapath.numeral text))
    else none
  prop := fun words ν =>
    match words with
    | [name] =>
      match ν name with
      | .bool b => some b
      | _ => none
    | _ => none
  prop_name := fun _ h => by simp only [h]

/-- A lamp that is switched on if it is ready, and counts. -/
def lamp : TypedSource where
  ir :=
    { initialState := "Off"
      states := [{ name := "Off" }, { name := "On" }]
      transitions := [{ source := "Off", target := "On", event := "press", guard := some "ready" }]
      vars := [{ name := "presses", initialValue := "0", minValue := some 0, maxValue := some 5 }] }
  toInt64 := fun _ => 0

/-- What the lamp does: it is ready, and its transition counts. -/
def lampMeaning : Meaning Datum Unit where
  guard := fun _ _ _ => true
  duration := fun _ _ => 0
  perform := fun _ t _ vars _ => if t.isSome then fun _ => .number 1 else vars
  initial := fun _ => .number 0

def lampStart : Situation Datum where
  leaf := "Off"
  vars := lampMeaning.initial
  timers := fun k => if k.source ∈ chain lamp.ir "Off" then some 0 else none
  memory := fun _ => .never

/-- What occurs at a step of the lamp. -/
def lampStimulus (event : Option String) : Stimulus Datum Unit := ⟨event, fun _ => .bool false, (), 0⟩

def lampTransition : TransitionEdge := { source := "Off", target := "On", event := "press", guard := some "ready" }

theorem selected_lampStart :
    selected lampMeaning lamp.ir lampStart (lampStimulus (some "press")) = some lampTransition := by
  unfold selected choiceIn
  rw [byPriorities_of_unprioritized (by decide)]
  rfl

variable {c : Situation Datum}

theorem selected_lampOn (h : c.leaf = "On") :
    selected lampMeaning lamp.ir c (lampStimulus none) = none := by
  unfold selected choiceIn
  rw [byPriorities_of_unprioritized (by decide), h]
  rfl

/-- The lamp is switched on and then left alone. -/
def lampRun : MachineRun lamp lampMeaning :=
  .once lampStart (lampStimulus (some "press")) (lampStimulus none) lampTransition "On"
    ⟨.here rfl, rfl, rfl, rfl⟩ selected_lampStart (by decide) (.here rfl) (selected_lampOn rfl) rfl (fun _ => rfl)
    (by rintro e ⟨⟩; decide +kernel) (by rintro e ⟨⟩)

theorem freeGuardVars_lamp : freeGuardVars lamp.toSource = ["ready"] := by
  have hnames : (lamp.ir.transitions.flatMap fun t =>
      (guardPredicate lamp.ir t).toList.flatMap fun smvGuard =>
        extractSmvIdentifiers smvGuard (knownIdents lamp.toSource)).dedup = ["ready"] := by decide +kernel
  unfold freeGuardVars
  rw [hnames]
  exact List.mergeSort_singleton _

theorem stateMaxTimeouts_lamp : stateMaxTimeouts lamp.ir = [] := by
  have hnames : ((lamp.ir.transitions.filter fun t => t.source ≠ "" && (ticksOf t).isSome).map (·.source)).dedup =
      [] := by decide +kernel
  unfold stateMaxTimeouts
  rw [hnames]
  exact congrArg (List.map _) List.mergeSort_nil

theorem declarable_lamp : Declarable plainReader lamp where
  states := by decide +kernel
  events := by decide +kernel
  names := by
    unfold variableNames
    rw [freeGuardVars_lamp, stateMaxTimeouts_lamp]
    decide +kernel
  distinct := by
    unfold variableNames
    rw [freeGuardVars_lamp, stateMaxTimeouts_lamp]
    decide +kernel
  apart := by
    unfold variableNames
    rw [freeGuardVars_lamp, stateMaxTimeouts_lamp]
    decide +kernel
  sources := by decide +kernel
  targets := by decide +kernel
  guards := by
    intro t ht _ text htext
    rw [List.mem_singleton.mp ht] at htext
    have hready : text = "ready" := by
      have hprinted : guardPredicate lamp.ir lampTransition = some "ready" := by decide +kernel
      exact Option.some.inj (htext.symm.trans hprinted)
    rw [hready]
    exact Or.inl (by decide +kernel)

theorem lamp_simulates : Simulates plainReader lamp lampRun :=
  simulates_run lampRun declarable_lamp
    { declared := by decide +kernel
      state := by decide +kernel
      vars := by
        intro v hv
        rw [List.mem_singleton.mp hv]
        decide +kernel }
    fun i =>
      { own := by
          cases i with
          | zero =>
            intro t h _
            cases h.symm.trans selected_lampStart
            exact ⟨by decide, fun hkind => absurd hkind (by decide), fun _ => rfl⟩
          | succ i => exact fun t h => absurd (h.symm.trans (selected_lampOn rfl)) (by simp)
        inherited := by
          cases i with
          | zero =>
            intro t h hother
            cases h.symm.trans selected_lampStart
            exact absurd rfl hother
          | succ i => exact fun t h => absurd (h.symm.trans (selected_lampOn rfl)) (by simp)
        timers := by
          intro t ht _ _ k hk
          rw [List.mem_singleton.mp ht] at hk
          cases hk
        guards := by
          intro t ht _ _ _
          rw [List.mem_singleton.mp ht]
          exact Or.inl ⟨by decide +kernel, by decide +kernel⟩
        vars := by
          intro v hv
          rw [List.mem_singleton.mp hv]
          cases i with
          | zero => exact ⟨0, by rfl, by decide, by decide⟩
          | succ i => exact ⟨1, by rfl, by decide, by decide⟩
        ports := fun p hp => absurd hp List.not_mem_nil }

/-- A lamp whose bright state is inside the state that is switched off. -/
def spotlight : TypedSource where
  ir :=
    { initialState := "Bright"
      states := [{ name := "On", isComposite := true, initialSubState := "Bright" },
        { name := "Bright", parentState := "On" }, { name := "Off" }]
      transitions := [{ source := "On", target := "Off", event := "switch" }] }
  toInt64 := fun _ => 0

/-- What the lamp does: nothing with data. -/
def spotlightMeaning : Meaning Datum Unit where
  guard := fun _ _ _ => true
  duration := fun _ _ => 0
  perform := fun _ _ _ vars _ => vars
  initial := fun _ => .bool false

def spotlightStart : Situation Datum where
  leaf := "Bright"
  vars := spotlightMeaning.initial
  timers := fun k => if k.source ∈ chain spotlight.ir "Bright" then some 0 else none
  memory := fun _ => .never

/-- The transition of the lamp. -/
def spotlightTransition : TransitionEdge := { source := "On", target := "Off", event := "switch" }

theorem selected_spotlightStart :
    selected spotlightMeaning spotlight.ir spotlightStart (lampStimulus (some "switch")) =
      some spotlightTransition := by
  unfold selected choiceIn
  rw [byPriorities_of_unprioritized (by decide)]
  rfl

theorem selected_spotlightOff (h : c.leaf = "Off") :
    selected spotlightMeaning spotlight.ir c (lampStimulus none) = none := by
  unfold selected choiceIn
  rw [byPriorities_of_unprioritized (by decide), h]
  rfl

/-- The lamp is switched off. -/
def spotlightRun : MachineRun spotlight spotlightMeaning :=
  .once spotlightStart (lampStimulus (some "switch")) (lampStimulus none) spotlightTransition "Off"
    ⟨.here rfl, rfl, rfl, rfl⟩ selected_spotlightStart (by decide) (.here rfl) (selected_spotlightOff rfl) rfl
    (fun _ => rfl) (by rintro e ⟨⟩; decide +kernel) (by rintro e ⟨⟩)

/-- The leaf inherits the transition, and no branch asks for the leaf. -/
theorem spotlight_not_simulates : ¬ Simulates plainReader spotlight spotlightRun := by
  rintro ⟨⟨ρ, hrun, hshows⟩, -, -, -⟩
  have hbefore : ρ 0 "state" = .symbol "Bright" := by
    rw [(hshows 0).state]
    decide +kernel
  have hafter : ρ 1 "state" = .symbol "Off" := by
    rw [(hshows 1).state]
    decide +kernel
  have hnext : plainReader.caseValue (ρ 0) (stateBranches spotlight.ir) = some (ρ 1 "state") :=
    hrun.next 0 ("state", stateBranches spotlight.ir) (List.mem_append_right _ (List.mem_singleton_self _))
  have hsorted : sortedTransitions spotlight.ir = spotlight.ir.transitions :=
    byPriorities_of_unprioritized (by decide)
  have hnone : (((sortedTransitions spotlight.ir).filter hasEnds).map (transitionBranch spotlight.ir)).find?
      (plainReader.takes (ρ 0)) = none := by
    rw [hsorted, List.find?_eq_none]
    intro b hb
    obtain ⟨t, ht, rfl⟩ := List.mem_map.mp hb
    rw [List.mem_singleton.mp (List.mem_filter.mp ht).1]
    have hother : (Datum.symbol "Bright" = .symbol (sanitizeSmvIdent "On")) = False := by
      rw [eq_iff_iff, iff_false]
      decide +kernel
    simp [Reader.takes, transitionBranch, hbefore, hother]
  unfold stateBranches at hnext
  rw [Reader.caseValue_append_of_none hnone, Reader.caseValue_default, hafter] at hnext
  exact absurd (hbefore.symm.trans (Option.some.inj hnext)) (by decide +kernel)

end Fsmc.Smv
