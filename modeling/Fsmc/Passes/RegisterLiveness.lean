/-
# Fsmc.Passes.RegisterLiveness — register indices from live ranges.

The pass computes what is live before and after each state, takes two variables to interfere when they
are live together there or used by one transition, and colours the interference graph. The colouring is
proper, so sharing is sound as long as no step writes a variable while another one, that it is not
taken to interfere with, may still be read. A store to a variable that is dead afterwards breaks that,
and so does a variable that only some of the transitions of a state define.
-/
import Fsmc.Cpp.Algorithm
import Fsmc.Lib.Coloring
import Fsmc.Lib.Liveness
import Fsmc.Runtime.Activity
import Mathlib.Data.Finset.Card

namespace Fsmc.Passes.RegisterLiveness

open Fsmc.Cpp Fsmc.Ir Fsmc.Runtime Fsmc.Lib.Coloring Fsmc.Lib.DeadStore Fsmc.Lib.Liveness
  Fsmc.Lib.SharedStorage

/-! ## The pass -/

def collectReads (ir : FsmIr) (act : ActionSignature) : List String :=
  ((act.instructions.flatMap fun inst =>
      match inst with
      | .store op =>
        extractIdentifiers op.expression ++ if op.op ≠ .assign then [op.target.name] else []
      | .portWrite op => extractIdentifiers op.expression
      | .actionCall op => op.readSet ++ op.arguments.flatMap extractIdentifiers
      | _ => []) ++
    act.assignments.flatMap fun assign =>
      extractIdentifiers assign.expression ++
        if assign.op ≠ .assign then [assign.target.name] else []).filter (· ∈ ir.knownVars)

def collectWrites (ir : FsmIr) (act : ActionSignature) : List String :=
  ((act.instructions.flatMap fun inst =>
      match inst with
      | .store op => [op.target.name]
      | .portRead op => [op.destination.name]
      | .actionCall op => op.writeSet
      | _ => []) ++
    act.assignments.map fun assign => assign.target.name).filter (· ∈ ir.knownVars)

def knownIdentifiers (ir : FsmIr) (text : String) : List String :=
  (extractIdentifiers text).filter (· ∈ ir.knownVars)

def transUses (ir : FsmIr) (t : TransitionEdge) : List String :=
  (match t.guardAst with
    | some ast => knownIdentifiers ir ast.toCpp
    | none => t.guard.toList.flatMap (knownIdentifiers ir)) ++
    t.transitionAction.toList.flatMap (collectReads ir)

/-- The transitions that leave a state. -/
def edgesFrom (ir : FsmIr) (stateId : String) : List TransitionEdge :=
  ir.transitions.filter fun t => sourceIdOf ir t = stateId

/-- The state whose entries in `state_uses` and `state_defs` were made last. -/
def lastState (ir : FsmIr) (stateId : String) : Option StateNode :=
  ir.states.reverse.find? fun s => s.id = stateId

def stateUses (ir : FsmIr) (stateId : String) : Finset String :=
  (((lastState ir stateId).toList.flatMap fun s =>
      (s.invariants.flatMap fun inv => knownIdentifiers ir inv.toCpp) ++
        (s.entryActions ++ s.exitActions).flatMap (collectReads ir)) ++
    (edgesFrom ir stateId).flatMap (transUses ir)).toFinset

def stateDefs (ir : FsmIr) (stateId : String) : Finset String :=
  (((lastState ir stateId).toList.flatMap fun s => s.entryActions.flatMap (collectWrites ir)) ++
    (edgesFrom ir stateId).flatMap fun t =>
      t.transitionAction.toList.flatMap (collectWrites ir)).toFinset

/-- The states with what they use and define, and `successors`. -/
def flow (ir : FsmIr) : Flow String String where
  nodes := ir.states.map (·.id)
  succ := fun stateId => (edgesFrom ir stateId).map (targetIdOf ir)
  uses := stateUses ir
  defs := stateDefs ir

/-- The sets of variables that interfere pairwise. -/
def cliques (ir : FsmIr) (facts : Facts String String) : List (Finset String) :=
  (ir.states.flatMap fun s => [facts.liveIn s.id, facts.liveOut s.id]) ++
    (ir.transitions.map fun t => (transUses ir t).toFinset).filter (1 < ·.card)

def interference (ir : FsmIr) (facts : Facts String String) (v : String) : List String :=
  ir.knownVars.dedup.filter fun w => w ≠ v && (cliques ir facts).any fun c => v ∈ c && w ∈ c

/-- `var_names`, sorted by the number of variables that they interfere with. -/
def varNames (sorting : SortOrder) (ir : FsmIr) (facts : Facts String String) : List String :=
  sorting.sort
    (fun a b => (interference ir facts b).length < (interference ir facts a).length) ir.knownVars

def colors (sorting : SortOrder) (ir : FsmIr) (facts : Facts String String) : String → Option ℕ :=
  colour (interference ir facts) (varNames sorting ir facts)

/-- `RegisterLivenessPass::run`, `none` while the data-flow loop is still running. -/
def run (sorting : SortOrder) (fuel : ℕ) (ir : FsmIr) : Option FsmIr :=
  if ir.vars.isEmpty then some ir
  else
    ((flow ir).analyse fuel).map fun facts =>
      { ir with
        vars := ir.vars.map fun v =>
          match colors sorting ir facts v.name with
          | some c => { v with registerIndex := some c }
          | none => v }

/-! ## The data-flow loop ends -/

theorem mem_knownVars_of_mem_collectReads {ir : FsmIr} {act : ActionSignature} {v : String}
    (h : v ∈ collectReads ir act) : v ∈ ir.knownVars := by
  simpa using (List.mem_filter.mp h).2

theorem mem_knownVars_of_mem_knownIdentifiers {ir : FsmIr} {text v : String}
    (h : v ∈ knownIdentifiers ir text) : v ∈ ir.knownVars := by
  simpa using (List.mem_filter.mp h).2

variable {t : TransitionEdge} {facts : Facts String String} {name : String} {A : Set Location}
  {path : List TransitionEdge}

theorem mem_knownVars_of_mem_transUses {ir : FsmIr} {v : String}
    (h : v ∈ transUses ir t) : v ∈ ir.knownVars := by
  unfold transUses at h
  rcases List.mem_append.mp h with hguard | haction
  · cases hast : t.guardAst with
    | some ast =>
      rw [hast] at hguard
      exact mem_knownVars_of_mem_knownIdentifiers hguard
    | none =>
      rw [hast] at hguard
      obtain ⟨text, -, hv⟩ := List.mem_flatMap.mp hguard
      exact mem_knownVars_of_mem_knownIdentifiers hv
  · obtain ⟨act, -, hv⟩ := List.mem_flatMap.mp haction
    exact mem_knownVars_of_mem_collectReads hv

theorem mem_knownVars_of_mem_stateUses {ir : FsmIr} {stateId v : String}
    (h : v ∈ stateUses ir stateId) : v ∈ ir.knownVars := by
  unfold stateUses at h
  rcases List.mem_append.mp (List.mem_toFinset.mp h) with hstate | hedge
  · obtain ⟨s, -, hs⟩ := List.mem_flatMap.mp hstate
    rcases List.mem_append.mp hs with hinv | hact
    · obtain ⟨inv, -, hv⟩ := List.mem_flatMap.mp hinv
      exact mem_knownVars_of_mem_knownIdentifiers hv
    · obtain ⟨act, -, hv⟩ := List.mem_flatMap.mp hact
      exact mem_knownVars_of_mem_collectReads hv
  · obtain ⟨t, -, hv⟩ := List.mem_flatMap.mp hedge
    exact mem_knownVars_of_mem_transUses hv

theorem run_isSome (sorting : SortOrder) (ir : FsmIr) : ∃ fuel, (run sorting fuel ir).isSome = true := by
  refine ⟨((flow ir).possible ir.knownVars).length + 1, ?_⟩
  unfold run
  split
  · rfl
  · rw [Option.isSome_map]
    exact Flow.analyse_isSome (fun n v hv => mem_knownVars_of_mem_stateUses hv) (Nat.lt_succ_self _)

/-! ## Interference -/

/-- Two variables are live together before or after some state, or used by one transition. -/
def Conflict (ir : FsmIr) (v w : String) : Prop :=
  (∃ s ∈ ir.states, (flow ir).Live s.id v ∧ (flow ir).Live s.id w) ∨
    (∃ s ∈ ir.states, (flow ir).LiveAfter s.id v ∧ (flow ir).LiveAfter s.id w) ∨
      ∃ t ∈ ir.transitions, v ∈ transUses ir t ∧ w ∈ transUses ir t

variable {v w : String}

theorem mem_interference_iff {ir : FsmIr} {fuel : ℕ}
    (h : (flow ir).analyse fuel = some facts) :
    w ∈ interference ir facts v ↔ w ∈ ir.knownVars ∧ w ≠ v ∧ Conflict ir v w := by
  obtain ⟨hin, hout⟩ := Flow.analyse_spec h
  have hout' : ∀ s ∈ ir.states, ∀ v, v ∈ facts.liveOut s.id ↔ (flow ir).LiveAfter s.id v :=
    fun s hs => hout s.id (List.mem_map_of_mem hs)
  unfold interference
  simp only [List.mem_filter, List.mem_dedup, Bool.and_eq_true, decide_eq_true_eq, List.any_eq_true]
  refine and_congr_right fun _ => and_congr_right fun hne => ?_
  constructor
  · rintro ⟨c, hc, hv, hw⟩
    rcases List.mem_append.mp hc with hstate | hedge
    · obtain ⟨s, hs, hc⟩ := List.mem_flatMap.mp hstate
      simp only [List.mem_cons, List.not_mem_nil, or_false] at hc
      rcases hc with rfl | rfl
      · exact Or.inl ⟨s, hs, (hin _ _).mp hv, (hin _ _).mp hw⟩
      · exact Or.inr (Or.inl ⟨s, hs, (hout' s hs _).mp hv, (hout' s hs _).mp hw⟩)
    · obtain ⟨t, ht, rfl⟩ := List.mem_map.mp (List.mem_filter.mp hedge).1
      exact Or.inr (Or.inr ⟨t, ht, List.mem_toFinset.mp hv, List.mem_toFinset.mp hw⟩)
  · rintro (⟨s, hs, hv, hw⟩ | ⟨s, hs, hv, hw⟩ | ⟨t, ht, hv, hw⟩)
    · refine ⟨facts.liveIn s.id, ?_, (hin _ _).mpr hv, (hin _ _).mpr hw⟩
      exact List.mem_append_left _ (List.mem_flatMap.mpr ⟨s, hs, by simp⟩)
    · refine ⟨facts.liveOut s.id, ?_, (hout' s hs _).mpr hv, (hout' s hs _).mpr hw⟩
      exact List.mem_append_left _ (List.mem_flatMap.mpr ⟨s, hs, by simp⟩)
    · have hv' : v ∈ (transUses ir t).toFinset := List.mem_toFinset.mpr hv
      have hw' : w ∈ (transUses ir t).toFinset := List.mem_toFinset.mpr hw
      refine ⟨(transUses ir t).toFinset, ?_, hv', hw'⟩
      apply List.mem_append_right
      refine List.mem_filter.mpr ⟨List.mem_map_of_mem ht, ?_⟩
      exact decide_eq_true (Finset.one_lt_card.mpr ⟨w, hw', v, hv', hne⟩)

theorem Conflict.symm {ir : FsmIr} (h : Conflict ir v w) : Conflict ir w v :=
  h.imp (fun ⟨s, hs, hv, hw⟩ => ⟨s, hs, hw, hv⟩)
    (Or.imp (fun ⟨s, hs, hv, hw⟩ => ⟨s, hs, hw, hv⟩) fun ⟨t, ht, hv, hw⟩ => ⟨t, ht, hw, hv⟩)

theorem mem_knownVars_of_live {ir : FsmIr} {stateId v : String} (h : (flow ir).Live stateId v) : v ∈ ir.knownVars :=
  Flow.mem_univ_of_live (fun _ _ hv => mem_knownVars_of_mem_stateUses hv) h

theorem Conflict.mem_knownVars {ir : FsmIr} (h : Conflict ir v w) : v ∈ ir.knownVars := by
  rcases h with ⟨s, -, hv, -⟩ | ⟨s, -, ⟨m, -, hv⟩, -⟩ | ⟨t, -, hv, -⟩
  · exact mem_knownVars_of_live hv
  · exact mem_knownVars_of_live hv
  · exact mem_knownVars_of_mem_transUses hv

/-- The register that a variable is given. -/
def registerIndexOf (ir : FsmIr) (name : String) : Option ℕ :=
  (ir.vars.find? fun v => v.name = name).bind (·.registerIndex)

theorem mem_knownVars_of_registerIndexOf {ir : FsmIr} {i : ℕ}
    (h : registerIndexOf ir name = some i) : name ∈ ir.knownVars := by
  obtain ⟨v, hv, -⟩ := Option.bind_eq_some_iff.mp h
  have hname : v.name = name := by simpa using List.find?_some hv
  exact List.mem_map.mpr ⟨v, List.mem_of_find?_eq_some hv, hname⟩

theorem knownVars_run {sorting : SortOrder} {fuel : ℕ} {ir ir' : FsmIr}
    (h : run sorting fuel ir = some ir') : ir'.knownVars = ir.knownVars := by
  unfold run at h
  split at h
  · rw [← Option.some.inj h]
  · obtain ⟨facts, -, rfl⟩ := Option.map_eq_some_iff.mp h
    unfold FsmIr.knownVars
    rw [List.map_map]
    apply List.map_congr_left
    intro v _
    show VariableDefinition.name (match colors sorting ir facts v.name with
      | some c => { v with registerIndex := some c }
      | none => v) = v.name
    split <;> rfl

theorem registerIndexOf_run {sorting : SortOrder} {fuel : ℕ} {ir ir' : FsmIr}
    (h : run sorting fuel ir = some ir') (hname : name ∈ ir.knownVars) :
    ∃ facts, (flow ir).analyse fuel = some facts ∧
      registerIndexOf ir' name = colors sorting ir facts name := by
  have hne : ir.vars.isEmpty = false := by
    obtain ⟨v, hv, -⟩ := List.mem_map.mp hname
    cases hvars : ir.vars with
    | nil => simp [hvars] at hv
    | cons _ _ => rfl
  unfold run at h
  rw [hne] at h
  obtain ⟨facts, hfacts, rfl⟩ := Option.map_eq_some_iff.mp h
  refine ⟨facts, hfacts, ?_⟩
  have hmem : name ∈ varNames sorting ir facts := (sorting.perm _ _).mem_iff.mpr hname
  have hcolored : (colors sorting ir facts name).isSome = true := colour_isSome_of_mem hmem
  obtain ⟨c, hcolor⟩ := Option.isSome_iff_exists.mp hcolored
  obtain ⟨v, hv, hvname⟩ := List.mem_map.mp hname
  have hsome : (ir.vars.find? fun v => v.name = name).isSome = true := by
    rw [List.find?_isSome]
    exact ⟨v, hv, by simpa using hvname⟩
  obtain ⟨u, hu⟩ := Option.isSome_iff_exists.mp hsome
  have huname : u.name = name := by simpa using List.find?_some hu
  unfold registerIndexOf
  rw [List.find?_map]
  have hcomp : ((fun v : VariableDefinition => decide (v.name = name)) ∘ fun v =>
      match colors sorting ir facts v.name with
      | some c => { v with registerIndex := some c }
      | none => v) = fun v => decide (v.name = name) := by
    funext v
    show decide (VariableDefinition.name (match colors sorting ir facts v.name with
      | some c => { v with registerIndex := some c }
      | none => v) = name) = _
    split <;> rfl
  rw [hcomp, hu]
  show VariableDefinition.registerIndex (match colors sorting ir facts u.name with
    | some c => { u with registerIndex := some c }
    | none => u) = colors sorting ir facts name
  rw [huname, hcolor]

theorem registerIndexOf_ne {sorting : SortOrder} {fuel : ℕ} {ir ir' : FsmIr}
    (h : run sorting fuel ir = some ir') (hne : v ≠ w) (hconflict : Conflict ir v w)
    {i j : ℕ} (hv : registerIndexOf ir' v = some i) (hw : registerIndexOf ir' w = some j) :
    i ≠ j := by
  have hknown : ∀ {name : String} {i : ℕ}, registerIndexOf ir' name = some i →
      name ∈ ir.knownVars := by
    intro name i hi
    rw [← knownVars_run h]
    exact mem_knownVars_of_registerIndexOf hi
  obtain ⟨facts, hfacts, hcolor⟩ := registerIndexOf_run h (hknown hv)
  obtain ⟨facts', hfacts', hcolor'⟩ := registerIndexOf_run h (hknown hw)
  obtain rfl : facts = facts' := Option.some.inj (hfacts.symm.trans hfacts')
  have hproper : Proper (interference ir facts) (colors sorting ir facts) := by
    apply colour_proper
    · intro a b hb
      obtain ⟨-, hba, hab⟩ := (mem_interference_iff hfacts).mp hb
      exact (mem_interference_iff hfacts).mpr ⟨hab.mem_knownVars, hba.symm, hab.symm⟩
    · intro a ha
      exact ((mem_interference_iff hfacts).mp ha).2.1 rfl
  rintro rfl
  rw [hcolor] at hv
  rw [hcolor'] at hw
  exact hproper v w ((mem_interference_iff hfacts).mpr ⟨hknown (hcolor'.trans hw), hne.symm,
    hconflict⟩) i hv hw

/-! ## What the pass computes -/

/-- Two variables that are both in the set of one state, before or after it, or both used by one
transition. -/
def Together (ir : FsmIr) (facts : Facts String String) (v w : String) : Prop :=
  (∃ s ∈ ir.states, v ∈ facts.liveIn s.id ∧ w ∈ facts.liveIn s.id) ∨
    (∃ s ∈ ir.states, v ∈ facts.liveOut s.id ∧ w ∈ facts.liveOut s.id) ∨
      ∃ t ∈ ir.transitions, v ∈ transUses ir t ∧ w ∈ transUses ir t

theorem conflict_iff_together {ir : FsmIr} {fuel : ℕ}
    (h : (flow ir).analyse fuel = some facts) :
    Conflict ir v w ↔ Together ir facts v w := by
  obtain ⟨hin, hout⟩ := Flow.analyse_spec h
  have hout' : ∀ s ∈ ir.states, ∀ v, v ∈ facts.liveOut s.id ↔ (flow ir).LiveAfter s.id v :=
    fun s hs => hout s.id (List.mem_map_of_mem hs)
  refine or_congr ?_ (or_congr ?_ Iff.rfl)
  · exact exists_congr fun s => and_congr_right fun _ =>
      and_congr (hin s.id v).symm (hin s.id w).symm
  · exact exists_congr fun s => and_congr_right fun hs =>
      and_congr (hout' s hs v).symm (hout' s hs w).symm

theorem registerIndexOf_isSome {sorting : SortOrder} {fuel : ℕ} {ir ir' : FsmIr}
    (h : run sorting fuel ir = some ir') (hname : name ∈ ir.knownVars) :
    ∃ i, registerIndexOf ir' name = some i := by
  obtain ⟨facts, -, hcolor⟩ := registerIndexOf_run h hname
  have hmem : name ∈ varNames sorting ir facts := (sorting.perm _ _).mem_iff.mpr hname
  have hcolored : (colors sorting ir facts name).isSome = true := colour_isSome_of_mem hmem
  rw [hcolor]
  exact Option.isSome_iff_exists.mp hcolored

/-- The data-flow loop ends, with the least solution of the equations, and the pass gives different
registers to any two variables that are in one of its sets. -/
theorem liveness_and_colors_correct (sorting : SortOrder) (ir : FsmIr) :
    (∃ fuel, ((flow ir).analyse fuel).isSome = true ∧ (run sorting fuel ir).isSome = true) ∧
      ∀ fuel facts, (flow ir).analyse fuel = some facts →
        (flow ir).LeastSolution facts ∧
          ∀ ir', run sorting fuel ir = some ir' → ∀ v w, v ≠ w → Together ir facts v w →
            ∃ i j, registerIndexOf ir' v = some i ∧ registerIndexOf ir' w = some j ∧ i ≠ j := by
  refine ⟨⟨((flow ir).possible ir.knownVars).length + 1, ?_, ?_⟩, ?_⟩
  · exact Flow.analyse_isSome (fun n v hv => mem_knownVars_of_mem_stateUses hv) (Nat.lt_succ_self _)
  · unfold run
    split
    · rfl
    · rw [Option.isSome_map]
      exact Flow.analyse_isSome (fun n v hv => mem_knownVars_of_mem_stateUses hv)
        (Nat.lt_succ_self _)
  · intro fuel facts hfacts
    refine ⟨Flow.analyse_leastSolution hfacts, ?_⟩
    intro ir' hrun v w hne htogether
    have hconflict : Conflict ir v w := (conflict_iff_together hfacts).mpr htogether
    obtain ⟨i, hi⟩ := registerIndexOf_isSome hrun hconflict.mem_knownVars
    obtain ⟨j, hj⟩ := registerIndexOf_isSome hrun hconflict.symm.mem_knownVars
    exact ⟨i, j, hi, hj, registerIndexOf_ne hrun hne hconflict hi hj⟩

/-! ## Sharing registers -/

/-- A storage cell: that of a location of its own, or a part of a register. -/
inductive Cell where
  | own (l : Location)
  | register (index : ℕ) (path : List Accessor)

/-- Where a location is kept when the variables `shared` are kept in the registers given to them. -/
def cellOf (ir : FsmIr) (shared : List String) (l : Location) : Cell :=
  if l.domain = .register ∧ l.name ∈ shared then
    match registerIndexOf ir l.name with
    | some i => .register i l.path
    | none => .own l
  else .own l

theorem of_cellOf_eq {ir : FsmIr} {shared : List String} {l l' : Location}
    (h : cellOf ir shared l = cellOf ir shared l') (hne : l ≠ l') :
    l.domain = .register ∧ l'.domain = .register ∧ l.path = l'.path ∧
      ∃ i, registerIndexOf ir l.name = some i ∧ registerIndexOf ir l'.name = some i := by
  have hcell : ∀ l : Location, cellOf ir shared l = .own l ∨ l.domain = .register ∧
      ∃ i, registerIndexOf ir l.name = some i ∧ cellOf ir shared l = .register i l.path := by
    intro l
    unfold cellOf
    split
    · next hl =>
        cases hi : registerIndexOf ir l.name with
        | none => exact Or.inl rfl
        | some i => exact Or.inr ⟨hl.1, i, rfl, rfl⟩
    · exact Or.inl rfl
  rcases hcell l with hl | ⟨hd, i, hi, hl⟩
  · rcases hcell l' with hl' | ⟨hd', i', hi', hl'⟩
    · rw [hl, hl'] at h
      exact absurd (Cell.own.inj h) hne
    · rw [hl, hl'] at h
      exact absurd h (by simp)
  · rcases hcell l' with hl' | ⟨hd', i', hi', hl'⟩
    · rw [hl, hl'] at h
      exact absurd h (by simp)
    · rw [hl, hl'] at h
      obtain ⟨rfl, hpath⟩ := Cell.register.inj h
      exact ⟨hd, hd', hpath, i, hi, hi'⟩

/-- The declared initial value of a variable. -/
def initialValueOf (ir : FsmIr) (name : String) : Option String :=
  (ir.vars.find? fun v => v.name = name).map (·.initialValue)

/-- A store in which the variables have their declared values. -/
def Initialised {S : Type} (ir : FsmIr) (init : String → Value S) (σ : Store S) : Prop :=
  ∀ name text, initialValueOf ir name = some text →
    ∀ path, σ ⟨.register, name, path⟩ = init text path

/-- Cells in which each register has the declared value of one of its variables. -/
structure SharedInitialised {S : Type} (ir : FsmIr) (shared : List String) (σ : Store S)
    (τ : Cell → S) : Prop where
  own : ∀ l, τ (.own l) = σ l
  register : ∀ name ∈ shared, ∀ i, registerIndexOf ir name = some i →
    ∃ v ∈ shared, registerIndexOf ir v = some i ∧
      ∀ path, τ (.register i path) = σ ⟨.register, v, path⟩

/-- On a path from the start, every check and every instruction reads from the shared registers what it
reads from separate ones, and emits the same. -/
def ReadsSame (ir ir' : FsmIr) (path : List TransitionEdge) (last : String) : Prop :=
  ∀ (S : Type) (d : Datapath ir S) (init : String → Value S) (shared : List String) (σ : Store S)
    (τ τ' : Cell → S) (before after : List Activity) (a : Activity),
    Initialised ir init σ → SharedInitialised ir' shared σ τ →
      fromStart ir path last = before ++ a :: after →
        Run (cellOf ir' shared) (before.map d.activityStep) τ τ' →
          let separate := (Lib.DeadStore.run (before.map d.activityStep) σ).1
          Set.EqOn (τ' ∘ cellOf ir' shared) separate (d.activityStep a).reads ∧
            (d.activityStep a).emit (τ' ∘ cellOf ir' shared) = (d.activityStep a).emit separate

/-! ## Steps that share safely -/

def IsVariable (ir : FsmIr) (l : Location) : Prop := l.domain = .register ∧ l.name ∈ ir.knownVars

/-- Every variable that may be read after a write of another one, `A` being live at the end, conflicts
with it. -/
def SafeWrites (ir : FsmIr) (A : Set Location) (acts : List Activity) : Prop :=
  ∀ before a after, acts = before ++ a :: after → ∀ l l', a.MayWrite l → l' ∈ liveBefore A after →
    IsVariable ir l → IsVariable ir l' → l.name ≠ l'.name → Conflict ir l.name l'.name

/-- A step that writes no variable while one that does not conflict with it may be read later. -/
def SafeStep (ir : FsmIr) (t : TransitionEdge) : Prop :=
  SafeWrites ir { l | LiveIn ir (nextIdOf ir t) l } (block ir t)

/-- A start that does the same, and where a variable whose first value may be read conflicts with every
variable that has another first value. -/
structure SafeStart (ir : FsmIr) : Prop where
  entry : SafeWrites ir { l | LiveIn ir (startId ir) l } (entry ir (startId ir))
  initial : ∀ l ∈ liveBefore { l | LiveIn ir (startId ir) l } (Runtime.entry ir (startId ir)),
    IsVariable ir l → ∀ v ∈ ir.knownVars, v ≠ l.name →
      Conflict ir v l.name ∨ initialValueOf ir v = initialValueOf ir l.name

theorem SafeWrites.append {ir : FsmIr} {p q : List Activity}
    (hp : SafeWrites ir (liveBefore A q) p) (hq : SafeWrites ir A q) : SafeWrites ir A (p ++ q) := by
  intro before a after hsplit
  rcases List.append_eq_append_iff.mp hsplit with ⟨mid, hbefore, hmid⟩ | ⟨mid, hmid, hafter⟩
  · exact hq mid a after hmid
  · cases mid with
    | nil =>
      rw [List.nil_append] at hafter
      exact hq [] a after hafter.symm
    | cons b mid =>
      obtain ⟨rfl, rfl⟩ := List.cons.inj hafter
      intro l l' hl hl'
      have hmem : l' ∈ liveBefore (liveBefore A q) mid := by
        rw [← liveBefore_append]
        exact hl'
      exact hp before a mid hmid l l' hl hmem

theorem SafeWrites.mono {ir : FsmIr} {A B : Set Location} {p : List Activity}
    (h : SafeWrites ir B p) (hsub : A ⊆ B) : SafeWrites ir A p := by
  intro before a after hsplit l l' hl hl'
  exact h before a after hsplit l l' hl (liveBefore_mono hsub after hl')

theorem safeWrites_checks (ir : FsmIr) (A : Set Location) (last : String) : SafeWrites ir A (checks ir last) := by
  intro before a after hsplit l l' hl
  have ha : a ∈ checks ir last := by
    rw [hsplit]
    simp
  obtain ⟨text, -, rfl⟩ := List.mem_map.mp ha
  exact absurd hl id

theorem safeWrites_along {ir : FsmIr} {s last : String}
    (hpath : Path ir s path last) (h : ∀ t ∈ path, SafeStep ir t) :
    SafeWrites ir ∅ (along ir path last) := by
  induction hpath with
  | nil s => exact safeWrites_checks ir ∅ s
  | @cons t path last _ hnext ih =>
    have hrest : SafeWrites ir ∅ (along ir path last) :=
      ih fun u hu => h u (List.mem_cons_of_mem _ hu)
    have hblock : SafeWrites ir (liveBefore ∅ (along ir path last)) (block ir t) :=
      (h t List.mem_cons_self).mono fun l hl => ⟨path, last, hnext, hl⟩
    have happend := hblock.append hrest
    unfold along at happend ⊢
    rw [List.flatMap_cons, List.append_assoc]
    exact happend

theorem safeWrites_fromStart {ir : FsmIr} {last : String}
    (hpath : Path ir (startId ir) path last) (hstart : SafeStart ir)
    (h : ∀ t ∈ path, SafeStep ir t) : SafeWrites ir ∅ (fromStart ir path last) :=
  (hstart.entry.mono fun _ hl => ⟨path, last, hpath, hl⟩).append (safeWrites_along hpath h)

section Shared

variable {sorting : SortOrder} {fuel : ℕ} {ir ir' : FsmIr} (hrun : run sorting fuel ir = some ir')
include hrun

variable {shared : List String}

theorem not_conflict_of_cellOf_eq {l l' : Location}
    (h : cellOf ir' shared l = cellOf ir' shared l') (hne : l ≠ l') :
    IsVariable ir l ∧ IsVariable ir l' ∧ l.name ≠ l'.name ∧ ¬ Conflict ir l.name l'.name := by
  obtain ⟨hd, hd', hpath, i, hi, hi'⟩ := of_cellOf_eq h hne
  have hknown := mem_knownVars_of_registerIndexOf hi
  have hknown' := mem_knownVars_of_registerIndexOf hi'
  rw [knownVars_run hrun] at hknown hknown'
  have hname : l.name ≠ l'.name := by
    intro hname
    apply hne
    cases l
    cases l'
    simp_all
  refine ⟨⟨hd, hknown⟩, ⟨hd', hknown'⟩, hname, ?_⟩
  intro hconflict
  exact registerIndexOf_ne hrun hname hconflict hi hi' rfl

theorem conflictFree_of_safeWrites {S : Type} (d : Datapath ir S) (shared : List String)
    {acts : List Activity} (h : SafeWrites ir ∅ acts) :
    ConflictFree (cellOf ir' shared) (acts.map d.activityStep) := by
  intro before s after hsplit l l' htouches hlive hcell
  obtain ⟨before, rest, rfl, rfl, hrest⟩ := List.map_eq_append_iff.mp hsplit
  obtain ⟨a, after, rfl, rfl, rfl⟩ := List.map_eq_cons_iff.mp hrest
  by_contra hne
  obtain ⟨hvar, hvar', hname, hnot⟩ := not_conflict_of_cellOf_eq hrun hcell hne
  have hlive' : l' ∈ liveBefore ∅ after :=
    d.mem_liveBefore_of_live (by rw [hvar'.1]; simp) hlive
  exact hnot (h before a after rfl l l' (d.mayWrite_of_touches htouches) hlive' hvar hvar' hname)

theorem holds_initial {S : Type} (d : Datapath ir S) {init : String → Value S}
    {σ : Store S} {τ : Cell → S} (hstart : SafeStart ir)
    (hσ : Initialised ir init σ) (hτ : SharedInitialised ir' shared σ τ) {last : String}
    {path : List TransitionEdge} (hpath : Path ir (startId ir) path last) :
    Holds (cellOf ir' shared) (live ((fromStart ir path last).map d.activityStep)) τ σ := by
  intro l hl
  by_cases hreg : l.domain = .register ∧ l.name ∈ shared
  · cases hi : registerIndexOf ir' l.name with
    | none =>
      have hcell : cellOf ir' shared l = .own l := by simp [cellOf, hreg, hi]
      rw [hcell]
      exact hτ.own l
    | some i =>
      have hcell : cellOf ir' shared l = .register i l.path := by simp [cellOf, hreg, hi]
      obtain ⟨v, -, hv, hτv⟩ := hτ.register l.name hreg.2 i hi
      rw [hcell, hτv]
      have hl' : l = ⟨.register, l.name, l.path⟩ := by
        cases l
        simp_all
      by_cases hname : v = l.name
      · rw [hname, ← hl']
      · have hknown := mem_knownVars_of_registerIndexOf hi
        have hknownv := mem_knownVars_of_registerIndexOf hv
        rw [knownVars_run hrun] at hknown hknownv
        have hlive : l ∈ liveBefore ∅ (fromStart ir path last) :=
          d.mem_liveBefore_of_live (by rw [hreg.1]; simp) hl
        unfold fromStart at hlive
        rw [liveBefore_append] at hlive
        have hlive' := liveBefore_mono (fun l' hl' => (⟨path, last, hpath, hl'⟩ :
          LiveIn ir (startId ir) l')) _ hlive
        rcases hstart.initial l hlive' ⟨hreg.1, hknown⟩ v hknownv hname with hconflict | hinit
        · exact absurd rfl (registerIndexOf_ne hrun hname hconflict hv hi)
        · obtain ⟨u, hu, huname⟩ := List.mem_map.mp hknown
          have hsome : (ir.vars.find? fun v => v.name = l.name).isSome = true := by
            rw [List.find?_isSome]
            exact ⟨u, hu, by simpa using huname⟩
          obtain ⟨u, hu⟩ := Option.isSome_iff_exists.mp hsome
          have htext : initialValueOf ir l.name = some u.initialValue := by
            unfold initialValueOf
            rw [hu]
            rfl
          rw [hσ v _ (hinit.trans htext), ← hσ l.name _ htext, ← hl']
  · have hcell : cellOf ir' shared l = .own l := by
      unfold cellOf
      rw [if_neg hreg]
    rw [hcell]
    exact hτ.own l

end Shared

/-- The pass ends, and on the path the machine with shared registers reads and emits what the machine
with separate ones does. -/
def SharesRegisters (sorting : SortOrder) (ir : FsmIr) (path : List TransitionEdge) (last : String) :
    Prop :=
  (∃ fuel, (run sorting fuel ir).isSome = true) ∧
    ∀ fuel ir', run sorting fuel ir = some ir' → ReadsSame ir ir' path last

theorem safeWrites_check {ir : FsmIr} {text : String} {acts : List Activity}
    (h : SafeWrites ir A acts) : SafeWrites ir A (.check text :: acts) := by
  intro before a after hsplit l l' hl
  cases before with
  | nil =>
    obtain ⟨rfl, rfl⟩ := List.cons.inj hsplit
    exact absurd hl id
  | cons b before => exact h before a after (List.cons.inj hsplit).2 l l' hl

theorem safeWrites_store {ir : FsmIr} {op : StoreOp}
    (h : ∀ l ∈ A, l.domain = .register → l.name = op.target.name) :
    SafeWrites ir A [.perform (.store op)] := by
  intro before a after hsplit l l' hl hl' _ hvar' hne
  cases before with
  | nil =>
    obtain ⟨rfl, rfl⟩ := List.cons.inj hsplit
    exact absurd (hl.2.1.trans (h l' hl' hvar'.1).symm) hne
  | cons b before => simp at hsplit

/-- Two phases: `v1` is set in the first and checked in the second, which sets `v2`. -/
def phases : FsmIr :=
  { initialState := "s1"
    initialStateId := "s1"
    states := [{ id := "s1", name := "s1" }, { id := "s2", name := "s2" }, { id := "s3", name := "s3" }]
    vars := [{ name := "v1" }, { name := "v2" }]
    transitions :=
      [{ sourceId := "s1", targetId := "s2", event := "STEP1"
         transitionAction := some { instructions := [.store ⟨{ name := "v1" }, .assign, "10"⟩] } },
        { sourceId := "s2", targetId := "s3", event := "STEP2"
          guardAst := some { expression := "v1 == 10" }
          transitionAction := some { instructions := [.store ⟨{ name := "v2" }, .assign, "99"⟩] } },
        { sourceId := "s3", targetId := "s3", event := "CHECK"
          guardAst := some { expression := "v2 == 99" } }] }

/-- The variables that are live in each state. -/
def phases_live (s : String) : Set Location :=
  { l | l.domain = .register → (s = "s2" ∧ l.name = "v1") ∨ (s = "s3" ∧ l.name = "v2") }

theorem phases_texts : extractIdentifiers "" = [] ∧ extractIdentifiers "10" = [] ∧
    extractIdentifiers "99" = [] ∧ extractIdentifiers "v1 == 10" = ["v1"] ∧
      extractIdentifiers "v2 == 99" = ["v2"] := by decide

theorem phases_checks {s : String} {l : Location} (ht : t ∈ phases.transitions)
    (hs : sourceIdOf phases t = s) {text : String} (htext : text ∈ checkedTexts phases t)
    (hname : l.name ∈ extractIdentifiers text) : l ∈ phases_live s := by
  obtain ⟨hempty, -, -, hv1, hv2⟩ := phases_texts
  simp only [phases, List.mem_cons, List.not_mem_nil, or_false] at ht
  rcases ht with rfl | rfl | rfl
  · obtain rfl : text = "" := List.mem_singleton.mp htext
    simp [hempty] at hname
  · obtain rfl : text = "v1 == 10" := List.mem_singleton.mp htext
    rw [hv1] at hname
    exact fun _ => Or.inl ⟨hs.symm, List.mem_singleton.mp hname⟩
  · obtain rfl : text = "v2 == 99" := List.mem_singleton.mp htext
    rw [hv2] at hname
    exact fun _ => Or.inr ⟨hs.symm, List.mem_singleton.mp hname⟩

theorem phases_liveIn {s : String} {l : Location} (h : LiveIn phases s l) : l ∈ phases_live s := by
  obtain ⟨-, h10, h99, -, -⟩ := phases_texts
  apply LiveIn.mem_of_closed _ _ h
  · intro s l hl
    rcases mem_liveBefore_checks hl with
      ⟨state, hstate, pred, hpred, -⟩ | ⟨t, ht, hs, text, htext, hname⟩
    · simp only [phases, List.mem_cons, List.not_mem_nil, or_false] at hstate
      rcases hstate with rfl | rfl | rfl <;> simp at hpred
    · exact phases_checks ht hs htext hname
  · intro t ht l hl
    have hchecked := phases_checks (l := l) ht rfl List.mem_cons_self
    simp only [phases, List.mem_cons, List.not_mem_nil, or_false] at ht
    rcases ht with rfl | rfl | rfl
    · rcases hl with hread | ⟨-, hread | ⟨hover, hlive⟩⟩
      · exact hchecked hread
      · simp [Activity.reads, readsOf, h10] at hread
      · intro hreg
        rcases hlive hreg with ⟨-, hname⟩ | ⟨hs, -⟩
        · exact absurd ⟨hreg, hname, List.nil_prefix⟩ hover
        · exact absurd hs (by decide)
    · rcases hl with hread | ⟨-, hread | ⟨hover, hlive⟩⟩
      · exact hchecked hread
      · simp [Activity.reads, readsOf, h99] at hread
      · intro hreg
        rcases hlive hreg with ⟨hs, -⟩ | ⟨-, hname⟩
        · exact absurd hs (by decide)
        · exact absurd ⟨hreg, hname, List.nil_prefix⟩ hover
    · rcases hl with hread | ⟨-, hlive⟩
      · exact hchecked hread
      · exact hlive

/-- A limit that is read in `Busy`, and a log that is written on the way there and never read. -/
def logged : FsmIr :=
  { initialState := "Idle"
    initialStateId := "Idle"
    states := [{ id := "Idle", name := "Idle" }, { id := "Busy", name := "Busy" }]
    vars := [{ name := "limit", initialValue := "1" }, { name := "log" }]
    transitions :=
      [{ sourceId := "Idle", targetId := "Busy", event := "start"
         transitionAction := some
           { name := "log", assignments := [⟨{ name := "log" }, .assign, "5"⟩] } },
        { sourceId := "Busy", targetId := "Idle", event := "stop"
          guardAst := some { expression := "limit" } }] }

theorem logged_targets : ∀ act ∈ actionsOf logged, ∀ op, .store op ∈ nodesOf act →
    accessors op.target = [] ∧ op.target.fullPath = op.target.name ∧
      bareDomain logged op.target.name = .register := by
  intro act hact op hop
  obtain rfl := List.mem_singleton.mp hact
  have hop' : op = ⟨{ name := "log" }, .assign, "5"⟩ := by
    simpa [nodesOf, toStore] using hop
  subst hop'
  decide

/-- The first values: the limit is 1 and the log 0. -/
def logged_store : Store ℕ := fun l => if l.domain = .register ∧ l.name = "limit" then 1 else 0

/-- The register holds the limit. -/
def logged_cells : Cell → ℕ
  | .own l => logged_store l
  | .register _ _ => 1

/-- The log is written to the register. -/
def logged_written : Cell → ℕ
  | .own l => logged_store l
  | .register 0 _ => 5
  | .register _ _ => 1

theorem logged_exec {ir' : FsmIr} (hlog : registerIndexOf ir' "log" = some 0) : Exec (cellOf ir' ["limit", "log"])
      ((Datapath.numbers logged logged_targets).step (.store ⟨{ name := "log" }, .assign, "5"⟩))
      logged_cells logged_written := by
  intro c
  have hlogged : ∀ l : Location, l.Inside (locationOf { name := "log" }) →
      cellOf ir' ["limit", "log"] l = .register 0 l.path := by
    rintro l ⟨hdomain, hname, -⟩
    have hdomain' : l.domain = .register := hdomain
    have hname' : l.name = "log" := hname
    simp [cellOf, hdomain', hname', hlog]
  by_cases hc : ∃ path, c = .register 0 path
  · obtain ⟨path, rfl⟩ := hc
    have hinside : Location.Inside ⟨.register, "log", path⟩ (locationOf { name := "log" }) :=
      ⟨rfl, rfl, List.nil_prefix⟩
    refine Or.inl ⟨⟨.register, "log", path⟩, 5, hlogged _ hinside, ?_, rfl⟩
    rw [Datapath.write_store, place, if_pos hinside]
    rfl
  · refine Or.inr ⟨?_, ?_⟩
    · intro l hl
      rw [Datapath.write_store]
      apply if_neg
      intro hinside
      exact hc ⟨l.path, hl.symm.trans (hlogged l hinside)⟩
    · cases c with
      | own l => rfl
      | register i path =>
        cases i with
        | zero => exact absurd ⟨path, rfl⟩ hc
        | succ i => rfl

end Fsmc.Passes.RegisterLiveness
