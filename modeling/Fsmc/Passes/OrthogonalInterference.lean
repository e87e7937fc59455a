/-
# Fsmc.Passes.OrthogonalInterference — the race check of orthogonal regions.

For two regions of one state the pass collects the plain assignments of the transitions that leave a
listed state and reports each target that both collect. What a region can write is more than that: the
hooks of its states run with its transitions, instructions write as assignments do, a state may be nested
in a member, and a member need not be listed.
-/
import Fsmc.Ir.WellFormed
import Fsmc.Passes.OrthogonalProduct
import Fsmc.Runtime.HookTrace

namespace Fsmc.Passes.OrthogonalInterference

open Fsmc.Ir Fsmc.Runtime Fsmc.Passes.OrthogonalProduct

/-! ## The pass -/

def edgeActions (t : TransitionEdge) : List ActionSignature :=
  t.conditionAction.toList ++ t.transitionAction.toList

/-- `writes_a`, `writes_b`: what the transitions assign that leave a listed state of a region. -/
def collectWrites (ir : FsmIr) (reg : OrthogonalRegion) : List (TransitionEdge × String) :=
  (ir.transitions.filter fun t => t.source ∈ reg.stateIds).flatMap fun t =>
    (edgeActions t).flatMap fun a => a.assignments.map fun assign => (t, assign.target.name)

/-- Why two writes are reported. -/
inductive InterferenceKind where
  | partitionedDatapath | priorityOrdered | documentOrder | dataRace
  deriving DecidableEq, Repr

/-- The severities of diagnostics that the pass uses. -/
inductive Severity where
  | info | warning | safetyCritical
  deriving DecidableEq, Repr

/-- A diagnostic of the pass, with all that its text mentions. -/
structure Interference where
  kind : InterferenceKind
  state : String
  regionA : OrthogonalRegion
  regionB : OrthogonalRegion
  transitionA : TransitionEdge
  transitionB : TransitionEdge
  target : String

/-- The severity of a diagnostic. -/
def InterferenceKind.severity : InterferenceKind → Severity
  | .partitionedDatapath => .safetyCritical
  | .priorityOrdered => .warning
  | .documentOrder => .info
  | .dataRace => .safetyCritical

def InterferenceKind.code : InterferenceKind → String
  | .partitionedDatapath => "E_PARTITIONED_DATAPATH_VIOLATION"
  | .priorityOrdered => "W_PRIORITY_ORDERED_INTERFERENCE"
  | .documentOrder => "I_DOCUMENT_ORDER_SERIALIZED"
  | .dataRace => "W_CONCURRENT_DATA_RACE"

/-- The text of a diagnostic. -/
def Interference.message (d : Interference) : String :=
  match d.kind with
  | .partitionedDatapath =>
    "Architectural isolation violation in PartitionedDatapath model: Parallel regions '" ++
      d.regionA.name ++ "' and '" ++ d.regionB.name ++ "' both mutate context variable '" ++ d.target ++
      "'. Partitioned datapath requires disjoint variables or signal exchange."
  | .priorityOrdered =>
    "Sequential write interference in PriorityOrdered parallel state '" ++ d.state ++ "': Region '" ++
      d.regionA.name ++ "' (prio=" ++ toString d.regionA.priority.toNat ++ ") and Region '" ++
      d.regionB.name ++ "' (prio=" ++ toString d.regionB.priority.toNat ++
      ") access shared variable '" ++ d.target ++ "'. Serialized by priority."
  | .documentOrder =>
    "Sequential write in DocumentOrder parallel state '" ++ d.state ++ "': Region '" ++
      d.regionA.name ++ "' and Region '" ++ d.regionB.name ++ "' access shared variable '" ++ d.target ++
      "'. Serialized by SCXML document order."
  | .dataRace =>
    "Data race / concurrent interference detected in parallel state '" ++ d.state ++ "': Region '" ++
      d.regionA.name ++ "' (transition " ++ d.transitionA.source ++ "->" ++ d.transitionA.target ++
      ") and Region '" ++ d.regionB.name ++ "' (transition " ++ d.transitionB.source ++ "->" ++
      d.transitionB.target ++ ") concurrently mutate shared variable '" ++ d.target ++ "'."

/-- Which diagnostic two regions get. -/
def kindOf (concurrency : ConcurrencySemantics) (regA regB : OrthogonalRegion) : InterferenceKind :=
  if concurrency.datapathIsolation = .partitionedDatapath then .partitionedDatapath
  else if concurrency.orthogonalConflict = .priorityOrdered ∧ regA.priority ≠ regB.priority then
    .priorityOrdered
  else if concurrency.orthogonalConflict = .documentOrder then .documentOrder
  else .dataRace

/-- The diagnostic for two writes of one target. -/
def interference (concurrency : ConcurrencySemantics) (state : StateNode) (regA regB : OrthogonalRegion)
    (wa wb : TransitionEdge × String) : Interference :=
  { kind := kindOf concurrency regA regB, state := state.name, regionA := regA, regionB := regB,
    transitionA := wa.1, transitionB := wb.1, target := wa.2 }

/-- The diagnostics for two regions of a state. -/
def interferences (concurrency : ConcurrencySemantics) (ir : FsmIr) (state : StateNode)
    (regA regB : OrthogonalRegion) : List Interference :=
  (collectWrites ir regA).flatMap fun wa =>
    ((collectWrites ir regB).filter fun wb => wa.2 = wb.2).map
      (interference concurrency state regA regB wa)

/-- The pairs of a list, in order. -/
def orderedPairs {α : Type*} : List α → List (α × α)
  | [] => []
  | a :: l => l.map (fun b => (a, b)) ++ orderedPairs l

/-- `run`: the diagnostics that the pass reports. -/
def run (concurrency : ConcurrencySemantics) (ir : FsmIr) : List Interference :=
  ir.states.flatMap fun state =>
    if state.kind ≠ .parallel ∧ state.orthogonalRegions.length < 2 then []
    else (orderedPairs state.orthogonalRegions).flatMap fun p => interferences concurrency ir state p.1 p.2

/-! ## What is reported -/

/-- A transition from a listed state of the region assigns the target. -/
def AssignedByListed (ir : FsmIr) (reg : OrthogonalRegion) (target : String) : Prop :=
  ∃ t ∈ ir.transitions, t.source ∈ reg.stateIds ∧
    ∃ a ∈ edgeActions t, ∃ assign ∈ a.assignments, assign.target.name = target

theorem exists_collected_iff {ir : FsmIr} {reg : OrthogonalRegion} {target : String} :
    (∃ w ∈ collectWrites ir reg, w.2 = target) ↔ AssignedByListed ir reg target := by
  unfold collectWrites AssignedByListed
  constructor
  · rintro ⟨w, hw, rfl⟩
    obtain ⟨t, ht, hw⟩ := List.mem_flatMap.mp hw
    obtain ⟨a, ha, hw⟩ := List.mem_flatMap.mp hw
    obtain ⟨assign, hassign, rfl⟩ := List.mem_map.mp hw
    obtain ⟨ht, hlisted⟩ := List.mem_filter.mp ht
    exact ⟨t, ht, by simpa using hlisted, a, ha, assign, hassign, rfl⟩
  · rintro ⟨t, ht, hlisted, a, ha, assign, hassign, rfl⟩
    refine ⟨(t, assign.target.name), ?_, rfl⟩
    refine List.mem_flatMap.mpr ⟨t, List.mem_filter.mpr ⟨ht, by simpa using hlisted⟩, ?_⟩
    exact List.mem_flatMap.mpr ⟨a, ha, List.mem_map.mpr ⟨assign, hassign, rfl⟩⟩

theorem mem_orderedPairs_iff {α : Type*} {l : List α} {a b : α} :
    (a, b) ∈ orderedPairs l ↔ ∃ i j : ℕ, i < j ∧ l[i]? = some a ∧ l[j]? = some b := by
  induction l with
  | nil => simp [orderedPairs]
  | cons c l ih =>
    rw [orderedPairs, List.mem_append, ih]
    constructor
    · rintro (h | ⟨i, j, hij, hi, hj⟩)
      · obtain ⟨b', hb', heq⟩ := List.mem_map.mp h
        cases heq
        obtain ⟨j, hj⟩ := List.mem_iff_getElem?.mp hb'
        exact ⟨0, j + 1, by omega, rfl, by simpa using hj⟩
      · exact ⟨i + 1, j + 1, by omega, by simpa using hi, by simpa using hj⟩
    · rintro ⟨i, j, hij, hi, hj⟩
      obtain ⟨j, rfl⟩ : ∃ k, j = k + 1 := ⟨j - 1, by omega⟩
      rw [List.getElem?_cons_succ] at hj
      cases i with
      | zero =>
        -- the first element is paired with all that follow it
        obtain rfl : c = a := by simpa using hi
        exact .inl (List.mem_map.mpr ⟨b, List.mem_iff_getElem?.mpr ⟨j, hj⟩, rfl⟩)
      | succ i => exact .inr ⟨i, j, by omega, by simpa using hi, hj⟩

/-- Two regions of one state, the first before the second. -/
structure RegionPair (ir : FsmIr) (regA regB : OrthogonalRegion) : Prop where
  ordered : ∃ state ∈ ir.states, ∃ i j : ℕ, i < j ∧ state.orthogonalRegions[i]? = some regA ∧
    state.orthogonalRegions[j]? = some regB

/-- The pass reports a target for two regions. -/
def Reports (concurrency : ConcurrencySemantics) (ir : FsmIr) (regA regB : OrthogonalRegion)
    (target : String) : Prop :=
  ∃ d ∈ run concurrency ir, d.regionA = regA ∧ d.regionB = regB ∧ d.target = target

theorem reports_iff {concurrency : ConcurrencySemantics} {ir : FsmIr} {regA regB : OrthogonalRegion}
    {target : String} (hpair : RegionPair ir regA regB) :
    Reports concurrency ir regA regB target ↔
      AssignedByListed ir regA target ∧ AssignedByListed ir regB target := by
  constructor
  · rintro ⟨d, hd, rfl, rfl, rfl⟩
    obtain ⟨state, -, hd⟩ := List.mem_flatMap.mp hd
    split at hd
    · cases hd
    · obtain ⟨p, -, hd⟩ := List.mem_flatMap.mp hd
      obtain ⟨wa, hwa, hd⟩ := List.mem_flatMap.mp hd
      obtain ⟨wb, hwb, rfl⟩ := List.mem_map.mp hd
      obtain ⟨hwb, hsame⟩ := List.mem_filter.mp hwb
      have hsame : wa.2 = wb.2 := by simpa using hsame
      exact ⟨exists_collected_iff.mp ⟨wa, hwa, rfl⟩, exists_collected_iff.mp ⟨wb, hwb, hsame.symm⟩⟩
  · rintro ⟨ha, hb⟩
    obtain ⟨state, hstate, i, j, hij, hi, hj⟩ := hpair.ordered
    obtain ⟨wa, hwa, rfl⟩ := exists_collected_iff.mpr ha
    obtain ⟨wb, hwb, hsame⟩ := exists_collected_iff.mpr hb
    have hpairs : (regA, regB) ∈ orderedPairs state.orthogonalRegions :=
      mem_orderedPairs_iff.mpr ⟨i, j, hij, hi, hj⟩
    have hregions : ¬(state.kind ≠ .parallel ∧ state.orthogonalRegions.length < 2) := by
      have hlast : j < state.orthogonalRegions.length := (List.getElem?_eq_some_iff.mp hj).1
      rintro ⟨-, hfew⟩
      omega
    have hreported : interference concurrency state regA regB wa wb ∈
        interferences concurrency ir state regA regB :=
      List.mem_flatMap.mpr ⟨wa, hwa, List.mem_map.mpr
        ⟨wb, List.mem_filter.mpr ⟨hwb, by simpa using hsame.symm⟩, rfl⟩⟩
    refine ⟨interference concurrency state regA regB wa wb,
      List.mem_flatMap.mpr ⟨state, hstate, ?_⟩, rfl, rfl, rfl⟩
    rw [if_neg hregions]
    exact List.mem_flatMap.mpr ⟨(regA, regB), hpairs, hreported⟩

/-! ## What a region can write -/

/-- What an instruction writes. -/
def instructionTarget : ActionAstNode → Option String
  | .store op => some op.target.name
  | .portWrite op => some op.portName
  | .portRead _ | .signalEmit _ | .actionCall _ => none

/-- The variables and ports that an action writes. -/
def writeTargets (a : ActionSignature) : List String :=
  a.assignments.map (·.target.name) ++ a.instructions.filterMap instructionTarget

/-- A state of the region, or nested in one. -/
def InRegion (ir : FsmIr) (reg : OrthogonalRegion) (s : String) : Prop :=
  ∃ m ∈ discoverStates ir reg, m ∈ chain ir s

/-- What makes the regions of a composite run actions in one step. -/
inductive Occasion where
  | entered
  | left
  | event (name : String)

/-- The actions that a region can run in a step. -/
inductive CanRun (ir : FsmIr) (reg : OrthogonalRegion) : Occasion → ActionSignature → Prop
  | start {c : StateNode} {ds : List String} {x : String} {a : ActionSignature} :
      c ∈ ir.states → (c.id = reg.initialStateId ∨ c.name = reg.initialStateId) →
        Defaults ir c.name ds → x ∈ c.name :: ds → InRegion ir reg x → a ∈ entryHooks ir x →
          CanRun ir reg .entered a
  | leave {x : String} {a : ActionSignature} :
      InRegion ir reg x → a ∈ exitHooks ir x → CanRun ir reg .left a
  | edge {s : String} {t : TransitionEdge} {ds : List String} {a : ActionSignature} :
      t ∈ ir.transitions → InRegion ir reg t.source → Fires ir s t ds → a ∈ edgeActions t →
        CanRun ir reg (.event t.getTriggerName) a
  | exit {s : String} {t : TransitionEdge} {ds : List String} {x : String} {a : ActionSignature} :
      t ∈ ir.transitions → InRegion ir reg t.source → Fires ir s t ds → t.kind ≠ .internal →
        x ∈ below ir s (lcaOf ir t) → InRegion ir reg x → a ∈ exitHooks ir x →
          CanRun ir reg (.event t.getTriggerName) a
  | entry {s : String} {t : TransitionEdge} {ds : List String} {x : String} {a : ActionSignature} :
      t ∈ ir.transitions → InRegion ir reg t.source → Fires ir s t ds → t.kind ≠ .internal →
        x ∈ below ir t.target (lcaOf ir t) ++ ds → InRegion ir reg x → a ∈ entryHooks ir x →
          CanRun ir reg (.event t.getTriggerName) a

/-- A region can write a target in a step. -/
def CanWrite (ir : FsmIr) (reg : OrthogonalRegion) (occasion : Occasion) (target : String) : Prop :=
  ∃ a, CanRun ir reg occasion a ∧ target ∈ writeTargets a

/-- Two regions can write a target within one step. -/
def Races (ir : FsmIr) (regA regB : OrthogonalRegion) (target : String) : Prop :=
  ∃ occasion, CanWrite ir regA occasion target ∧ CanWrite ir regB occasion target

/-- Every race between two regions of a state is reported. -/
def Complete (concurrency : ConcurrencySemantics) (ir : FsmIr) : Prop :=
  ∀ regA regB, RegionPair ir regA regB →
    ∀ target, Races ir regA regB target → Reports concurrency ir regA regB target

/-- The check is complete for the machines in which whatever two regions can write within one step is
also assigned, in both, by a transition from a listed state. -/
theorem complete_iff (concurrency : ConcurrencySemantics) (ir : FsmIr) : Complete concurrency ir ↔
      ∀ regA regB, RegionPair ir regA regB → ∀ target, Races ir regA regB target →
        AssignedByListed ir regA target ∧ AssignedByListed ir regB target := by
  constructor
  · intro h regA regB hpair target hrace
    exact (reports_iff hpair).mp (h regA regB hpair target hrace)
  · intro h regA regB hpair target hrace
    exact (reports_iff hpair).mpr (h regA regB hpair target hrace)

/-! ## A race that is not reported -/

/-- A transition that writes a port by an instruction. -/
def portLoop (s : String) : TransitionEdge :=
  { source := s, target := s, event := "e", trigger := .signal "e"
    transitionAction := some { name := "act", instructions := [.portWrite { portName := "out" }] } }

def singleRegion (s : String) : OrthogonalRegion :=
  { id := "r_" ++ s, name := "r_" ++ s, initialStateId := s, stateIds := [s] }

/-- Two regions that write one port on one event. -/
def portRace : FsmIr where
  initialState := "P"
  states := [
    { id := "P", name := "P", kind := .parallel, isComposite := true
      orthogonalRegions := [singleRegion "a", singleRegion "b"] },
    { id := "a", name := "a", parentState := "P" },
    { id := "b", name := "b", parentState := "P" }]
  transitions := [portLoop "a", portLoop "b"]
  ports := [{ name := "out", direction := .out }]

theorem portRace_canWrite {s : String} (hs : s = "a" ∨ s = "b") :
    CanWrite portRace (singleRegion s) (.event "e") "out" := by
  have hname : (portLoop s).getTriggerName = "e" := rfl
  have hchain : s ∈ chain portRace s := by
    obtain ⟨q, hq⟩ := chain_head portRace (s := s) (by rcases hs with rfl | rfl <;> decide)
    rw [hq]
    exact List.mem_cons_self
  have hin : InRegion portRace (singleRegion s) s :=
    ⟨s, by rcases hs with rfl | rfl <;> decide, hchain⟩
  have hfires : Fires portRace s (portLoop s) [] := by
    refine ⟨hchain, ?_, ?_, fun _ => .leaf ?_⟩
    all_goals rcases hs with rfl | rfl <;> decide
  refine ⟨{ name := "act", instructions := [.portWrite { portName := "out" }] }, ?_, by decide⟩
  rw [← hname]
  refine .edge ?_ hin hfires ?_
  · rcases hs with rfl | rfl <;> simp [portRace]
  · simp [edgeActions, portLoop]

theorem portRace_not_complete : ¬Complete {} portRace := by
  intro h
  have hpair : RegionPair portRace (singleRegion "a") (singleRegion "b") :=
    ⟨_, List.mem_cons_self, 0, 1, by omega, rfl, rfl⟩
  have hrace : Races portRace (singleRegion "a") (singleRegion "b") "out" :=
    ⟨.event "e", portRace_canWrite (.inl rfl), portRace_canWrite (.inr rfl)⟩
  obtain ⟨d, hd, -⟩ := h _ _ hpair _ hrace
  have hnone : run {} portRace = [] := rfl
  rw [hnone] at hd
  cases hd

end Fsmc.Passes.OrthogonalInterference
