/-
# Fsmc.Passes.ZeroTimeCycles — two detectors of cycles that take no time.

One of them counts the transitions without an event and those of choice nodes, whatever their trigger, between
names. The other counts those whose trigger takes no time, between ids, from the states on. Each reports a cycle
exactly if what it counts has one; the two can differ wherever they count different transitions.
-/
import Fsmc.Ir.WellFormed
import Fsmc.Lib.CycleSearch
import Fsmc.Passes.TriggerConsistency

namespace Fsmc.Passes

open Fsmc.Ir Fsmc.Lib Fsmc.Lib.CycleSearch Relation

/-! ## Micro steps -/

namespace WcetAnalysis

def isMicrostepTransition (ir : FsmIr) (t : TransitionEdge) : Bool :=
  t.event = "" || t.event = "completion_event" || t.event = "anonymous_event" || ir.isChoiceNode t.source

/-- The transitions that become edges between different nodes. -/
def links (ir : FsmIr) : List TransitionEdge :=
  ir.transitions.filter fun t => isMicrostepTransition ir t && t.target ≠ "" && t.source ≠ t.target

def adj (ir : FsmIr) (node : String) : List String :=
  ((links ir).filter fun t => t.source = node).map (·.target)

/-- The keys of `adj`. -/
def nodes (ir : FsmIr) : List String :=
  ir.states.map (·.name) ++ ir.choiceNodes ++ (links ir).map (·.source)

def selfLoop (ir : FsmIr) : Bool :=
  ir.transitions.any fun t => isMicrostepTransition ir t && t.source = t.target && t.source ≠ ""

/-- `has_zeno_cycle_` after `run`. The search visits the keys in some order, which does not matter. -/
def hasZenoCycle (ir : FsmIr) : Bool :=
  selfLoop ir || findsCycle false (adj ir) (nodes ir ++ (links ir).map (·.target)).length (nodes ir)

/-- A micro step between two nodes. -/
def MicroEdge (ir : FsmIr) (a b : String) : Prop :=
  ∃ t ∈ ir.transitions, isMicrostepTransition ir t = true ∧ t.source = a ∧ t.target = b ∧ b ≠ ""

/-- Micro steps form a cycle. -/
def MicroCycle (ir : FsmIr) : Prop := ∃ node, TransGen (MicroEdge ir) node node

variable {ir : FsmIr}

theorem mem_adj {a b : String} : SuccStep (adj ir) a b ↔ MicroEdge ir a b ∧ a ≠ b := by
  unfold SuccStep adj links MicroEdge
  rw [List.mem_map]
  constructor
  · rintro ⟨t, ht, rfl⟩
    obtain ⟨hlink, hsource⟩ := List.mem_filter.mp ht
    obtain ⟨hmem, htest⟩ := List.mem_filter.mp hlink
    simp only [Bool.and_eq_true, decide_eq_true_eq, ne_eq] at htest hsource
    exact ⟨⟨t, hmem, htest.1.1, hsource, rfl, htest.1.2⟩, hsource ▸ htest.2⟩
  · rintro ⟨⟨t, hmem, hmicro, rfl, rfl, htarget⟩, hne⟩
    refine ⟨t, List.mem_filter.mpr ⟨List.mem_filter.mpr ⟨hmem, ?_⟩, by simp⟩, rfl⟩
    simp [hmicro, htarget, hne]

theorem selfLoop_iff : selfLoop ir = true ↔ ∃ node, MicroEdge ir node node := by
  unfold selfLoop MicroEdge
  rw [List.any_eq_true]
  constructor
  · rintro ⟨t, hmem, htest⟩
    simp only [Bool.and_eq_true, decide_eq_true_eq, ne_eq] at htest
    exact ⟨t.source, t, hmem, htest.1.1, rfl, htest.1.2.symm, htest.2⟩
  · rintro ⟨_, t, hmem, hmicro, rfl, htarget, hne⟩
    exact ⟨t, hmem, by simp [hmicro, htarget, hne]⟩

theorem hasZenoCycle_iff : hasZenoCycle ir = true ↔ MicroCycle ir := by
  have hclosed : ∀ x ∈ nodes ir ++ (links ir).map (·.target), ∀ y, SuccStep (adj ir) x y →
      y ∈ nodes ir ++ (links ir).map (·.target) := by
    intro x _ y hxy
    obtain ⟨t, ht, rfl⟩ := List.mem_map.mp hxy
    exact List.mem_append_right _ (List.mem_map_of_mem (List.mem_filter.mp ht).1)
  have hsearch : findsCycle false (adj ir) (nodes ir ++ (links ir).map (·.target)).length (nodes ir) = true ↔
      ∃ r ∈ nodes ir, ReachesCycle (adj ir) r :=
    findsCycle_iff hclosed le_rfl fun r hr => List.mem_append_left _ hr
  unfold hasZenoCycle
  rw [Bool.or_eq_true, selfLoop_iff, hsearch]
  constructor
  · rintro (⟨node, hedge⟩ | ⟨_, _, node, -, hcycle⟩)
    · exact ⟨node, TransGen.single hedge⟩
    · exact ⟨node, hcycle.lift id fun _ _ hab => (mem_adj.mp hab).1⟩
  · rintro ⟨node, hcycle⟩
    by_cases hself : ∃ node, MicroEdge ir node node
    · exact Or.inl hself
    · -- Without a self-loop, every micro step is an edge of the search.
      have hcycle' : TransGen (SuccStep (adj ir)) node node := by
        refine hcycle.lift id fun a b hab => mem_adj.mpr ⟨hab, ?_⟩
        rintro rfl
        exact hself ⟨a, hab⟩
      obtain ⟨next, hfirst, -⟩ := TransGen.head'_iff.mp hcycle'
      obtain ⟨t, ht, -⟩ := List.mem_map.mp hfirst
      obtain ⟨hlink, hsource⟩ := List.mem_filter.mp ht
      have hnode : node ∈ nodes ir := by
        refine List.mem_append_right _ (List.mem_map.mpr ⟨t, hlink, ?_⟩)
        simpa using hsource
      exact Or.inr ⟨node, hnode, node, ReflTransGen.refl, hcycle'⟩

end WcetAnalysis

/-! ## Zero-time transitions -/

namespace LivelockAnalysis

def resolveStateId (ir : FsmIr) (idOrName : String) : String :=
  match ir.findStateById idOrName with
  | some s => s.id
  | none =>
    match ir.findState idOrName with
    | some s => s.id
    | none => idOrName

/-- The ids of the source and the target of a transition. -/
def ends (ir : FsmIr) (t : TransitionEdge) : String × String :=
  (resolveStateId ir (if t.sourceId = "" then t.source else t.sourceId),
    resolveStateId ir (if t.targetId = "" then t.target else t.targetId))

/-- The edges that are added to `zero_adj`. -/
def zeroEdges (ir : FsmIr) : List (String × String) :=
  ((ir.transitions.filter fun t => isZeroTimeTransition t.event t.trigger).map (ends ir)).filter fun e =>
    e.1 ≠ "" && e.2 ≠ ""

def zeroAdj (ir : FsmIr) (node : String) : List String :=
  ((zeroEdges ir).filter fun e => e.1 = node).map (·.2)

/-- Whether `run` reports a livelock. The search stops at the first cycle below a state. -/
def reportsLivelock (ir : FsmIr) : Bool :=
  findsCycle true (zeroAdj ir) (ir.states.map (·.id) ++ (zeroEdges ir).map (·.2)).length (ir.states.map (·.id))

/-- A zero-time transition between two ids. -/
def ZeroEdge (ir : FsmIr) (a b : String) : Prop :=
  ∃ t ∈ ir.transitions, isZeroTimeTransition t.event t.trigger = true ∧ ends ir t = (a, b) ∧ a ≠ "" ∧ b ≠ ""

/-- Zero-time transitions form a cycle that a state reaches by them. -/
def ZeroCycle (ir : FsmIr) : Prop :=
  ∃ s ∈ ir.states, ∃ node, ReflTransGen (ZeroEdge ir) s.id node ∧ TransGen (ZeroEdge ir) node node

variable {ir : FsmIr}

theorem succStep_zeroAdj : SuccStep (zeroAdj ir) = ZeroEdge ir := by
  funext a b
  unfold SuccStep zeroAdj zeroEdges ZeroEdge
  rw [List.mem_map]
  refine propext ⟨?_, ?_⟩
  · rintro ⟨e, he, rfl⟩
    obtain ⟨hedge, hsource⟩ := List.mem_filter.mp he
    obtain ⟨hmap, hne⟩ := List.mem_filter.mp hedge
    obtain ⟨t, ht, rfl⟩ := List.mem_map.mp hmap
    obtain ⟨hmem, hzero⟩ := List.mem_filter.mp ht
    simp only [Bool.and_eq_true, decide_eq_true_eq, ne_eq] at hne hsource
    exact ⟨t, hmem, hzero, Prod.ext hsource rfl, hsource ▸ hne.1, hne.2⟩
  · rintro ⟨t, hmem, hzero, hends, ha, hb⟩
    refine ⟨(a, b), List.mem_filter.mpr ⟨List.mem_filter.mpr ⟨?_, by simp [ha, hb]⟩, by simp⟩, rfl⟩
    exact List.mem_map.mpr ⟨t, List.mem_filter.mpr ⟨hmem, hzero⟩, hends⟩

/-- A livelock is reported if and only if a state reaches a cycle of zero-time transitions by them. -/
theorem reportsLivelock_iff : reportsLivelock ir = true ↔ ZeroCycle ir := by
  have hclosed : ∀ x ∈ ir.states.map (·.id) ++ (zeroEdges ir).map (·.2), ∀ y, SuccStep (zeroAdj ir) x y →
      y ∈ ir.states.map (·.id) ++ (zeroEdges ir).map (·.2) := by
    intro x _ y hxy
    obtain ⟨e, he, rfl⟩ := List.mem_map.mp hxy
    exact List.mem_append_right _ (List.mem_map_of_mem (List.mem_filter.mp he).1)
  have hsearch : reportsLivelock ir = true ↔ ∃ r ∈ ir.states.map (·.id), ReachesCycle (zeroAdj ir) r :=
    findsCycle_iff hclosed le_rfl fun r hr => List.mem_append_left _ hr
  rw [hsearch]
  unfold ReachesCycle Reach ZeroCycle
  rw [succStep_zeroAdj]
  constructor
  · rintro ⟨r, hr, hcycle⟩
    obtain ⟨s, hs, rfl⟩ := List.mem_map.mp hr
    exact ⟨s, hs, hcycle⟩
  · rintro ⟨s, hs, hcycle⟩
    exact ⟨s.id, List.mem_map_of_mem hs, hcycle⟩

end LivelockAnalysis

/-! ## Agreement -/

/-- The two detectors report the same for every well-formed machine with unique ids and names. -/
def DetectorsAgree : Prop :=
  ∀ (concurrency : ConcurrencySemantics) (ir : FsmIr), isWellFormed concurrency ir = true →
    (ir.states.map (·.id)).Nodup → (ir.states.map (·.name)).Nodup →
      WcetAnalysis.hasZenoCycle ir = LivelockAnalysis.reportsLivelock ir

/-- A state that is left for itself every hundred milliseconds. -/
def heartbeat : FsmIr where
  initialState := "Beating"
  states := [{ id := "1", name := "Beating" }]
  transitions := [{ source := "Beating", target := "Beating", trigger := .time 100 true }]

end Fsmc.Passes
