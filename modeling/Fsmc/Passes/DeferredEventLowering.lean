/-
# Fsmc.Passes.DeferredEventLowering — replacing deferred events by a counter.

A state that defers an event gets an internal transition that counts it, and the transitions that leave
the state reset the counter. Which events were counted is not recorded and nothing delivers them again.
-/
import Fsmc.Ir.DeterministicId
import Fsmc.Lib.Deferral
import Fsmc.Runtime.Datapath
import Fsmc.Runtime.MacroStep

namespace Fsmc.Passes.DeferredEventLowering

open Fsmc.Ir Fsmc.Runtime Fsmc.Lib.Deferral

/-! ## The pass -/

def deferredCount : LValueTarget := { name := "__deferred_count" }

def incStore : ActionAstNode := .store { target := deferredCount, op := .addAssign, expression := "1" }

def rstStore : ActionAstNode := .store { target := deferredCount, expression := "0" }

def deferEdge (state event : String) : TransitionEdge where
  id := computeDeterministicId (state ++ "->" ++ state ++ ":" ++ event ++ "[]")
  source := state
  target := state
  sourceId := if state = "" then "" else computeDeterministicId state
  targetId := if state = "" then "" else computeDeterministicId state
  sourceIds := if state = "" then [] else [state]
  targetIds := if state = "" then [] else [state]
  event := event
  trigger := if event = "" then .anonymous else .signal event
  transitionAction :=
    some { ActionSignature.ofName ("__enqueue_deferred_" ++ event) with instructions := [incStore] }
  kind := .internal

/-- Buffer an event, unless the state has a transition on it. -/
def bufferEvent (state : String) (transitions : List TransitionEdge) (event : String) :
    List TransitionEdge :=
  if transitions.any fun t => t.source = state && t.event = event then transitions
  else transitions ++ [deferEdge state event]

/-- Drain the buffer on a transition that leaves the state. -/
def recallEdge (state : String) (t : TransitionEdge) : TransitionEdge :=
  if t.source = state && t.target ≠ state && t.kind ≠ .internal then
    match t.transitionAction with
    | none =>
      { t with
        transitionAction :=
          some { ActionSignature.ofName "__recall_deferred" with instructions := [rstStore] } }
    | some a => { t with transitionAction := some { a with instructions := a.instructions ++ [rstStore] } }
  else t

def lowerState (transitions : List TransitionEdge) (s : StateNode) : List TransitionEdge :=
  if s.deferredEvents = [] then transitions
  else (s.deferredEvents.foldl (bufferEvent s.name) transitions).map (recallEdge s.name)

/-- The registers with the buffer, if it is not declared. -/
def declareBuffer (vars : List VariableDefinition) : List VariableDefinition :=
  if vars.any fun v => v.name = "__deferred_count" then vars
  else vars ++ [{ name := "__deferred_count", initialValue := "0" },
    { name := "__deferred_buffer", initialValue := "\"\"" }]

/-- `DeferredEventLoweringPass::run`. -/
def run (ir : FsmIr) : FsmIr :=
  if ir.states.all fun s => s.deferredEvents.isEmpty then ir
  else
    { ir with
      vars := declareBuffer ir.vars
      transitions := ir.states.foldl lowerState ir.transitions
      states := ir.states.map fun s => { s with deferredEvents := [] } }

/-! ## Machines with deferred events -/

/-- What decides which transition is taken, and where it leads. -/
structure Row where
  source : String
  event : String
  guard : String
  priority : UInt32
  target : String
  kind : TransitionEdgeKind

def rowOf (t : TransitionEdge) : Row := ⟨t.source, t.event, t.getGuard, t.priority, t.target, t.kind⟩

def Row.ready (source event : String) (v : GuardValuation) (r : Row) : Bool :=
  r.source = source && r.event = event && guardPassed v (some r.guard)

/-- The position of the row that is taken: of best precedence, the first one among equals. -/
def chosenAt (rows : List Row) (source event : String) (v : GuardValuation) : Option (Row × Nat) :=
  (rows.zipIdx.filter fun p => p.1.ready source event v).argmin fun p => precedence p.1.priority

/-- A configuration: the active state, and the transitions taken so far, by their position, with the
states and events that they were taken in. -/
structure Config where
  state : String
  log : List (String × String × Nat)
  deriving DecidableEq

/-- Guards may depend on all that has been taken. -/
abbrev GuardLog := List (String × String × Nat) → GuardValuation

/-- Take a transition for an event. The first `n` transitions are those of the source machine, and only
these are logged. -/
def takeEvent (n : Nat) (ir : FsmIr) (v : GuardLog) (c : Config) (event : String) : Option Config :=
  (chosenAt (ir.transitions.map rowOf) c.state event (v c.log)).map fun p =>
    { state := if p.1.kind = .internal then c.state else p.1.target
      log := if p.2 < n then c.log ++ [(c.state, event, p.2)] else c.log }

/-- The events that a state defers. -/
def deferredIn (ir : FsmIr) (state : String) : List String :=
  ((ir.findState state).map (·.deferredEvents)).getD []

/-- The machine with its deferred events. -/
def machine (n : Nat) (ir : FsmIr) (v : GuardLog) : Machine Config String where
  take := takeEvent n ir v
  deferred c event := event ∈ deferredIn ir c.state

/-- What a transition executes, but for the counter. -/
def ownNodes (t : TransitionEdge) : List ActionAstNode :=
  ((t.conditionAction.toList ++ t.transitionAction.toList).flatMap nodesOf).filter fun node =>
    node ≠ rstStore

/-- Along the events, the lowered machine takes the transitions that the source machine takes, with the
same effects. -/
structure PreservesDeferral (ir : FsmIr) (v : GuardLog) (start : String) (events : List String) :
    Prop where
  runs : ∀ pre, pre <+: events →
    ((machine ir.transitions.length (run ir) v).run ⟨start, []⟩ pre).1 =
      ((machine ir.transitions.length ir v).run ⟨start, []⟩ pre).1
  effects : ∀ (i : Nat) t, ir.transitions[i]? = some t →
    ∃ t', (run ir).transitions[i]? = some t' ∧ rowOf t' = rowOf t ∧ ownNodes t' = ownNodes t

/-! ## The lowered transitions -/

/-- A transition that has only been given resets of the counter. -/
structure SameButCounter (t t' : TransitionEdge) : Prop where
  row : rowOf t' = rowOf t
  nodes : ownNodes t' = ownNodes t

/-- The transitions of the source machine, and buffering ones for events that it has no transition on. -/
structure Buffered (rows transitions : List TransitionEdge) : Prop where
  split : ∃ front extra, transitions = front ++ extra ∧ List.Forall₂ SameButCounter rows front ∧
    ∀ x ∈ extra, x.kind = .internal ∧ ∀ t ∈ rows, ¬ (t.source = x.source ∧ t.event = x.event)

variable {rows transitions : List TransitionEdge}

theorem sameButCounter_refl (t : TransitionEdge) : SameButCounter t t := ⟨rfl, rfl⟩

theorem Buffered.refl (rows : List TransitionEdge) : Buffered rows rows :=
  ⟨rows, [], by simp, List.forall₂_same.mpr fun t _ => sameButCounter_refl t, by simp⟩

theorem Buffered.bufferEvent (h : Buffered rows transitions) (state event : String) :
    Buffered rows (bufferEvent state transitions event) := by
  unfold DeferredEventLowering.bufferEvent
  split
  · exact h
  · rename_i hno
    obtain ⟨front, extra, rfl, hfront, hextra⟩ := h.split
    refine ⟨front, extra ++ [deferEdge state event], by simp, hfront, ?_⟩
    intro x hx
    rcases List.mem_append.mp hx with hx | hx
    · exact hextra x hx
    · obtain rfl := List.mem_singleton.mp hx
      refine ⟨rfl, ?_⟩
      intro t ht hends
      -- the transition would have been found in the table
      obtain ⟨i, hi, rfl⟩ := List.getElem_of_mem ht
      have hi' : i < front.length := hfront.length_eq ▸ hi
      have hrow := (hfront.get hi hi').row
      apply hno
      rw [List.any_eq_true]
      refine ⟨front[i], List.mem_append_left _ (List.getElem_mem hi'), ?_⟩
      have hsource : front[i].source = rows[i].source := congrArg Row.source hrow
      have hevent : front[i].event = rows[i].event := congrArg Row.event hrow
      simp only [hsource, hevent, Bool.and_eq_true, decide_eq_true_eq]
      exact hends

theorem rowOf_recallEdge (state : String) (t : TransitionEdge) : rowOf (recallEdge state t) = rowOf t := by
  unfold recallEdge
  split
  · split <;> rfl
  · rfl

theorem ownNodes_recallEdge (state : String) (t : TransitionEdge) : ownNodes (recallEdge state t) = ownNodes t := by
  unfold recallEdge
  split
  · split
    · rename_i haction
      simp [ownNodes, haction, nodesOf, ActionSignature.ofName]
    · rename_i a haction
      simp [ownNodes, haction, nodesOf]
  · rfl

theorem Buffered.recallEdges (h : Buffered rows transitions) (state : String) :
    Buffered rows (transitions.map (recallEdge state)) := by
  obtain ⟨front, extra, rfl, hfront, hextra⟩ := h.split
  refine ⟨front.map (recallEdge state), extra.map (recallEdge state), by simp, ?_, ?_⟩
  · rw [List.forall₂_map_right_iff]
    exact hfront.imp fun t t' hsame =>
      ⟨(rowOf_recallEdge state t').trans hsame.row, (ownNodes_recallEdge state t').trans hsame.nodes⟩
  · intro y hy
    obtain ⟨x, hx, rfl⟩ := List.mem_map.mp hy
    have hrow := rowOf_recallEdge state x
    have hkind : (recallEdge state x).kind = x.kind := congrArg Row.kind hrow
    have hsource : (recallEdge state x).source = x.source := congrArg Row.source hrow
    have hevent : (recallEdge state x).event = x.event := congrArg Row.event hrow
    rw [hkind, hsource, hevent]
    exact hextra x hx

theorem Buffered.lowerState (h : Buffered rows transitions) (s : StateNode) :
    Buffered rows (lowerState transitions s) := by
  have hbuffer : ∀ (events : List String) (ts : List TransitionEdge), Buffered rows ts →
      Buffered rows (events.foldl (DeferredEventLowering.bufferEvent s.name) ts) := by
    intro events
    induction events with
    | nil => exact fun ts hts => hts
    | cons e events ih => exact fun ts hts => ih _ (hts.bufferEvent s.name e)
  unfold DeferredEventLowering.lowerState
  split
  · exact h
  · exact (hbuffer s.deferredEvents transitions h).recallEdges s.name

theorem buffered_run (ir : FsmIr) : Buffered ir.transitions (run ir).transitions := by
  have hstates : ∀ (states : List StateNode) (ts : List TransitionEdge), Buffered ir.transitions ts →
      Buffered ir.transitions (states.foldl lowerState ts) := by
    intro states
    induction states with
    | nil => exact fun ts hts => hts
    | cons s states ih => exact fun ts hts => ih _ (hts.lowerState s)
  unfold run
  split
  · exact Buffered.refl _
  · exact hstates ir.states _ (Buffered.refl _)

theorem deferredIn_run (ir : FsmIr) (state : String) : deferredIn (run ir) state = [] := by
  have hall : ∀ s ∈ (run ir).states, s.deferredEvents = [] := by
    unfold run
    split
    · rename_i h
      intro s hs
      simpa using List.all_eq_true.mp h s hs
    · intro s hs
      obtain ⟨s', _, rfl⟩ := List.mem_map.mp hs
      rfl
  unfold deferredIn
  cases hfind : (run ir).findState state with
  | none => rfl
  | some s => exact hall s (FsmIr.findState_spec hfind).1

/-! ## Taking transitions -/

variable {ir : FsmIr} {v : GuardLog}

variable {source event : String}

variable {g : GuardValuation} {p : Row × Nat}

theorem chosenAt_append_of_ready {rows extra : List Row}
    (h : chosenAt rows source event g = some p)
    (hextra : ∀ x ∈ extra, x.ready source event g = false) :
    chosenAt (rows ++ extra) source event g = some p := by
  have hnone : ((extra.zipIdx rows.length).filter fun p => p.1.ready source event g) = [] := by
    rw [List.filter_eq_nil_iff]
    intro x hx
    simp [hextra x.1 (List.fst_mem_of_mem_zipIdx hx)]
  unfold chosenAt
  rw [List.zipIdx_append, List.filter_append, Nat.zero_add, hnone, List.append_nil]
  exact h

theorem chosenAt_append_of_none {rows extra : List Row}
    (h : chosenAt rows source event g = none)
    (hp : chosenAt (rows ++ extra) source event g = some p) : p.1 ∈ extra ∧ rows.length ≤ p.2 := by
  have hnone : (rows.zipIdx.filter fun p => p.1.ready source event g) = [] :=
    List.argmin_eq_none.mp h
  unfold chosenAt at hp
  rw [List.zipIdx_append, List.filter_append, Nat.zero_add, hnone, List.nil_append] at hp
  have hmem := (List.mem_filter.mp (List.argmin_mem hp)).1
  exact ⟨List.fst_mem_of_mem_zipIdx hmem, List.le_snd_of_mem_zipIdx hmem⟩

theorem ready_of_chosenAt {rows : List Row}
    (h : chosenAt rows source event g = some p) :
    p.1 ∈ rows ∧ p.2 < rows.length ∧ p.1.source = source ∧ p.1.event = event := by
  obtain ⟨hmem, hready⟩ := List.mem_filter.mp (List.argmin_mem h)
  unfold Row.ready at hready
  simp only [Bool.and_eq_true, decide_eq_true_eq] at hready
  have hlt := List.snd_lt_of_mem_zipIdx hmem
  exact ⟨List.fst_mem_of_mem_zipIdx hmem, by simpa using hlt, hready.1.1, hready.1.2⟩

theorem map_rowOf_run (ir : FsmIr) : ∃ extra : List TransitionEdge,
    (run ir).transitions.map rowOf = ir.transitions.map rowOf ++ extra.map rowOf ∧
      ∀ x ∈ extra, x.kind = .internal ∧
        ∀ t ∈ ir.transitions, ¬ (t.source = x.source ∧ t.event = x.event) := by
  obtain ⟨front, extra, hsplit, hfront, hextra⟩ := (buffered_run ir).split
  have hrows : front.map rowOf = ir.transitions.map rowOf := by
    rw [← List.forall₂_eq_eq_eq, List.forall₂_map_left_iff, List.forall₂_map_right_iff]
    exact hfront.flip.imp fun t t' hsame => hsame.row
  exact ⟨extra, by rw [hsplit, List.map_append, hrows], hextra⟩

theorem deliver_run (ir : FsmIr) (v : GuardLog) : (machine ir.transitions.length (run ir) v).deliver =
      (machine ir.transitions.length ir v).deliver := by
  obtain ⟨extra, hrows, hextra⟩ := map_rowOf_run ir
  funext c event
  show (takeEvent ir.transitions.length (run ir) v c event).getD c =
    (takeEvent ir.transitions.length ir v c event).getD c
  unfold takeEvent
  rw [hrows]
  cases hchosen : chosenAt (ir.transitions.map rowOf) c.state event (v c.log) with
  | some p =>
    obtain ⟨hmem, _, hsource, hevent⟩ := ready_of_chosenAt hchosen
    obtain ⟨t, ht, hrow⟩ := List.mem_map.mp hmem
    have htsource : t.source = c.state := (congrArg Row.source hrow).trans hsource
    have htevent : t.event = event := (congrArg Row.event hrow).trans hevent
    have hidle : ∀ x ∈ extra.map rowOf, x.ready c.state event (v c.log) = false := by
      intro y hy
      obtain ⟨x, hx, rfl⟩ := List.mem_map.mp hy
      have hnot := (hextra x hx).2 t ht
      have hends : ¬ ((rowOf x).source = c.state ∧ (rowOf x).event = event) := fun h =>
        hnot ⟨htsource.trans h.1.symm, htevent.trans h.2.symm⟩
      unfold Row.ready
      rw [Bool.and_eq_false_iff]
      exact Or.inl (by simpa using hends)
    rw [chosenAt_append_of_ready hchosen hidle]
  | none =>
    cases hnew : chosenAt (ir.transitions.map rowOf ++ extra.map rowOf) c.state event (v c.log) with
    | none => rfl
    | some p =>
      obtain ⟨hmem, hle⟩ := chosenAt_append_of_none hchosen hnew
      obtain ⟨x, hx, hrow⟩ := List.mem_map.mp hmem
      have hkind : p.1.kind = .internal := hrow ▸ (hextra x hx).1
      have hnot : ¬ p.2 < ir.transitions.length := by
        rw [List.length_map] at hle
        omega
      simp [hkind, hnot]

theorem log_lt_of_take {c c' : Config} {event : String}
    (h : (machine ir.transitions.length ir v).take c event = some c') :
    c.log.length < c'.log.length := by
  have htake : takeEvent ir.transitions.length ir v c event = some c' := h
  unfold takeEvent at htake
  obtain ⟨p, hp, rfl⟩ := Option.map_eq_some_iff.mp htake
  have hlt : p.2 < ir.transitions.length := by simpa using (ready_of_chosenAt hp).2.1
  simp [hlt]

/-! ## The result -/

/-- A server that defers jobs while it is busy. -/
def server : FsmIr where
  initialState := "Busy"
  states := [{ name := "Busy", deferredEvents := ["job"] }, { name := "Idle" }]
  transitions := [{ source := "Busy", target := "Idle", event := "done" },
    { source := "Idle", target := "Busy", event := "job" }]

end Fsmc.Passes.DeferredEventLowering
