/-
# Fsmc.Backend.Program — what a machine type of the runtime is made of.

The runtime is generic: its states and events are types, and its hooks, guards and actions are members of
such types. A program collects what the templates read of them: the rows of the transition table in their
order, the hierarchy that `parent_type` gives, the deferred events, the timed events and the hooks.
-/
import Mathlib.Algebra.Ring.Nat
import Mathlib.Data.List.Basic
import Mathlib.Data.List.Dedup
import Mathlib.Order.Nat
import Fsmc.Lib.Ancestry

namespace Fsmc.Backend

/-- The types that a machine is generic in. A state object has a value, an event object a payload. -/
structure Signature where
  State : Type
  EventType : Type
  Value : Type
  Payload : Type
  InPorts : Type
  OutPorts : Type
  Registers : Type
  Services : Type
  [decState : DecidableEq State]
  [decEvent : DecidableEq EventType]
  [decRegs  : DecidableEq Registers]
  [payload  : Inhabited Payload]
  [inPorts  : Inhabited InPorts]
  [outPorts : Inhabited OutPorts]
  [regs     : Inhabited Registers]
  [services : Nonempty Services]

attribute [instance] Signature.decState Signature.decEvent Signature.decRegs Signature.payload
  Signature.inPorts Signature.outPorts Signature.regs Signature.services

instance Signature.lawfulState (σ : Signature) : LawfulBEq σ.State := inferInstance

/-- Machines over numbers with one number as their register. -/
abbrev Signature.small : Signature where
  State := ℕ
  EventType := ℕ
  Value := Unit
  Payload := Unit
  InPorts := Unit
  OutPorts := Unit
  Registers := ℕ
  Services := Unit

variable (σ : Signature)

structure Event where
  type : σ.EventType
  payload : σ.Payload

/-- What hooks and actions may write besides the state objects. -/
structure Data where
  reg : σ.Registers
  out : σ.OutPorts
  srv : σ.Services

variable {σ}

/-- An event object with a default value. -/
def Event.ofType (type : σ.EventType) : Event σ := ⟨type, default⟩

variable (σ)

/-- A hook, which may change the state object that it is called on. -/
abbrev Hook := σ.Value × Data σ → σ.Value × Data σ

/-- What a row does: an external row has a target, and its action sees both state objects; the action of an
internal row sees the current one. -/
inductive Effect where
  | external (target : σ.State)
      (action : Event σ → σ.InPorts → σ.State → σ.Value × σ.Value × Data σ → σ.Value × σ.Value × Data σ)
  | internal (action : Event σ → σ.InPorts → σ.State → Hook σ)

/-- A row of the transition table. A guard sees the event, the current state object, the in-ports, the
registers, the services and the history. -/
structure Row where
  source : σ.State
  event : σ.EventType
  guard : Event σ → σ.State → σ.Value → σ.InPorts → σ.Registers → σ.Services →
    List (String × String) → Bool
  effect : Effect σ

/-- A machine type. -/
structure Program where
  rows : List (Row σ)
  initial : σ.State
  parent : σ.State → Option σ.State
  depth : σ.State → ℕ
  depth_lt : ∀ {s p : σ.State}, parent s = some p → depth p < depth s
  name : σ.State → String
  typeName : σ.State → String
  parentText : σ.State → Option String := fun _ => none
  constructible : σ.State → Bool := fun _ => true
  fresh : σ.State → σ.Value
  onEnter : σ.State → Event σ → σ.InPorts → Hook σ := fun _ _ _ => id
  onExit : σ.State → Event σ → σ.InPorts → Hook σ := fun _ _ _ => id
  doActivity : σ.State → σ.InPorts → Hook σ := fun _ _ => id
  deferredEvents : σ.State → Option (List σ.EventType) := fun _ => none
  isTimed : σ.EventType → Bool := fun _ => false
  timing : σ.EventType → Option (ℕ × Bool) := fun _ => none
  isTimed_of_timing : ∀ e, (timing e).isSome = true → isTimed e = true := by simp
  maxStay : σ.State → Option ℕ := fun _ => none
  anonymous : σ.EventType
  deferredCapacity : ℕ := 16
  deferredCapacity_pos : 0 < deferredCapacity := by decide
  timerCapacity : ℕ := 0

variable {σ}

/-- A machine over numbers without rows, hierarchy or timers. -/
def Program.plain : Program Signature.small where
  rows := []
  initial := 0
  parent := fun _ => none
  depth := fun _ => 0
  depth_lt := by simp
  name := fun s => toString s
  typeName := fun s => toString s
  fresh := fun _ => ()
  anonymous := 0

/-- The same with `after_ms<10>` as event 1. -/
def Program.plainTimed : Program Signature.small :=
  { Program.plain with
    isTimed := fun e => e = 1
    timing := fun e => if e = 1 then some (10, false) else none
    isTimed_of_timing := by simp
    timerCapacity := 4 }

/-- States 1 and 2 are in state 0. -/
def Program.parentOf (s : ℕ) : Option ℕ := if s = 1 ∨ s = 2 then some 0 else none

theorem Program.lt_of_parentOf {s p : ℕ} (h : Program.parentOf s = some p) : p < s := by
  unfold Program.parentOf at h
  split at h
  · cases h
    omega
  · cases h

namespace Row

def isInternal (row : Row σ) : Bool :=
  match row.effect with
  | .external _ _ => false
  | .internal _ => true

def target (row : Row σ) : σ.State :=
  match row.effect with
  | .external target _ => target
  | .internal _ => row.source

end Row

namespace Program

variable (P : Program σ)

/-! ## The hierarchy -/

/-- A state type and its ancestors, innermost first, as far as a number of steps goes. -/
def chainTo : ℕ → σ.State → List σ.State
  | 0, s => [s]
  | n + 1, s =>
    match P.parent s with
    | none => [s]
    | some p => s :: chainTo n p

/-- A state type and its ancestors, innermost first. -/
def chain (s : σ.State) : List σ.State := P.chainTo (P.depth s) s

/-- The ancestors of a state type, innermost first. -/
def ancestors (s : σ.State) : List σ.State := (P.chain s).tail

theorem chainTo_eq : ∀ {n m : ℕ} {s : σ.State}, P.depth s ≤ n → P.depth s ≤ m → P.chainTo n s = P.chainTo m s
  | 0, 0, _, _, _ => rfl
  | 0, m + 1, s, hn, _ => by
    unfold chainTo
    cases hp : P.parent s with
    | none => rfl
    | some p =>
      have := P.depth_lt hp
      omega
  | n + 1, 0, s, _, hm => by
    unfold chainTo
    cases hp : P.parent s with
    | none => rfl
    | some p =>
      have := P.depth_lt hp
      omega
  | n + 1, m + 1, s, hn, hm => by
    unfold chainTo
    cases hp : P.parent s with
    | none => rfl
    | some p =>
      have hlt := P.depth_lt hp
      have hrest := chainTo_eq (n := n) (m := m) (s := p) (by omega) (by omega)
      simp only [hrest]

theorem chain_of_none {s : σ.State} (h : P.parent s = none) : P.chain s = [s] := by
  unfold chain
  cases P.depth s with
  | zero => rfl
  | succ n =>
    unfold chainTo
    rw [h]

theorem chain_of_some {s p : σ.State} (h : P.parent s = some p) : P.chain s = s :: P.chain p := by
  have hlt := P.depth_lt h
  unfold chain
  obtain ⟨n, hn⟩ : ∃ n, P.depth s = n + 1 := ⟨P.depth s - 1, by omega⟩
  rw [hn, chainTo, h]
  simp only
  rw [P.chainTo_eq (n := n) (m := P.depth p) (by omega) le_rfl]

variable (s : σ.State)

theorem chain_eq_cons : P.chain s = s :: P.ancestors s := by
  unfold ancestors
  cases hp : P.parent s with
  | none => rw [P.chain_of_none hp]; rfl
  | some p => rw [P.chain_of_some hp]; rfl

theorem self_mem_chain : s ∈ P.chain s := by
  rw [chain_eq_cons]
  exact List.mem_cons_self

theorem ancestors_of_none {s : σ.State} (h : P.parent s = none) : P.ancestors s = [] := by
  unfold ancestors
  rw [P.chain_of_none h]
  rfl

theorem ancestors_of_some {s p : σ.State} (h : P.parent s = some p) : P.ancestors s = P.chain p := by
  unfold ancestors
  rw [P.chain_of_some h]
  rfl

theorem hierarchy_induction {motive : σ.State → Prop} (root : ∀ s, P.parent s = none → motive s)
    (child : ∀ s p, P.parent s = some p → motive p → motive s) (s : σ.State) : motive s := by
  have hall : ∀ n s, P.depth s ≤ n → motive s := by
    intro n
    induction n with
    | zero =>
      intro s hs
      cases hp : P.parent s with
      | none => exact root s hp
      | some p =>
        have := P.depth_lt hp
        omega
    | succ n ih =>
      intro s hs
      cases hp : P.parent s with
      | none => exact root s hp
      | some p =>
        have hlt := P.depth_lt hp
        exact child s p hp (ih p (by omega))
  exact hall _ s le_rfl

theorem isChain_chain : Lib.Ancestry.IsChain P.parent s (P.chain s) := by
  induction s using P.hierarchy_induction with
  | root s hs =>
    rw [P.chain_of_none hs]
    exact .root hs
  | child s p hs ih =>
    rw [P.chain_of_some hs]
    exact .cons hs ih

theorem exists_child {s a : σ.State} (h : a ∈ P.ancestors s) : ∃ c ∈ P.chain s, P.parent c = some a := by
  induction s using P.hierarchy_induction with
  | root s hs =>
    rw [P.ancestors_of_none hs] at h
    exact absurd h List.not_mem_nil
  | child s p hs ih =>
    rw [P.ancestors_of_some hs, P.chain_eq_cons, List.mem_cons] at h
    rcases h with rfl | h
    · exact ⟨s, P.self_mem_chain s, hs⟩
    · obtain ⟨c, hc, hparent⟩ := ih h
      rw [P.chain_of_some hs]
      exact ⟨c, List.mem_cons_of_mem _ hc, hparent⟩

theorem depth_le_of_mem_chain {s a : σ.State} (h : a ∈ P.chain s) : P.depth a ≤ P.depth s := by
  induction s using P.hierarchy_induction with
  | root s hs =>
    rw [P.chain_of_none hs, List.mem_singleton] at h
    exact (congrArg P.depth h).le
  | child s p hs ih =>
    rw [P.chain_of_some hs, List.mem_cons] at h
    rcases h with rfl | h
    · exact le_rfl
    · exact (ih h).trans (P.depth_lt hs).le

theorem notMem_ancestors : s ∉ P.ancestors s := by
  intro h
  cases hp : P.parent s with
  | none =>
    rw [P.ancestors_of_none hp] at h
    exact List.not_mem_nil h
  | some p =>
    rw [P.ancestors_of_some hp] at h
    have hle := P.depth_le_of_mem_chain h
    have hlt := P.depth_lt hp
    omega

theorem chain_nodup : (P.chain s).Nodup := by
  induction s using P.hierarchy_induction with
  | root s hs =>
    rw [P.chain_of_none hs]
    exact List.nodup_singleton s
  | child s p hs ih =>
    have hnot := P.notMem_ancestors s
    rw [P.ancestors_of_some hs] at hnot
    rw [P.chain_of_some hs]
    exact List.nodup_cons.mpr ⟨hnot, ih⟩

theorem chain_subset {s a : σ.State} (h : a ∈ P.chain s) : P.chain a ⊆ P.chain s := by
  induction s using P.hierarchy_induction with
  | root s hs =>
    rw [P.chain_of_none hs, List.mem_singleton] at h
    rw [h]
    exact fun x hx => hx
  | child s p hs ih =>
    rw [P.chain_of_some hs, List.mem_cons] at h
    rcases h with rfl | h
    · exact fun x hx => hx
    · rw [P.chain_of_some hs]
      exact fun x hx => List.mem_cons_of_mem _ (ih h hx)

/-- `is_substate_of_v`: by types, by the names of the ancestors, and by the text of the parent. -/
def isSubstateOf (sub super : σ.State) : Bool :=
  sub = super || (P.ancestors sub).any (fun a => a = super || P.name super = P.name a) ||
    (P.parentText sub).any (fun text => P.name super = text || P.typeName super = text)

theorem isSubstateOf_of_mem {sub super : σ.State} (h : super ∈ P.chain sub) : P.isSubstateOf sub super = true := by
  rw [P.chain_eq_cons, List.mem_cons] at h
  unfold isSubstateOf
  rcases h with rfl | h
  · simp
  · have hany : ((P.ancestors sub).any fun a => a = super || P.name super = P.name a) = true :=
      List.any_eq_true.mpr ⟨super, h, by simp⟩
    rw [hany]
    simp

/-! ## Events -/

def isDeferredEvent (s : σ.State) (type : σ.EventType) : Bool :=
  (P.chain s).any fun a => ((P.deferredEvents a).getD []).contains type

/-- Elements without repetitions, by their first occurrence. -/
def firstOccurrences {α : Type} [DecidableEq α] : List α → List α → List α
  | [], seen => seen
  | a :: rest, seen => firstOccurrences rest (if a ∈ seen then seen else seen ++ [a])

def states : List σ.State :=
  firstOccurrences (P.rows.map (·.source) ++ P.rows.map (·.target)) []

def events : List σ.EventType :=
  firstOccurrences (firstOccurrences (P.rows.map (·.event)) [] ++
    P.states.flatMap fun s => (P.deferredEvents s).getD []) []

def hasDeferred : Bool := P.states.any fun s => (P.chain s).any fun a => (P.deferredEvents a).isSome

def hasHistory : Bool := P.states.any fun s => (P.parent s).isSome || (P.parentText s).isSome

def historyCapacity : ℕ :=
  max 1 (P.states.map fun s => if (P.parent s).isSome then (P.ancestors s).length
    else if (P.parentText s).isSome then 1 else 0).sum

def hasInvariants : Bool := P.states.any fun s => (P.maxStay s).isSome

/-- `table_timed_events_count_v`. -/
def timedEventsCount : ℕ := P.events.countP P.isTimed

def defaultTimerCapacity : ℕ :=
  if 0 < P.timedEventsCount then if 4 < P.timedEventsCount then P.timedEventsCount else 4 else 0

end Program

end Fsmc.Backend
