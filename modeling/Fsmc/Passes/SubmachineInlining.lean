/-
# Fsmc.Passes.SubmachineInlining — copying a referenced machine into the state that refers to it.

The copies get the name of the host in front of theirs, but only the names and the ends of transitions are
rewritten. Every copy becomes a child of the host itself, initial sub-states and child identifiers keep
what they say in the submachine, forks and joins shrink to one end, and the list of choice nodes is not
copied. The host enters what a port mapping names, not the initial state of the submachine.
-/
import Fsmc.Ir.DeterministicId
import Fsmc.Runtime.Hierarchy

namespace Fsmc.Passes.SubmachineInlining

open Fsmc.Ir Fsmc.Runtime

/-! ## The pass -/

abbrev SubmachineResolver := String → Option FsmIr

def inlinedName (host name : String) : String := host ++ "_" ++ name

/-- The names of the states of a machine. -/
def stateNames (sub : FsmIr) : List String := sub.states.map (·.name)

/-- The identifier of a copy. -/
def clonedId (st s : StateNode) : String := computeDeterministicId (st.fqn ++ "." ++ s.name)

def cloneState (st s : StateNode) : StateNode :=
  { s with
    name := inlinedName st.name s.name
    fqn := st.fqn ++ "." ++ s.name
    id := clonedId st s
    parentState := st.name
    parentId := some st.id }

/-- `name_map[name]`: a name that is no state's becomes the empty text. -/
def nameOf (st : StateNode) (sub : FsmIr) (name : String) : String :=
  if name ∈ stateNames sub then inlinedName st.name name else ""

def cloneTransition (st : StateNode) (sub : FsmIr) (t : TransitionEdge) : TransitionEdge :=
  let source := nameOf st sub t.source
  let target := nameOf st sub t.target
  { t with
    source := source
    target := target
    sourceIds := [source]
    targetIds := [target]
    id := computeDeterministicId (source ++ "->" ++ target ++ ":" ++ t.event) }

/-- The keys of `name_map` when the ports are mapped: looking up the end of a transition adds it. -/
def mappedNames (sub : FsmIr) : List String :=
  stateNames sub ++ sub.transitions.flatMap fun t => [t.source, t.target]

/-- The initial sub-state of the host, which the last mapped entry point decides. -/
def hostInitial (st : StateNode) (ref : SubmachineRef) (sub : FsmIr) : String :=
  ref.portMappings.foldl
    (fun initial port =>
      if port.entryPoint ∈ mappedNames sub then nameOf st sub port.entryPoint else initial)
    st.initialSubState

/-- What a state refers to, if it can be resolved. -/
def resolved (resolve : SubmachineResolver) (st : StateNode) : Option (SubmachineRef × FsmIr) :=
  st.submachine.bind fun ref => (resolve ref.fsmName).map (ref, ·)

/-- A state after the pass. -/
def hostState (resolve : SubmachineResolver) (st : StateNode) : StateNode :=
  match resolved resolve st with
  | none => st
  | some (ref, sub) =>
    { st with
      isComposite := true
      kind := .composite
      childrenIds := st.childrenIds ++ sub.states.map (clonedId st)
      initialSubState := hostInitial st ref sub
      submachine := none }

/-- `inlined_states`, for one host. -/
def inlinedStates (resolve : SubmachineResolver) (st : StateNode) : List StateNode :=
  match resolved resolve st with
  | none => []
  | some (_, sub) => sub.states.map (cloneState st)

/-- `inlined_transitions`, for one host. -/
def inlinedTransitions (resolve : SubmachineResolver) (st : StateNode) : List TransitionEdge :=
  match resolved resolve st with
  | none => []
  | some (_, sub) => sub.transitions.map (cloneTransition st sub)

def run (resolver : Option SubmachineResolver) (ir : FsmIr) : FsmIr :=
  match resolver with
  | none => ir
  | some resolve =>
    { ir with
      states := ir.states.map (hostState resolve) ++ ir.states.flatMap (inlinedStates resolve)
      transitions := ir.transitions ++ ir.states.flatMap (inlinedTransitions resolve) }

variable {resolve : SubmachineResolver} {ir sub : FsmIr} {st : StateNode} {ref : SubmachineRef}

theorem resolved_eq (href : st.submachine = some ref) (hsub : resolve ref.fsmName = some sub) :
    resolved resolve st = some (ref, sub) := by
  simp [resolved, href, hsub]

theorem cloneState_mem_run (hst : st ∈ ir.states) (hres : resolved resolve st = some (ref, sub))
    {s : StateNode} (hs : s ∈ sub.states) : cloneState st s ∈ (run (some resolve) ir).states := by
  refine List.mem_append_right _ (List.mem_flatMap.mpr ⟨st, hst, ?_⟩)
  unfold inlinedStates
  rw [hres]
  exact List.mem_map_of_mem hs

variable {t : TransitionEdge} {name : String}

theorem cloneTransition_mem_run (hst : st ∈ ir.states)
    (hres : resolved resolve st = some (ref, sub)) (ht : t ∈ sub.transitions) :
    cloneTransition st sub t ∈ (run (some resolve) ir).transitions := by
  refine List.mem_append_right _ (List.mem_flatMap.mpr ⟨st, hst, ?_⟩)
  unfold inlinedTransitions
  rw [hres]
  exact List.mem_map_of_mem ht

/-! ## What a copy should be -/

/-- The image of a name under the renaming, which is about the states of the submachine only. -/
def image (st : StateNode) (sub : FsmIr) (name : String) : String :=
  if name ∈ stateNames sub then inlinedName st.name name else name

/-- The image of the parent of a state: the host, for what is not nested in the submachine. -/
def parentImage (st : StateNode) (sub : FsmIr) (s : StateNode) : String :=
  if s.parentState ∈ stateNames sub then inlinedName st.name s.parentState else st.name

/-- The image of an identifier of a state. -/
def idImage (st : StateNode) (sub : FsmIr) (id : String) : String :=
  match sub.findStateById id with
  | some s => clonedId st s
  | none => id

/-- A copy of a state: it has the renamed parent, initial sub-state and children, and nothing that a run
sees of a state differs otherwise. -/
structure IsStateCopy (st : StateNode) (sub : FsmIr) (s c : StateNode) : Prop where
  name : c.name = inlinedName st.name s.name
  parent : c.parentState = parentImage st sub s
  initial : c.initialSubState = image st sub s.initialSubState
  children : c.childrenIds = s.childrenIds.map (idImage st sub)
  rest : { c with
    id := s.id, name := s.name, fqn := s.fqn, parentState := s.parentState, parentId := s.parentId
    initialSubState := s.initialSubState, childrenIds := s.childrenIds } = s

/-- A copy of a transition: it has the renamed ends and is the same otherwise. -/
structure IsTransitionCopy (st : StateNode) (sub : FsmIr) (t c : TransitionEdge) : Prop where
  sources : sourceEnds c = (sourceEnds t).map (image st sub)
  targets : targetEnds c = (targetEnds t).map (image st sub)
  rest : { c with
    id := t.id, source := t.source, target := t.target, sourceIds := t.sourceIds
    targetIds := t.targetIds } = t

/-- A transition between states that exist. -/
def Inside (sub : FsmIr) (t : TransitionEdge) : Prop :=
  t.source ∈ stateNames sub ∧ t.target ∈ stateNames sub

/-- Some state of the list is a choice and has the name. -/
def ChoiceNamed (states : List StateNode) (name : String) : Prop :=
  ∃ s ∈ states, s.name = name ∧ s.kind = .choice

/-- The region of a host is a copy of the submachine under the renaming. -/
structure FaithfulCopy (resolve : SubmachineResolver) (ir : FsmIr) (st : StateNode) (sub : FsmIr) :
    Prop where
  states : List.Forall₂ (IsStateCopy st sub) sub.states (inlinedStates resolve st)
  transitions : List.Forall₂ (fun t c => Inside sub t → IsTransitionCopy st sub t c) sub.transitions
    (inlinedTransitions resolve st)
  added : (∀ c ∈ inlinedStates resolve st, c ∈ (run (some resolve) ir).states) ∧
    ∀ t ∈ inlinedTransitions resolve st, t ∈ (run (some resolve) ir).transitions
  choices : ∀ name, name ∈ sub.choiceNodes ∨ ChoiceNamed sub.states name ↔
    inlinedName st.name name ∈ (run (some resolve) ir).choiceNodes ∨
      ChoiceNamed (inlinedStates resolve st) (inlinedName st.name name)
  initial : initialName sub ≠ "" →
    (hostState resolve st).initialSubState = inlinedName st.name (initialName sub)

/-- The submachine has nothing that the copying leaves out: no nesting, no forks and joins, no choice
nodes but those that are states or listed by the host, and an entry point for its initial state. -/
structure Plain (ir : FsmIr) (st : StateNode) (ref : SubmachineRef) (sub : FsmIr) : Prop where
  parents : ∀ s ∈ sub.states, s.parentState ∉ stateNames sub
  initials : ∀ s ∈ sub.states, s.initialSubState ∉ stateNames sub
  children : ∀ s ∈ sub.states, ∀ id ∈ s.childrenIds, ∀ c, sub.findStateById id = some c →
    clonedId st c = id
  edges : ∀ t ∈ sub.transitions, Inside sub t → isFork t = false ∧ isJoin t = false
  choices : ∀ name, ¬ ChoiceNamed sub.states name →
    (name ∈ sub.choiceNodes ↔ inlinedName st.name name ∈ ir.choiceNodes)
  initial : initialName sub ≠ "" →
    match (ref.portMappings.filter fun port => port.entryPoint ∈ mappedNames sub).getLast? with
    | some port => port.entryPoint = initialName sub ∧ initialName sub ∈ stateNames sub
    | none => st.initialSubState = inlinedName st.name (initialName sub)

/-! ## Names -/

theorem inlinedName_injective (host : String) : Function.Injective (inlinedName host) := by
  intro a b h
  have hlist := congrArg String.toList h
  unfold inlinedName at hlist
  simp only [String.toList_append, List.append_assoc] at hlist
  exact String.toList_injective (List.append_cancel_left (List.append_cancel_left hlist))

theorem length_inlinedName (host name : String) : (inlinedName host name).length = host.length + 1 + name.length := by
  unfold inlinedName
  rw [String.length_append, String.length_append]
  rfl

theorem inlinedName_ne_host (host name : String) : inlinedName host name ≠ host := by
  intro h
  have hlen := congrArg String.length h
  rw [length_inlinedName] at hlen
  omega

theorem inlinedName_ne_self (host name : String) : inlinedName host name ≠ name := by
  intro h
  have hlen := congrArg String.length h
  rw [length_inlinedName] at hlen
  omega

theorem inlinedName_ne_empty (host name : String) : inlinedName host name ≠ "" := by
  intro h
  have hlen := congrArg String.length h
  rw [length_inlinedName] at hlen
  have hzero : ("" : String).length = 0 := rfl
  omega

theorem image_eq_self_iff : image st sub name = name ↔ name ∉ stateNames sub := by
  unfold image
  split
  · rename_i hmem
    simp [hmem, inlinedName_ne_self]
  · rename_i hmem
    simp [hmem]

/-! ## States -/

theorem map_eq_self_iff {α : Type*} {f : α → α} {l : List α} : l.map f = l ↔ ∀ a ∈ l, f a = a := by
  induction l with
  | nil => simp
  | cons a l ih => simp [ih]

theorem isStateCopy_iff {s : StateNode} : IsStateCopy st sub s (cloneState st s) ↔
      s.parentState ∉ stateNames sub ∧ s.initialSubState ∉ stateNames sub ∧
        ∀ id ∈ s.childrenIds, ∀ c, sub.findStateById id = some c → clonedId st c = id := by
  have hparent : (cloneState st s).parentState = parentImage st sub s ↔
      s.parentState ∉ stateNames sub := by
    show st.name = parentImage st sub s ↔ _
    unfold parentImage
    split
    · rename_i hmem
      simp [hmem, (inlinedName_ne_host st.name s.parentState).symm]
    · rename_i hmem
      simp [hmem]
  have hinitial : (cloneState st s).initialSubState = image st sub s.initialSubState ↔
      s.initialSubState ∉ stateNames sub := eq_comm.trans image_eq_self_iff
  have hchildren : (cloneState st s).childrenIds = s.childrenIds.map (idImage st sub) ↔
      ∀ id ∈ s.childrenIds, ∀ c, sub.findStateById id = some c → clonedId st c = id := by
    show s.childrenIds = _ ↔ _
    rw [eq_comm, map_eq_self_iff]
    refine forall₂_congr fun id _ => ?_
    unfold idImage
    cases sub.findStateById id with
    | none => simp
    | some c => simp
  refine ⟨fun h => ⟨hparent.mp h.parent, hinitial.mp h.initial, hchildren.mp h.children⟩, ?_⟩
  rintro ⟨hp, hi, hc⟩
  exact ⟨rfl, hparent.mpr hp, hinitial.mpr hi, hchildren.mpr hc, rfl⟩

/-! ## Transitions -/

theorem nameOf_eq_image (h : name ∈ stateNames sub) : nameOf st sub name = image st sub name := by
  unfold nameOf image
  rw [if_pos h, if_pos h]

theorem isTransitionCopy_iff (h : Inside sub t) :
    IsTransitionCopy st sub t (cloneTransition st sub t) ↔ isFork t = false ∧ isJoin t = false := by
  have hsources : sourceEnds (cloneTransition st sub t) = [image st sub t.source] :=
    congrArg (fun x => [x]) (nameOf_eq_image h.1)
  have htargets : targetEnds (cloneTransition st sub t) = [image st sub t.target] :=
    congrArg (fun x => [x]) (nameOf_eq_image h.2)
  constructor
  · intro hcopy
    constructor
    · cases hfork : isFork t with
      | false => rfl
      | true =>
        -- a copy has one target, a fork several
        have hlen := congrArg List.length hcopy.targets
        have hmany : 1 < t.targetIds.length := of_decide_eq_true hfork
        rw [htargets, targetEnds, if_pos hfork, List.length_map, List.length_singleton] at hlen
        omega
    · cases hjoin : isJoin t with
      | false => rfl
      | true =>
        have hlen := congrArg List.length hcopy.sources
        have hmany : 1 < t.sourceIds.length := of_decide_eq_true hjoin
        rw [hsources, sourceEnds, if_pos hjoin, List.length_map, List.length_singleton] at hlen
        omega
  · rintro ⟨hfork, hjoin⟩
    refine ⟨?_, ?_, rfl⟩
    · rw [hsources, sourceEnds, hjoin]
      rfl
    · rw [htargets, targetEnds, hfork]
      rfl

/-! ## Choice nodes -/

theorem choiceNamed_cloned : ChoiceNamed (sub.states.map (cloneState st)) (inlinedName st.name name) ↔
      ChoiceNamed sub.states name := by
  unfold ChoiceNamed
  constructor
  · rintro ⟨c, hc, hname, hkind⟩
    obtain ⟨s, hs, rfl⟩ := List.mem_map.mp hc
    exact ⟨s, hs, inlinedName_injective st.name hname, hkind⟩
  · rintro ⟨s, hs, rfl, hkind⟩
    exact ⟨cloneState st s, List.mem_map_of_mem hs, rfl, hkind⟩

/-! ## The initial state -/

theorem foldl_ite_eq_getLast? {α β : Type*} (p : α → Prop) [DecidablePred p] (f : α → β) :
    ∀ (l : List α) (b : β), l.foldl (fun acc a => if p a then f a else acc) b =
      (((l.filter fun a => p a).getLast?).map f).getD b := by
  intro l
  induction l with
  | nil => exact fun _ => rfl
  | cons a l ih =>
    intro b
    rw [List.foldl_cons, ih]
    by_cases ha : p a
    · rw [if_pos ha, List.filter_cons_of_pos (by simpa using ha), List.getLast?_cons]
      cases (l.filter fun a => p a).getLast? <;> rfl
    · rw [if_neg ha, List.filter_cons_of_neg (by simpa using ha)]

theorem nameOf_eq_inlinedName_iff {name target : String} : nameOf st sub name = inlinedName st.name target ↔
      name = target ∧ target ∈ stateNames sub := by
  unfold nameOf
  split
  · rename_i hmem
    constructor
    · intro h
      obtain rfl := inlinedName_injective st.name h
      exact ⟨rfl, hmem⟩
    · rintro ⟨rfl, _⟩
      rfl
  · rename_i hmem
    constructor
    · exact fun h => absurd h.symm (inlinedName_ne_empty st.name target)
    · rintro ⟨rfl, h⟩
      exact absurd h hmem

theorem hostInitial_eq_iff {target : String} : hostInitial st ref sub = inlinedName st.name target ↔
      match (ref.portMappings.filter fun port => port.entryPoint ∈ mappedNames sub).getLast? with
      | some port => port.entryPoint = target ∧ target ∈ stateNames sub
      | none => st.initialSubState = inlinedName st.name target := by
  unfold hostInitial
  rw [foldl_ite_eq_getLast? (fun port : PortMapping => port.entryPoint ∈ mappedNames sub)
    (fun port => nameOf st sub port.entryPoint)]
  cases (ref.portMappings.filter fun port => port.entryPoint ∈ mappedNames sub).getLast? with
  | none => exact Iff.rfl
  | some port => exact nameOf_eq_inlinedName_iff

/-! ## The result -/

theorem forall₂_map_self_iff {α β : Type*} {R : α → β → Prop} {f : α → β} {l : List α} :
    List.Forall₂ R l (l.map f) ↔ ∀ a ∈ l, R a (f a) := by
  induction l with
  | nil => simp
  | cons a l ih => simp [ih]

/-- A submachine of two states. -/
def protocol : FsmIr where
  initialState := "Connecting"
  states := [{ name := "Connecting" }, { name := "Connected" }]
  transitions := [{ source := "Connecting", target := "Connected", event := "ack" }]

def handler : StateNode :=
  { name := "Comms", submachine := some { fsmName := "Protocol", portMappings := [⟨"Connecting"⟩] } }

/-- A submachine with a composite. -/
def nested : FsmIr where
  initialState := "Up"
  states := [{ name := "Up", kind := .composite, initialSubState := "Idle" },
    { name := "Idle", parentState := "Up" }]

end Fsmc.Passes.SubmachineInlining
