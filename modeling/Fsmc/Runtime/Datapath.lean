/-
# Fsmc.Runtime.Datapath — what an action does to the registers and the ports.

A location is a scalar inside a register, a local or a port; an object is everything below a path. What
a text evaluates to, what an operator computes and what a service returns is left open, but a text
depends on the identifiers in it only, and a text that spells a target denotes that object.
-/
import Fsmc.Ir.FsmIr
import Fsmc.Lib.DeadStore

namespace Fsmc.Runtime

open Fsmc.Ir Fsmc.Lib.DeadStore

universe u

/-! ## Stores -/

/-- Where a name lives. -/
inductive Domain where
  | register | outPort | local | inPort
  deriving DecidableEq

/-- The domain that a target is written in. -/
def domainOf : LValueScope → Domain
  | .register => .register
  | .outPort => .outPort
  | .local => .local

/-- A step down into an object. -/
inductive Accessor where
  | member (name : String)
  | element (index : UInt32)
  deriving DecidableEq

/-- An object, or a scalar inside it. -/
structure Location where
  domain : Domain
  name : String
  path : List Accessor := []
  deriving DecidableEq

/-- The path of a target below its name. -/
def accessors (t : LValueTarget) : List Accessor :=
  t.memberPath.map .member ++ (t.constantIndex.map .element).toList

/-- The object that a target is. -/
def locationOf (t : LValueTarget) : Location := ⟨domainOf t.scope, t.name, accessors t⟩

/-- One location is inside the object at the other. -/
def Location.Inside (l base : Location) : Prop :=
  l.domain = base.domain ∧ l.name = base.name ∧ base.path <+: l.path

instance (l base : Location) : Decidable (l.Inside base) :=
  inferInstanceAs (Decidable (_ ∧ _ ∧ _))

theorem Location.Inside.trans {l base base' : Location} (h : l.Inside base)
    (h' : base.Inside base') : l.Inside base' :=
  ⟨h.1.trans h'.1, h.2.1.trans h'.2.1, h'.2.2.trans h.2.2⟩

/-- The scalar at each location. -/
abbrev Store (S : Type u) := Location → S

/-- The scalars of an object. -/
abbrev Value (S : Type u) := List Accessor → S

variable {S : Type u}

def object (σ : Store S) (l : Location) : Value S := fun q => σ { l with path := l.path ++ q }

theorem object_congr {σ σ' : Store S} {base : Location}
    (h : ∀ l : Location, l.domain = base.domain → l.name = base.name → σ l = σ' l) :
    object σ base = object σ' base := by
  funext q
  exact h _ rfl rfl

/-- The scalars of a value as an object at a location. -/
def place (base : Location) (v : Value S) (l : Location) : Option S :=
  if l.Inside base then some (v (l.path.drop base.path.length)) else none

theorem place_isSome {base : Location} {v : Value S} {l : Location} :
    (place base v l).isSome = true ↔ l.Inside base := by
  unfold place
  split <;> simp_all

theorem place_object (σ : Store S) (base l : Location) : (place base (object σ base) l).getD (σ l) = σ l := by
  unfold place
  split
  · next h =>
      obtain ⟨hdomain, hname, q, hq⟩ := h
      have hl : l = { base with path := base.path ++ q } := by
        cases l
        simp_all
      subst hl
      show σ { base with path := base.path ++ (base.path ++ q).drop base.path.length } = _
      rw [List.drop_left]
  · rfl

/-! ## Instructions -/

/-- An assignment as the store instruction that does the same. -/
def toStore (a : ActionAssignment) : StoreOp := ⟨a.target, a.op, a.expression⟩

/-- The steps of an action: its assignments, then its instructions. -/
def nodesOf (act : ActionSignature) : List ActionAstNode :=
  act.assignments.map (fun a => .store (toStore a)) ++ act.instructions

/-- The names that an instruction reads. -/
def readsOf : ActionAstNode → List String
  | .store op =>
    extractIdentifiers op.expression ++ if op.op = .assign then [] else [op.target.name]
  | .portWrite op => extractIdentifiers op.expression
  | .portRead _ => []
  | .signalEmit op => op.arguments.flatMap extractIdentifiers
  | .actionCall op => op.readSet ++ op.arguments.flatMap extractIdentifiers

/-- The signatures of a state machine: what is executed on its states and transitions. -/
def actionsOf (ir : FsmIr) : List ActionSignature :=
  (ir.states.flatMap fun s => s.entryActions ++ s.exitActions) ++
    ir.transitions.flatMap fun t => t.transitionAction.toList ++ t.conditionAction.toList

/-- The domain that a name stands for when nothing qualifies it. -/
def bareDomain (ir : FsmIr) (name : String) : Domain :=
  if ir.vars.any (·.name = name) then .register
  else if ir.ports.any fun p => p.name = name && p.isIn then .inPort
  else .local

/-- What an action lets the environment see, beside the ports. -/
inductive Emission (S : Type u) where
  | check (value : Value S)
  | signal (name : String) (arguments : List (Value S)) (targetPort : Option String)
  | call (functionName : String) (arguments : List (Value S)) (read : List (Value S))

/-- The meaning of texts, operators and services. -/
structure Datapath (ir : FsmIr) (S : Type u) where
  eval : String → Store S → Value S
  combine : AssignmentOp → Value S → Value S → Value S
  /-- What a service writes, given its arguments and the registers it may read. -/
  call : String → List (Value S) → List (Value S) → String → Option (Value S)
  eval_congr : ∀ {text : String} {σ σ' : Store S},
    (∀ l : Location, l.name ∈ extractIdentifiers text → σ l = σ' l) → eval text σ = eval text σ'
  /-- A target of the machine, spelt as a text, denotes its object. -/
  eval_path : ∀ act ∈ actionsOf ir, ∀ op, .store op ∈ nodesOf act →
    isIdentifier op.target.name = true → op.target.memberPath.all isIdentifier = true →
      ∀ σ, eval op.target.fullPath σ =
        object σ ⟨bareDomain ir op.target.name, op.target.name, accessors op.target⟩
  combine_assign : ∀ old new, combine .assign old new = new

namespace Datapath

variable {ir : FsmIr} (d : Datapath ir S)

variable {σ σ' : Store S} {op : StoreOp} {l : Location}

theorem map_eval_congr {texts : List String}
    (h : ∀ l : Location, l.name ∈ texts.flatMap extractIdentifiers → σ l = σ' l) :
    texts.map (d.eval · σ) = texts.map (d.eval · σ') := by
  apply List.map_congr_left
  intro text htext
  apply d.eval_congr
  intro l hl
  exact h l (List.mem_flatMap.mpr ⟨text, htext, hl⟩)

/-- The value that a store instruction writes. -/
def stored (op : StoreOp) (σ : Store S) : Value S :=
  d.combine op.op (object σ (locationOf op.target)) (d.eval op.expression σ)

theorem stored_congr (h : ∀ l : Location, l.name ∈ readsOf (.store op) → σ l = σ' l) :
    d.stored op σ = d.stored op σ' := by
  have heval : d.eval op.expression σ = d.eval op.expression σ' :=
    d.eval_congr fun l hl => h l (List.mem_append_left _ hl)
  unfold stored
  rw [heval]
  by_cases hop : op.op = .assign
  · rw [hop, d.combine_assign, d.combine_assign]
  · rw [object_congr fun l _ hname => h l (by simp [readsOf, hop, hname, locationOf])]

/-- What a service writes at a location. -/
def called (op : ActionCallOp) (σ : Store S) (l : Location) : Option S :=
  if l.domain = .register ∧ l.name ∈ op.writeSet then
    (d.call op.functionName (op.arguments.map (d.eval · σ))
      (op.readSet.map fun name => object σ ⟨.register, name, []⟩) l.name).map (· l.path)
  else none

theorem map_object_congr {names : List String} (h : ∀ l : Location, l.name ∈ names → σ l = σ' l) :
    (names.map fun name => object σ ⟨.register, name, []⟩) =
      names.map fun name => object σ' ⟨.register, name, []⟩ := by
  apply List.map_congr_left
  intro name hname
  exact object_congr fun l _ hl => h l (hl ▸ hname)

/-- An instruction as a step over the store. -/
def step : ActionAstNode → Step Location S (Emission S)
  | .store op =>
    { reads := { l | l.name ∈ readsOf (.store op) }
      write := fun σ => place (locationOf op.target) (d.stored op σ)
      emit := fun _ => []
      write_congr := fun h => by rw [d.stored_congr fun l hl => h hl]
      emit_congr := fun _ => rfl }
  | .portWrite op =>
    { reads := { l | l.name ∈ readsOf (.portWrite op) }
      write := fun σ => place ⟨.outPort, op.portName, []⟩ (d.eval op.expression σ)
      emit := fun _ => []
      write_congr := fun h => by rw [d.eval_congr fun l hl => h hl]
      emit_congr := fun _ => rfl }
  | .portRead op =>
    { reads := { l | l.domain = .inPort ∧ l.name = op.portName }
      write := fun σ => place (locationOf op.destination) (object σ ⟨.inPort, op.portName, []⟩)
      emit := fun _ => []
      write_congr := fun h => by rw [object_congr fun l hdomain hname => h ⟨hdomain, hname⟩]
      emit_congr := fun _ => rfl }
  | .signalEmit op =>
    { reads := { l | l.name ∈ readsOf (.signalEmit op) }
      write := fun _ _ => none
      emit := fun σ => [.signal op.signalName (op.arguments.map (d.eval · σ)) op.targetPort]
      write_congr := fun _ => rfl
      emit_congr := fun h => by rw [d.map_eval_congr fun l hl => h hl] }
  | .actionCall op =>
    { reads := { l | l.name ∈ readsOf (.actionCall op) }
      write := d.called op
      emit := fun σ => [.call op.functionName (op.arguments.map (d.eval · σ))
        (op.readSet.map fun name => object σ ⟨.register, name, []⟩)]
      write_congr := fun h => by
        funext l
        unfold called
        rw [d.map_eval_congr fun l hl => h (List.mem_append_right _ hl),
          map_object_congr fun l hl => h (List.mem_append_left _ hl)]
      emit_congr := fun h => by
        rw [d.map_eval_congr fun l hl => h (List.mem_append_right _ hl),
          map_object_congr fun l hl => h (List.mem_append_left _ hl)] }

/-- Executing an action: the last store and what was emitted. -/
def execute (act : ActionSignature) : Store S → Store S × List (Emission S) :=
  run ((nodesOf act).map d.step)

theorem mem_readsOf_of_mem_reads {node : ActionAstNode} (hdomain : l.domain ≠ .inPort)
    (h : l ∈ (d.step node).reads) : l.name ∈ readsOf node := by
  cases node with
  | portRead op => exact absurd h.1 hdomain
  | store op => exact h
  | portWrite op => exact h
  | signalEmit op => exact h
  | actionCall op => exact h

@[simp] theorem emit_store (op : StoreOp) (σ : Store S) : (d.step (.store op)).emit σ = [] := rfl

theorem write_store (op : StoreOp) (σ : Store S) :
    (d.step (.store op)).write σ = place (locationOf op.target) (d.stored op σ) := rfl

theorem covers_store (h : l.Inside (locationOf op.target)) :
    (d.step (.store op)).Covers l := fun _ => place_isSome.mpr h

theorem inside_of_touches_store (h : (d.step (.store op)).Touches l) :
    l.Inside (locationOf op.target) := by
  obtain ⟨σ, hσ⟩ := h
  exact place_isSome.mp hσ

/-- The number that a numeral spells. -/
def numeral (text : String) : ℕ := text.toList.foldl (fun n c => 10 * n + (c.toNat - 48)) 0

/-- Numbers, where a text is an identifier or a numeral and all targets are whole registers. -/
def numbers (ir : FsmIr) (h : ∀ act ∈ actionsOf ir, ∀ op, .store op ∈ nodesOf act →
    accessors op.target = [] ∧ op.target.fullPath = op.target.name ∧
      bareDomain ir op.target.name = .register) : Datapath ir ℕ where
  eval := fun text σ =>
    if isIdentifier text then object σ ⟨.register, text, []⟩ else fun _ => numeral text
  combine := fun op old new q =>
    match op with
    | .addAssign => old q + new q
    | .subAssign => old q - new q
    | .mulAssign => old q * new q
    | _ => new q
  call := fun _ _ _ _ => none
  eval_congr := by
    intro text σ σ' hread
    split
    · next htext =>
        apply object_congr
        intro l _ hname
        apply hread
        rw [hname]
        have hmem : text ∈ extractIdentifiers (text ++ "") :=
          mem_extractIdentifiers_append htext (by simp)
        rwa [String.append_empty] at hmem
    · rfl
  eval_path := by
    intro act hact op hop hname _ σ
    obtain ⟨hwhole, hpath, hdomain⟩ := h act hact op hop
    rw [hpath, hdomain, hwhole, if_pos hname]
  combine_assign := fun _ _ => rfl

end Datapath

end Fsmc.Runtime
