/-
# Fsmc.Passes.SampledChangeTrigger — replacing change triggers by guards over a shadow register.

A transition that waits for a predicate to change gets a Boolean register for the predicate's previous
value. The register is written when the source is entered and when the transition itself is taken, and at
no other sample: while the source stays active it keeps the value of the last of these.
-/
import Fsmc.Cpp.Lines
import Fsmc.Ir.GraphOps
import Fsmc.Runtime.Datapath
import Mathlib.Logic.Function.Basic

namespace Fsmc.Passes.SampledChangeTrigger

open Fsmc.Cpp Fsmc.Ir Fsmc.Runtime

/-! ## The pass -/

def shadowVar (source : String) (i : Nat) : String :=
  "__change_" ++ source ++ "_" ++ toString i ++ "_prev"

/-- The assignment of the predicate to the shadow register, which has no dots and brackets in its name as
long as the source has none. -/
def shadowAssign (shadow raw : String) : ActionAssignment :=
  { target := { name := shadow }, expression := raw }

/-- `entry_act`. -/
def initAction (shadow raw : String) : ActionSignature :=
  { ActionSignature.ofName ("Init_" ++ shadow) with assignments := [shadowAssign shadow raw] }

/-- `new_act`. -/
def updateAction (shadow raw : String) : ActionSignature :=
  { ActionSignature.ofName ("Update_" ++ shadow) with assignments := [shadowAssign shadow raw] }

def edgeGuard (shadow raw : String) (activeOnTrue : Bool) : String :=
  if activeOnTrue then "(!" ++ shadow ++ " && (" ++ raw ++ "))"
  else "(" ++ shadow ++ " && !(" ++ raw ++ "))"

/-- The guard that the transition has beside its trigger. -/
def extraGuard (t : TransitionEdge) : Option String := t.guard.filter fun g => g ≠ "" && g ≠ "true"

def loweredGuard (t : TransitionEdge) (edge : String) : String :=
  match extraGuard t with
  | some g => "(" ++ edge ++ " && (" ++ g ++ "))"
  | none => edge

/-- The transition action with the update; an action without a name is replaced. -/
def loweredAction (t : TransitionEdge) (shadow raw : String) : ActionSignature :=
  match t.transitionAction with
  | some a =>
    if a.name ≠ "" then { a with assignments := a.assignments ++ [shadowAssign shadow raw] }
    else updateAction shadow raw
  | none => updateAction shadow raw

/-- A transition after its turn. -/
def lowerEdge (i : Nat) (t : TransitionEdge) : TransitionEdge :=
  match t.trigger with
  | .change raw _ activeOnTrue =>
    if raw = "" then { t with trigger := .anonymous }
    else
      let shadow := shadowVar t.source i
      let guard := loweredGuard t (edgeGuard shadow raw activeOnTrue)
      { t with
        guard := some guard
        guardAst := some { expression := guard }
        transitionAction := some (loweredAction t shadow raw)
        trigger := .anonymous
        event := "" }
  | _ => t

/-- The state with the given name, or else with that identifier. -/
def sourceNode (ir : FsmIr) (source : String) : Option StateNode :=
  (ir.findState source).or (ir.findStateById source)

/-- Append an entry action to a state. -/
def addEntry (act : ActionSignature) (s : StateNode) : StateNode :=
  { s with entryActions := s.entryActions ++ [act] }

/-- Append an entry action to the source of a transition. -/
def appendEntry (ir : FsmIr) (source : String) (act : ActionSignature) : FsmIr :=
  match ir.findState source with
  | some _ => ir.modifyState source (addEntry act)
  | none => { ir with states := modifyFirst (fun s => s.id = source) (addEntry act) ir.states }

/-- Declare the shadow register. -/
def declareShadow (ir : FsmIr) (shadow : String) : FsmIr :=
  match ir.findVariable shadow with
  | some _ => ir
  | none => { ir with vars := ir.vars ++ [{ name := shadow, initialValue := "false" }] }

/-- What the turn of a transition does to the rest of the machine. -/
def prepare (ir : FsmIr) (i : Nat) (t : TransitionEdge) : FsmIr :=
  match t.trigger with
  | .change raw _ _ =>
    if raw = "" then ir
    else
      let shadow := shadowVar t.source i
      appendEntry (declareShadow ir shadow) t.source (initAction shadow raw)
  | _ => ir

/-- One turn of the loop. -/
def lowerOne (ir : FsmIr) (i : Nat) : FsmIr :=
  match ir.transitions[i]? with
  | some t => { prepare ir i t with transitions := ir.transitions.set i (lowerEdge i t) }
  | none => ir

/-- The machine after the first `n` turns. -/
def lowerUpTo (ir : FsmIr) (n : Nat) : FsmIr := (List.range n).foldl lowerOne ir

/-- `SampledChangeTriggerPass::run`. -/
def run (ir : FsmIr) : FsmIr := lowerUpTo ir ir.transitions.length

/-! ## Samples -/

/-- The entry actions of a state. -/
def entryOf (ir : FsmIr) (source : String) : List ActionSignature :=
  ((sourceNode ir source).map (·.entryActions)).getD []

/-- The exit actions of a state. -/
def exitOf (ir : FsmIr) (source : String) : List ActionSignature :=
  ((sourceNode ir source).map (·.exitActions)).getD []

def actionsOfEdge (t : TransitionEdge) : List ActionSignature :=
  t.conditionAction.toList ++ t.transitionAction.toList

/-- The register that an instruction writes, and the text that it evaluates. -/
def written : ActionAstNode → Option (String × String)
  | .store op => some (op.target.name, op.expression)
  | .portRead op => some (op.destination.name, op.portName)
  | _ => none

section Semantics

variable {D : Type*} (eval : (String → Bool) → D → String → Bool)

/-- Execute an instruction on the Boolean registers; all other data is part of the sample. -/
def execNode (d : D) (r : String → Bool) (node : ActionAstNode) : String → Bool :=
  match written node with
  | some (name, expression) => Function.update r name (eval r d expression)
  | none => r

def execAll (d : D) (r : String → Bool) (acts : List ActionSignature) : String → Bool :=
  (acts.flatMap nodesOf).foldl (execNode eval d) r

/-- A sample while the state is active: the data, and the transition that is taken without leaving the
state for another one. -/
structure Sample (D : Type*) where
  data : D
  takes : Option Nat := none

/-- A transition leaves the state and enters it again. -/
def reenters (u : TransitionEdge) : Bool := u.kind = .external

/-- The actions that a transition of the state performs. -/
def performed (ir : FsmIr) (source : String) (u : TransitionEdge) : List ActionSignature :=
  if reenters u then exitOf ir source ++ actionsOfEdge u ++ entryOf ir source else actionsOfEdge u

/-- The registers after a sample. -/
def after (ir : FsmIr) (source : String) (r : String → Bool) (s : Sample D) : String → Bool :=
  match s.takes.bind fun j => ir.transitions[j]? with
  | some u => execAll eval s.data r (performed ir source u)
  | none => r

/-- The registers after the state is entered and some samples are taken. -/
def registers (ir : FsmIr) (source : String) (r₀ : String → Bool) (d₀ : D)
    (samples : List (Sample D)) : String → Bool :=
  samples.foldl (after eval ir source) (execAll eval d₀ r₀ (entryOf ir source))

/-- The guard of a transition holds. -/
def Enabled (r : String → Bool) (d : D) (u : TransitionEdge) : Prop :=
  u.getGuard = "" ∨ eval r d u.getGuard = true

/-- The data of the previous sample, of which the first is taken on entry. -/
def previous (d₀ : D) (samples : List (Sample D)) : D := (samples.getLast?.map (·.data)).getD d₀

/-- What the texts of a change trigger mean: the predicate and the guard depend on the sample, and the
guards that the pass composes are what their operators make of them. -/
structure Reads (i : Nat) (t : TransitionEdge) (raw : String) (activeOnTrue : Bool)
    (pred extra : D → Bool) : Prop where
  predicate : ∀ r d, eval r d raw = pred d
  edge : ∀ r d, eval r d (edgeGuard (shadowVar t.source i) raw activeOnTrue) =
    if activeOnTrue then !r (shadowVar t.source i) && pred d else r (shadowVar t.source i) && !pred d
  guarded : ∀ g, extraGuard t = some g → ∀ r d,
    eval r d ("(" ++ edgeGuard (shadowVar t.source i) raw activeOnTrue ++ " && (" ++ g ++ "))") =
      (eval r d (edgeGuard (shadowVar t.source i) raw activeOnTrue) && extra d)
  unguarded : extraGuard t = none → ∀ d, extra d = true

/-- No action of the machine writes the shadow register already. -/
def Fresh (ir : FsmIr) (shadow : String) : Prop :=
  ∀ act ∈ actionsOf ir, ∀ node ∈ nodesOf act, ∀ e, written node ≠ some (shadow, e)

/-- A change trigger: the `i`-th transition waits for a predicate to become `activeOnTrue`. -/
structure Triggered (ir : FsmIr) (i : Nat) (t : TransitionEdge) (raw : String) (activeOnTrue : Bool) :
    Prop where
  mem : ir.transitions[i]? = some t
  trigger : ∃ predicate, t.trigger = .change raw predicate activeOnTrue
  nonempty : raw ≠ ""
  source : (sourceNode ir t.source).isSome = true
  fresh : Fresh ir (shadowVar t.source i)

/-- Along the samples, the lowered transition is enabled exactly when the predicate changes and the
guard holds. -/
def FiresOnEdges (ir : FsmIr) (i : Nat) (t : TransitionEdge) (activeOnTrue : Bool)
    (pred extra : D → Bool) (r₀ : String → Bool) (d₀ : D) (samples : List (Sample D)) : Prop :=
  ∃ t', (run ir).transitions[i]? = some t' ∧ t'.trigger = .anonymous ∧
    ∀ pre s post, samples = pre ++ s :: post →
      (Enabled eval (registers eval (run ir) t.source r₀ d₀ pre) s.data t' ↔
        pred (previous d₀ pre) = !activeOnTrue ∧ pred s.data = activeOnTrue ∧ extra s.data = true)

/-- The shadow register is written at a sample: the transition itself is taken, or the state is entered
again. -/
def writes (ir : FsmIr) (i : Nat) (s : Sample D) : Bool :=
  s.takes = some i || (s.takes.bind fun j => ir.transitions[j]?).any reenters

/-- The data of the last sample at which the shadow register is written. -/
def captured (ir : FsmIr) (i : Nat) (d₀ : D) (samples : List (Sample D)) : D :=
  samples.foldl (fun d s => if writes ir i s then s.data else d) d₀

end Semantics

/-! ## Names of shadow registers -/

theorem shadowVar_injective {a b : String} {i j : Nat} (h : shadowVar a i = shadowVar b j) : i = j := by
  have hlist := congrArg String.toList h
  unfold shadowVar at hlist
  simp only [String.toList_append] at hlist
  have hnumbered := List.append_cancel_right hlist
  simp only [← String.toList_append] at hnumbered
  exact numbered_injective (String.toList_inj.mp hnumbered)

/-! ## What is executed -/

section Execution

variable {D : Type*} {eval : (String → Bool) → D → String → Bool} {shadow raw : String}
  {pred : D → Bool}

/-- Instructions that do not write a register. -/
def Silent (shadow : String) (nodes : List ActionAstNode) : Prop :=
  ∀ node ∈ nodes, ∀ e, written node ≠ some (shadow, e)

/-- Instructions after which a register holds the predicate. -/
def Captures (eval : (String → Bool) → D → String → Bool) (shadow : String) (pred : D → Bool)
    (nodes : List ActionAstNode) : Prop :=
  ∀ r d, nodes.foldl (execNode eval d) r shadow = pred d

variable {l m : List ActionAstNode}

theorem Silent.append (hl : Silent shadow l) (hm : Silent shadow m) :
    Silent shadow (l ++ m) := by
  intro node hnode
  exact (List.mem_append.mp hnode).elim (hl node) (hm node)

theorem Silent.foldl {nodes : List ActionAstNode} (h : Silent shadow nodes) (d : D) :
    ∀ r, nodes.foldl (execNode eval d) r shadow = r shadow := by
  induction nodes with
  | nil => exact fun r => rfl
  | cons node nodes ih =>
    intro r
    have hnode := h node List.mem_cons_self
    have hstep : execNode eval d r node shadow = r shadow := by
      unfold execNode
      cases hw : written node with
      | none => rfl
      | some w =>
        have hne : shadow ≠ w.1 := fun heq => hnode w.2 (heq ▸ hw)
        exact Function.update_of_ne hne _ _
    rw [List.foldl_cons, ih (fun n hn => h n (List.mem_cons_of_mem _ hn)), hstep]

theorem Captures.append_silent (hl : Captures eval shadow pred l)
    (hm : Silent shadow m) : Captures eval shadow pred (l ++ m) := by
  intro r d
  rw [List.foldl_append, hm.foldl, hl]

theorem Captures.append_left {m : List ActionAstNode} (hm : Captures eval shadow pred m)
    (l : List ActionAstNode) : Captures eval shadow pred (l ++ m) := by
  intro r d
  rw [List.foldl_append]
  exact hm _ d

/-- The instruction of the assignment to a shadow register. -/
def shadowStore (shadow raw : String) : ActionAstNode := .store (toStore (shadowAssign shadow raw))

theorem captures_shadowStore (hraw : ∀ r d, eval r d raw = pred d) :
    Captures eval shadow pred [shadowStore shadow raw] := by
  intro r d
  show Function.update r shadow (eval r d raw) shadow = pred d
  rw [Function.update_self, hraw]

theorem silent_shadowStore {other : String} (h : other ≠ shadow) : Silent shadow [shadowStore other raw] := by
  intro node hnode e heq
  obtain rfl := List.mem_singleton.mp hnode
  have hpair : (other, raw) = (shadow, e) := Option.some.inj heq
  exact h (congrArg Prod.fst hpair)

theorem nodesOf_loweredAction (t : TransitionEdge) (shadow raw : String) :
    ∃ before after, nodesOf (loweredAction t shadow raw) =
        before ++ shadowStore shadow raw :: after ∧
      ∀ node ∈ before ++ after, ∃ a, t.transitionAction = some a ∧ node ∈ nodesOf a := by
  unfold loweredAction
  cases haction : t.transitionAction with
  | none => exact ⟨[], [], rfl, by simp⟩
  | some a =>
    by_cases hname : a.name ≠ ""
    · refine ⟨a.assignments.map fun x => .store (toStore x), a.instructions, ?_, ?_⟩
      · simp [nodesOf, shadowStore, hname]
      · exact fun node hnode => ⟨a, rfl, hnode⟩
    · refine ⟨[], [], ?_, by simp⟩
      simp only [if_neg hname]
      rfl

theorem Fresh.silent {ir : FsmIr} (h : Fresh ir shadow) {acts : List ActionSignature}
    (hacts : ∀ act ∈ acts, act ∈ actionsOf ir) : Silent shadow (acts.flatMap nodesOf) := by
  intro node hnode
  obtain ⟨act, hact, hnode⟩ := List.mem_flatMap.mp hnode
  exact h act (hacts act hact) node hnode

end Execution

/-! ## The lowered machine -/

section Lowering

variable {ir : FsmIr} {i : Nat} {t : TransitionEdge}

theorem find?_modifyFirst {α : Type*} {p q : α → Bool} {f : α → α} (hq : ∀ a, q (f a) = q a) :
    ∀ l : List α, (modifyFirst p f l).find? q = l.find? q ∨
      (modifyFirst p f l).find? q = (l.find? q).map f := by
  intro l
  induction l with
  | nil => exact Or.inl rfl
  | cons a l ih =>
    unfold modifyFirst
    cases hp : p a with
    | true =>
      rw [if_pos rfl]
      cases hqa : q a with
      | true =>
        right
        rw [List.find?_cons_of_pos ((hq a).trans hqa), List.find?_cons_of_pos hqa]
        rfl
      | false =>
        left
        rw [List.find?_cons_of_neg (by simp [hq, hqa]), List.find?_cons_of_neg (by simp [hqa])]
    | false =>
      rw [if_neg (by simp)]
      cases hqa : q a with
      | true =>
        left
        rw [List.find?_cons_of_pos hqa, List.find?_cons_of_pos hqa]
      | false =>
        rw [List.find?_cons_of_neg (by simp [hqa]), List.find?_cons_of_neg (by simp [hqa])]
        exact ih

theorem find?_modifyFirst_self {α : Type*} {p : α → Bool} {f : α → α} (hp : ∀ a, p (f a) = p a) :
    ∀ l : List α, (modifyFirst p f l).find? p = (l.find? p).map f := by
  intro l
  induction l with
  | nil => rfl
  | cons a l ih =>
    unfold modifyFirst
    cases hpa : p a with
    | true =>
      rw [if_pos rfl, List.find?_cons_of_pos ((hp a).trans hpa), List.find?_cons_of_pos hpa]
      rfl
    | false =>
      rw [if_neg (by simp), List.find?_cons_of_neg (by simp [hpa]),
        List.find?_cons_of_neg (by simp [hpa]), ih]

theorem sourceNode_appendEntry (ir : FsmIr) (other source : String) (act : ActionSignature) :
    sourceNode (appendEntry ir other act) source = sourceNode ir source ∨
      sourceNode (appendEntry ir other act) source = (sourceNode ir source).map (addEntry act) := by
  have hlookup : ∀ p q : StateNode → Bool, (∀ s, q (addEntry act s) = q s) →
      (modifyFirst p (addEntry act) ir.states).find? q = ir.states.find? q ∨
        (modifyFirst p (addEntry act) ir.states).find? q =
          (ir.states.find? q).map (addEntry act) := fun p q hq => find?_modifyFirst hq ir.states
  have hcases : ∀ p : StateNode → Bool,
      let m : FsmIr := { ir with states := modifyFirst p (addEntry act) ir.states }
      sourceNode m source = sourceNode ir source ∨
        sourceNode m source = (sourceNode ir source).map (addEntry act) := by
    intro p
    have hname := hlookup p (fun s => s.name = source) fun _ => rfl
    have hid := hlookup p (fun s => s.id = source) fun _ => rfl
    intro m
    show (m.states.find? _).or (m.states.find? _) = _ ∨ _
    unfold sourceNode FsmIr.findState FsmIr.findStateById
    cases hfind : ir.states.find? fun s => s.name = source with
    | some s =>
      rw [hfind] at hname
      rcases hname with h | h
      · exact Or.inl (by rw [show m.states.find? (fun s => s.name = source) = some s from h]; rfl)
      · exact Or.inr (by rw [show m.states.find? (fun s => s.name = source) = _ from h]; rfl)
    | none =>
      rw [hfind] at hname
      have hnone : m.states.find? (fun s => s.name = source) = none := hname.elim id id
      rw [hnone, Option.none_or, Option.none_or]
      exact hid
  unfold appendEntry
  cases ir.findState other with
  | some s => exact hcases _
  | none => exact hcases _

theorem sourceNode_appendEntry_self (ir : FsmIr) (source : String) (act : ActionSignature) :
    sourceNode (appendEntry ir source act) source = (sourceNode ir source).map (addEntry act) := by
  unfold appendEntry
  cases hfind : ir.findState source with
  | some s =>
    have hself : (ir.modifyState source (addEntry act)).findState source = some (addEntry act s) :=
      (find?_modifyFirst_self (f := addEntry act) (fun _ => rfl) ir.states).trans
        (congrArg (Option.map (addEntry act)) hfind)
    show ((ir.modifyState source (addEntry act)).findState source).or _ = _
    unfold sourceNode
    rw [hself, hfind]
    rfl
  | none =>
    let m : FsmIr :=
      { ir with states := modifyFirst (fun s => s.id = source) (addEntry act) ir.states }
    have hnone : m.findState source = none := by
      have hname := find?_modifyFirst (p := fun s => s.id = source) (f := addEntry act)
        (q := fun s => s.name = source) (fun _ => rfl) ir.states
      have hnone' : ir.states.find? (fun s => s.name = source) = none := hfind
      rw [hnone'] at hname
      exact hname.elim id id
    have hid : m.findStateById source = (ir.findStateById source).map (addEntry act) :=
      find?_modifyFirst_self (f := addEntry act) (fun _ => rfl) ir.states
    show (m.findState source).or (m.findStateById source) = _
    unfold sourceNode
    rw [hnone, hid, hfind, Option.none_or, Option.none_or]

theorem sourceNode_declareShadow (ir : FsmIr) (shadow source : String) :
    sourceNode (declareShadow ir shadow) source = sourceNode ir source := by
  unfold declareShadow
  split <;> rfl

theorem lowerUpTo_succ (ir : FsmIr) (n : Nat) : lowerUpTo ir (n + 1) = lowerOne (lowerUpTo ir n) n := by
  unfold lowerUpTo
  rw [List.range_succ, List.foldl_append]
  rfl

theorem transitions_lowerOne (ir : FsmIr) (i j : Nat) : (lowerOne ir i).transitions[j]? =
    if i = j then ir.transitions[j]?.map (lowerEdge j) else ir.transitions[j]? := by
  unfold lowerOne
  cases hi : ir.transitions[i]? with
  | none =>
    show ir.transitions[j]? = _
    by_cases hij : i = j
    · subst hij
      simp [hi]
    · rw [if_neg hij]
  | some t =>
    show (ir.transitions.set i (lowerEdge i t))[j]? = _
    rw [List.getElem?_set]
    by_cases hij : i = j
    · subst hij
      obtain ⟨hlt, heq⟩ := List.getElem?_eq_some_iff.mp hi
      simp [hlt, heq]
    · rw [if_neg hij, if_neg hij]

theorem transitions_lowerUpTo (ir : FsmIr) (n j : Nat) : (lowerUpTo ir n).transitions[j]? =
    if j < n then ir.transitions[j]?.map (lowerEdge j) else ir.transitions[j]? := by
  induction n with
  | zero => simp [lowerUpTo]
  | succ n ih =>
    rw [lowerUpTo_succ, transitions_lowerOne, ih]
    by_cases hn : n = j
    · subst hn
      simp
    · have hiff : j < n + 1 ↔ j < n := by omega
      simp [hn, hiff]

theorem transitions_run (ir : FsmIr) (j : Nat) : (run ir).transitions[j]? = ir.transitions[j]?.map (lowerEdge j) := by
  unfold run
  rw [transitions_lowerUpTo]
  split
  · rfl
  · rename_i h
    have hnone : ir.transitions[j]? = none := List.getElem?_eq_none (by omega)
    rw [hnone]
    rfl

theorem entryOf_appendEntry (ir : FsmIr) (other source : String) (act : ActionSignature) :
    entryOf (appendEntry ir other act) source = entryOf ir source ∨
      entryOf (appendEntry ir other act) source = entryOf ir source ++ [act] := by
  unfold entryOf
  rcases sourceNode_appendEntry ir other source act with h | h
  · exact Or.inl (by rw [h])
  · rw [h]
    cases sourceNode ir source with
    | none => exact Or.inl rfl
    | some s => exact Or.inr rfl

theorem isSome_sourceNode_lowerOne {ir : FsmIr} {source : String} (n : Nat)
    (h : (sourceNode ir source).isSome = true) : (sourceNode (lowerOne ir n) source).isSome = true := by
  unfold lowerOne
  cases hn : ir.transitions[n]? with
  | none => exact h
  | some t =>
    show (sourceNode (prepare ir n t) source).isSome = true
    unfold prepare
    cases t.trigger with
    | change raw predicate activeOnTrue =>
      show (sourceNode (if raw = "" then ir else _) source).isSome = true
      split
      · exact h
      · rcases sourceNode_appendEntry (declareShadow ir (shadowVar t.source n)) t.source source
          (initAction (shadowVar t.source n) raw) with hsame | hmap
        · rw [hsame, sourceNode_declareShadow]
          exact h
        · rw [hmap, Option.isSome_map, sourceNode_declareShadow]
          exact h
    | _ => exact h

theorem entryOf_lowerOne (ir : FsmIr) (source : String) (n : Nat) :
    entryOf (lowerOne ir n) source = entryOf ir source ∨
      ∃ other raw, entryOf (lowerOne ir n) source =
        entryOf ir source ++ [initAction (shadowVar other n) raw] := by
  unfold lowerOne
  cases hn : ir.transitions[n]? with
  | none => exact Or.inl rfl
  | some t =>
    show entryOf (prepare ir n t) source = _ ∨ ∃ other raw, entryOf (prepare ir n t) source = _
    unfold prepare
    cases t.trigger with
    | change raw predicate activeOnTrue =>
      show entryOf (if raw = "" then ir else _) source = _ ∨
        ∃ other raw', entryOf (if raw = "" then ir else _) source = _
      split
      · exact Or.inl rfl
      · have hsame : entryOf (declareShadow ir (shadowVar t.source n)) source =
            entryOf ir source := by
          unfold entryOf
          rw [sourceNode_declareShadow]
        rw [← hsame]
        exact (entryOf_appendEntry _ _ _ _).imp_right fun h => ⟨t.source, raw, h⟩
    | _ => exact Or.inl rfl

theorem entryOf_lowerOne_self {ir : FsmIr} {raw : String} {activeOnTrue : Bool} (hmem : ir.transitions[i]? = some t)
    (htrigger : ∃ predicate, t.trigger = .change raw predicate activeOnTrue) (hraw : raw ≠ "")
    (hsource : (sourceNode ir t.source).isSome = true) :
    entryOf (lowerOne ir i) t.source =
      entryOf ir t.source ++ [initAction (shadowVar t.source i) raw] := by
  obtain ⟨predicate, htrigger⟩ := htrigger
  obtain ⟨s, hs⟩ := Option.isSome_iff_exists.mp hsource
  have hnode : sourceNode (lowerOne ir i) t.source =
      some (addEntry (initAction (shadowVar t.source i) raw) s) := by
    unfold lowerOne
    rw [hmem]
    show sourceNode (prepare ir i t) t.source = _
    unfold prepare
    rw [htrigger]
    show sourceNode (if raw = "" then ir else _) t.source = _
    rw [if_neg hraw, sourceNode_appendEntry_self, sourceNode_declareShadow, hs]
    rfl
  unfold entryOf
  rw [hnode, hs]
  rfl

end Lowering

/-! ## The shadow register along the samples -/

section Run

variable {D : Type*} {eval : (String → Bool) → D → String → Bool} {ir : FsmIr} {i : Nat}
  {t : TransitionEdge} {raw : String} {activeOnTrue : Bool} {pred extra : D → Bool}

theorem silent_entryOf (hfresh : Fresh ir (shadowVar t.source i)) :
    Silent (shadowVar t.source i) ((entryOf ir t.source).flatMap nodesOf) := by
  apply hfresh.silent
  intro act hact
  unfold entryOf at hact
  cases hnode : sourceNode ir t.source with
  | none => simp [hnode] at hact
  | some s =>
    have hs : s ∈ ir.states := by
      rcases Option.or_eq_some_iff.mp hnode with h | ⟨_, h⟩
      · exact List.mem_of_find?_eq_some h
      · exact List.mem_of_find?_eq_some h
    have hact' : act ∈ s.entryActions := by simpa [hnode] using hact
    unfold actionsOf
    exact List.mem_append_left _ (List.mem_flatMap.mpr ⟨s, hs, List.mem_append_left _ hact'⟩)

/-- Before the turn of the transition the entry actions of its source leave the register alone, and after
it they store the predicate. -/
theorem entryOf_lowerUpTo (h : Triggered ir i t raw activeOnTrue) (hraw : ∀ r d, eval r d raw = pred d) (n : Nat) :
    (sourceNode (lowerUpTo ir n) t.source).isSome = true ∧
      if n ≤ i then
        Silent (shadowVar t.source i) ((entryOf (lowerUpTo ir n) t.source).flatMap nodesOf)
      else Captures eval (shadowVar t.source i) pred
        ((entryOf (lowerUpTo ir n) t.source).flatMap nodesOf) := by
  induction n with
  | zero =>
    refine ⟨h.source, ?_⟩
    rw [if_pos (Nat.zero_le i)]
    exact silent_entryOf h.fresh
  | succ n ih =>
    obtain ⟨hsome, hentry⟩ := ih
    rw [lowerUpTo_succ]
    refine ⟨isSome_sourceNode_lowerOne n hsome, ?_⟩
    by_cases hn : n = i
    · subst hn
      rw [if_pos le_rfl] at hentry
      have hmem : (lowerUpTo ir n).transitions[n]? = some t := by
        rw [transitions_lowerUpTo, if_neg (lt_irrefl n)]
        exact h.mem
      rw [if_neg (by omega), entryOf_lowerOne_self hmem h.trigger h.nonempty hsome,
        List.flatMap_append]
      exact (captures_shadowStore hraw).append_left _
    · have hother : ∀ other raw', Silent (shadowVar t.source i)
          ([initAction (shadowVar other n) raw'].flatMap nodesOf) := fun other raw' =>
        silent_shadowStore fun heq => hn (shadowVar_injective heq)
      have hiff : n + 1 ≤ i ↔ n ≤ i := by omega
      simp only [hiff]
      rcases entryOf_lowerOne (lowerUpTo ir n) t.source n with hsame | ⟨other, raw', happ⟩
      · rw [hsame]
        exact hentry
      · rw [happ, List.flatMap_append]
        split at hentry
        · rw [if_pos ‹_›]
          exact hentry.append (hother other raw')
        · rw [if_neg ‹_›]
          exact hentry.append_silent (hother other raw')

theorem captures_entry (h : Triggered ir i t raw activeOnTrue) (hraw : ∀ r d, eval r d raw = pred d) :
    Captures eval (shadowVar t.source i) pred ((entryOf (run ir) t.source).flatMap nodesOf) := by
  have hlt : i < ir.transitions.length := (List.getElem?_eq_some_iff.mp h.mem).1
  have hentry := (entryOf_lowerUpTo h hraw ir.transitions.length).2
  rw [if_neg (by omega)] at hentry
  exact hentry

theorem lowerEdge_of_triggered (h : Triggered ir i t raw activeOnTrue) :
    (lowerEdge i t).transitionAction = some (loweredAction t (shadowVar t.source i) raw) ∧
      (lowerEdge i t).conditionAction = t.conditionAction ∧ (lowerEdge i t).trigger = .anonymous ∧
        (lowerEdge i t).getGuard =
          loweredGuard t (edgeGuard (shadowVar t.source i) raw activeOnTrue) := by
  obtain ⟨predicate, htrigger⟩ := h.trigger
  unfold lowerEdge
  rw [htrigger]
  simp only [if_neg h.nonempty, TransitionEdge.getGuard, GuardAstNode.toCpp]
  exact ⟨trivial, trivial, trivial, trivial⟩

theorem mem_actionsOf_of_edge (ht : t ∈ ir.transitions) {act : ActionSignature}
    (hact : act ∈ actionsOfEdge t) : act ∈ actionsOf ir := by
  unfold actionsOf
  refine List.mem_append_right _ (List.mem_flatMap.mpr ⟨t, ht, ?_⟩)
  unfold actionsOfEdge at hact
  exact List.mem_append.mpr (List.mem_append.mp hact).symm

theorem captures_own (h : Triggered ir i t raw activeOnTrue) (hraw : ∀ r d, eval r d raw = pred d) :
    Captures eval (shadowVar t.source i) pred ((actionsOfEdge (lowerEdge i t)).flatMap nodesOf) := by
  obtain ⟨haction, hcondition, _⟩ := lowerEdge_of_triggered h
  have ht : t ∈ ir.transitions := List.mem_of_getElem? h.mem
  unfold actionsOfEdge
  rw [haction, List.flatMap_append]
  obtain ⟨before, after, hnodes, hrest⟩ := nodesOf_loweredAction t (shadowVar t.source i) raw
  have hafter : Silent (shadowVar t.source i) after := by
    intro node hnode
    obtain ⟨a, ha, hmem⟩ := hrest node (List.mem_append_right _ hnode)
    have hact : a ∈ actionsOfEdge t := List.mem_append_right _ (by simp [ha])
    exact h.fresh a (mem_actionsOf_of_edge ht hact) node hmem
  have hsplit : before ++ shadowStore (shadowVar t.source i) raw :: after =
      before ++ ([shadowStore (shadowVar t.source i) raw] ++ after) := rfl
  simp only [Option.toList_some, List.flatMap_cons, List.flatMap_nil, List.append_nil, hnodes, hsplit]
  exact (((captures_shadowStore hraw).append_silent hafter).append_left _).append_left _

theorem silent_other (h : Triggered ir i t raw activeOnTrue) {j : Nat} (hj : j ≠ i)
    {u : TransitionEdge} (hu : ir.transitions[j]? = some u) :
    Silent (shadowVar t.source i) ((actionsOfEdge (lowerEdge j u)).flatMap nodesOf) := by
  have hmem : u ∈ ir.transitions := List.mem_of_getElem? hu
  have hold : Silent (shadowVar t.source i) ((actionsOfEdge u).flatMap nodesOf) :=
    h.fresh.silent fun act hact => mem_actionsOf_of_edge hmem hact
  unfold lowerEdge
  cases htrigger : u.trigger with
  | change raw' predicate active =>
    by_cases hempty : raw' = ""
    · simp only [if_pos hempty]
      exact hold
    · simp only [if_neg hempty]
      obtain ⟨before, after, hnodes, hrest⟩ := nodesOf_loweredAction u (shadowVar u.source j) raw'
      intro node hnode
      unfold actionsOfEdge at hnode
      simp only [Option.toList_some, List.flatMap_append, List.flatMap_cons, List.flatMap_nil,
        List.append_nil, hnodes, List.mem_append, List.mem_cons] at hnode
      have hkept : ∀ n ∈ before ++ after, ∀ e, written n ≠ some (shadowVar t.source i, e) := by
        intro n hn
        obtain ⟨a, ha, hmema⟩ := hrest n hn
        have hact : a ∈ actionsOfEdge u := List.mem_append_right _ (by simp [ha])
        exact h.fresh a (mem_actionsOf_of_edge hmem hact) n hmema
      rcases hnode with hcond | hbefore | rfl | hafter
      · refine hold node ?_
        unfold actionsOfEdge
        rw [List.flatMap_append]
        exact List.mem_append_left _ hcond
      · exact hkept node (List.mem_append_left _ hbefore)
      · exact silent_shadowStore (fun heq => hj (shadowVar_injective heq)) _ List.mem_cons_self
      · exact hkept node (List.mem_append_right _ hafter)
  | signal _ => exact hold
  | time _ _ _ => exact hold
  | anonymous => exact hold

theorem reenters_lowerEdge (j : Nat) (u : TransitionEdge) : reenters (lowerEdge j u) = reenters u := by
  unfold lowerEdge
  split
  · split <;> rfl
  · rfl

theorem after_shadow (h : Triggered ir i t raw activeOnTrue) (hraw : ∀ r d, eval r d raw = pred d)
    (r : String → Bool) (s : Sample D) :
    after eval (run ir) t.source r s (shadowVar t.source i) =
      if writes ir i s then pred s.data else r (shadowVar t.source i) := by
  unfold after writes
  cases htakes : s.takes with
  | none => rfl
  | some j =>
    rw [Option.bind_some, Option.bind_some, transitions_run]
    cases hu : ir.transitions[j]? with
    | none =>
      have hj : j ≠ i := fun heq => by
        rw [heq, h.mem] at hu
        exact absurd hu (by simp)
      simp [hj]
    | some u =>
      simp only [Option.map_some, Option.any_some]
      unfold execAll performed
      rw [reenters_lowerEdge]
      by_cases hre : reenters u = true
      · rw [if_pos hre, if_pos (by simp [hre]), List.flatMap_append]
        exact (captures_entry h hraw).append_left _ _ _
      · rw [if_neg hre]
        by_cases hj : j = i
        · subst hj
          obtain rfl : u = t := Option.some.inj (hu.symm.trans h.mem)
          simpa using captures_own h hraw r s.data
        · simpa [hj, hre] using (silent_other h hj hu).foldl s.data r

theorem registers_shadow (h : Triggered ir i t raw activeOnTrue) (hraw : ∀ r d, eval r d raw = pred d)
    (r₀ : String → Bool) (d₀ : D) (samples : List (Sample D)) :
    registers eval (run ir) t.source r₀ d₀ samples (shadowVar t.source i) =
      pred (captured ir i d₀ samples) := by
  induction samples using List.reverseRecOn with
  | nil => exact captures_entry h hraw r₀ d₀
  | append_singleton samples s ih =>
    have hstep := after_shadow h hraw (registers eval (run ir) t.source r₀ d₀ samples) s
    unfold registers captured at *
    rw [List.foldl_append, List.foldl_append]
    show after eval (run ir) t.source _ s _ = pred (if writes ir i s then s.data else _)
    rw [hstep, ih]
    split <;> rfl

theorem enabled_lowerEdge (h : Triggered ir i t raw activeOnTrue)
    (hreads : Reads eval i t raw activeOnTrue pred extra) (r : String → Bool) (d : D) :
    Enabled eval r d (lowerEdge i t) ↔
      r (shadowVar t.source i) = !activeOnTrue ∧ pred d = activeOnTrue ∧ extra d = true := by
  have hguard := (lowerEdge_of_triggered h).2.2.2
  have hedge : edgeGuard (shadowVar t.source i) raw activeOnTrue ≠ "" := by
    unfold edgeGuard
    intro heq
    have hlen := congrArg String.length heq
    split at hlen <;> simp [String.length_append] at hlen
  unfold Enabled
  rw [hguard]
  unfold loweredGuard
  cases hextra : extraGuard t with
  | none =>
    have htrue := hreads.unguarded hextra d
    simp only [hedge, false_or, hreads.edge, htrue, and_true]
    cases activeOnTrue <;> simp
  | some g =>
    have hne : "(" ++ edgeGuard (shadowVar t.source i) raw activeOnTrue ++ " && (" ++ g ++ "))" ≠ "" := by
      intro heq
      have hlen := congrArg String.length heq
      simp [String.length_append] at hlen
    simp only [hne, false_or, hreads.guarded g hextra, hreads.edge, Bool.and_eq_true]
    cases activeOnTrue <;> simp [and_assoc]

/-! ## The result -/

/-- The transition fires on the edges exactly if, whenever the predicate has its active value and the
guard holds, the predicate had the same value at the last sample at which the register was written as at
the previous sample. -/
theorem firesOnEdges_iff (h : Triggered ir i t raw activeOnTrue)
    (hreads : Reads eval i t raw activeOnTrue pred extra) (r₀ : String → Bool) (d₀ : D)
    (samples : List (Sample D)) :
    FiresOnEdges eval ir i t activeOnTrue pred extra r₀ d₀ samples ↔
      ∀ pre s post, samples = pre ++ s :: post → pred s.data = activeOnTrue → extra s.data = true →
        pred (captured ir i d₀ pre) = pred (previous d₀ pre) := by
  have henabled : ∀ (pre : List (Sample D)) (s : Sample D),
      Enabled eval (registers eval (run ir) t.source r₀ d₀ pre) s.data (lowerEdge i t) ↔
        pred (captured ir i d₀ pre) = !activeOnTrue ∧ pred s.data = activeOnTrue ∧
          extra s.data = true := by
    intro pre s
    rw [enabled_lowerEdge h hreads, registers_shadow h hreads.predicate]
  have hlowered : (run ir).transitions[i]? = some (lowerEdge i t) := by
    rw [transitions_run, h.mem]
    rfl
  constructor
  · rintro ⟨t', ht', _, hall⟩ pre s post hsplit hpred hextra
    obtain rfl : lowerEdge i t = t' := Option.some.inj (hlowered.symm.trans ht')
    have hiff := (henabled pre s).symm.trans (hall pre s post hsplit)
    simp only [hpred, hextra, and_true] at hiff
    cases hc : pred (captured ir i d₀ pre) <;> cases hp : pred (previous d₀ pre) <;>
      cases activeOnTrue <;> simp_all
  · intro hcond
    refine ⟨lowerEdge i t, hlowered, (lowerEdge_of_triggered h).2.2.1, ?_⟩
    intro pre s post hsplit
    rw [henabled]
    constructor
    · rintro ⟨hcaptured, hpred, hextra⟩
      exact ⟨(hcond pre s post hsplit hpred hextra).symm.trans hcaptured, hpred, hextra⟩
    · rintro ⟨hprevious, hpred, hextra⟩
      exact ⟨(hcond pre s post hsplit hpred hextra).trans hprevious, hpred, hextra⟩

end Run

/-- A state that waits for a predicate to become true. -/
def watching : FsmIr where
  initialState := "Watching"
  states := [{ name := "Watching" }, { name := "Alarm" }]
  transitions := [{ source := "Watching", target := "Alarm", trigger := .change "hot" }]

def alarm : TransitionEdge := { source := "Watching", target := "Alarm", trigger := .change "hot" }

/-- The meaning of the texts of the machine, where a sample is the value of `hot`. -/
def readHot (r : String → Bool) (hot : Bool) (text : String) : Bool :=
  if text = "hot" then hot
  else if text = "(!__change_Watching_0_prev && (hot))" then !r "__change_Watching_0_prev" && hot
  else r text

theorem watching_triggered : Triggered watching 0 alarm "hot" true where
  mem := rfl
  trigger := ⟨none, rfl⟩
  nonempty := by decide
  source := by decide
  fresh := by
    intro act hact
    simp [actionsOf, watching] at hact

theorem readHot_reads : Reads readHot 0 alarm "hot" true (fun hot => hot) (fun _ => true) where
  predicate _ _ := rfl
  edge _ _ := rfl
  guarded g hg := by simp [extraGuard, alarm] at hg
  unguarded _ _ := rfl

/-- Entered while it is cold, the state notices that it gets hot. -/
theorem watching_firesOnEdges : FiresOnEdges readHot watching 0 alarm true (fun hot => hot)
    (fun _ => true) (fun _ => false) false [⟨false, none⟩, ⟨true, none⟩] := by
  rw [firesOnEdges_iff watching_triggered readHot_reads]
  intro pre s post hsplit hpred _
  match pre, hsplit with
  | [], hsplit =>
    obtain rfl := (List.cons.inj hsplit).1
    exact absurd hpred (by decide)
  | [x], hsplit =>
    obtain rfl := (List.cons.inj hsplit).1
    rfl
  | x :: y :: pre, hsplit =>
    have hlen := congrArg List.length hsplit
    simp at hlen

/-- Entered while it is hot, it misses that it gets cold and hot again. -/
theorem watching_not_firesOnEdges : ¬ FiresOnEdges readHot watching 0 alarm true (fun hot => hot)
    (fun _ => true) (fun _ => false) true [⟨false, none⟩, ⟨true, none⟩] := by
  rintro ⟨t', ht', _, hall⟩
  obtain rfl : lowerEdge 0 alarm = t' := Option.some.inj ht'
  have henabled := (hall [⟨false, none⟩] ⟨true, none⟩ [] rfl).mpr ⟨rfl, rfl, rfl⟩
  rw [enabled_lowerEdge watching_triggered readHot_reads,
    registers_shadow watching_triggered readHot_reads.predicate] at henabled
  exact absurd henabled.1 (by decide)

end Fsmc.Passes.SampledChangeTrigger
