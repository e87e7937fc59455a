/-
# Fsmc.Runtime.Activity — what a machine reads and writes along a path of transitions.

In a state the machine checks the invariants, the guards and the triggers of the outgoing transitions;
on a transition it executes the exit actions, the actions of the transition and the entry actions of
the target. A location is live before a sequence of activities when it may be read before it is
overwritten.
-/
import Fsmc.Lib.SharedStorage
import Fsmc.Runtime.Datapath

namespace Fsmc.Runtime

open Fsmc.Ir Fsmc.Lib.DeadStore Fsmc.Lib.SharedStorage

/-- A text is evaluated, or an instruction executed. -/
inductive Activity where
  | check (text : String)
  | perform (node : ActionAstNode)

def Activity.reads : Activity → List String
  | .check text => extractIdentifiers text
  | .perform node => readsOf node

/-- The location is written in any case. -/
def Activity.Overwrites : Activity → Location → Prop
  | .perform (.store op), l => l.Inside (locationOf op.target)
  | .perform (.portRead op), l => l.Inside (locationOf op.destination)
  | _, _ => False

/-- The location may be written. -/
def Activity.MayWrite : Activity → Location → Prop
  | .perform (.store op), l => l.Inside (locationOf op.target)
  | .perform (.portWrite op), l => l.Inside ⟨.outPort, op.portName, []⟩
  | .perform (.portRead op), l => l.Inside (locationOf op.destination)
  | .perform (.actionCall op), l => l.domain = .register ∧ l.name ∈ op.writeSet
  | _, _ => False

/-- The locations that may be read before they are overwritten, `A` being live at the end. -/
def liveBefore (A : Set Location) : List Activity → Set Location
  | [] => A
  | a :: rest => { l | l.name ∈ a.reads ∨ (¬ a.Overwrites l ∧ l ∈ liveBefore A rest) }

theorem liveBefore_append (A : Set Location) (p q : List Activity) :
    liveBefore A (p ++ q) = liveBefore (liveBefore A q) p := by
  induction p with
  | nil => rfl
  | cons a p ih =>
    show { l | _ ∨ (_ ∧ l ∈ liveBefore A (p ++ q)) } = _
    rw [ih]
    rfl

theorem liveBefore_mono {A B : Set Location} (h : A ⊆ B) (p : List Activity) : liveBefore A p ⊆ liveBefore B p := by
  induction p with
  | nil => exact h
  | cons a p ih => exact fun l hl => hl.imp_right (And.imp_right fun hmem => ih hmem)

namespace Datapath

universe u

variable {ir : FsmIr} {S : Type u} (d : Datapath ir S)

/-- An activity as a step over the store. -/
def activityStep : Activity → Step Location S (Emission S)
  | .check text =>
    { reads := { l | l.name ∈ extractIdentifiers text }
      write := fun _ _ => none
      emit := fun σ => [.check (d.eval text σ)]
      write_congr := fun _ => rfl
      emit_congr := fun h => by rw [d.eval_congr fun l hl => h hl] }
  | .perform node => d.step node

variable {l : Location}

variable {a : Activity}

theorem mayWrite_of_touches (h : (d.activityStep a).Touches l) : a.MayWrite l := by
  obtain ⟨σ, hσ⟩ := h
  cases a with
  | check text => exact absurd hσ (by simp [activityStep])
  | perform node =>
    cases node with
    | store op => exact place_isSome.mp hσ
    | portWrite op => exact place_isSome.mp hσ
    | portRead op => exact place_isSome.mp hσ
    | signalEmit op => exact absurd hσ (by simp [activityStep, step])
    | actionCall op =>
      show l.domain = .register ∧ l.name ∈ op.writeSet
      by_contra hnot
      have hcalled : (d.called op σ l).isSome = true := hσ
      simp [called, hnot] at hcalled

theorem covers_of_overwrites (h : a.Overwrites l) : (d.activityStep a).Covers l := by
  intro σ
  cases a with
  | check text => exact absurd h id
  | perform node =>
    cases node with
    | store op => exact place_isSome.mpr h
    | portRead op => exact place_isSome.mpr h
    | portWrite op => exact absurd h id
    | signalEmit op => exact absurd h id
    | actionCall op => exact absurd h id

theorem mem_reads_of_mem_activityStep (hdomain : l.domain ≠ .inPort)
    (h : l ∈ (d.activityStep a).reads) : l.name ∈ a.reads := by
  cases a with
  | check text => exact h
  | perform node => exact d.mem_readsOf_of_mem_reads hdomain h

theorem mem_liveBefore_of_live {acts : List Activity} (hdomain : l.domain ≠ .inPort)
    (h : l ∈ live (acts.map d.activityStep)) : l ∈ liveBefore ∅ acts := by
  induction acts with
  | nil => exact absurd (Set.mem_univ l) h
  | cons a acts ih =>
    by_cases hread : l ∈ (d.activityStep a).reads
    · exact Or.inl (d.mem_reads_of_mem_activityStep hdomain hread)
    · right
      have hnot : ¬ ((d.activityStep a).Covers l ∨ l ∈ dead Set.univ (acts.map d.activityStep)) :=
        fun hdead => h ⟨hread, hdead⟩
      rw [not_or] at hnot
      exact ⟨fun hover => hnot.1 (d.covers_of_overwrites hover), ih hnot.2⟩

end Datapath

/-! ## Paths -/

/-- The state that a transition leaves. -/
def sourceIdOf (ir : FsmIr) (t : TransitionEdge) : String := ir.resolveStateId t.sourceId t.source

/-- The state that a transition points to. -/
def targetIdOf (ir : FsmIr) (t : TransitionEdge) : String := ir.resolveStateId t.targetId t.target

/-- The state that the machine is in after a transition. -/
def nextIdOf (ir : FsmIr) (t : TransitionEdge) : String :=
  if t.kind = .internal then sourceIdOf ir t else targetIdOf ir t

/-- The texts that decide whether a transition is taken. -/
def checkedTexts (ir : FsmIr) (t : TransitionEdge) : List String :=
  t.getGuard ::
    ((ir.guards.filter fun g => g.name ∈ extractIdentifiers t.getGuard).flatMap fun g =>
      g.rawExpression.toList ++ g.normalizedExpression.toList) ++
    match t.trigger with
    | .time _ _ dynamicExpression => [dynamicExpression]
    | .change rawExpression _ _ => [rawExpression]
    | _ => []

def checks (ir : FsmIr) (stateId : String) : List Activity :=
  ((ir.findStateById stateId).toList.flatMap (fun s => s.invariants.map (·.toCpp)) ++
    (ir.transitions.filter fun t => sourceIdOf ir t = stateId).flatMap (checkedTexts ir)).map .check

/-- The instructions of a list of actions. -/
def performAll (acts : List ActionSignature) : List Activity := (acts.flatMap nodesOf).map .perform

def entry (ir : FsmIr) (stateId : String) : List Activity :=
  performAll ((ir.findStateById stateId).toList.flatMap (·.entryActions))

def exit (ir : FsmIr) (stateId : String) : List Activity :=
  performAll ((ir.findStateById stateId).toList.flatMap (·.exitActions))

/-- Being in a state and leaving it by a transition, up to the end of the entry actions. -/
def block (ir : FsmIr) (t : TransitionEdge) : List Activity :=
  let effect := performAll (t.conditionAction.toList ++ t.transitionAction.toList)
  checks ir (sourceIdOf ir t) ++
    if t.kind = .internal then effect
    else exit ir (sourceIdOf ir t) ++ effect ++ entry ir (targetIdOf ir t)

/-- Transitions taken one after the other, from one state to another. -/
inductive Path (ir : FsmIr) : String → List TransitionEdge → String → Prop
  | nil (s : String) : Path ir s [] s
  | cons {t : TransitionEdge} {path : List TransitionEdge} {last : String} : t ∈ ir.transitions →
      Path ir (nextIdOf ir t) path last → Path ir (sourceIdOf ir t) (t :: path) last

theorem Path.step {ir : FsmIr} {s next last : String} {t : TransitionEdge}
    {path : List TransitionEdge} (ht : t ∈ ir.transitions) (hsource : sourceIdOf ir t = s)
    (hnext : nextIdOf ir t = next) (h : Path ir next path last) : Path ir s (t :: path) last := by
  subst hsource hnext
  exact .cons ht h

/-- What is done from a state on, along a path. -/
def along (ir : FsmIr) (path : List TransitionEdge) (last : String) : List Activity :=
  path.flatMap (block ir) ++ checks ir last

/-- The location may be read, on some path, before it is overwritten. -/
def LiveIn (ir : FsmIr) (stateId : String) (l : Location) : Prop :=
  ∃ path last, Path ir stateId path last ∧ l ∈ liveBefore ∅ (along ir path last)

theorem mem_liveBefore_checks {ir : FsmIr} {s : String} {l : Location} (h : l ∈ liveBefore ∅ (checks ir s)) :
    (∃ state ∈ ir.states, ∃ inv ∈ state.invariants, l.name ∈ extractIdentifiers inv.toCpp) ∨
      ∃ t ∈ ir.transitions, sourceIdOf ir t = s ∧
        ∃ text ∈ checkedTexts ir t, l.name ∈ extractIdentifiers text := by
  have hread : ∀ texts : List String, l ∈ liveBefore ∅ (texts.map .check) →
      ∃ text ∈ texts, l.name ∈ extractIdentifiers text := by
    intro texts
    induction texts with
    | nil => exact fun h => absurd h id
    | cons text texts ih =>
      rintro (hl | ⟨-, hl⟩)
      · exact ⟨text, List.mem_cons_self, hl⟩
      · obtain ⟨text', hmem, hname⟩ := ih hl
        exact ⟨text', List.mem_cons_of_mem _ hmem, hname⟩
  obtain ⟨text, htext, hname⟩ := hread _ h
  rcases List.mem_append.mp htext with hinv | hedge
  · obtain ⟨state, hstate, htext⟩ := List.mem_flatMap.mp hinv
    obtain ⟨pred, hpred, rfl⟩ := List.mem_map.mp htext
    exact Or.inl ⟨state, List.mem_of_find?_eq_some (Option.mem_toList.mp hstate), pred, hpred, hname⟩
  · obtain ⟨t, ht, htext⟩ := List.mem_flatMap.mp hedge
    obtain ⟨ht, hs⟩ := List.mem_filter.mp ht
    exact Or.inr ⟨t, ht, of_decide_eq_true hs, text, htext, hname⟩

theorem LiveIn.mem_of_closed {ir : FsmIr} {B : String → Set Location}
    (hchecks : ∀ s, liveBefore ∅ (checks ir s) ⊆ B s)
    (hblock : ∀ t ∈ ir.transitions, liveBefore (B (nextIdOf ir t)) (block ir t) ⊆
      B (sourceIdOf ir t)) {s : String} {l : Location} (h : LiveIn ir s l) : l ∈ B s := by
  obtain ⟨path, last, hpath, hl⟩ := h
  induction hpath generalizing l with
  | nil s => exact hchecks s hl
  | @cons t path last ht _ ih =>
    apply hblock t ht
    unfold along at hl
    rw [List.flatMap_cons, List.append_assoc, liveBefore_append] at hl
    exact liveBefore_mono (fun l' hl' => ih hl') _ hl

/-- The state that the machine starts in. -/
def startId (ir : FsmIr) : String := ir.resolveStateId ir.initialStateId ir.initialState

/-- What is done on a path from the start. -/
def fromStart (ir : FsmIr) (path : List TransitionEdge) (last : String) : List Activity :=
  entry ir (startId ir) ++ along ir path last

end Fsmc.Runtime
