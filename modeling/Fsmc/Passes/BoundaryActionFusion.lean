/-
# Fsmc.Passes.BoundaryActionFusion — moving entry and exit actions onto the transitions.

A transition takes over the hooks of the states that it leaves and enters, and the hooks are then cleared.
What is left and entered in another way loses them: a state below the source of an inherited transition, a
default sub-state, the initial state. The fused action keeps assignments apart from instructions, and of a
signature that has neither it keeps nothing.
-/
import Fsmc.Ir.GraphOps
import Fsmc.Runtime.Datapath
import Fsmc.Runtime.HookTrace

namespace Fsmc.Passes.BoundaryActionFusion

open Fsmc.Ir Fsmc.Lib.Ancestry Fsmc.Runtime

/-! ## The pass -/

/-- `exit_path`: the loop goes up the chain of the source as far as there are states. -/
def exitPath (ir : FsmIr) (t : TransitionEdge) : List StateNode :=
  (below ir t.source (lcaOf ir t)).filterMap ir.findState

def entryPath (ir : FsmIr) (t : TransitionEdge) : List StateNode :=
  (below ir t.target (lcaOf ir t)).reverse.filterMap ir.findState

def hasBoundaryActions (ir : FsmIr) (t : TransitionEdge) : Bool :=
  (exitPath ir t).any (fun s => !s.exitActions.isEmpty) ||
    (entryPath ir t).any fun s => !s.entryActions.isEmpty

/-- The transitions that are rewritten. -/
def fuses (ir : FsmIr) (t : TransitionEdge) : Bool :=
  t.source ≠ "" && t.target ≠ "" && t.kind ≠ .internal && (ir.findState t.source).isSome &&
    (ir.findState t.target).isSome && hasBoundaryActions ir t

/-- What goes into the fused action, in order. -/
def fusedParts (ir : FsmIr) (t : TransitionEdge) : List ActionSignature :=
  (exitPath ir t).flatMap (·.exitActions) ++ t.transitionAction.toList ++
    (entryPath ir t).flatMap (·.entryActions)

def fusedAction (ir : FsmIr) (t : TransitionEdge) : ActionSignature :=
  { ActionSignature.ofName
      (match t.transitionAction with
        | some a => a.name
        | none => "fused_" ++ t.source ++ "_to_" ++ t.target) with
    assignments := (fusedParts ir t).flatMap (·.assignments)
    instructions := (fusedParts ir t).flatMap (·.instructions) }

/-- A transition after its turn. -/
def fuseEdge (ir : FsmIr) (t : TransitionEdge) : TransitionEdge :=
  if fuses ir t then { t with transitionAction := some (fusedAction ir t) } else t

def clearedExit (ir : FsmIr) : List String :=
  (ir.transitions.filter (fuses ir)).flatMap fun t => (exitPath ir t).map (·.name)

def clearedEntry (ir : FsmIr) : List String :=
  (ir.transitions.filter (fuses ir)).flatMap fun t => (entryPath ir t).map (·.name)

def clearExit (s : StateNode) : StateNode := { s with exitActions := [] }

def clearEntry (s : StateNode) : StateNode := { s with entryActions := [] }

/-- `BoundaryActionFusionPass::run`. -/
def run (ir : FsmIr) : FsmIr :=
  let fused := { ir with transitions := ir.transitions.map (fuseEdge ir) }
  let noExit := (clearedExit ir).foldl (fun m name => m.modifyState name clearExit) fused
  (clearedEntry ir).foldl (fun m name => m.modifyState name clearEntry) noExit

/-! ## What an action performs -/

/-- An instruction, or the call of a service that the name of a signature is. -/
inductive Performed where
  | node (n : ActionAstNode)
  | callback (name : String)
  deriving DecidableEq

/-- What an action performs: its instructions, or else the service that it names. -/
def performed (a : ActionSignature) : List Performed :=
  if nodesOf a ≠ [] then (nodesOf a).map .node
  else if a.name ≠ "" then [.callback a.name]
  else if a.invocation ≠ "" then [.callback a.invocation]
  else []

/-- Actions that are performed alike one after another and merged into one: each that has no instruction
of its own performs nothing, and no instruction comes before an assignment. -/
structure Mergeable (parts : List ActionSignature) : Prop where
  nodes : ∀ a ∈ parts, nodesOf a = [] → performed a = []
  some_node : ∃ a ∈ parts, nodesOf a ≠ []
  ordered : parts.Pairwise fun a b => a.instructions = [] ∨ b.assignments = []

/-- The hooks on the path of a transition. -/
def hooksOf (ir : FsmIr) (t : TransitionEdge) : List ActionSignature :=
  (exitPath ir t).flatMap (·.exitActions) ++ (entryPath ir t).flatMap (·.entryActions)

/-- There is nothing to merge with a transition action that is a call. -/
structure OnlyCall (ir : FsmIr) (t : TransitionEdge) : Prop where
  hooks : ∀ a ∈ hooksOf ir t, performed a = []
  call : ∃ a, t.transitionAction = some a ∧ nodesOf a = [] ∧ (a.name = "" → a.invocation = "")

theorem flatMap_append_flatMap {α β : Type*} {f g : α → List β} {l : List α}
    (h : l.Pairwise fun a b => g a = [] ∨ f b = []) :
    l.flatMap f ++ l.flatMap g = l.flatMap fun a => f a ++ g a := by
  induction h with
  | nil => rfl
  | @cons a l ha _ ih =>
    have hswap : l.flatMap f ++ g a = g a ++ l.flatMap f := by
      by_cases hg : g a = []
      · simp [hg]
      · have hf : l.flatMap f = [] :=
          List.flatMap_eq_nil_iff.mpr fun b hb => (ha b hb).resolve_left hg
        simp [hf]
    calc (a :: l).flatMap f ++ (a :: l).flatMap g
        = f a ++ ((l.flatMap f ++ g a) ++ l.flatMap g) := by simp
      _ = f a ++ (g a ++ (l.flatMap f ++ l.flatMap g)) := by rw [hswap]; simp
      _ = (a :: l).flatMap fun a => f a ++ g a := by rw [ih]; simp

variable {a : ActionSignature}

theorem performed_of_nodes (h : nodesOf a ≠ []) : performed a = (nodesOf a).map .node := by
  unfold performed
  rw [if_pos h]

theorem nodesOf_of_performed (h : performed a = []) : nodesOf a = [] := by
  by_contra hne
  rw [performed_of_nodes hne] at h
  exact hne (List.map_eq_nil_iff.mp h)

theorem nodesOf_fusedAction (ir : FsmIr) (t : TransitionEdge) : nodesOf (fusedAction ir t) =
      (fusedParts ir t).flatMap (fun a => a.assignments.map fun x => .store (toStore x)) ++
        (fusedParts ir t).flatMap (·.instructions) := by
  show ((fusedParts ir t).flatMap (·.assignments)).map _ ++ _ = _
  rw [List.map_flatMap]
  rfl

theorem performed_fusedAction {ir : FsmIr} {t : TransitionEdge} (h : Mergeable (fusedParts ir t) ∨ OnlyCall ir t) :
    performed (fusedAction ir t) = (fusedParts ir t).flatMap performed := by
  rcases h with h | h
  · have hnodes : nodesOf (fusedAction ir t) = (fusedParts ir t).flatMap nodesOf := by
      rw [nodesOf_fusedAction]
      apply flatMap_append_flatMap
      refine h.ordered.imp fun hab => ?_
      simpa using hab
    have hne : nodesOf (fusedAction ir t) ≠ [] := by
      obtain ⟨a, ha, hnode⟩ := h.some_node
      rw [hnodes]
      exact fun hnil => hnode (List.flatMap_eq_nil_iff.mp hnil a ha)
    rw [performed_of_nodes hne, hnodes, List.map_flatMap]
    apply List.flatMap_congr
    intro a ha
    by_cases hnode : nodesOf a = []
    · rw [h.nodes a ha hnode, hnode, List.map_nil]
    · exact (performed_of_nodes hnode).symm
  · obtain ⟨a, ha, hnode, hname⟩ := h.call
    have hsilent : ∀ hook ∈ hooksOf ir t, performed hook = [] := h.hooks
    have hexit : ((exitPath ir t).flatMap (·.exitActions)).flatMap performed = [] :=
      List.flatMap_eq_nil_iff.mpr fun b hb => hsilent b (List.mem_append_left _ hb)
    have hentry : ((entryPath ir t).flatMap (·.entryActions)).flatMap performed = [] :=
      List.flatMap_eq_nil_iff.mpr fun b hb => hsilent b (List.mem_append_right _ hb)
    have hparts : (fusedParts ir t).flatMap performed = performed a := by
      simp [fusedParts, ha, hexit, hentry]
    have hnodes : ∀ b ∈ fusedParts ir t, nodesOf b = [] := by
      intro b hb
      simp only [fusedParts, ha, List.mem_append, Option.mem_toList, Option.some.injEq] at hb
      rcases hb with (hb | rfl) | hb
      · exact nodesOf_of_performed (hsilent b (List.mem_append_left _ hb))
      · exact hnode
      · exact nodesOf_of_performed (hsilent b (List.mem_append_right _ hb))
    have hnil : nodesOf (fusedAction ir t) = [] := by
      have hboth : ∀ b ∈ fusedParts ir t, b.assignments = [] ∧ b.instructions = [] := by
        intro b hb
        simpa [nodesOf] using hnodes b hb
      rw [nodesOf_fusedAction]
      simp only [List.append_eq_nil_iff, List.flatMap_eq_nil_iff, List.map_eq_nil_iff]
      exact ⟨fun b hb => (hboth b hb).1, fun b hb => (hboth b hb).2⟩
    have hfused : (fusedAction ir t).name = a.name ∧ (fusedAction ir t).invocation = a.name := by
      simp [fusedAction, ha, ActionSignature.ofName]
    rw [hparts]
    unfold performed
    rw [hnil, hnode, hfused.1, hfused.2]
    by_cases hempty : a.name = ""
    · simp [hempty, hname hempty]
    · simp [hempty]

/-! ## The lowered machine -/

section Lowered

variable (ir : FsmIr)

theorem foldl_modifyState_transitions (f : StateNode → StateNode) : ∀ (names : List String) (m : FsmIr),
      (names.foldl (fun m name => m.modifyState name f) m).transitions = m.transitions := by
  intro names
  induction names with
  | nil => exact fun m => rfl
  | cons name names ih => exact fun m => ih _

variable {f : StateNode → StateNode}

theorem findState_foldl (hname : ∀ n, (f n).name = n.name)
    (hf : ∀ n, f (f n) = f n) (s : String) : ∀ (names : List String) (m : FsmIr),
      (names.foldl (fun m name => m.modifyState name f) m).findState s =
        if s ∈ names then (m.findState s).map f else m.findState s := by
  intro names
  induction names with
  | nil => simp
  | cons name names ih =>
    intro m
    rw [List.foldl_cons, ih, m.findState_modifyState name s hname]
    have htwice : f ∘ f = f := funext hf
    by_cases hs : s = name
    · simp [hs, htwice]
    · simp [hs]

theorem run_transitions : (run ir).transitions = ir.transitions.map (fuseEdge ir) := by
  unfold run
  rw [foldl_modifyState_transitions, foldl_modifyState_transitions]

theorem run_findState (s : String) : (run ir).findState s =
      (ir.findState s).map fun n =>
        let n' := if s ∈ clearedExit ir then clearExit n else n
        if s ∈ clearedEntry ir then clearEntry n' else n' := by
  unfold run
  rw [findState_foldl (f := clearEntry) (fun _ => rfl) fun _ => rfl,
    findState_foldl (f := clearExit) (fun _ => rfl) fun _ => rfl]
  show (if _ then ((if _ then (ir.findState s).map clearExit else ir.findState s)).map clearEntry
    else if _ then (ir.findState s).map clearExit else ir.findState s) = _
  by_cases hentry : s ∈ clearedEntry ir <;> by_cases hexit : s ∈ clearedExit ir <;>
    simp [hentry, hexit, Function.comp_def]

theorem run_exitHooks (s : String) : exitHooks (run ir) s = if s ∈ clearedExit ir then [] else exitHooks ir s := by
  unfold exitHooks
  rw [run_findState]
  cases ir.findState s <;> by_cases hexit : s ∈ clearedExit ir <;>
    by_cases hentry : s ∈ clearedEntry ir <;> simp [hexit, hentry, clearExit, clearEntry]

theorem run_entryHooks (s : String) :
    entryHooks (run ir) s = if s ∈ clearedEntry ir then [] else entryHooks ir s := by
  unfold entryHooks
  rw [run_findState]
  cases ir.findState s <;> by_cases hexit : s ∈ clearedExit ir <;>
    by_cases hentry : s ∈ clearedEntry ir <;> simp [hexit, hentry, clearExit, clearEntry]

theorem foldl_modifyState_names (hname : ∀ n, (f n).name = n.name) :
    ∀ (names : List String) (m : FsmIr),
      let m' := names.foldl (fun m name => m.modifyState name f) m
      m'.states.map (·.name) = m.states.map (·.name) ∧ m'.initialState = m.initialState := by
  intro names
  induction names with
  | nil => exact fun m => ⟨rfl, rfl⟩
  | cons name names ih =>
    intro m
    obtain ⟨hnames, hinitial⟩ := ih (m.modifyState name f)
    exact ⟨hnames.trans (map_modifyFirst hname m.states), hinitial⟩

theorem run_names : (run ir).states.map (·.name) = ir.states.map (·.name) ∧
      (run ir).initialState = ir.initialState := by
  obtain ⟨hentry, hentry'⟩ := foldl_modifyState_names (f := clearEntry) (fun _ => rfl) (clearedEntry ir)
    ((clearedExit ir).foldl (fun m name => m.modifyState name clearExit)
      { ir with transitions := ir.transitions.map (fuseEdge ir) })
  obtain ⟨hexit, hexit'⟩ := foldl_modifyState_names (f := clearExit) (fun _ => rfl) (clearedExit ir)
    { ir with transitions := ir.transitions.map (fuseEdge ir) }
  exact ⟨hentry.trans hexit, hentry'.trans hexit'⟩

theorem sameEnds_fuseEdge (t : TransitionEdge) : SameEnds t (fuseEdge ir t) := by
  unfold fuseEdge
  split <;> exact ⟨rfl, rfl, rfl⟩

theorem sameShape_run : SameShape ir (run ir) where
  size := by simpa using congrArg List.length (run_names ir).1
  found s := by
    rw [run_findState]
    simp
  parent s := by
    unfold parentOf
    rw [run_findState]
    cases ir.findState s <;> by_cases hexit : s ∈ clearedExit ir <;>
      by_cases hentry : s ∈ clearedEntry ir <;> simp [hexit, hentry, clearExit, clearEntry]
  default s := by
    unfold defaultOf
    rw [run_findState]
    cases ir.findState s <;> by_cases hexit : s ∈ clearedExit ir <;>
      by_cases hentry : s ∈ clearedEntry ir <;> simp [hexit, hentry, clearExit, clearEntry]
  initial := by
    unfold initialName
    rw [(run_names ir).2, ← List.head?_map, ← List.head?_map, (run_names ir).1]
  edges {i t} hi := by
    refine ⟨fuseEdge ir t, ?_, sameEnds_fuseEdge ir t⟩
    rw [run_transitions, List.getElem?_map, hi]
    rfl

end Lowered

/-! ## Runs -/

section Runs

variable {ir : FsmIr} {s : String} {t : TransitionEdge} {ds : List String}

/-- The states that a transition leaves without taking over what they do. -/
def otherExits (ir : FsmIr) (s : String) (t : TransitionEdge) : List String :=
  if fuses ir t then below ir s t.source else below ir s (lcaOf ir t)

/-- The states that a transition enters without taking over what they do. -/
def otherEntries (ir : FsmIr) (t : TransitionEdge) (ds : List String) : List String :=
  if fuses ir t then ds else (below ir t.target (lcaOf ir t)).reverse ++ ds

/-- A state keeps its exit actions, or has none that do anything. -/
def KeepsExit (ir : FsmIr) (x : String) : Prop :=
  x ∈ clearedExit ir → ∀ a ∈ exitHooks ir x, performed a = []

/-- A state keeps its entry actions, or has none that do anything. -/
def KeepsEntry (ir : FsmIr) (x : String) : Prop :=
  x ∈ clearedEntry ir → ∀ a ∈ entryHooks ir x, performed a = []

instance (ir : FsmIr) (x : String) : Decidable (KeepsExit ir x) := inferInstanceAs (Decidable (_ → _))

instance (ir : FsmIr) (x : String) : Decidable (KeepsEntry ir x) := inferInstanceAs (Decidable (_ → _))

/-- Nothing is lost at the start. -/
def CleanStart (ir : FsmIr) (ds : List String) : Prop :=
  ∀ x ∈ chain ir (initialName ir) ++ ds, KeepsEntry ir x

/-- Nothing is lost on a transition, and what it takes over can be merged. -/
structure CleanStep (ir : FsmIr) (s : String) (t : TransitionEdge) (ds : List String) : Prop where
  exits : t.kind ≠ .internal → ∀ x ∈ otherExits ir s t, KeepsExit ir x
  entries : t.kind ≠ .internal → ∀ x ∈ otherEntries ir t ds, KeepsEntry ir x
  merge : fuses ir t = true → Mergeable (fusedParts ir t) ∨ OnlyCall ir t

variable {names : List String}

theorem performed_exits (h : ∀ x ∈ names, KeepsExit ir x) :
    (names.flatMap (exitHooks (run ir))).flatMap performed =
      (names.flatMap (exitHooks ir)).flatMap performed := by
  rw [List.flatMap_assoc, List.flatMap_assoc]
  apply List.flatMap_congr
  intro x hx
  rw [run_exitHooks]
  split
  · next hcleared => exact (List.flatMap_eq_nil_iff.mpr (h x hx hcleared)).symm
  · rfl

theorem performed_entries (h : ∀ x ∈ names, KeepsEntry ir x) :
    (names.flatMap (entryHooks (run ir))).flatMap performed =
      (names.flatMap (entryHooks ir)).flatMap performed := by
  rw [List.flatMap_assoc, List.flatMap_assoc]
  apply List.flatMap_congr
  intro x hx
  rw [run_entryHooks]
  split
  · next hcleared => exact (List.flatMap_eq_nil_iff.mpr (h x hx hcleared)).symm
  · rfl

theorem exits_cleared (ht : t ∈ ir.transitions) (hfuses : fuses ir t = true) :
    (below ir t.source (lcaOf ir t)).flatMap (exitHooks (run ir)) = [] := by
  apply List.flatMap_eq_nil_iff.mpr
  intro x hx
  rw [run_exitHooks]
  split
  · rfl
  · next hkept =>
      cases hfound : ir.findState x with
      | none => simp [exitHooks, hfound]
      | some n =>
        refine absurd (List.mem_flatMap.mpr ⟨t, List.mem_filter.mpr ⟨ht, hfuses⟩, ?_⟩) hkept
        refine List.mem_map.mpr ⟨n, List.mem_filterMap.mpr ⟨x, hx, hfound⟩, ?_⟩
        exact (FsmIr.findState_spec hfound).2

theorem entries_cleared (ht : t ∈ ir.transitions) (hfuses : fuses ir t = true) :
    (below ir t.target (lcaOf ir t)).reverse.flatMap (entryHooks (run ir)) = [] := by
  apply List.flatMap_eq_nil_iff.mpr
  intro x hx
  rw [run_entryHooks]
  split
  · rfl
  · next hkept =>
      cases hfound : ir.findState x with
      | none => simp [entryHooks, hfound]
      | some n =>
        refine absurd (List.mem_flatMap.mpr ⟨t, List.mem_filter.mpr ⟨ht, hfuses⟩, ?_⟩) hkept
        refine List.mem_map.mpr ⟨n, List.mem_filterMap.mpr ⟨x, hx, hfound⟩, ?_⟩
        exact (FsmIr.findState_spec hfound).2

theorem performed_start (h : CleanStart ir ds) :
    (startActions (run ir) ds).flatMap performed = (startActions ir ds).flatMap performed := by
  unfold startActions
  rw [(sameShape_run ir).chain_eq, (sameShape_run ir).initial]
  apply performed_entries
  intro x hx
  exact h x (by simpa using hx)

theorem performed_step (hir : Acyclic ir) (ht : t ∈ ir.transitions) (hfires : Fires ir s t ds)
    (h : CleanStep ir s t ds) :
    (stepActions (run ir) s (fuseEdge ir t) ds).flatMap performed =
      (stepActions ir s t ds).flatMap performed := by
  have hends := sameEnds_fuseEdge ir t
  have hcondition : (fuseEdge ir t).conditionAction = t.conditionAction := by
    unfold fuseEdge
    split <;> rfl
  unfold stepActions
  rw [hends.kind, hends.target, (sameShape_run ir).lcaOf_eq hends, (sameShape_run ir).below_eq,
    (sameShape_run ir).below_eq, hcondition]
  by_cases hkind : t.kind = .internal
  · have hsame : fuseEdge ir t = t := by simp [fuseEdge, fuses, hkind]
    rw [hsame]
    simp [hkind]
  · rw [if_neg hkind, if_neg hkind]
    have hexits := h.exits hkind
    have hentries := h.entries hkind
    by_cases hfuses : fuses ir t = true
    · have haction : (fuseEdge ir t).transitionAction = some (fusedAction ir t) := by
        simp [fuseEdge, hfuses]
      have hparts : (fusedParts ir t).flatMap performed =
          ((below ir t.source (lcaOf ir t)).flatMap (exitHooks ir)).flatMap performed ++
            t.transitionAction.toList.flatMap performed ++
              ((below ir t.target (lcaOf ir t)).reverse.flatMap (entryHooks ir)).flatMap performed := by
        rw [flatMap_exitHooks, flatMap_entryHooks, ← List.flatMap_append, ← List.flatMap_append]
        rfl
      rw [otherExits, if_pos hfuses] at hexits
      rw [otherEntries, if_pos hfuses] at hentries
      rw [below_lcaOf hir hfires.active, haction]
      simp only [List.flatMap_append, exits_cleared ht hfuses, entries_cleared ht hfuses,
        performed_exits hexits, performed_entries hentries, Option.toList_some, List.flatMap_singleton,
        List.append_nil, List.nil_append,
        performed_fusedAction (h.merge hfuses), hparts, List.append_assoc]
    · have hsame : fuseEdge ir t = t := by simp [fuseEdge, hfuses]
      rw [otherExits, if_neg hfuses] at hexits
      rw [otherEntries, if_neg hfuses] at hentries
      have hleft := performed_exits hexits
      have hright := performed_entries hentries
      rw [hsame]
      simp only [List.flatMap_append] at hright ⊢
      rw [hleft, hright]

/-- A run that loses nothing at its start and on its steps performs the same on the lowered machine. -/
theorem fusion_preservesTraces {ir : FsmIr} (hir : Acyclic ir) :
    PreservesTraces performed (CleanStart ir) (CleanStep ir) ir (run ir) := by
  apply (sameShape_run ir).preservesTraces
  · intro ds hds
    exact performed_start hds
  · intro i t t' s ds hi hi' _ hfires hok
    have ht' : t' = fuseEdge ir t := by
      rw [run_transitions, List.getElem?_map, hi] at hi'
      exact (Option.some.inj hi').symm
    rw [ht']
    exact performed_step hir (List.mem_of_getElem? hi) hfires hok

end Runs

/-! ## An oven -/

def setLamp (value : String) : ActionSignature :=
  { assignments := [{ target := { name := "lamp" }, expression := value }] }

/-- An oven that heats in two stages and puts its lamp out at the start. -/
def oven : FsmIr :=
  { initialState := "Idle"
    states :=
      [{ name := "Idle", entryActions := [setLamp "0"] },
        { name := "On", kind := .composite, initialSubState := "Low", exitActions := [setLamp "1"] },
        { name := "Low", parentState := "On" },
        { name := "High", parentState := "On" }]
    transitions :=
      [{ source := "Idle", target := "On", event := "start" },
        { source := "Low", target := "High", event := "more" },
        { source := "On", target := "Idle", event := "stop" }] }

theorem oven_acyclic : Acyclic oven := by
  apply acyclic_of_rank fun s => if s = "On" then 0 else 1
  intro n hn hparent
  simp only [oven, List.mem_cons, List.not_mem_nil, or_false] at hn
  rcases hn with rfl | rfl | rfl | rfl <;> simp_all

/-- The lamp of the lowered oven is put out on the transition to the initial state only. -/
theorem oven_not_preservesTraces : Acyclic oven ∧
      ¬ PreservesTraces performed (fun _ => True) (fun _ _ _ => True) oven (run oven) := by
  refine ⟨oven_acyclic, fun h => ?_⟩
  have hstart : AnyRun oven [] (startActions oven []) "Idle" :=
    Run.start (by decide +kernel) (.leaf (by decide +kernel)) trivial
  obtain ⟨acts', hrun, hsame⟩ := h _ _ _ hstart
  obtain ⟨ds, hds, rfl⟩ := hrun.of_nil rfl
  obtain rfl := hds.unique (.leaf (by decide +kernel))
  exact absurd hsame (by decide +kernel)

/-- A lift whose transitions take over all that is done. -/
def lift : FsmIr :=
  { initialState := "Waiting"
    states :=
      [{ name := "Waiting" },
        { name := "Moving", kind := .composite, initialSubState := "Up", exitActions := [setLamp "0"] },
        { name := "Up", parentState := "Moving" }]
    transitions :=
      [{ source := "Waiting", target := "Moving", event := "call", transitionAction := some (setLamp "1") },
        { source := "Moving", target := "Waiting", event := "arrive" }] }

theorem lift_acyclic : Acyclic lift := by
  apply acyclic_of_rank fun s => if s = "Moving" then 0 else 1
  intro n hn hparent
  simp only [lift, List.mem_cons, List.not_mem_nil, or_false] at hn
  rcases hn with rfl | rfl | rfl <;> simp_all

/-- The lift goes and stops, and its lamp is switched on and off either way. -/
theorem lift_preservesTraces : PreservesTraces performed (CleanStart lift) (CleanStep lift) lift (run lift) ∧
      Run lift (CleanStart lift) (CleanStep lift) [0, 1] [setLamp "1", setLamp "0"] "Waiting" := by
  refine ⟨fusion_preservesTraces lift_acyclic, ?_⟩
  have hwaiting : Run lift (CleanStart lift) (CleanStep lift) [] (startActions lift []) "Waiting" :=
    Run.start (by decide +kernel) (.leaf (by decide +kernel))
      (show ∀ x ∈ chain lift (initialName lift) ++ [], KeepsEntry lift x by decide +kernel)
  have hup : Defaults lift "Moving" ["Up"] := .down (by decide +kernel) (.leaf (by decide +kernel))
  have hmoving := hwaiting.step (i := 0) rfl
    (show Fires lift "Waiting" _ ["Up"] from
      ⟨by decide +kernel, by decide +kernel, by decide +kernel, fun _ => hup⟩)
    ⟨fun _ => by decide +kernel, fun _ => by decide +kernel, fun h => absurd h (by decide +kernel)⟩
  have hback := hmoving.step (i := 1) rfl
    ⟨by decide +kernel, by decide +kernel, by decide +kernel, fun _ => .leaf (by decide +kernel)⟩
    ⟨fun _ => by decide +kernel, fun _ => by decide +kernel,
      fun _ => .inl ⟨by decide +kernel, by decide +kernel, by decide +kernel⟩⟩
  exact hback

end Fsmc.Passes.BoundaryActionFusion
