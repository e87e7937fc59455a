/-
# Fsmc.Passes.TransitionFusion — removing states that are left at once.

A state with one outgoing transition, which has no trigger, is removed and its incoming transitions
are composed with the outgoing one. The composition asks both guards at once, so the machine stays
where it was when the second guard is false; it takes no condition action and no priority over; and
the trigger decides what is immediate, whatever event the transition names.
-/
import Fsmc.Runtime.MacroStep
import Mathlib.Data.List.Pairwise

namespace Fsmc.Passes.TransitionFusion

open Fsmc.Ir Fsmc.Runtime Fsmc.Lib.FirstMatch

/-! ## The pass -/

def isImmediateTrigger (trigger : TriggerVariant) : Bool :=
  match trigger with
  | .anonymous => true
  | .signal signalName => signalName = ""
  | _ => false

def composeGuardAsts (g1 g2 : Option GuardAstNode) : Option GuardAstNode :=
  match g1, g2 with
  | some a, some b => some { op := .and, children := [a, b] }
  | some a, none => some a
  | none, g2 => g2

def composeGuardStrings (g1 g2 : Option String) : Option String :=
  match g1, g2 with
  | some a, some b => some ("(" ++ a ++ ") && (" ++ b ++ ")")
  | some a, none => some a
  | none, g2 => g2

/-- `compose_actions`: the names are joined, the lists appended. -/
def composeActions (a1 a2 : Option ActionSignature) : ActionSignature :=
  let name1 := (a1.map (·.name)).getD ""
  let name2 := (a2.map (·.name)).getD ""
  { name := if name2 = "" then name1 else if name1 = "" then name2 else name1 ++ "_" ++ name2
    assignments := (a1.map (·.assignments)).getD [] ++ (a2.map (·.assignments)).getD []
    instructions := (a1.map (·.instructions)).getD [] ++ (a2.map (·.instructions)).getD [] }

def flattenActions (acts : List ActionSignature) : ActionSignature :=
  acts.foldl (fun res a => composeActions (some res) (some a)) {}

/-- An action that does something. -/
def unlessEmpty (a : ActionSignature) : Option ActionSignature := if a.empty then none else some a

/-- Whether an edge is among the incoming edges of a state. -/
def entersState (state : StateNode) (edge : TransitionEdge) : Bool :=
  edge.targetId = state.id || edge.target = state.name || edge.targetId = state.name

/-- Whether an edge is among the outgoing edges of a state. -/
def leavesState (state : StateNode) (edge : TransitionEdge) : Bool :=
  edge.sourceId = state.id || edge.source = state.name || edge.sourceId = state.name

/-- The states that are never fused. -/
def excluded (ir : FsmIr) (state : StateNode) : Bool :=
  state.id = ir.initialStateId || state.name = ir.initialStateId || !state.childrenIds.isEmpty ||
    state.kind = .terminate || !state.invariants.isEmpty

/-- The outgoing edge of a state that is fused. -/
def transientEdge (ir : FsmIr) (state : StateNode) : Option TransitionEdge :=
  if excluded ir state then none
  else
    match ir.transitions.filter (leavesState state) with
    | [outEdge] =>
      if ir.transitions.any (entersState state) && isImmediateTrigger outEdge.trigger &&
          !entersState state outEdge then some outEdge
      else none
    | _ => none

/-- Whether a state is fused. -/
def isTransient (ir : FsmIr) (state : StateNode) : Bool := (transientEdge ir state).isSome

/-- The clocks that the composition resets. -/
def mergeResets (inResets outResets : List String) : List String :=
  outResets.foldl (fun merged cr => if cr ∈ merged then merged else merged ++ [cr]) inResets

/-- The composition of an incoming edge of a state with its outgoing edge. -/
def fuse (state : StateNode) (outEdge inEdge : TransitionEdge) : TransitionEdge :=
  let midEntry := flattenActions state.entryActions
  let midExit := flattenActions state.exitActions
  let act1 := composeActions inEdge.transitionAction (unlessEmpty midEntry)
  let act2 := composeActions (unlessEmpty midExit) outEdge.transitionAction
  { sourceId := inEdge.sourceId
    source := inEdge.source
    targetId := outEdge.targetId
    target := outEdge.target
    trigger := inEdge.trigger
    event := inEdge.event
    guard := composeGuardStrings inEdge.guard outEdge.guard
    guardAst := composeGuardAsts inEdge.guardAst outEdge.guardAst
    transitionAction := unlessEmpty (composeActions (some act1) (some act2))
    clockResets := mergeResets inEdge.clockResets outEdge.clockResets }

def fuseState (ir : FsmIr) (state : StateNode) (outEdge : TransitionEdge) : FsmIr :=
  { ir with
    transitions :=
      (ir.transitions.filter fun t => !(entersState state t || leavesState state t)) ++
        (ir.transitions.filter (entersState state)).map (fuse state outEdge)
    states := ir.states.eraseP (isTransient ir) }

/-- One turn of the outer loop: fuse the first state that can be. -/
def fuseOnce (ir : FsmIr) : Option FsmIr :=
  match ir.states.find? (isTransient ir) with
  | none => none
  | some state => (transientEdge ir state).map (fuseState ir state)

/-- The outer loop; each turn removes a state. -/
def fuseAll : ℕ → FsmIr → FsmIr × Bool
  | 0, ir => (ir, false)
  | fuel + 1, ir =>
    match fuseOnce ir with
    | none => (ir, false)
    | some fused => ((fuseAll fuel fused).1, true)

/-- `TransitionFusionPass::run`. -/
def run (ir : FsmIr) : FsmIr :=
  let result := fuseAll ir.states.length ir
  if result.2 then canonicalize result.1 else result.1

/-! ## The loop ends -/

theorem exists_of_fuseOnce {ir ir' : FsmIr} (h : fuseOnce ir = some ir') :
    ∃ s ∈ ir.states, ∃ out, ir.states.find? (isTransient ir) = some s ∧
      transientEdge ir s = some out ∧ ir' = fuseState ir s out := by
  unfold fuseOnce at h
  split at h
  · simp at h
  · next s hs =>
      obtain ⟨out, hout, rfl⟩ := Option.map_eq_some_iff.mp h
      exact ⟨s, List.mem_of_find?_eq_some hs, out, hs, hout, rfl⟩

/-! ## Effects of a composition -/

theorem observeAction_composeActions (a b : Option ActionSignature) :
    observeAction (composeActions a b) = observeAction? a * observeAction? b := by
  have hname : ∀ x y : String,
      (if y = "" then x else if x = "" then y else x ++ "_" ++ y) = joinNames x y := by
    intro x y
    by_cases hx : x = "" <;> by_cases hy : y = "" <;> simp [joinNames, hx, hy]
  unfold composeActions observeAction
  simp only [hname]
  cases a with
  | none =>
    cases b with
    | none => rfl
    | some b => simp [observeAction?, observeAction]
  | some a =>
    cases b with
    | none => simp [observeAction?, observeAction]
    | some b => rfl

theorem observeAction_flattenActions (acts : List ActionSignature) :
    observeAction (flattenActions acts) = observeActions acts := by
  have hfold : ∀ res, observeAction
      (acts.foldl (fun res a => composeActions (some res) (some a)) res) =
        observeAction res * observeActions acts := by
    induction acts with
    | nil =>
      intro res
      simp
    | cons a acts ih =>
      intro res
      rw [List.foldl_cons, ih, observeAction_composeActions, observeActions_cons, mul_assoc]
      rfl
  exact (hfold {}).trans (one_mul _)

theorem observeAction?_unlessEmpty (a : ActionSignature) : observeAction? (unlessEmpty a) = observeAction a := by
  unfold unlessEmpty
  cases hempty : a.empty with
  | false => rfl
  | true =>
    simp only [ActionSignature.empty, Bool.and_eq_true, decide_eq_true_eq,
      List.isEmpty_iff] at hempty
    obtain ⟨⟨⟨hname, -⟩, hassignments⟩, hinstructions⟩ := hempty
    simp only [observeAction, hname, hassignments, hinstructions]
    rfl

theorem toFinset_mergeResets (inResets outResets : List String) :
    (mergeResets inResets outResets).toFinset = (inResets ++ outResets).toFinset := by
  unfold mergeResets
  induction outResets generalizing inResets with
  | nil => simp
  | cons cr outResets ih =>
    rw [List.foldl_cons, ih]
    by_cases hmem : cr ∈ inResets
    · ext c
      simp only [hmem, if_true, List.mem_toFinset, List.mem_append, List.mem_cons]
      refine ⟨fun h => h.imp_right Or.inr, ?_⟩
      rintro (h | rfl | h)
      · exact Or.inl h
      · exact Or.inl hmem
      · exact Or.inr h
    · simp [hmem, List.append_assoc]

theorem observeResets_mergeResets (inResets outResets : List String) :
    observeResets (mergeResets inResets outResets) =
      observeResets inResets * observeResets outResets := by
  rw [observeResets_mul]
  exact congrArg (Observation.mk "" [] [] []) (toFinset_mergeResets inResets outResets)

theorem observeAction?_fuse (state : StateNode) (outEdge inEdge : TransitionEdge) :
    observeAction? (fuse state outEdge inEdge).transitionAction =
      observeAction? inEdge.transitionAction * observeActions state.entryActions *
        (observeActions state.exitActions * observeAction? outEdge.transitionAction) := by
  show observeAction? (unlessEmpty _) = _
  rw [observeAction?_unlessEmpty, observeAction_composeActions]
  show observeAction _ * observeAction _ = _
  rw [observeAction_composeActions, observeAction_composeActions, observeAction?_unlessEmpty,
    observeAction?_unlessEmpty, observeAction_flattenActions, observeAction_flattenActions]

/-! ## Machines that are fused cleanly -/

/-- Of two competing transitions, declared in this order, what goes into `mid` comes last. -/
def GoesLast (mid : String) (a b : TransitionEdge) : Prop :=
  a.source = b.source → a.event = b.event →
    (a.target = mid → b.target = mid) ∧
      (b.target = mid → precedence a.priority ≤ precedence b.priority)

/-- What holds of a state that can be fused without changing a macro-step. -/
structure Passing (ir : FsmIr) (state : StateNode) (outEdge : TransitionEdge) : Prop where
  notInitial : state.name ≠ ir.initialState
  /-- The outgoing transition waits for no event and asks nothing. -/
  event : outEdge.event = ""
  guard : outEdge.guard = none
  guardAst : outEdge.guardAst = none
  /-- No condition action is lost, and nothing is an internal transition. -/
  condition : outEdge.conditionAction = none
  kind : outEdge.kind ≠ .internal
  incoming : ∀ t ∈ ir.transitions, t.target = state.name →
    t.conditionAction = none ∧ t.kind ≠ .internal
  /-- Nothing is declared, or sorted by priority, after the incoming transitions. -/
  last : ir.transitions.Pairwise (GoesLast state.name)

/-- The machines whose transient states can all be fused. -/
structure Fusable (ir : FsmIr) : Prop where
  /-- States have different names, and identifiers agree with names. -/
  names : (ir.states.map (·.name)).Nodup
  enters : ∀ s ∈ ir.states, ∀ t ∈ ir.transitions, entersState s t = true ↔ t.target = s.name
  leaves : ∀ s ∈ ir.states, ∀ t ∈ ir.transitions, leavesState s t = true ↔ t.source = s.name
  passing : ∀ s ∈ ir.states, ∀ out, transientEdge ir s = some out → Passing ir s out

/-- What the pass should keep: every macro-step from a state that is left, whatever the guards. -/
def PreservesMacroSteps (ir : FsmIr) : Prop :=
  ∀ s, s = ir.initialState ∨ s ∈ (run ir).states.map (·.name) → ∀ event (v : GuardHistory),
    v.Coherent → ∀ r, MacroStep (run ir) v s event r ↔ MacroStep ir v s event r

/-! ## Fusing one state -/

/-- A state of a machine with its transient edge, as the fusion of it needs them. -/
structure Fusing (ir : FsmIr) (mid : StateNode) (out : TransitionEdge) : Prop where
  fusable : Fusable ir
  first : ir.states.find? (isTransient ir) = some mid
  edge : transientEdge ir mid = some out

namespace Fusing

variable {ir : FsmIr} {mid : StateNode} {out : TransitionEdge} (h : Fusing ir mid out)
include h

theorem mem : mid ∈ ir.states := List.mem_of_find?_eq_some h.first

theorem passing : Passing ir mid out := h.fusable.passing mid h.mem out h.edge

theorem findState_mid : ir.findState mid.name = some mid := by
  have hfind : (ir.findState mid.name).isSome = true := by
    rw [FsmIr.findState, List.find?_isSome]
    exact ⟨mid, h.mem, by simp⟩
  obtain ⟨s, hs⟩ := Option.isSome_iff_exists.mp hfind
  obtain ⟨hmem, hname⟩ := FsmIr.findState_spec hs
  rw [hs, List.inj_on_of_nodup_map h.fusable.names hmem h.mem hname]

theorem filter_leaves : ir.transitions.filter (leavesState mid) = [out] := by
  have hedge := h.edge
  unfold transientEdge at hedge
  split at hedge
  · simp at hedge
  · split at hedge
    · next out' hout =>
        split at hedge
        · rw [hout, Option.some.inj hedge]
        · simp at hedge
    · simp at hedge

theorem out_mem : out ∈ ir.transitions := by
  have hmem : out ∈ ir.transitions.filter (leavesState mid) := by
    rw [h.filter_leaves]
    exact List.mem_singleton_self out
  exact List.mem_of_mem_filter hmem

theorem out_source : out.source = mid.name := by
  have hmem : out ∈ ir.transitions.filter (leavesState mid) := by
    rw [h.filter_leaves]
    exact List.mem_singleton_self out
  exact (h.fusable.leaves mid h.mem out h.out_mem).mp (List.mem_filter.mp hmem).2

theorem out_target : out.target ≠ mid.name := by
  intro htarget
  have henters := (h.fusable.enters mid h.mem out h.out_mem).mpr htarget
  have hedge := h.edge
  unfold transientEdge at hedge
  rw [h.filter_leaves] at hedge
  simp [henters] at hedge

theorem transitions_fuseState : (fuseState ir mid out).transitions =
      (ir.transitions.filter fun t => !(t.target = mid.name || t.source = mid.name)) ++
        (ir.transitions.filter fun t => t.target = mid.name).map (fuse mid out) := by
  have henters : ∀ t ∈ ir.transitions, entersState mid t = decide (t.target = mid.name) :=
    fun t ht => Bool.eq_iff_iff.mpr (by simpa using h.fusable.enters mid h.mem t ht)
  have hleaves : ∀ t ∈ ir.transitions, leavesState mid t = decide (t.source = mid.name) :=
    fun t ht => Bool.eq_iff_iff.mpr (by simpa using h.fusable.leaves mid h.mem t ht)
  show (ir.transitions.filter fun t => !(entersState mid t || leavesState mid t)) ++
    (ir.transitions.filter (entersState mid)).map (fuse mid out) = _
  congr 1
  · apply List.filter_congr
    intro t ht
    rw [henters t ht, hleaves t ht]
  · congr 1
    exact List.filter_congr henters

theorem ready_fuse (source event : String) (g : GuardValuation) (t : TransitionEdge) :
    ready source event g (fuse mid out t) = ready source event g t := by
  have hguard : (fuse mid out t).getGuard = t.getGuard := by
    have hg : (fuse mid out t).guard = t.guard := by
      show composeGuardStrings t.guard out.guard = t.guard
      rw [h.passing.guard]
      cases t.guard <;> rfl
    have ha : (fuse mid out t).guardAst = t.guardAst := by
      show composeGuardAsts t.guardAst out.guardAst = t.guardAst
      rw [h.passing.guardAst]
      cases t.guardAst <;> rfl
    rw [TransitionEdge.getGuard, TransitionEdge.getGuard, hg, ha]
  unfold ready
  rw [hguard]
  rfl

/-- Selecting transitions after the fusion, by what a composition takes from its incoming part. -/
theorem filter_fuseState {p : TransitionEdge → Bool} (hfuse : ∀ t, p (fuse mid out t) = p t)
    (hsource : ∀ t ∈ ir.transitions, p t = true → t.source ≠ mid.name) :
    (fuseState ir mid out).transitions.filter p =
      ((ir.transitions.filter p).filter fun t => !decide (t.target = mid.name)) ++
        ((ir.transitions.filter p).filter fun t => t.target = mid.name).map (fuse mid out) := by
  rw [h.transitions_fuseState, List.filter_append, List.filter_map]
  congr 1
  · rw [List.filter_filter, List.filter_filter]
    apply List.filter_congr
    intro t ht
    by_cases hp : p t = true
    · simp [hp, hsource t ht hp]
    · simp [hp]
  · congr 1
    rw [List.filter_filter, List.filter_filter]
    apply List.filter_congr
    intro t _
    show (p (fuse mid out t) && _) = _
    rw [hfuse, Bool.and_comm]

theorem chosen_fuseState {source : String} (event : String) (g : GuardValuation) (hsource : source ≠ mid.name) :
    chosen (fuseState ir mid out) source event g =
      (chosen ir source event g).map fun t =>
        if t.target = mid.name then fuse mid out t else t := by
  unfold chosen
  have hready : ∀ t ∈ ir.transitions, ready source event g t = true → t.source ≠ mid.name := by
    intro t _ ht
    simp only [ready, tried, Bool.and_eq_true, decide_eq_true_eq] at ht
    rw [ht.1.1]
    exact hsource
  rw [h.filter_fuseState (h.ready_fuse source event g) hready]
  generalize hrows : ir.transitions.filter (ready source event g) = rows
  have hlast : rows.Pairwise fun a b => (a.target = mid.name → b.target = mid.name) ∧
      (b.target = mid.name → precedence a.priority ≤ precedence b.priority) := by
    have hrow : ∀ t ∈ rows, t.source = source ∧ t.event = event := by
      intro t ht
      rw [← hrows] at ht
      have hready := (List.mem_filter.mp ht).2
      simp only [ready, tried, Bool.and_eq_true, decide_eq_true_eq] at hready
      exact hready.1
    have hpair : rows.Pairwise (GoesLast mid.name) := by
      rw [← hrows]
      exact h.passing.last.filter _
    refine hpair.imp_of_mem ?_
    intro a b ha hb hgoes
    exact hgoes ((hrow a ha).1.trans (hrow b hb).1.symm) ((hrow a ha).2.trans (hrow b hb).2.symm)
  have hsplit : rows = (rows.filter fun t => !decide (t.target = mid.name)) ++
      rows.filter fun t => t.target = mid.name :=
    eq_filter_append_filter (hlast.imp fun hab => by simpa using hab.1)
  generalize hfront : (rows.filter fun t => !decide (t.target = mid.name)) = front at hsplit ⊢
  generalize hback : (rows.filter fun t => decide (t.target = mid.name)) = back at hsplit ⊢
  have hfrontne : ∀ t ∈ front, t.target ≠ mid.name := by
    intro t ht
    rw [← hfront] at ht
    simpa using (List.mem_filter.mp ht).2
  have hbackeq : ∀ t ∈ back, t.target = mid.name := by
    intro t ht
    rw [← hback] at ht
    simpa using (List.mem_filter.mp ht).2
  rw [hsplit] at hlast ⊢
  obtain ⟨-, hbackpair, hcross⟩ := List.pairwise_append.mp hlast
  by_cases hnil : front = []
  · -- only transitions into the state fire: the first of them is chosen
    subst hnil
    have hsorted : back.Pairwise fun a b => precedence a.priority ≤ precedence b.priority :=
      hbackpair.imp_of_mem fun _ hb hab => hab.2 (hbackeq _ hb)
    have hsorted' : (back.map (fuse mid out)).Pairwise
        fun a b => precedence a.priority ≤ precedence b.priority := by
      rw [List.pairwise_map]
      exact List.pairwise_of_forall fun _ _ => le_rfl
    rw [List.nil_append, List.nil_append, argmin_of_pairwise hsorted,
      argmin_of_pairwise hsorted', List.head?_map]
    cases hhead : back.head? with
    | none => rfl
    | some t => simp [hbackeq t (List.mem_of_head? hhead)]
  · rw [argmin_append_of_le hnil, argmin_append_of_le hnil]
    · cases hmin : front.argmin fun t => precedence t.priority with
      | none => rfl
      | some t => simp [hfrontne t (List.argmin_mem hmin)]
    · intro a ha b hb
      exact (hcross a ha b hb).2 (hbackeq b hb)
    · intro a _ b hb
      obtain ⟨i, -, rfl⟩ := List.mem_map.mp hb
      exact precedence_le a.priority

theorem chosen_mid (g : GuardValuation) : chosen ir mid.name "" g = some out := by
  have hfilter : ir.transitions.filter (ready mid.name "" g) = [out] := by
    have hready : ∀ t ∈ ir.transitions, ready mid.name "" g t =
        (ready mid.name "" g t && leavesState mid t) := by
      intro t ht
      by_cases hs : t.source = mid.name
      · simp [(h.fusable.leaves mid h.mem t ht).mpr hs]
      · simp [ready, tried, hs]
    have hout : ready mid.name "" g out = true := by
      simp [ready, tried, h.out_source, h.passing.event, TransitionEdge.getGuard,
        h.passing.guardAst, h.passing.guard, guardPassed]
    rw [List.filter_congr hready, ← List.filter_filter, h.filter_leaves]
    simp [hout]
  rw [chosen, hfilter, List.argmin_singleton]

theorem states_split : ∃ front back, ir.states = front ++ mid :: back ∧
    (fuseState ir mid out).states = front ++ back := by
  obtain ⟨htransient, front, back, hsplit, hfront⟩ := List.find?_eq_some_iff_append.mp h.first
  refine ⟨front, back, hsplit, ?_⟩
  show ir.states.eraseP (isTransient ir) = front ++ back
  rw [hsplit, List.eraseP_append_right _ (by simpa using hfront),
    List.eraseP_cons_of_pos htransient]

theorem findState_fuseState {name : String} (hne : name ≠ mid.name) :
    (fuseState ir mid out).findState name = ir.findState name := by
  obtain ⟨front, back, hsplit, hsplit'⟩ := h.states_split
  have hmid : decide (mid.name = name) = false := by simpa using hne.symm
  rw [FsmIr.findState, FsmIr.findState, hsplit, hsplit', List.find?_append, List.find?_append,
    List.find?_cons_of_neg (by simpa using hne.symm)]

variable {s : String} {t : TransitionEdge} {r : String × Observation}

theorem observeStep_of_ne (hs : s ≠ mid.name) (ht : t.target ≠ mid.name) :
    observeStep (fuseState ir mid out) s t = observeStep ir s t := by
  unfold observeStep observeExit observeEntry
  rw [h.findState_fuseState hs, h.findState_fuseState ht]

theorem observeStep_fuse (hs : s ≠ mid.name) (ht : t ∈ ir.transitions) (htarget : t.target = mid.name) :
    observeStep (fuseState ir mid out) s (fuse mid out t) =
      observeStep ir s t * observeStep ir mid.name out := by
  obtain ⟨hcond, hkind⟩ := h.passing.incoming t ht htarget
  have hentry : observeEntry ir t.target = observeActions mid.entryActions := by
    rw [observeEntry, htarget, h.findState_mid]
    rfl
  have hexit : observeExit ir mid.name = observeActions mid.exitActions := by
    rw [observeExit, h.findState_mid]
    rfl
  have hexit' : observeExit (fuseState ir mid out) s = observeExit ir s := by
    rw [observeExit, observeExit, h.findState_fuseState hs]
  have hentry' : observeEntry (fuseState ir mid out) out.target = observeEntry ir out.target := by
    rw [observeEntry, observeEntry, h.findState_fuseState h.out_target]
  have hnone : observeCondition none = 1 := rfl
  have hfuse : observeStep (fuseState ir mid out) s (fuse mid out t) =
      observeExit ir s * (1 * (observeAction? t.transitionAction * observeActions mid.entryActions *
          (observeActions mid.exitActions * observeAction? out.transitionAction)) *
        (observeResets t.clockResets * observeResets out.clockResets)) *
        observeEntry ir out.target := by
    rw [← observeAction?_fuse, ← observeResets_mergeResets, ← hexit', ← hentry']
    rfl
  rw [hfuse]
  simp only [observeStep, hkind, h.passing.kind, if_false, observeEffect, hcond,
    h.passing.condition, hnone, hentry, hexit, one_mul]
  -- the clocks that the incoming transition resets are moved to the end of its effects
  have hcomm : ∀ x y : Observation, observeResets t.clockResets * (x * y) =
      x * (observeResets t.clockResets * y) := by
    intro x y
    rw [← mul_assoc, observeResets_comm, mul_assoc]
  simp only [mul_assoc, hcomm]

theorem nextState_of_incoming (ht : t ∈ ir.transitions)
    (htarget : t.target = mid.name) : nextState s t = mid.name := by
  rw [nextState, if_neg (h.passing.incoming t ht htarget).2, htarget]

theorem nextState_out (s : String) : nextState s out = out.target := if_neg h.passing.kind

omit h in
theorem nextState_fuse (s : String) (t : TransitionEdge) : nextState s (fuse mid out t) = out.target := rfl

omit h in
theorem nextState_ne (hs : s ≠ mid.name) (ht : t.target ≠ mid.name) : nextState s t ≠ mid.name := by
  unfold nextState
  split
  · exact hs
  · exact ht

omit h in
theorem mem_of_chosen {s event : String} {g : GuardValuation}
    (ht : chosen ir s event g = some t) : t ∈ ir.transitions :=
  List.mem_of_mem_filter (List.argmin_mem ht)

variable {v : GuardHistory} {out' : TransitionEdge}

theorem quiesces_fuseState {w : Observation} (hq : Quiesces ir v s w r) :
    (s ≠ mid.name → Quiesces (fuseState ir mid out) v s w r) ∧
      (s = mid.name → Quiesces (fuseState ir mid out) v out.target
        (w * observeStep ir mid.name out) r) := by
  induction hq with
  | @rest s w hnone =>
    refine ⟨?_, ?_⟩
    · intro hs
      apply Quiesces.rest
      rw [h.chosen_fuseState _ _ hs, hnone]
      rfl
    · rintro rfl
      simp [h.chosen_mid] at hnone
  | @step s w t r hsome _ ih =>
    refine ⟨?_, ?_⟩
    · intro hs
      have ht : t ∈ ir.transitions := mem_of_chosen hsome
      have hchosen := h.chosen_fuseState "" (v w) hs
      rw [hsome, Option.map_some] at hchosen
      by_cases htarget : t.target = mid.name
      · rw [if_pos htarget] at hchosen
        have hnext := ih.2 (h.nextState_of_incoming ht htarget)
        rw [mul_assoc, ← h.observeStep_fuse hs ht htarget] at hnext
        exact .step hchosen hnext
      · rw [if_neg htarget] at hchosen
        have hnext := ih.1 (nextState_ne hs htarget)
        rw [← h.observeStep_of_ne hs htarget] at hnext
        exact .step hchosen hnext
    · rintro rfl
      rw [h.chosen_mid] at hsome
      obtain rfl := Option.some.inj hsome
      rw [h.nextState_out] at ih
      exact ih.1 h.out_target

theorem quiesces_of_fuseState {w : Observation} (hq : Quiesces (fuseState ir mid out) v s w r)
    (hs : s ≠ mid.name) : Quiesces ir v s w r := by
  induction hq with
  | @rest s w hnone =>
    rw [h.chosen_fuseState _ _ hs, Option.map_eq_none_iff] at hnone
    exact .rest hnone
  | @step s w t' r hsome _ ih =>
    rw [h.chosen_fuseState _ _ hs] at hsome
    obtain ⟨t, hchosen, rfl⟩ := Option.map_eq_some_iff.mp hsome
    have ht : t ∈ ir.transitions := mem_of_chosen hchosen
    by_cases htarget : t.target = mid.name
    · rw [if_pos htarget] at ih
      have hnext := ih h.out_target
      rw [h.observeStep_fuse hs ht htarget, ← mul_assoc] at hnext
      refine .step hchosen ?_
      rw [h.nextState_of_incoming ht htarget]
      refine .step (h.chosen_mid _) ?_
      rwa [h.nextState_out]
    · rw [if_neg htarget] at ih
      have hnext := ih (nextState_ne hs htarget)
      rw [h.observeStep_of_ne hs htarget] at hnext
      exact .step hchosen hnext

theorem macroStep_fuseState {s event : String} (hs : s ≠ mid.name) :
    MacroStep (fuseState ir mid out) v s event r ↔ MacroStep ir v s event r := by
  unfold MacroStep
  rw [h.chosen_fuseState event (v 1) hs]
  cases hchosen : chosen ir s event (v 1) with
  | none => rfl
  | some t =>
    have ht : t ∈ ir.transitions := mem_of_chosen hchosen
    by_cases htarget : t.target = mid.name
    · simp only [Option.map_some, htarget, if_true]
      rw [h.observeStep_fuse hs ht htarget, nextState_fuse, h.nextState_of_incoming ht htarget]
      refine ⟨?_, fun hq => (h.quiesces_fuseState hq).2 rfl⟩
      intro hq
      refine .step (h.chosen_mid _) ?_
      rw [h.nextState_out]
      exact h.quiesces_of_fuseState hq h.out_target
    · simp only [Option.map_some, htarget, if_false]
      rw [h.observeStep_of_ne hs htarget]
      have hne : nextState s t ≠ mid.name := nextState_ne hs htarget
      exact ⟨fun hq => h.quiesces_of_fuseState hq hne, fun hq => (h.quiesces_fuseState hq).1 hne⟩

/-! ## The fused machine is again fused cleanly -/

theorem mem_transitions_fuseState {t' : TransitionEdge} : t' ∈ (fuseState ir mid out).transitions ↔
      (t' ∈ ir.transitions ∧ t'.target ≠ mid.name ∧ t'.source ≠ mid.name) ∨
        ∃ t ∈ ir.transitions, t.target = mid.name ∧ fuse mid out t = t' := by
  rw [h.transitions_fuseState]
  simp [and_assoc]

theorem mem_states_fuseState {s : StateNode} (hs : s ∈ (fuseState ir mid out).states) :
    s ∈ ir.states ∧ s.name ≠ mid.name := by
  obtain ⟨front, back, hsplit, hsplit'⟩ := h.states_split
  rw [hsplit'] at hs
  have hnames := h.fusable.names
  rw [hsplit, List.map_append, List.map_cons] at hnames
  have hmid := (List.nodup_middle.mp hnames)
  rw [List.nodup_cons, ← List.map_append] at hmid
  refine ⟨?_, ?_⟩
  · rw [hsplit]
    rcases List.mem_append.mp hs with hs | hs
    · simp [hs]
    · simp [hs]
  · intro heq
    exact hmid.1 (heq ▸ List.mem_map_of_mem hs)

theorem transientEdge_of_fuseState {s : StateNode} (hs : s ∈ (fuseState ir mid out).states)
    (hedge : transientEdge (fuseState ir mid out) s = some out') :
    ∃ out₀, transientEdge ir s = some out₀ ∧
      out' = if out₀.target = mid.name then fuse mid out out₀ else out₀ := by
  obtain ⟨hmem, hne⟩ := h.mem_states_fuseState hs
  have hsource : ∀ t ∈ ir.transitions, leavesState s t = true → t.source ≠ mid.name := by
    intro t ht hleaves
    rw [(h.fusable.leaves s hmem t ht).mp hleaves]
    exact hne
  have hfilter := h.filter_fuseState (p := leavesState s) (fun _ => rfl) hsource
  unfold transientEdge at hedge
  split at hedge
  · simp at hedge
  next hexcluded =>
    split at hedge
    · next outEdge hout =>
        split at hedge
        · next hcond =>
            obtain rfl := Option.some.inj hedge
            simp only [Bool.and_eq_true, Bool.not_eq_true', List.any_eq_true] at hcond
            obtain ⟨⟨⟨t', ht', henters'⟩, himmediate⟩, hself⟩ := hcond
            -- one transition left the state before as well
            rw [hout] at hfilter
            have hlen := congrArg List.length hfilter
            rw [List.length_append, List.length_map] at hlen
            have hsum := List.length_eq_length_filter_add (l := ir.transitions.filter
              (leavesState s)) fun t => decide (t.target = mid.name)
            have hone : (ir.transitions.filter (leavesState s)).length = 1 := by
              simp only [List.length_singleton] at hlen
              omega
            obtain ⟨out₀, hout₀⟩ := List.length_eq_one_iff.mp hone
            rw [hout₀] at hfilter
            have houtEdge : outEdge = if out₀.target = mid.name then fuse mid out out₀ else out₀ := by
              by_cases htarget : out₀.target = mid.name <;> simpa [htarget] using hfilter
            have hany : ir.transitions.any (entersState s) = true := by
              rw [List.any_eq_true]
              rcases h.mem_transitions_fuseState.mp ht' with ⟨ht, -, -⟩ | ⟨t, -, -, rfl⟩
              · exact ⟨t', ht, henters'⟩
              · exact ⟨out, h.out_mem, henters'⟩
            have hout₀mem : out₀ ∈ ir.transitions := by
              have hin : out₀ ∈ ir.transitions.filter (leavesState s) := by simp [hout₀]
              exact List.mem_of_mem_filter hin
            refine ⟨out₀, ?_, houtEdge⟩
            have hself₀ : entersState s out₀ = false := by
              by_cases htarget : out₀.target = mid.name
              · rw [← Bool.not_eq_true, h.fusable.enters s hmem out₀ hout₀mem, htarget]
                exact hne.symm
              · rw [houtEdge, if_neg htarget] at hself
                exact hself
            have himmediate₀ : isImmediateTrigger out₀.trigger = true := by
              by_cases htarget : out₀.target = mid.name
              · rw [houtEdge, if_pos htarget] at himmediate
                exact himmediate
              · rw [houtEdge, if_neg htarget] at himmediate
                exact himmediate
            have hexcluded₀ : ¬ excluded ir s = true := hexcluded
            rw [transientEdge, if_neg hexcluded₀, hout₀]
            simp [hany, himmediate₀, hself₀]
        · simp at hedge
    · simp at hedge

theorem goesLast_fuseState {name : String} (hne : name ≠ mid.name) (hlast : ir.transitions.Pairwise (GoesLast name)) :
    (fuseState ir mid out).transitions.Pairwise (GoesLast name) := by
  have heither : ∀ a ∈ ir.transitions, ∀ b ∈ ir.transitions, a ≠ b →
      (GoesLast name a b ∧ GoesLast mid.name a b) ∨
        (GoesLast name b a ∧ GoesLast mid.name b a) := by
    intro a ha b hb hab
    have hboth := hlast.and h.passing.last
    have hsym := hboth.imp (S := fun a b => (GoesLast name a b ∧ GoesLast mid.name a b) ∨
      (GoesLast name b a ∧ GoesLast mid.name b a)) fun hab => Or.inl hab
    have : Std.Symm fun a b => (GoesLast name a b ∧ GoesLast mid.name a b) ∨
        (GoesLast name b a ∧ GoesLast mid.name b a) := ⟨fun _ _ => Or.symm⟩
    exact hsym.forall ha hb hab
  rw [h.transitions_fuseState, List.pairwise_append]
  refine ⟨hlast.filter _, ?_, ?_⟩
  · -- two compositions lead to one state and have one priority
    rw [List.pairwise_map]
    exact List.pairwise_of_forall fun _ _ _ _ => ⟨fun ha => ha, fun _ => le_rfl⟩
  · intro a ha b' hb'
    obtain ⟨hamem, hakept⟩ := List.mem_filter.mp ha
    obtain ⟨b, hb, rfl⟩ := List.mem_map.mp hb'
    obtain ⟨hbmem, hbmid⟩ := List.mem_filter.mp hb
    have htargetb : b.target = mid.name := by simpa using hbmid
    have htargeta : a.target ≠ mid.name := by
      simp only [Bool.not_eq_true', Bool.or_eq_false_iff, decide_eq_false_iff_not] at hakept
      exact hakept.1
    intro hsource hevent
    refine ⟨?_, fun _ => precedence_le a.priority⟩
    intro haname
    exfalso
    have hab : a ≠ b := by
      rintro rfl
      exact htargeta htargetb
    rcases heither a hamem b hbmem hab with ⟨hgoes, -⟩ | ⟨-, hgoes⟩
    · have hbname := (hgoes hsource hevent).1 haname
      exact hne (hbname.symm.trans htargetb)
    · exact htargeta ((hgoes hsource.symm hevent.symm).1 htargetb)

theorem passing_fuseState {s : StateNode} (hs : s ∈ (fuseState ir mid out).states)
    (hedge : transientEdge (fuseState ir mid out) s = some out') :
    Passing (fuseState ir mid out) s out' := by
  obtain ⟨hmem, hne⟩ := h.mem_states_fuseState hs
  obtain ⟨out₀, hedge₀, rfl⟩ := h.transientEdge_of_fuseState hs hedge
  have hpass := h.fusable.passing s hmem out₀ hedge₀
  have hincoming : ∀ t' ∈ (fuseState ir mid out).transitions, t'.target = s.name →
      t'.conditionAction = none ∧ t'.kind ≠ .internal := by
    intro t' ht' htarget
    rcases h.mem_transitions_fuseState.mp ht' with ⟨ht, -, -⟩ | ⟨t, -, -, rfl⟩
    · exact hpass.incoming t' ht htarget
    · exact ⟨rfl, by simp [fuse]⟩
  have hlast := h.goesLast_fuseState hne hpass.last
  by_cases htarget : out₀.target = mid.name
  · rw [if_pos htarget]
    refine ⟨hpass.notInitial, hpass.event, ?_, ?_, rfl, by simp [fuse], hincoming, hlast⟩
    · show composeGuardStrings out₀.guard out.guard = none
      rw [hpass.guard, h.passing.guard]
      rfl
    · show composeGuardAsts out₀.guardAst out.guardAst = none
      rw [hpass.guardAst, h.passing.guardAst]
      rfl
  · rw [if_neg htarget]
    exact ⟨hpass.notInitial, hpass.event, hpass.guard, hpass.guardAst, hpass.condition,
      hpass.kind, hincoming, hlast⟩

theorem fusable_fuseState : Fusable (fuseState ir mid out) where
  names := by
    obtain ⟨front, back, hsplit, hsplit'⟩ := h.states_split
    have hnames := h.fusable.names
    rw [hsplit] at hnames
    rw [hsplit']
    refine hnames.sublist (List.Sublist.map _ ?_)
    exact List.Sublist.append_left (List.sublist_cons_self mid back) front
  enters := by
    intro s hs t' ht'
    obtain ⟨hmem, -⟩ := h.mem_states_fuseState hs
    rcases h.mem_transitions_fuseState.mp ht' with ⟨ht, -, -⟩ | ⟨t, -, -, rfl⟩
    · exact h.fusable.enters s hmem t' ht
    · exact h.fusable.enters s hmem out h.out_mem
  leaves := by
    intro s hs t' ht'
    obtain ⟨hmem, -⟩ := h.mem_states_fuseState hs
    rcases h.mem_transitions_fuseState.mp ht' with ⟨ht, -, -⟩ | ⟨t, ht, -, rfl⟩
    · exact h.fusable.leaves s hmem t' ht
    · exact h.fusable.leaves s hmem t ht
  passing := fun _ hs _ hedge => h.passing_fuseState hs hedge

end Fusing

/-! ## The whole loop -/

theorem fusing_of_fuseOnce {ir ir' : FsmIr} (hf : Fusable ir) (h : fuseOnce ir = some ir') :
    ∃ mid out, Fusing ir mid out ∧ ir' = fuseState ir mid out := by
  obtain ⟨mid, -, out, hfirst, hedge, rfl⟩ := exists_of_fuseOnce h
  exact ⟨mid, out, ⟨hf, hfirst, hedge⟩, rfl⟩

theorem fuseAll_preserves (fuel : ℕ) {ir : FsmIr} (hf : Fusable ir) :
    Fusable (fuseAll fuel ir).1 ∧ (fuseAll fuel ir).1.initialState = ir.initialState ∧
      (∀ s ∈ (fuseAll fuel ir).1.states, s ∈ ir.states) ∧
      ∀ s, s = ir.initialState ∨ s ∈ (fuseAll fuel ir).1.states.map (·.name) →
        ∀ event v r, MacroStep (fuseAll fuel ir).1 v s event r ↔ MacroStep ir v s event r := by
  induction fuel generalizing ir with
  | zero => exact ⟨hf, rfl, fun _ hs => hs, fun _ _ _ _ _ => Iff.rfl⟩
  | succ fuel ih =>
    unfold fuseAll
    cases honce : fuseOnce ir with
    | none => exact ⟨hf, rfl, fun _ hs => hs, fun _ _ _ _ _ => Iff.rfl⟩
    | some fused =>
      obtain ⟨mid, out, hfusing, rfl⟩ := fusing_of_fuseOnce hf honce
      obtain ⟨hfusable, hinitial, hstates, hsteps⟩ := ih hfusing.fusable_fuseState
      refine ⟨hfusable, hinitial, ?_, ?_⟩
      · intro s hs
        exact (hfusing.mem_states_fuseState (hstates s hs)).1
      · intro s hs event v r
        have hne : s ≠ mid.name := by
          rcases hs with rfl | hs
          · exact hfusing.passing.notInitial.symm
          · obtain ⟨node, hnode, rfl⟩ := List.mem_map.mp hs
            exact (hfusing.mem_states_fuseState (hstates node hnode)).2
        exact (hsteps s hs event v r).trans (hfusing.macroStep_fuseState hne)

/-- A state that is left at once, without a guard. -/
def draining : FsmIr where
  initialState := "Idle"
  initialStateId := "Idle"
  states := [{ id := "s1", name := "Idle" },
    { id := "s2", name := "Flush", entryActions := [{ name := "flush" }] },
    { id := "s3", name := "Done" }]
  transitions := [{ source := "Idle", target := "Flush", event := "stop", guard := some "full" },
    { source := "Flush", target := "Done", clockResets := ["c"] }]

/-- A state whose outgoing transition has a guard. -/
def waiting : FsmIr where
  initialState := "Idle"
  initialStateId := "Idle"
  states := [{ id := "s1", name := "Idle" }, { id := "s2", name := "Armed" },
    { id := "s3", name := "Fired" }]
  transitions := [{ source := "Idle", target := "Armed", event := "arm" },
    { source := "Armed", target := "Fired", guard := some "clear" }]

end Fsmc.Passes.TransitionFusion
