/-
# Fsmc.Passes.HierarchyWalks — the loops that climb from a state to its ancestors.

Four passes go from parent to parent until they come to the root or to what they look for, and nothing in
them remembers where they were. Parents that form a cycle are accepted everywhere, so whether a loop ends
depends on where it starts and on what stops it.
-/
import Fsmc.Ir.WellFormed
import Fsmc.Lib.Places
import Fsmc.Lib.UpwardWalk
import Fsmc.Passes.BoundaryActionFusion
import Fsmc.Passes.HistoryLowering

namespace Fsmc.Passes.HierarchyWalks

open Fsmc.Ir Fsmc.Lib.Ancestry Fsmc.Lib.UpwardWalk Fsmc.Runtime

/-- `while (!curr.empty())`: where the loop starts, how it goes on and what ends it before the root. -/
structure AncestorLoop where
  parent : String → Option String
  stop : String → Bool
  start : Option String

def AncestorLoop.Ends (l : AncestorLoop) : Prop := Lib.UpwardWalk.Ends l.parent l.stop l.start

def named (s : String) : Option String := if s = "" then none else some s

/-! ## Boundary action fusion -/

/-- The transitions whose boundary is looked at. -/
def considered (ir : FsmIr) (t : TransitionEdge) : Bool :=
  t.source ≠ "" && t.target ≠ "" && t.kind ≠ .internal && (ir.findState t.source).isSome &&
    (ir.findState t.target).isSome

/-- The ascent from the source to the common ancestor. -/
def exitLoop (ir : FsmIr) (t : TransitionEdge) : AncestorLoop where
  parent := parentOf ir
  stop s := s = lcaOf ir t
  start := named t.source

/-- The ascent from the target. -/
def entryLoop (ir : FsmIr) (t : TransitionEdge) : AncestorLoop where
  parent := parentOf ir
  stop s := s = lcaOf ir t
  start := named t.target

/-- The loops of `BoundaryActionFusionPass::run`. -/
def boundaryLoops (ir : FsmIr) : List AncestorLoop :=
  (ir.transitions.filter (considered ir)).flatMap fun t => [exitLoop ir t, entryLoop ir t]

/-! ## History lowering -/

/-- With deep history every state climbs, in search of the composite. -/
def deepLoops (m : FsmIr) (parent : String) : List AncestorLoop :=
  match m.findState parent with
  | none => []
  | some _ =>
    if HistoryLowering.isDeep m parent then
      m.states.map fun s => ⟨parentOf m, fun curr => curr = parent, named s.parentState⟩
    else []

/-- The loops of the composites in their turns; each turn works on what the turns before have left. -/
def turnLoops : List String → FsmIr → List AncestorLoop
  | [], _ => []
  | parent :: rest, m => deepLoops m parent ++ turnLoops rest (HistoryLowering.lowerComposite m parent)

/-- The loops of `HistoryLoweringPass::run`. -/
def historyLoops (ir : FsmIr) : List AncestorLoop := turnLoops (HistoryLowering.compositesWithHistory ir) ir

/-! ## Priority conflicts -/

/-- `parent_id.value_or("")` of the state with an identifier. -/
def parentIdOf (ir : FsmIr) (stateId : String) : Option String :=
  ((ir.findStateById stateId).bind (·.parentId)).filter (· ≠ "")

def resolveId (ir : FsmIr) (idOrName : String) : String :=
  match ir.findStateById idOrName with
  | some s => s.id
  | none =>
    match ir.findState idOrName with
    | some s => s.id
    | none => idOrName

def sourceOf (ir : FsmIr) (t : TransitionEdge) : String :=
  resolveId ir (if t.sourceId = "" then t.source else t.sourceId)

def isAncestorOfLoop (ir : FsmIr) (parentId childId : String) : List AncestorLoop :=
  match ir.findStateById childId with
  | none => []
  | some _ => [⟨parentIdOf ir, fun curr => curr = parentId, parentIdOf ir childId⟩]

/-- The loops of `PriorityConflictPass::run`: one for each two transitions of different sources, whatever
their triggers are. -/
def priorityLoops (ir : FsmIr) : List AncestorLoop :=
  ir.transitions.flatMap fun t1 => ir.transitions.flatMap fun t2 =>
    if sourceOf ir t1 = sourceOf ir t2 then [] else isAncestorOfLoop ir (sourceOf ir t1) (sourceOf ir t2)

/-! ## Model safety -/

def safetyRoot (ir : FsmIr) : String :=
  let root := if ir.initialStateId = "" then ir.initialState else ir.initialStateId
  if root = "" then (ir.states.head?.map (·.name)).getD "" else root

/-- A transition leaves the state. -/
def left (ir : FsmIr) (name : String) : Bool := ir.transitions.any fun t => t.source = name

/-- The states that are checked for being a trap. -/
def mayTrap (ir : FsmIr) (s : StateNode) : Bool :=
  !(s.kind = .final || ir.isChoiceNode s.name || s.isComposite ||
    "Terminal".toList.isPrefixOf s.name.toList || "Final".toList.isPrefixOf s.name.toList)

/-- The ancestor loops of `ModelSafetyVerifierPass::run`; the search among the descendants is left out. -/
def safetyLoops (ir : FsmIr) : List AncestorLoop :=
  if safetyRoot ir = "" then []
  else
    (ir.states.filter fun s => mayTrap ir s && !left ir s.name).map fun s =>
      ⟨parentOf ir, left ir, named s.parentState⟩

/-! ## When they end -/

/-- The parents in the turn that comes after some others: the choices that those have added are states. -/
def parentAfter (ir : FsmIr) (done : List String) (x : String) : Option String :=
  (match ir.findState x with
    | some n => some n.parentState
    | none => done.find? fun P => HistoryLowering.restoreName P = x).filter (· ≠ "")

/-- The composite is lowered with deep history: it has the flag, which its first turn takes away, or a node
for it. -/
def deepAfter (ir : FsmIr) (done : List String) (P : String) : Bool :=
  ((ir.findState P).any (·.hasDeepHistory) && P ∉ done) ||
    ir.states.any fun s => s.parentState = P && s.kind = .deepHistory

/-- No loop starts below a cycle of parents without meeting what it looks for. -/
structure Harmless (ir : FsmIr) : Prop where
  /-- Two different ends of a transition have an ancestor in common, or neither is below a cycle. -/
  boundary : ∀ t ∈ ir.transitions, considered ir t = true → t.source ≠ t.target →
    (∃ a, OnWay (parentOf ir) (some t.source) a ∧ OnWay (parentOf ir) (some t.target) a) ∨
      ¬ IntoCycle (parentOf ir) (some t.source) ∧ ¬ IntoCycle (parentOf ir) (some t.target)
  /-- Only descendants of a composite with deep history are below a cycle. -/
  history : ∀ done P rest, HistoryLowering.compositesWithHistory ir = done ++ P :: rest →
    deepAfter ir done P = true → ∀ p ∈ ir.states.map (·.parentState) ++ done,
      IntoCycle (parentAfter ir done) (named p) → OnWay (parentAfter ir done) (named p) P
  /-- Of two transitions, the source of the one is above the other's when that is below a cycle. -/
  priority : ∀ t1 ∈ ir.transitions, ∀ t2 ∈ ir.transitions, sourceOf ir t1 ≠ sourceOf ir t2 →
    IntoCycle (parentIdOf ir) (parentIdOf ir (sourceOf ir t2)) →
      OnWay (parentIdOf ir) (parentIdOf ir (sourceOf ir t2)) (sourceOf ir t1)
  /-- A state below a cycle that no transition leaves has an ancestor that one leaves. -/
  safety : safetyRoot ir ≠ "" → ∀ s ∈ ir.states, mayTrap ir s = true → left ir s.name = false →
    IntoCycle (parentOf ir) (named s.parentState) →
      ∃ b, OnWay (parentOf ir) (named s.parentState) b ∧ left ir b = true

section Names

variable (ir : FsmIr)

variable {a b : String}

theorem parentOf_mem (h : parentOf ir a = some b) : a ∈ ir.states.map (·.name) := by
  obtain ⟨n, hn, rfl, -⟩ := parentOf_eq_some h
  exact List.mem_map_of_mem hn

theorem parentOf_mem_parents (h : parentOf ir a = some b) : b ∈ ir.states.map (·.parentState) := by
  obtain ⟨n, hn, -, rfl, -⟩ := parentOf_eq_some h
  exact List.mem_map_of_mem hn

theorem parentIdOf_mem (h : parentIdOf ir a = some b) : b ∈ ir.states.filterMap (·.parentId) := by
  unfold parentIdOf at h
  obtain ⟨hbind, -⟩ := Option.filter_eq_some_iff.mp h
  obtain ⟨n, hn, hb⟩ := Option.bind_eq_some_iff.mp hbind
  exact List.mem_filterMap.mpr ⟨n, List.mem_of_find?_eq_some hn, hb⟩

theorem ends_names (stop : String → Bool) (start : Option String) : Lib.UpwardWalk.Ends (parentOf ir) stop start ↔
      (IntoCycle (parentOf ir) start → Meets (parentOf ir) stop start) :=
  ends_iff (fun _ _ h => parentOf_mem_parents ir h) start

theorem named_of_ne {s : String} (h : s ≠ "") : named s = some s := if_neg h

theorem mem_chain {s : String} (hs : s ≠ "") {x : String} : x ∈ chain ir s ↔ OnWay (parentOf ir) (some s) x := by
  unfold chain
  rw [if_neg hs]
  have hfuel : (ir.states.map (·.name)).length < ir.states.length + 1 := by simp
  exact mem_chainFrom (fun _ _ h => parentOf_mem ir h) hfuel

theorem ne_empty_of_onWay {s x : String} (hs : s ≠ "") (h : OnWay (parentOf ir) (some s) x) : x ≠ "" := by
  induction onWay_iff.mp h with
  | refl => exact hs
  | tail _ hstep _ =>
    obtain ⟨_, _, _, _, hne⟩ := parentOf_eq_some hstep
    exact hne

end Names

/-! ## The ends of a transition -/

section Boundary

variable {ir : FsmIr} {t : TransitionEdge}

/-- The common ancestor of two different states is on the way up from both. -/
theorem onWay_lcaOf (hsource : t.source ≠ "") (htarget : t.target ≠ "") (hne : t.source ≠ t.target) {a : String}
    (ha : OnWay (parentOf ir) (some t.source) a) (ha' : OnWay (parentOf ir) (some t.target) a) :
    OnWay (parentOf ir) (some t.source) (lcaOf ir t) ∧ OnWay (parentOf ir) (some t.target) (lcaOf ir t) := by
  have hcommon : ∃ c, firstCommon (chain ir t.source) (chain ir t.target) = some c := by
    apply Option.isSome_iff_exists.mp
    apply List.find?_isSome.mpr
    exact ⟨a, (mem_chain ir hsource).mpr ha, by simpa using (mem_chain ir htarget).mpr ha'⟩
  obtain ⟨c, hc⟩ := hcommon
  have hlca : lcaOf ir t = c := by simp [lcaOf, computeLca, hne, hc]
  obtain ⟨hcs, hct⟩ := firstCommon_mem hc
  rw [hlca]
  exact ⟨(mem_chain ir hsource).mp hcs, (mem_chain ir htarget).mp hct⟩

theorem lcaOf_eq_empty (hsource : t.source ≠ "") (htarget : t.target ≠ "") (hne : t.source ≠ t.target)
    (h : ¬ ∃ a, OnWay (parentOf ir) (some t.source) a ∧ OnWay (parentOf ir) (some t.target) a) :
    lcaOf ir t = "" := by
  have hnone : firstCommon (chain ir t.source) (chain ir t.target) = none := by
    apply List.find?_eq_none.mpr
    intro a ha hmem
    rw [decide_eq_true_eq] at hmem
    exact h ⟨a, (mem_chain ir hsource).mp ha, (mem_chain ir htarget).mp hmem⟩
  simp [lcaOf, computeLca, hne, hnone]

theorem ends_of_onWay {s top : String} (h : OnWay (parentOf ir) (some s) top) :
    Lib.UpwardWalk.Ends (parentOf ir) (fun x => x = top) (some s) :=
  (ends_names ir _ _).mpr fun _ => ⟨top, h, by simp⟩

theorem ends_empty_iff {s : String} (hs : s ≠ "") :
    Lib.UpwardWalk.Ends (parentOf ir) (fun x => x = "") (some s) ↔ ¬ IntoCycle (parentOf ir) (some s) := by
  rw [ends_names]
  constructor
  · intro h hcycle
    obtain ⟨b, hb, hstop⟩ := h hcycle
    exact ne_empty_of_onWay ir hs hb (by simpa using hstop)
  · exact fun h hcycle => absurd hcycle h

/-- A state is left and entered again within its parent: both loops end after one turn. -/
theorem ends_self (hself : t.source = t.target) :
    Lib.UpwardWalk.Ends (parentOf ir) (fun x => x = lcaOf ir t) (some t.source) := by
  have hlca : lcaOf ir t = (parentOf ir t.source).getD "" := by simp [lcaOf, computeLca, hself]
  rw [hlca]
  apply ends_some.mpr
  right
  cases hparent : parentOf ir t.source with
  | none => exact ends_none
  | some p => exact ends_some.mpr (.inl (by simp))

theorem boundary_ends_iff (ht : considered ir t = true) :
    ((exitLoop ir t).Ends ∧ (entryLoop ir t).Ends) ↔ (t.source ≠ t.target →
      (∃ a, OnWay (parentOf ir) (some t.source) a ∧ OnWay (parentOf ir) (some t.target) a) ∨
        ¬ IntoCycle (parentOf ir) (some t.source) ∧ ¬ IntoCycle (parentOf ir) (some t.target)) := by
  simp only [considered, Bool.and_eq_true, decide_eq_true_eq] at ht
  obtain ⟨⟨⟨⟨hsource, htarget⟩, -⟩, -⟩, -⟩ := ht
  unfold AncestorLoop.Ends exitLoop entryLoop
  rw [named_of_ne hsource, named_of_ne htarget]
  by_cases hself : t.source = t.target
  · have hends : Lib.UpwardWalk.Ends (parentOf ir) (fun x => x = lcaOf ir t) (some t.source) := ends_self hself
    exact ⟨fun _ hne => absurd hself hne, fun _ => ⟨hends, hself ▸ hends⟩⟩
  by_cases hcommon : ∃ a, OnWay (parentOf ir) (some t.source) a ∧ OnWay (parentOf ir) (some t.target) a
  · obtain ⟨a, ha, ha'⟩ := hcommon
    obtain ⟨hs, ht⟩ := onWay_lcaOf hsource htarget hself ha ha'
    exact ⟨fun _ _ => .inl ⟨a, ha, ha'⟩, fun _ => ⟨ends_of_onWay hs, ends_of_onWay ht⟩⟩
  · rw [lcaOf_eq_empty hsource htarget hself hcommon, ends_empty_iff hsource, ends_empty_iff htarget]
    exact ⟨fun h _ => .inr h, fun h => (h hself).resolve_left hcommon⟩

end Boundary

/-! ## The turns of the composites -/

section Turns

open HistoryLowering

/-- What the loops of a turn see of a state. -/
def viewOf (s : StateNode) : String × String × StateKind := (s.name, s.parentState, s.kind)

/-- What the loops of a turn see of the states, after the turns of some composites. -/
def viewsAfter (ir : FsmIr) (done : List String) : List (String × String × StateKind) :=
  ir.states.map viewOf ++ done.map fun P => (restoreName P, P, .choice)

/-- A machine after the turns of some composites, as far as the loops see it. -/
structure After (ir : FsmIr) (done : List String) (m : FsmIr) : Prop where
  views : m.states.map viewOf = viewsAfter ir done
  deep : ∀ Q ∈ ir.states.map (·.name),
    (m.findState Q).any (·.hasDeepHistory) = ((ir.findState Q).any (·.hasDeepHistory) && Q ∉ done)

variable (m : FsmIr) {P : String}

theorem viewOf_recordExit (deep : Bool) (P : String) (s : StateNode) :
    viewOf (recordExit m deep P s) = viewOf s := by
  unfold recordExit
  split <;> rfl

theorem hasDeepHistory_recordExit (deep : Bool) (P : String) (s : StateNode) :
    (recordExit m deep P s).hasDeepHistory = s.hasDeepHistory := by
  unfold recordExit
  split <;> rfl

theorem name_recordExit (deep : Bool) (P : String) (s : StateNode) :
    (recordExit m deep P s).name = s.name :=
  congrArg Prod.fst (viewOf_recordExit m deep P s)

theorem lowerComposite_states {m : FsmIr} (h : (m.findState P).isSome = true) :
    (lowerComposite m P).states =
      (m.modifyState P clearHistory).states.map (recordExit m (isDeep m P) P) ++ [restoreNode P] := by
  obtain ⟨s, hs⟩ := Option.isSome_iff_exists.mp h
  unfold lowerComposite
  rw [hs]

theorem isSome_findState_iff {m : FsmIr} {Q : String} :
    (m.findState Q).isSome = true ↔ Q ∈ m.states.map (·.name) := by
  simp [FsmIr.findState, List.find?_isSome]

/-- A state that is there is found after a turn as it was, but for the flags of the composite. -/
theorem findState_lowerComposite {m : FsmIr} {P Q : String} (hP : (m.findState P).isSome = true)
    {s : StateNode} (hs : m.findState Q = some s) :
    ∃ s', (lowerComposite m P).findState Q = some s' ∧
      s'.hasDeepHistory = (s.hasDeepHistory && decide (Q ≠ P)) := by
  have hcleared := FsmIr.findState_modifyState m P Q (f := clearHistory) fun _ => rfl
  rw [hs] at hcleared
  have hnames : (fun s : StateNode => decide (s.name = Q)) ∘ recordExit m (isDeep m P) P =
      fun s => decide (s.name = Q) := by
    funext s
    simp [name_recordExit]
  have hfind : (lowerComposite m P).findState Q =
      (((m.modifyState P clearHistory).findState Q).map (recordExit m (isDeep m P) P)).or
        ([restoreNode P].find? fun s => s.name = Q) := by
    show (lowerComposite m P).states.find? _ = _
    rw [lowerComposite_states hP, List.find?_append, List.find?_map, hnames]
    rfl
  rw [hfind, hcleared]
  by_cases hQ : Q = P
  · refine ⟨recordExit m (isDeep m P) P (clearHistory s), by simp [hQ], ?_⟩
    rw [hasDeepHistory_recordExit]
    simp [hQ, clearHistory]
  · refine ⟨recordExit m (isDeep m P) P s, by simp [hQ], ?_⟩
    rw [hasDeepHistory_recordExit]
    simp [hQ]

theorem After.refl (ir : FsmIr) : After ir [] ir where
  views := by simp [viewsAfter]
  deep := by simp

variable {done : List String}

theorem After.findState_isSome {ir m : FsmIr} (h : After ir done m) {Q : String}
    (hQ : Q ∈ ir.states.map (·.name)) : (m.findState Q).isSome = true := by
  have hnames := congrArg (List.map Prod.fst) h.views
  have hview : Prod.fst ∘ viewOf = fun s : StateNode => s.name := rfl
  simp only [viewsAfter, List.map_append, List.map_map, hview] at hnames
  rw [isSome_findState_iff, hnames]
  exact List.mem_append_left _ hQ

theorem After.step {ir m : FsmIr} (h : After ir done m)
    (hP : P ∈ ir.states.map (·.name)) : After ir (done ++ [P]) (lowerComposite m P) where
  views := by
    have hrecord : viewOf ∘ recordExit m (isDeep m P) P = viewOf :=
      funext fun s => viewOf_recordExit m _ P s
    have hclear : (m.modifyState P clearHistory).states.map viewOf = m.states.map viewOf :=
      map_modifyFirst (f := clearHistory) (g := viewOf) (fun _ => rfl) _
    rw [lowerComposite_states (h.findState_isSome hP), List.map_append, List.map_map, hrecord, hclear, h.views]
    simp [viewsAfter, viewOf, restoreNode]
  deep := by
    intro Q hQ
    obtain ⟨s, hs⟩ := Option.isSome_iff_exists.mp (h.findState_isSome hQ)
    obtain ⟨s', hs', hdeep⟩ := findState_lowerComposite (h.findState_isSome hP) hs
    have hbefore := h.deep Q hQ
    rw [hs] at hbefore
    rw [hs', Option.any_some, hdeep, show s.hasDeepHistory = _ from hbefore]
    by_cases hdone : Q ∈ done <;> by_cases hQP : Q = P <;> simp [hdone, hQP]

theorem After.parentOf_eq {ir m : FsmIr} (h : After ir done m) : parentOf m = parentAfter ir done := by
  funext x
  have hfind : ∀ states : List StateNode, (states.find? fun s => s.name = x).map (·.parentState) =
      ((states.map viewOf).find? fun v => v.1 = x).map (·.2.1) := by
    intro states
    rw [List.find?_map, Option.map_map]
    rfl
  have hadded : ((done.map fun P => (restoreName P, P, StateKind.choice)).find? fun v => v.1 = x).map (·.2.1) =
      done.find? fun P => restoreName P = x := by
    rw [List.find?_map, Option.map_map]
    exact Option.map_id_apply
  unfold parentOf parentAfter FsmIr.findState
  rw [hfind, h.views, viewsAfter, List.find?_append, Option.map_or, hadded, ← hfind]
  cases ir.states.find? fun s => s.name = x <;> rfl

theorem After.isDeep_eq {ir m : FsmIr} (h : After ir done m)
    (hP : P ∈ ir.states.map (·.name)) : isDeep m P = deepAfter ir done P := by
  have hnodes : ∀ m : FsmIr, ((historyNodes m P).any fun s => s.kind = .deepHistory) =
      (m.states.map viewOf).any fun v => v.2.1 = P && v.2.2 = .deepHistory := by
    intro m
    unfold historyNodes
    rw [List.any_filter, List.any_map]
    congr 1
    funext s
    by_cases hkind : s.kind = .deepHistory <;> simp [viewOf, isHistory, hkind]
  have hadded : ((done.map fun Q => (restoreName Q, Q, StateKind.choice)).any
      fun v => v.2.1 = P && v.2.2 = .deepHistory) = false := by
    simp
  unfold isDeep deepAfter
  rw [h.deep P hP, hnodes m, h.views, viewsAfter, List.any_append, hadded, Bool.or_false, List.any_map]
  rfl

theorem After.starts_eq {ir m : FsmIr} (h : After ir done m) :
    m.states.map (·.parentState) = ir.states.map (·.parentState) ++ done := by
  have hparents := congrArg (List.map fun v => v.2.1) h.views
  have hview : (fun v : String × String × StateKind => v.2.1) ∘ viewOf = fun s => s.parentState := rfl
  have hadded : (fun v : String × String × StateKind => v.2.1) ∘ (fun P => (restoreName P, P, .choice)) = id := rfl
  simpa only [viewsAfter, List.map_append, List.map_map, hview, hadded, List.map_id] using hparents

theorem turn_ends_iff {ir m : FsmIr} (h : After ir done m) (hP : P ∈ ir.states.map (·.name)) :
    (∀ l ∈ deepLoops m P, l.Ends) ↔ (deepAfter ir done P = true →
      ∀ p ∈ ir.states.map (·.parentState) ++ done,
        IntoCycle (parentAfter ir done) (named p) → OnWay (parentAfter ir done) (named p) P) := by
  obtain ⟨s, hs⟩ := Option.isSome_iff_exists.mp (h.findState_isSome hP)
  have hmeets : ∀ start, Meets (parentAfter ir done) (fun curr => curr = P) start ↔
      OnWay (parentAfter ir done) start P := by
    intro start
    simp [Meets]
  unfold deepLoops
  rw [hs, ← h.isDeep_eq hP, ← h.starts_eq, ← h.parentOf_eq]
  rw [← h.parentOf_eq] at hmeets
  by_cases hdeep : isDeep m P = true
  · simp only [hdeep, if_true, List.forall_mem_map, AncestorLoop.Ends, ends_names, hmeets, true_imp_iff]
  · simp [hdeep]

theorem turns_end_iff {ir m : FsmIr} (h : After ir done m) (names : List String)
    (hnames : ∀ P ∈ names, P ∈ ir.states.map (·.name)) :
    (∀ l ∈ turnLoops names m, l.Ends) ↔ ∀ before P rest, names = before ++ P :: rest →
      deepAfter ir (done ++ before) P = true → ∀ p ∈ ir.states.map (·.parentState) ++ (done ++ before),
        IntoCycle (parentAfter ir (done ++ before)) (named p) →
          OnWay (parentAfter ir (done ++ before)) (named p) P := by
  induction names generalizing done m with
  | nil => simp [turnLoops]
  | cons Q names ih =>
    have hQ := hnames Q List.mem_cons_self
    have hrest := ih (h.step hQ) fun P hP => hnames P (List.mem_cons_of_mem _ hP)
    -- the later turns walk the model that this one leaves
    rw [turnLoops, List.forall_mem_append, turn_ends_iff h hQ, hrest, Lib.Places.forall_split_cons]
    simp

end Turns

/-! ## All loops -/

theorem compositesWithHistory_subset {ir : FsmIr} :
    ∀ P ∈ HistoryLowering.compositesWithHistory ir, P ∈ ir.states.map (·.name) := by
  intro P hP
  obtain ⟨s, hs, rfl⟩ := List.mem_map.mp hP
  exact List.mem_map_of_mem (List.mem_of_mem_filter hs)

theorem boundaryLoops_end_iff (ir : FsmIr) :
    (∀ l ∈ boundaryLoops ir, l.Ends) ↔ ∀ t ∈ ir.transitions, considered ir t = true →
      t.source ≠ t.target →
        (∃ a, OnWay (parentOf ir) (some t.source) a ∧ OnWay (parentOf ir) (some t.target) a) ∨
          ¬ IntoCycle (parentOf ir) (some t.source) ∧ ¬ IntoCycle (parentOf ir) (some t.target) := by
  have hedges : (∀ l ∈ boundaryLoops ir, l.Ends) ↔
      ∀ t ∈ ir.transitions, considered ir t = true → (exitLoop ir t).Ends ∧ (entryLoop ir t).Ends := by
    unfold boundaryLoops
    rw [List.forall_mem_flatMap]
    simp [List.mem_filter]
  rw [hedges]
  exact forall₂_congr fun t _ => forall_congr' fun ht => boundary_ends_iff ht

theorem historyLoops_end_iff (ir : FsmIr) : (∀ l ∈ historyLoops ir, l.Ends) ↔ ∀ done P rest,
      HistoryLowering.compositesWithHistory ir = done ++ P :: rest → deepAfter ir done P = true →
        ∀ p ∈ ir.states.map (·.parentState) ++ done,
          IntoCycle (parentAfter ir done) (named p) → OnWay (parentAfter ir done) (named p) P :=
  turns_end_iff (After.refl ir) _ compositesWithHistory_subset

theorem priorityLoops_end_iff (ir : FsmIr) :
    (∀ l ∈ priorityLoops ir, l.Ends) ↔ ∀ t1 ∈ ir.transitions, ∀ t2 ∈ ir.transitions,
      sourceOf ir t1 ≠ sourceOf ir t2 → IntoCycle (parentIdOf ir) (parentIdOf ir (sourceOf ir t2)) →
        OnWay (parentIdOf ir) (parentIdOf ir (sourceOf ir t2)) (sourceOf ir t1) := by
  have hpair : ∀ parentId childId, (∀ l ∈ isAncestorOfLoop ir parentId childId, l.Ends) ↔
      (IntoCycle (parentIdOf ir) (parentIdOf ir childId) →
        OnWay (parentIdOf ir) (parentIdOf ir childId) parentId) := by
    intro parentId childId
    unfold isAncestorOfLoop
    cases hchild : ir.findStateById childId with
    | none =>
      -- `is_ancestor_of` answers at once for a name that is no state's
      have hnone : parentIdOf ir childId = none := by simp [parentIdOf, hchild]
      simp [hnone, IntoCycle, OnWay]
    | some s =>
      have hends : Lib.UpwardWalk.Ends (parentIdOf ir) (fun curr => decide (curr = parentId))
          (parentIdOf ir childId) ↔ _ := ends_iff (fun _ _ h => parentIdOf_mem ir h) (parentIdOf ir childId)
      simpa [AncestorLoop.Ends, Meets] using hends
  have hloops : (∀ l ∈ priorityLoops ir, l.Ends) ↔ ∀ t1 ∈ ir.transitions, ∀ t2 ∈ ir.transitions,
      sourceOf ir t1 ≠ sourceOf ir t2 →
        ∀ l ∈ isAncestorOfLoop ir (sourceOf ir t1) (sourceOf ir t2), l.Ends := by
    unfold priorityLoops
    rw [List.forall_mem_flatMap]
    refine forall₂_congr fun t1 _ => ?_
    rw [List.forall_mem_flatMap]
    refine forall₂_congr fun t2 _ => ?_
    by_cases hsame : sourceOf ir t1 = sourceOf ir t2 <;> simp [hsame]
  rw [hloops]
  exact forall₂_congr fun _ _ => forall₂_congr fun _ _ => forall_congr' fun _ => hpair _ _

theorem safetyLoops_end_iff (ir : FsmIr) :
    (∀ l ∈ safetyLoops ir, l.Ends) ↔ (safetyRoot ir ≠ "" → ∀ s ∈ ir.states, mayTrap ir s = true →
      left ir s.name = false → IntoCycle (parentOf ir) (named s.parentState) →
        ∃ b, OnWay (parentOf ir) (named s.parentState) b ∧ left ir b = true) := by
  unfold safetyLoops
  by_cases hroot : safetyRoot ir = ""
  · simp [hroot]
  · rw [if_neg hroot, List.forall_mem_map]
    simp [hroot, AncestorLoop.Ends, ends_names, Meets]

/-- Two pairs of states that are each other's parents, which the checks of a model accept. -/
def entangled : FsmIr where
  initialState := "Off"
  states :=
    [{ id := "1", name := "Off" },
      { id := "2", name := "Up", parentState := "Down", parentId := some "3" },
      { id := "3", name := "Down", parentState := "Up", parentId := some "2" },
      { id := "4", name := "Hold", parentState := "Grip", parentId := some "5" },
      { id := "5", name := "Grip", parentState := "Hold", parentId := some "4" },
      { id := "6", name := "Unit", isComposite := true, hasDeepHistory := true }]
  transitions := [{ source := "Off", target := "Up" }, { source := "Up", target := "Off" }]

/-- In each of the passes a loop goes on for ever. -/
theorem entangled_loops_for_ever : isWellFormed {} entangled = true ∧ (∃ l ∈ boundaryLoops entangled, ¬ l.Ends) ∧
      (∃ l ∈ historyLoops entangled, ¬ l.Ends) ∧ (∃ l ∈ priorityLoops entangled, ¬ l.Ends) ∧
      ∃ l ∈ safetyLoops entangled, ¬ l.Ends := by
  have hup : parentOf entangled "Up" = some "Down" := by decide +kernel
  have hdown : parentOf entangled "Down" = some "Up" := by decide +kernel
  have hhold : parentOf entangled "Hold" = some "Grip" := by decide +kernel
  have hgrip : parentOf entangled "Grip" = some "Hold" := by decide +kernel
  refine ⟨by decide +kernel, ?_, ?_, ?_, ?_⟩
  · have ht : considered entangled { source := "Off", target := "Up" } = true := by decide +kernel
    have hlca : lcaOf entangled { source := "Off", target := "Up" } = "" := by decide +kernel
    refine ⟨entryLoop entangled { source := "Off", target := "Up" }, ?_, ?_⟩
    · exact List.mem_flatMap.mpr ⟨_, List.mem_filter.mpr ⟨List.mem_cons_self, ht⟩, by simp⟩
    · unfold AncestorLoop.Ends entryLoop
      rw [hlca]
      exact not_ends_of_mutual hup hdown (by decide) (by decide)
  · have hturns : historyLoops entangled = deepLoops entangled "Unit" := by
      have hnames : HistoryLowering.compositesWithHistory entangled = ["Unit"] := by decide +kernel
      simp [historyLoops, hnames, turnLoops]
    have hloops : deepLoops entangled "Unit" = entangled.states.map fun s =>
        ⟨parentOf entangled, fun curr => curr = "Unit", named s.parentState⟩ := by
      have hdeep : HistoryLowering.isDeep entangled "Unit" = true := by decide +kernel
      have hfind : (entangled.findState "Unit").isSome = true := by decide +kernel
      obtain ⟨s, hs⟩ := Option.isSome_iff_exists.mp hfind
      simp [deepLoops, hs, hdeep]
    rw [hturns, hloops]
    refine ⟨_, List.mem_map_of_mem (List.mem_cons_of_mem _ List.mem_cons_self), ?_⟩
    exact not_ends_of_mutual hdown hup (by decide) (by decide)
  · have hids : parentIdOf entangled "2" = some "3" ∧ parentIdOf entangled "3" = some "2" := by
      decide +kernel
    have hsources : sourceOf entangled { source := "Off", target := "Up" } = "1" ∧
        sourceOf entangled { source := "Up", target := "Off" } = "2" := by decide +kernel
    have hchild : (entangled.findStateById "2").isSome = true := by decide +kernel
    obtain ⟨s, hs⟩ := Option.isSome_iff_exists.mp hchild
    refine ⟨⟨parentIdOf entangled, fun curr => curr = "1", parentIdOf entangled "2"⟩, ?_, ?_⟩
    · refine List.mem_flatMap.mpr ⟨{ source := "Off", target := "Up" }, List.mem_cons_self, ?_⟩
      refine List.mem_flatMap.mpr
        ⟨{ source := "Up", target := "Off" }, List.mem_cons_of_mem _ List.mem_cons_self, ?_⟩
      simp [hsources.1, hsources.2, isAncestorOfLoop, hs]
    · unfold AncestorLoop.Ends
      rw [hids.1]
      exact not_ends_of_mutual hids.2 hids.1 (by decide) (by decide)
  · have hroot : safetyRoot entangled ≠ "" := by decide +kernel
    have htrap : mayTrap entangled { id := "4", name := "Hold", parentState := "Grip", parentId := some "5" } = true ∧
        left entangled "Hold" = false ∧ left entangled "Grip" = false := by decide +kernel
    unfold safetyLoops
    rw [if_neg hroot]
    refine ⟨_, List.mem_map_of_mem (List.mem_filter.mpr
      ⟨List.mem_cons_of_mem _ (List.mem_cons_of_mem _ (List.mem_cons_of_mem _ List.mem_cons_self)), ?_⟩), ?_⟩
    · simp [htrap.1, htrap.2.1]
    · exact not_ends_of_mutual hgrip hhold htrap.2.2 htrap.2.1

/-- The loops end exactly for the hierarchies in which none starts below a cycle in vain. -/
theorem ancestor_loops_end_iff (ir : FsmIr) : ((∀ l ∈ boundaryLoops ir, l.Ends) ∧ (∀ l ∈ historyLoops ir, l.Ends) ∧
      (∀ l ∈ priorityLoops ir, l.Ends) ∧ ∀ l ∈ safetyLoops ir, l.Ends) ↔ Harmless ir := by
  rw [boundaryLoops_end_iff, historyLoops_end_iff, priorityLoops_end_iff, safetyLoops_end_iff]
  exact ⟨fun ⟨hboundary, hhistory, hpriority, hsafety⟩ => ⟨hboundary, hhistory, hpriority, hsafety⟩,
    fun h => ⟨h.boundary, h.history, h.priority, h.safety⟩⟩

end Fsmc.Passes.HierarchyWalks
