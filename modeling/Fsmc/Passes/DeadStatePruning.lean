/-
# Fsmc.Passes.DeadStatePruning — removing the states that a search does not reach.

The search goes from a state to its children, its parent, its initial sub-state and the targets of its
edges. It starts from `initial_state_id` when there is one, although it looks states up by name, and it
follows `target` only, so the further targets of a fork are missed; so are the members of regions that do
not name the state as their parent.
-/
import Fsmc.Lib.Worklist
import Fsmc.Runtime.Hierarchy

namespace Fsmc.Passes.DeadStatePruning

open Fsmc.Ir Fsmc.Lib Fsmc.Runtime Relation

/-! ## The pass -/

variable (ir : FsmIr)

def root : String :=
  let r := if ir.initialStateId = "" then ir.initialState else ir.initialStateId
  if r = "" then (ir.states.head?.map (·.name)).getD "" else r

/-- What the search goes on to from a state. -/
def entered (curr : String) : List String :=
  ((ir.states.filter fun s => s.parentState = curr).map (·.name)) ++
    (match ir.findState curr with
      | some node => [node.parentState, node.initialSubState].filter (· ≠ "")
      | none => []) ++
    ((ir.transitions.filter fun t => t.source = curr && takeable t && t.target ≠ "").map (·.target))

/-- All names that the search can come to. -/
def names : List String :=
  ir.states.map (·.name) ++ ir.states.map (·.parentState) ++ ir.states.map (·.initialSubState) ++
    ir.transitions.map (·.target)

theorem entered_mem_names (a : String) : ∀ b ∈ entered ir a, id b ∈ names ir := by
  intro b hb
  unfold entered at hb
  unfold names
  simp only [List.mem_append, List.mem_map, List.mem_filter, id] at hb ⊢
  rcases hb with (⟨s, hs, rfl⟩ | hnode) | ⟨t, ht, rfl⟩
  · exact Or.inl (Or.inl (Or.inl ⟨s, hs.1, rfl⟩))
  · cases hfind : ir.findState a with
    | none => simp [hfind] at hnode
    | some node =>
      have hmem : node ∈ ir.states := (FsmIr.findState_spec hfind).1
      have hcases : b = node.parentState ∨ b = node.initialSubState := by
        simp only [hfind, List.mem_filter, List.mem_cons, List.not_mem_nil, or_false] at hnode
        exact hnode.1
      rcases hcases with rfl | rfl
      · exact Or.inl (Or.inl (Or.inr ⟨node, hmem, rfl⟩))
      · exact Or.inl (Or.inr ⟨node, hmem, rfl⟩)
  · exact Or.inr ⟨t, ht.1, rfl⟩

def reachable : List String := (searchFrom (entered_mem_names ir) (fun _ => false) (root ir)).2.seen

def keepsState (s : StateNode) : Bool :=
  s.kind = .final || ir.isChoiceNode s.name || s.name ∈ reachable ir

def keepsTransition (t : TransitionEdge) : Bool :=
  takeable t && (t.source ∈ reachable ir || t.source = "")

/-- `DeadStatePruningPass::run`, with `prune_` set. -/
def run : FsmIr :=
  if root ir = "" then ir
  else
    { ir with
      states := ir.states.filter (keepsState ir)
      transitions := ir.transitions.filter (keepsTransition ir) }

/-! ## What the search reaches -/

def Step (a b : String) : Prop := b ∈ entered ir a

/-- The states that can be reached from the root along children, parents, initial sub-states and the
targets of edges. -/
def Reach (s : String) : Prop := ReflTransGen (Step ir) (root ir) s

variable {ir}

variable {s : String} {t : TransitionEdge}

theorem mem_reachable : s ∈ reachable ir ↔ Reach ir s := by
  have hstep : EdgeStep (entered ir) id = Step ir := by
    funext a b
    apply propext
    exact ⟨fun ⟨e, he, heq⟩ => heq ▸ he, fun h => ⟨b, h, rfl⟩⟩
  unfold reachable Reach
  rw [← hstep]
  rcases searchFrom_spec (entered_mem_names ir) (fun _ => false) (root ir) with
    ⟨_, _, _, hstop⟩ | ⟨_, hseen, _⟩
  · exact absurd hstop (by simp)
  · exact hseen s

theorem Reach.child (h : Reach ir s) {c : StateNode} (hc : c ∈ ir.states)
    (hparent : c.parentState = s) : Reach ir c.name := by
  apply ReflTransGen.tail h
  unfold Step entered
  simp only [List.mem_append, List.mem_map, List.mem_filter]
  exact Or.inl (Or.inl ⟨c, ⟨hc, by simpa using hparent⟩, rfl⟩)

theorem Reach.parent (h : Reach ir s) {n : StateNode} (hn : ir.findState s = some n)
    (hne : n.parentState ≠ "") : Reach ir n.parentState := by
  apply ReflTransGen.tail h
  simp [Step, entered, hn, hne]

theorem Reach.initial (h : Reach ir s) {n : StateNode} (hn : ir.findState s = some n)
    (hne : n.initialSubState ≠ "") : Reach ir n.initialSubState := by
  apply ReflTransGen.tail h
  simp [Step, entered, hn, hne]

theorem Reach.target (h : Reach ir t.source) (ht : t ∈ ir.transitions)
    (htake : takeable t = true) (hne : t.target ≠ "") : Reach ir t.target := by
  apply ReflTransGen.tail h
  unfold Step entered
  simp only [List.mem_append, List.mem_map, List.mem_filter]
  exact Or.inr ⟨t, ⟨ht, by simp [htake, hne]⟩, rfl⟩

theorem keepsState_of_reach {s : StateNode} (h : Reach ir s.name) : keepsState ir s = true := by
  unfold keepsState
  simp [mem_reachable.mpr h]

theorem keepsTransition_iff :
    keepsTransition ir t = true ↔ takeable t = true ∧ (Reach ir t.source ∨ t.source = "") := by
  unfold keepsTransition
  simp [mem_reachable]

theorem mem_states_run {s : StateNode} (hroot : root ir ≠ "") :
    s ∈ (run ir).states ↔ s ∈ ir.states ∧ keepsState ir s = true := by
  unfold run
  rw [if_neg hroot]
  exact List.mem_filter

theorem mem_transitions_run (hroot : root ir ≠ "") :
    t ∈ (run ir).transitions ↔ t ∈ ir.transitions ∧ keepsTransition ir t = true := by
  unfold run
  rw [if_neg hroot]
  exact List.mem_filter

/-! ## What should stay -/

/-- A name that was a state's and is none's any more. -/
def Removed (ir ir' : FsmIr) (x : String) : Prop :=
  x ≠ "" ∧ (∃ s ∈ ir.states, s.name = x) ∧ ∀ s ∈ ir'.states, s.name ≠ x

/-- The states that a region refers to, by identifier or by name. -/
def regionMembers (ir : FsmIr) (r : OrthogonalRegion) : List StateNode :=
  ir.states.filter fun c => (r.initialStateId :: r.stateIds).any fun m => c.id = m || c.name = m

/-- Everything that occurs in a run survives. -/
structure Survives (ir ir' : FsmIr) : Prop where
  states : ∀ C, Reached ir C → ∀ s ∈ ir.states, s.name ∈ C → s ∈ ir'.states
  transitions : ∀ C t C', Reached ir C → Taken ir C t C' → t ∈ ir'.transitions

/-- Nothing that is left names a removed state. -/
structure NoDangling (ir ir' : FsmIr) : Prop where
  transitions : ∀ t ∈ ir'.transitions, ∀ x ∈ t.source :: t.target :: (t.sourceIds ++ t.targetIds),
    ¬ Removed ir ir' x
  initials : ∀ s ∈ ir'.states, ¬ Removed ir ir' s.initialSubState
  regions : ∀ s ∈ ir'.states, ∀ r ∈ s.orthogonalRegions, ∀ c ∈ regionMembers ir r,
    ¬ Removed ir ir' c.name

/-- Pruning keeps what can be reached, leaves no reference behind, and is done after one run. -/
structure KeepsReachable (ir : FsmIr) : Prop where
  survives : Survives ir (run ir)
  noDangling : NoDangling ir (run ir)
  idempotent : run (run ir) = run ir

/-- A name that no state has and no transition leaves. -/
def Unused (ir : FsmIr) (x : String) : Prop :=
  (∀ s ∈ ir.states, s.name ≠ x) ∧ ∀ t ∈ ir.transitions, t.source ≠ x

/-- The search comes to `x`, or there is nothing to come to. -/
def Found (ir : FsmIr) (x : String) : Prop := Reach ir x ∨ Unused ir x

/-- The search finds what it does not follow itself: the initial state goes by its name, and what forks,
joins, regions, edges without a source and pseudo-states refer to is reached in another way. -/
structure Covered (ir : FsmIr) : Prop where
  root_eq : root ir = initialName ir
  edges : ∀ t ∈ ir.transitions, takeable t = true → t.source = "" ∨ Reach ir t.source →
    ∀ x ∈ t.sourceIds ++ t.targetIds, x ≠ "" → Found ir x
  sourceless : ∀ t ∈ ir.transitions, takeable t = true → t.source = "" → t.target ≠ "" →
    Found ir t.target
  initials : ∀ s ∈ ir.states, s.kind = .final ∨ ir.isChoiceNode s.name = true ∨
    (Reach ir s.name ∧ ir.findState s.name ≠ some s) →
      s.initialSubState ≠ "" → Found ir s.initialSubState
  regions : ∀ s ∈ ir.states, s.kind = .final ∨ ir.isChoiceNode s.name = true ∨ Reach ir s.name →
    ∀ r ∈ s.orthogonalRegions, ∀ c ∈ regionMembers ir r, Reach ir c.name

/-! ## What stays -/

variable {x : String}

theorem Found.not_removed (h : Found ir x) (hroot : root ir ≠ "") : ¬ Removed ir (run ir) x := by
  rintro ⟨_, ⟨s, hs, rfl⟩, hgone⟩
  rcases h with hreach | hunused
  · exact hgone s ((mem_states_run hroot).mpr ⟨hs, keepsState_of_reach hreach⟩) rfl
  · exact hunused.1 s hs rfl

theorem not_removed_of_reach (h : Reach ir x) (hroot : root ir ≠ "") : ¬ Removed ir (run ir) x :=
  Found.not_removed (Or.inl h) hroot

theorem Found.entered (hcov : Covered ir) {s x : String} (h : Found ir s) (hx : Entered ir s x) : Found ir x := by
  induction hx with
  | self => exact h
  | ancestor _ hn hne ih =>
    rcases ih with hreach | hunused
    · exact Or.inl (hreach.parent hn hne)
    · exact absurd (FsmIr.findState_spec hn).2 (hunused.1 _ (FsmIr.findState_spec hn).1)
  | initial _ hn hne ih =>
    rcases ih with hreach | hunused
    · exact Or.inl (hreach.initial hn hne)
    · exact absurd (FsmIr.findState_spec hn).2 (hunused.1 _ (FsmIr.findState_spec hn).1)
  | @region y n r c _ hn hr hc hinit ih =>
    obtain ⟨hmem, hname⟩ := FsmIr.findState_spec hn
    rcases ih with hreach | hunused
    · refine Or.inl (hcov.regions n hmem (Or.inr (Or.inr (hname ▸ hreach))) r hr c ?_)
      unfold regionMembers
      simpa [hc] using Or.inl hinit
    · exact absurd hname (hunused.1 _ hmem)

theorem Found.targetsOf (hcov : Covered ir) (ht : t ∈ ir.transitions)
    (htake : takeable t = true) (hsource : Reach ir t.source) {y : String} (hy : y ∈ targetsOf t) :
    Found ir y := by
  unfold Fsmc.Runtime.targetsOf at hy
  obtain ⟨hmem, hne⟩ := List.mem_filter.mp hy
  have hne' : y ≠ "" := by simpa using hne
  by_cases hfork : isFork t = true
  · rw [if_pos hfork] at hmem
    exact hcov.edges t ht htake (Or.inr hsource) y (List.mem_append_right _ hmem) hne'
  · rw [if_neg hfork, List.mem_singleton] at hmem
    subst hmem
    exact Or.inl (hsource.target ht htake hne')

theorem Found.reach_source (h : Found ir t.source) (ht : t ∈ ir.transitions) : Reach ir t.source :=
  h.resolve_right fun hunused => hunused.2 t ht rfl

theorem Reached.found (hcov : Covered ir) {C : Set String} (h : Reached ir C) : ∀ x ∈ C, Found ir x := by
  induction h with
  | start _ hC =>
    intro x hx
    have hroot : Reach ir (initialName ir) := hcov.root_eq ▸ ReflTransGen.refl
    exact Found.entered hcov (Or.inl hroot) (hC x hx)
  | @step C C' t _ htaken ih =>
    intro x hx
    rcases htaken.after x hx with hold | ⟨y, hy, hent⟩
    · exact ih x hold
    · have hsource := (ih _ htaken.active).reach_source htaken.mem
      exact (Found.targetsOf hcov htaken.mem htaken.takeable hsource hy).entered hcov hent

theorem run_survives (hcov : Covered ir) (hroot : root ir ≠ "") : Survives ir (run ir) where
  states C hC s hs hmem := by
    rcases Reached.found hcov hC _ hmem with hreach | hunused
    · exact (mem_states_run hroot).mpr ⟨hs, keepsState_of_reach hreach⟩
    · exact absurd rfl (hunused.1 s hs)
  transitions C t C' hC htaken := by
    have hsource := (Reached.found hcov hC _ htaken.active).reach_source htaken.mem
    have hkeeps := keepsTransition_iff.mpr ⟨htaken.takeable, Or.inl hsource⟩
    exact (mem_transitions_run hroot).mpr ⟨htaken.mem, hkeeps⟩

theorem keepsState_iff {s : StateNode} :
    keepsState ir s = true ↔ s.kind = .final ∨ ir.isChoiceNode s.name = true ∨ Reach ir s.name := by
  unfold keepsState
  simp [mem_reachable, or_assoc]

theorem run_noDangling (hcov : Covered ir) (hroot : root ir ≠ "") : NoDangling ir (run ir) where
  transitions t ht x hx := by
    obtain ⟨hmem, hkeeps⟩ := (mem_transitions_run hroot).mp ht
    obtain ⟨htake, hsource⟩ := keepsTransition_iff.mp hkeeps
    intro hremoved
    have hne : x ≠ "" := hremoved.1
    rcases List.mem_cons.mp hx with rfl | hx
    · exact not_removed_of_reach (hsource.resolve_right hne) hroot hremoved
    rcases List.mem_cons.mp hx with rfl | hx
    · rcases hsource with hreach | hempty
      · exact not_removed_of_reach (hreach.target hmem htake hne) hroot hremoved
      · exact (hcov.sourceless t hmem htake hempty hne).not_removed hroot hremoved
    · exact (hcov.edges t hmem htake hsource.symm x hx hne).not_removed hroot hremoved
  initials s hs := by
    intro hremoved
    obtain ⟨hmem, hkeeps⟩ := (mem_states_run hroot).mp hs
    have hne : s.initialSubState ≠ "" := hremoved.1
    by_cases hfirst : Reach ir s.name ∧ ir.findState s.name = some s
    · exact not_removed_of_reach (hfirst.1.initial hfirst.2 hne) hroot hremoved
    · -- a pseudo-state that is not reached, or a second state of one name
      refine (hcov.initials s hmem ?_ hne).not_removed hroot hremoved
      rcases keepsState_iff.mp hkeeps with hfinal | hchoice | hreach
      · exact Or.inl hfinal
      · exact Or.inr (Or.inl hchoice)
      · exact Or.inr (Or.inr ⟨hreach, fun hfind => hfirst ⟨hreach, hfind⟩⟩)
  regions s hs r hr c hc := by
    obtain ⟨hmem, hkeeps⟩ := (mem_states_run hroot).mp hs
    exact not_removed_of_reach (hcov.regions s hmem (keepsState_iff.mp hkeeps) r hr c hc) hroot

/-! ## The second run -/

theorem find?_filter_of_imp {α : Type*} {p q : α → Bool} {l : List α}
    (h : ∀ a ∈ l, p a = true → q a = true) : (l.filter q).find? p = l.find? p := by
  induction l with
  | nil => rfl
  | cons a l ih =>
    have htail := ih fun b hb => h b (List.mem_cons_of_mem a hb)
    cases hp : p a with
    | true => rw [List.filter_cons_of_pos (h a List.mem_cons_self hp), List.find?_cons_of_pos hp,
        List.find?_cons_of_pos hp]
    | false =>
      rw [List.find?_cons_of_neg (by simp [hp]), ← htail]
      cases hq : q a with
      | true => rw [List.filter_cons_of_pos hq, List.find?_cons_of_neg (by simp [hp])]
      | false => rw [List.filter_cons_of_neg (by simp [hq])]

theorem filter_filter_of_imp {α : Type*} {p q : α → Bool} {l : List α}
    (h : ∀ a ∈ l, p a = true → q a = true) : (l.filter q).filter p = l.filter p := by
  rw [List.filter_filter]
  apply List.filter_congr
  intro a ha
  cases hp : p a with
  | false => simp
  | true => simp [h a ha hp]

theorem run_eq (hroot : root ir ≠ "") : run ir = { ir with
      states := ir.states.filter (keepsState ir)
      transitions := ir.transitions.filter (keepsTransition ir) } := if_neg hroot

theorem findState_run (hroot : root ir ≠ "") (h : ∀ s ∈ ir.states, s.name = x → keepsState ir s = true) :
    (run ir).findState x = ir.findState x := by
  rw [run_eq hroot]
  exact find?_filter_of_imp fun s hs hname => h s hs (of_decide_eq_true hname)

theorem root_run (hroot : root ir ≠ "") : root (run ir) = root ir := by
  have hinit : (run ir).initialState = ir.initialState ∧
      (run ir).initialStateId = ir.initialStateId := by
    rw [run_eq hroot]
    exact ⟨rfl, rfl⟩
  by_cases hr : (if ir.initialStateId = "" then ir.initialState else ir.initialStateId) = ""
  · have hfirst : root ir = (ir.states.head?.map (·.name)).getD "" := if_pos hr
    have hfirst' : root (run ir) = ((run ir).states.head?.map (·.name)).getD "" := by
      unfold root
      rw [hinit.1, hinit.2, if_pos hr]
    rw [hfirst', hfirst, run_eq hroot]
    cases hstates : ir.states with
    | nil => rfl
    | cons s rest =>
      have hname : s.name = root ir := by rw [hfirst, hstates]; rfl
      have hkeeps : keepsState ir s = true :=
        keepsState_of_reach (show Reach ir s.name from hname ▸ ReflTransGen.refl)
      show ((((s :: rest).filter (keepsState ir)).head?.map (·.name)).getD "") = s.name
      rw [List.filter_cons_of_pos hkeeps]
      rfl
  · unfold root
    rw [hinit.1, hinit.2, if_neg hr, if_neg hr]

theorem entered_run (hroot : root ir ≠ "") {curr : String} (h : Reach ir curr) :
    entered (run ir) curr = entered ir curr := by
  have hfind : (run ir).findState curr = ir.findState curr :=
    findState_run hroot fun s _ hname => keepsState_of_reach (show Reach ir s.name from hname ▸ h)
  have hchildren : (run ir).states.filter (fun s => s.parentState = curr) =
      ir.states.filter fun s => s.parentState = curr := by
    rw [run_eq hroot]
    exact filter_filter_of_imp fun s hs hparent =>
      keepsState_of_reach (h.child hs (of_decide_eq_true hparent))
  have hedges : (run ir).transitions.filter
      (fun t => t.source = curr && takeable t && t.target ≠ "") =
        ir.transitions.filter fun t => t.source = curr && takeable t && t.target ≠ "" := by
    rw [run_eq hroot]
    refine filter_filter_of_imp fun t _ ht => ?_
    simp only [Bool.and_eq_true, decide_eq_true_eq] at ht
    exact keepsTransition_iff.mpr ⟨ht.1.2, Or.inl (ht.1.1 ▸ h)⟩
  unfold entered
  rw [hfind, hchildren, hedges]

theorem Reach.run (hroot : root ir ≠ "") (h : Reach ir s) : Reach (run ir) s := by
  unfold Reach
  rw [root_run hroot]
  induction h with
  | refl => exact ReflTransGen.refl
  | @tail a b ha hb ih =>
    apply ih.tail
    unfold Step
    rw [entered_run hroot ha]
    exact hb

theorem keepsState_run (hroot : root ir ≠ "") {s : StateNode} (hkeeps : keepsState ir s = true) :
    keepsState (run ir) s = true := by
  rcases keepsState_iff.mp hkeeps with hfinal | hchoice | hreach
  · exact keepsState_iff.mpr (Or.inl hfinal)
  · -- all states of the name stay, since the name is a choice node's
    have hfind : (DeadStatePruning.run ir).findState s.name = ir.findState s.name :=
      findState_run hroot fun c _ hname => keepsState_iff.mpr (Or.inr (Or.inl (hname ▸ hchoice)))
    have hnodes : (DeadStatePruning.run ir).choiceNodes = ir.choiceNodes := by rw [run_eq hroot]
    refine keepsState_iff.mpr (Or.inr (Or.inl ?_))
    unfold FsmIr.isChoiceNode at hchoice ⊢
    rw [hfind, hnodes]
    exact hchoice
  · exact keepsState_of_reach (hreach.run hroot)

theorem keepsTransition_run (hroot : root ir ≠ "")
    (hkeeps : keepsTransition ir t = true) : keepsTransition (run ir) t = true := by
  obtain ⟨htake, hsource⟩ := keepsTransition_iff.mp hkeeps
  exact keepsTransition_iff.mpr ⟨htake, hsource.imp_left (·.run hroot)⟩

theorem run_run : run (run ir) = run ir := by
  by_cases hroot : root ir = ""
  · have hsame : run ir = ir := if_pos hroot
    rw [hsame, hsame]
  · have hstates : (run ir).states.filter (keepsState (run ir)) = (run ir).states :=
      List.filter_eq_self.mpr fun s hs =>
        keepsState_run hroot ((mem_states_run hroot).mp hs).2
    have htransitions :
        (run ir).transitions.filter (keepsTransition (run ir)) = (run ir).transitions :=
      List.filter_eq_self.mpr fun t ht =>
        keepsTransition_run hroot ((mem_transitions_run hroot).mp ht).2
    rw [run_eq (root_run hroot ▸ hroot), hstates, htransitions]

/-! ## The result -/

theorem keepsReachable_of_root_eq_empty (hcov : Covered ir) (hroot : root ir = "") : KeepsReachable ir := by
  have hsame : run ir = ir := if_pos hroot
  have hnever : ∀ C, ¬ Reached ir C := by
    intro C hC
    induction hC with
    | start hne _ => exact hne (hcov.root_eq ▸ hroot)
    | step _ _ ih => exact ih
  have hkept : ∀ x, ¬ Removed ir (run ir) x := by
    rintro x ⟨_, ⟨s, hs, hname⟩, hgone⟩
    rw [hsame] at hgone
    exact hgone s hs hname
  exact {
    survives := ⟨fun C hC => absurd hC (hnever C), fun C _ _ hC => absurd hC (hnever C)⟩
    noDangling := ⟨fun _ _ x _ => hkept x, fun s _ => hkept _, fun _ _ _ _ _ _ => hkept _⟩
    idempotent := run_run }

theorem run_keepsReachable (h : Covered ir) : KeepsReachable ir := by
  by_cases hroot : root ir = ""
  · exact keepsReachable_of_root_eq_empty h hroot
  · exact ⟨run_survives h hroot, run_noDangling h hroot, run_run⟩

/-- A composite, a final state, a state that nothing leads to, and a fork whose second target can be
reached without it. -/
def door : FsmIr where
  initialState := "Closed"
  states := [{ name := "Closed" }, { name := "Opened", kind := .composite, initialSubState := "Ajar" },
    { name := "Ajar", parentState := "Opened" }, { name := "Lit" }, { name := "Gone", kind := .final },
    { name := "Lost" }]
  transitions := [
    { source := "Closed", target := "Opened", targetIds := ["Opened", "Lit"], event := "push" },
    { source := "Opened", target := "Lit", event := "switch" },
    { source := "Lost", target := "Closed", event := "pull" }]

theorem door_keepsReachable : KeepsReachable door := by
  apply run_keepsReachable
  have hopened : Reach door "Opened" := mem_reachable.mp (by decide +kernel)
  have hajar : Reach door "Ajar" := mem_reachable.mp (by decide +kernel)
  have hlit : Reach door "Lit" := mem_reachable.mp (by decide +kernel)
  exact {
    root_eq := by decide
    edges := by
      have h : ∀ t ∈ door.transitions, ∀ x ∈ t.sourceIds ++ t.targetIds, x = "Opened" ∨ x = "Lit" := by
        simp [door]
      intro t ht _ _ x hx _
      rcases h t ht x hx with rfl | rfl
      · exact Or.inl hopened
      · exact Or.inl hlit
    sourceless := by simp [door]
    initials := by
      have h : ∀ s ∈ door.states, s.initialSubState ≠ "" → s.initialSubState = "Ajar" := by
        simp [door]
      intro s hs _ hne
      exact Or.inl (h s hs hne ▸ hajar)
    regions := by simp [door] }

/-- A fork into two states, of which the pass follows the first. -/
def split : FsmIr where
  initialState := "A"
  states := [{ name := "A" }, { name := "B" }, { name := "C" }]
  transitions := [{ source := "A", target := "B", targetIds := ["B", "C"], event := "go" }]

/-- The second target of the fork is removed. -/
theorem split_not_keepsReachable : ¬ KeepsReachable split := by
  intro h
  let fork : TransitionEdge := { source := "A", target := "B", targetIds := ["B", "C"], event := "go" }
  have hstart : Reached split {"A"} := .start (by decide) (by rintro x rfl; exact .self)
  have htaken : Taken split {"A"} fork {"B", "C"} :=
    { mem := List.mem_cons_self
      active := rfl
      takeable := by decide
      after := by
        intro x hx
        exact Or.inr ⟨x, by rcases hx with rfl | rfl <;> decide, .self⟩ }
  have hC : ({ name := "C" } : StateNode) ∈ (run split).states :=
    h.survives.states _ (hstart.step htaken) _ (by simp [split]) (Or.inr rfl)
  have hnames : (run split).states.map (·.name) = ["A", "B"] := by decide +kernel
  have hmem := List.mem_map_of_mem (f := (·.name)) hC
  rw [hnames] at hmem
  exact absurd hmem (by decide)

end Fsmc.Passes.DeadStatePruning
