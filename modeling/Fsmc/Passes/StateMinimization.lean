/-
# Fsmc.Passes.StateMinimization — merging states that behave alike.

States are first grouped by their attributes and then split by a signature of their transitions until no
signature splits a group; the members of a group are merged into the first. The signature is made of the
numbers of the target groups, the guard texts and the names of the actions, sorted: it forgets the order
and the priority of the transitions, their triggers and kinds, and what the actions do. Only the ends of
transitions are renamed.
-/
import Fsmc.Lib.PartitionRefinement
import Fsmc.Runtime.MacroStep
import Mathlib.Data.String.Basic

namespace Fsmc.Passes.StateMinimization

open Fsmc.Ir Fsmc.Runtime Fsmc.Lib Fsmc.Lib.FirstMatch Fsmc.Lib.PartitionRefinement

/-! ## The pass -/

/-- `static_cast<int>(kind)`. -/
def kindNumber : StateKind → ℕ
  | .atomic => 0
  | .composite => 1
  | .parallel => 2
  | .initial => 3
  | .final => 4
  | .shallowHistory => 5
  | .deepHistory => 6
  | .choice => 7
  | .junction => 8
  | .fork => 9
  | .join => 10
  | .entryPoint => 11
  | .exitPoint => 12
  | .terminate => 13

def initSt (ir : FsmIr) : String :=
  let initState := if ir.initialStateId = "" then ir.initialState else ir.initialStateId
  if initState = "" then ((ir.states.head?).map (·.name)).getD "" else initState

/-- Texts, each followed by `;`. -/
def terminated (texts : List String) : String := texts.foldl (fun s text => s ++ text ++ ";") ""

def getActionsSig (acts : List ActionSignature) : String := terminated (acts.map (·.name))

/-- Choice nodes and composite states are kept in groups of their own. -/
def aloneState (ir : FsmIr) (s : StateNode) : Bool := ir.isChoiceNode s.name || s.isComposite

/-- The key under which a state is put into `initial_blocks`. -/
def blockKey (ir : FsmIr) (s : StateNode) : String :=
  if aloneState ir s then s.name
  else
    toString (kindNumber s.kind) ++ "|" ++
      (if s.name = initSt ir ∨ s.id = initSt ir then "INIT" else "NORM") ++ "|" ++ s.parentState ++
      "|" ++ getActionsSig s.entryActions ++ "|" ++ getActionsSig s.exitActions ++ "|" ++
      s.doActivity.getD "" ++ "|" ++ s.timeInvariant.getD "" ++ "|" ++
      (if s.hasHistory then "H" else "") ++ "|" ++ (if s.hasDeepHistory then "DH" else "") ++ "|" ++
      terminated s.deferredEvents

/-- What the entry for one key becomes: a state that is kept alone replaces what is there. -/
def fillBlock (ir : FsmIr) (states : List StateNode) : List String :=
  states.foldl (fun block s => if aloneState ir s then [s.name] else block ++ [s.name]) []

def initialBlocks (ir : FsmIr) : List (List String) :=
  (groupBy (blockKey ir) ir.states).map (fillBlock ir)

def alphabet (ir : FsmIr) : List String := keysOf id (ir.transitions.map (·.event))

/-- `desc`: how a transition enters the signature of its source. -/
def describe (ν : String → Option ℕ) (t : TransitionEdge) : String :=
  toString ((ν t.target).getD 999999) ++ ":" ++ t.guard.getD "" ++ ":" ++
    ((t.conditionAction.map (·.name)).getD "") ++ "/" ++ ((t.transitionAction.map (·.name)).getD "")

def describeEvent (ir : FsmIr) (ν : String → Option ℕ) (s event : String) : String :=
  let descs := ((ir.transitions.filter (tried s event)).map (describe ν)).insertionSort (· ≤ ·)
  if descs.isEmpty then "NONE" else ",".intercalate descs

/-- `sig`: the signature of a state, given the numbers of the groups. -/
def signature (ir : FsmIr) (ν : String → Option ℕ) (s : String) : String :=
  (alphabet ir).foldl (fun sig event => sig ++ event ++ "->" ++ describeEvent ir ν s event ++ "|") ""

/-- A transition between the representatives of its ends. -/
def redirect (rep : String → String) (t : TransitionEdge) : TransitionEdge :=
  { t with source := rep t.source, target := rep t.target }

/-- The comparison that finds duplicate transitions. -/
def sameTransition (u t : TransitionEdge) : Bool :=
  u.source = t.source && u.target = t.target && u.event = t.event && u.guard = t.guard &&
    u.conditionAction = t.conditionAction && u.transitionAction = t.transitionAction

def uniqueTransitions (transitions : List TransitionEdge) : List TransitionEdge :=
  transitions.foldl
    (fun unique t => if unique.any fun u => sameTransition u t then unique else unique ++ [t]) []

/-- Merge the states of each group. -/
def merge (ir : FsmIr) (partition : List (List String)) : FsmIr :=
  { ir with
    transitions := uniqueTransitions (ir.transitions.map (redirect (representative partition)))
    states := ir.states.filter fun s => !(remapping partition).any fun p => p.1 = s.name }

/-- The partition that the loop ends with. -/
def finalPartition (ir : FsmIr) : Option (List (List String)) :=
  if ir.states.length ≤ 1 then none
  else refine (signature ir) (ir.states.length + 1) (initialBlocks ir)

/-- `StateMinimizationPass::run`. -/
def run (ir : FsmIr) : FsmIr :=
  match finalPartition ir with
  | none => ir
  | some partition =>
    if (remapping partition).isEmpty then ir else canonicalize (merge ir partition)

/-- The state that stands for another one after the pass. -/
def representativeOf (ir : FsmIr) : String → String :=
  match finalPartition ir with
  | none => id
  | some partition => representative partition

/-! ## What the pass should keep -/

/-- The fields of a machine that name a state, other than the ends of transitions. -/
def references (ir : FsmIr) : List String :=
  (ir.initialState :: ir.initialStateId :: ir.states.flatMap fun s =>
    s.parentState :: s.initialSubState :: s.childrenIds ++
      s.orthogonalRegions.flatMap fun r => r.initialStateId :: r.stateIds).filter (· ≠ "")

/-- A reference is to the name or the identifier of a state. -/
def RefersTo (r : String) (s : StateNode) : Prop := s.name = r ∨ s.id = r

/-- A transition between the representatives of the ends of another one that is the same otherwise. -/
structure Corresponds (rep : String → String) (t t' : TransitionEdge) : Prop where
  source : t'.source = rep t.source
  target : t'.target = rep t.target
  event : t'.event = t.event
  guard : t'.getGuard = t.getGuard
  trigger : t'.trigger = t.trigger
  kind : t'.kind = t.kind
  priority : t'.priority = t.priority
  conditionAction : t'.conditionAction = t.conditionAction
  transitionAction : t'.transitionAction = t.transitionAction
  clockResets : t'.clockResets = t.clockResets
  targetIsHistory : t'.targetIsHistory = t.targetIsHistory
  targetIsDeepHistory : t'.targetIsDeepHistory = t.targetIsDeepHistory

/-- The pass should give a bisimilar machine in which a reference to a state is one to what stands for
the state. -/
structure PreservesBehaviour (ir : FsmIr) : Prop where
  choices : ∀ s event g, Option.Rel (Corresponds (representativeOf ir)) (chosen ir s event g)
    (chosen (run ir) (representativeOf ir s) event g)
  runs : ∀ v s w events, dispatchAll (run ir) v (representativeOf ir s, w) events =
    (representativeOf ir (dispatchAll ir v (s, w) events).1, (dispatchAll ir v (s, w) events).2)
  references : ∀ r ∈ references (run ir), ∀ s ∈ ir.states, RefersTo r s →
    ∃ s' ∈ (run ir).states, RefersTo r s' ∧ s'.name = representativeOf ir s.name

/-! ## Machines whose groups are alike -/

/-- Two names have one number. -/
def Together (ν : String → Option ℕ) (a b : String) : Prop := ∃ i, ν a = some i ∧ ν b = some i

/-- Two ends are the same, or have one number. -/
def SameEnd (ν : String → Option ℕ) (a b : String) : Prop := a = b ∨ Together ν a b

/-- A numbering that puts states together which the key and the signatures do not tell apart. -/
structure Merging (ir : FsmIr) (ν : String → Option ℕ) : Prop where
  keys : ∀ s ∈ ir.states, ∀ s' ∈ ir.states, Together ν s.name s'.name → blockKey ir s = blockKey ir s'
  stable : Stable (signature ir) ν
  together : ∃ s ∈ ir.states, ∃ s' ∈ ir.states, s.name ≠ s'.name ∧ Together ν s.name s'.name

/-- Two transitions that differ in nothing but their ends, and lead to one group. -/
structure Alike (ν : String → Option ℕ) (t t' : TransitionEdge) : Prop where
  target : SameEnd ν t.target t'.target
  guard : t.getGuard = t'.getGuard
  trigger : t.trigger = t'.trigger
  kind : t.kind = t'.kind
  priority : t.priority = t'.priority
  conditionAction : t.conditionAction = t'.conditionAction
  transitionAction : t.transitionAction = t'.transitionAction
  clockResets : t.clockResets = t'.clockResets
  targetIsHistory : t.targetIsHistory = t'.targetIsHistory
  targetIsDeepHistory : t.targetIsDeepHistory = t'.targetIsDeepHistory

/-- The transitions of a state for an event, in the order in which they are chosen. -/
def selection (ir : FsmIr) (s event : String) : List TransitionEdge :=
  sortByKey (fun t => precedence t.priority) (ir.transitions.filter (tried s event))

/-- Whatever states the pass may put together, they are alike. -/
structure Mergeable (ir : FsmIr) : Prop where
  names : (ir.states.map (·.name)).Nodup
  /-- States that are put together do the same when they are entered and left. -/
  effects : ∀ ν, Merging ir ν → ∀ s ∈ ir.states, ∀ s' ∈ ir.states, Together ν s.name s'.name →
    s.entryActions = s'.entryActions ∧ s.exitActions = s'.exitActions
  /-- Their transitions for an event are alike, one by one in the order of choice. -/
  transitions : ∀ ν, Merging ir ν → ∀ s ∈ ir.states, ∀ s' ∈ ir.states, Together ν s.name s'.name →
    ∀ event, List.Forall₂ (Alike ν) (selection ir s.name event) (selection ir s'.name event)
  /-- Transitions that become duplicates have the same guard and priority. -/
  duplicates : ∀ ν, Merging ir ν → ∀ u ∈ ir.transitions, ∀ t ∈ ir.transitions,
    SameEnd ν u.source t.source → SameEnd ν u.target t.target → u.event = t.event →
      u.guard = t.guard → u.conditionAction = t.conditionAction →
        u.transitionAction = t.transitionAction →
          u.getGuard = t.getGuard ∧ precedence u.priority = precedence t.priority
  /-- A state that a field refers to is put together with no state declared before it. -/
  references : ∀ ν, Merging ir ν → ∀ r ∈ references ir, ∀ before s after,
    ir.states = before ++ s :: after → RefersTo r s → ∀ s' ∈ before, ¬ Together ν s'.name s.name

/-! ## The partition -/

theorem fillBlock_sublist (ir : FsmIr) (states : List StateNode) :
    (fillBlock ir states).Sublist (states.map (·.name)) := by
  have hfold : ∀ (states : List StateNode) (block front : List String), block.Sublist front →
      (states.foldl (fun block s => if aloneState ir s then [s.name] else block ++ [s.name])
        block).Sublist (front ++ states.map (·.name)) := by
    intro states
    induction states with
    | nil =>
      intro block front h
      simpa using h
    | cons s states ih =>
      intro block front h
      rw [List.foldl_cons, List.map_cons]
      have hnext : (if aloneState ir s then [s.name] else block ++ [s.name]).Sublist
          (front ++ [s.name]) := by
        split
        · exact List.sublist_append_right _ _
        · exact h.append (List.Sublist.refl _)
      have hrest := ih _ _ hnext
      rwa [List.append_assoc] at hrest
  exact hfold states [] [] (List.Sublist.refl _)

theorem fillBlock_ne_nil (ir : FsmIr) {states : List StateNode} (h : states ≠ []) : fillBlock ir states ≠ [] := by
  have hfold : ∀ (states : List StateNode) (block : List String), block ≠ [] →
      states.foldl (fun block s => if aloneState ir s then [s.name] else block ++ [s.name])
        block ≠ [] := by
    intro states
    induction states with
    | nil => exact fun block h => h
    | cons s states ih =>
      intro block _
      apply ih
      show (if aloneState ir s then [s.name] else block ++ [s.name]) ≠ []
      split <;> simp
  cases states with
  | nil => exact absurd rfl h
  | cons s states =>
    apply hfold states (if aloneState ir s then [s.name] else [] ++ [s.name])
    split <;> simp

theorem mem_initialBlocks {ir : FsmIr} {b : List String} (h : b ∈ initialBlocks ir) :
    ∃ group ∈ groupBy (blockKey ir) ir.states, b = fillBlock ir group := by
  obtain ⟨group, hgroup, rfl⟩ := List.mem_map.mp h
  exact ⟨group, hgroup, rfl⟩

theorem initialBlocks_refines (ir : FsmIr) : Refines (initialBlocks ir) (initialBlocks ir) where
  nonempty := by
    intro b hb
    obtain ⟨group, hgroup, rfl⟩ := mem_initialBlocks hb
    exact fillBlock_ne_nil ir (ne_nil_of_mem_groupBy hgroup)
  perm := List.Perm.refl _
  sublist := fun b hb => ⟨b, hb, List.Sublist.refl b⟩

theorem initialBlocks_flatten_subperm (ir : FsmIr) : (initialBlocks ir).flatten.Subperm (ir.states.map (·.name)) := by
  have hsub : ∀ groups : List (List StateNode),
      ((groups.map (fillBlock ir)).flatten).Sublist (groups.flatten.map (·.name)) := by
    intro groups
    induction groups with
    | nil => exact List.Sublist.refl _
    | cons group groups ih =>
      rw [List.map_cons, List.flatten_cons, List.flatten_cons, List.map_append]
      exact (fillBlock_sublist ir group).append ih
  have hperm := (groupBy_flatten_perm (blockKey ir) ir.states).map (·.name)
  exact (hsub _).subperm.trans hperm.subperm

/-- What is known of the partition that the loop ends with. -/
structure Final (ir : FsmIr) (p : List (List String)) : Prop where
  nodup : p.flatten.Nodup
  sublist : ∀ b ∈ p, b.Sublist (ir.states.map (·.name))
  keys : ∀ b ∈ p, ∀ s ∈ ir.states, ∀ s' ∈ ir.states, s.name ∈ b → s'.name ∈ b →
    blockKey ir s = blockKey ir s'
  stable : Stable (signature ir) (blockIndex p)

theorem final_of_finalPartition {ir : FsmIr} {p : List (List String)}
    (hnames : (ir.states.map (·.name)).Nodup) (h : finalPartition ir = some p) : Final ir p := by
  unfold finalPartition at h
  split at h
  · simp at h
  · obtain ⟨hrefines, hstable⟩ := refine_spec (initialBlocks_refines ir) h
    have hnodup : (initialBlocks ir).flatten.Nodup := by
      obtain ⟨l, hperm, hsub⟩ := initialBlocks_flatten_subperm ir
      exact hperm.nodup_iff.mp (hsub.nodup hnames)
    refine ⟨hrefines.perm.nodup_iff.mpr hnodup, ?_, ?_, hstable⟩
    · intro b hb
      obtain ⟨b₀, hb₀, hsub⟩ := hrefines.sublist b hb
      obtain ⟨group, hgroup, rfl⟩ := mem_initialBlocks hb₀
      exact hsub.trans ((fillBlock_sublist ir group).trans ((sublist_of_mem_groupBy hgroup).map _))
    · intro b hb s hs s' hs' hsb hsb'
      obtain ⟨b₀, hb₀, hsub⟩ := hrefines.sublist b hb
      obtain ⟨group, hgroup, rfl⟩ := mem_initialBlocks hb₀
      have hgroup_mem : ∀ s ∈ ir.states, s.name ∈ fillBlock ir group → s ∈ group := by
        intro s hs hname
        obtain ⟨u, hu, huname⟩ := List.mem_map.mp ((fillBlock_sublist ir group).subset hname)
        have hu' := (sublist_of_mem_groupBy hgroup).subset hu
        rwa [← List.inj_on_of_nodup_map hnames hu' hs huname]
      exact key_eq_of_mem_groupBy hgroup (hgroup_mem s hs (hsub.subset hsb))
        (hgroup_mem s' hs' (hsub.subset hsb'))

/-! ## Duplicate transitions -/

theorem uniqueTransitions_append (pre post : List TransitionEdge) :
    ∃ rest, uniqueTransitions (pre ++ post) = uniqueTransitions pre ++ rest ∧ rest.Sublist post := by
  unfold uniqueTransitions
  rw [List.foldl_append]
  generalize pre.foldl _ [] = unique
  induction post generalizing unique with
  | nil => exact ⟨[], by simp, List.Sublist.refl _⟩
  | cons t post ih =>
    rw [List.foldl_cons]
    split
    · obtain ⟨rest, heq, hsub⟩ := ih unique
      exact ⟨rest, heq, hsub.cons t⟩
    · obtain ⟨rest, heq, hsub⟩ := ih (unique ++ [t])
      refine ⟨t :: rest, ?_, hsub.cons_cons t⟩
      rw [heq, List.append_assoc]
      rfl

theorem uniqueTransitions_sublist (rows : List TransitionEdge) : (uniqueTransitions rows).Sublist rows := by
  obtain ⟨rest, heq, hsub⟩ := uniqueTransitions_append [] rows
  rw [List.nil_append] at heq
  rw [heq]
  exact hsub

theorem uniqueTransitions_keep {pre post : List TransitionEdge} {t : TransitionEdge}
    (h : ∀ u ∈ pre, sameTransition u t = false) :
    ∃ rest, uniqueTransitions (pre ++ t :: post) = uniqueTransitions pre ++ t :: rest ∧
      rest.Sublist post := by
  have hany : ((uniqueTransitions pre).any fun u => sameTransition u t) = false := by
    rw [List.any_eq_false]
    intro u hu
    simp [h u ((uniqueTransitions_sublist pre).subset hu)]
  have hsnoc : uniqueTransitions (pre ++ [t]) = uniqueTransitions pre ++ [t] := by
    unfold uniqueTransitions at hany ⊢
    rw [List.foldl_append, List.foldl_cons, List.foldl_nil, hany]
    rfl
  obtain ⟨rest, heq, hsub⟩ := uniqueTransitions_append (pre ++ [t]) post
  refine ⟨rest, ?_, hsub⟩
  rw [List.append_assoc, List.singleton_append] at heq
  rw [heq, hsnoc, List.append_assoc]
  rfl

theorem argmin_uniqueTransitions {rows : List TransitionEdge} {source event : String}
    {g : GuardValuation} (h : ∀ u ∈ rows, ∀ t ∈ rows, sameTransition u t = true →
      u.getGuard = t.getGuard ∧ precedence u.priority = precedence t.priority) :
    ((uniqueTransitions rows).filter (ready source event g)).argmin
        (fun t => precedence t.priority) =
      (rows.filter (ready source event g)).argmin fun t => precedence t.priority := by
  cases hmin : (rows.filter (ready source event g)).argmin fun t => precedence t.priority with
  | none =>
    rw [List.argmin_eq_none] at hmin ⊢
    have hsub := (uniqueTransitions_sublist rows).filter (ready source event g)
    rw [hmin] at hsub
    exact List.sublist_nil.mp hsub
  | some a =>
    obtain ⟨pre, post, rfl, ha, hleast⟩ := exists_append_of_argmin_filter hmin
    have hkeep : ∀ u ∈ pre, sameTransition u a = false := by
      intro u hu
      by_contra hsame
      have hsame' : sameTransition u a = true := by simpa using hsame
      obtain ⟨hguard, hpriority⟩ := h u (by simp [hu]) a (by simp) hsame'
      have hready : ready source event g u = true := by
        simp only [sameTransition, Bool.and_eq_true, decide_eq_true_eq] at hsame'
        simp only [ready, tried, Bool.and_eq_true, decide_eq_true_eq] at ha ⊢
        rw [hguard, hsame'.1.1.1.1.1, hsame'.1.1.1.2]
        exact ha
      have hlt := hleast.before u (List.mem_filter.mpr ⟨hu, hready⟩)
      rw [hpriority] at hlt
      exact lt_irrefl _ hlt
    obtain ⟨rest, heq, hsub⟩ := uniqueTransitions_keep hkeep
    rw [heq, List.filter_append, List.filter_cons_of_pos ha]
    apply argmin_of_isFirstLeast
    refine ⟨fun u hu => hleast.before u ?_, fun u hu => hleast.after u ?_⟩
    · exact ((uniqueTransitions_sublist pre).filter _).subset hu
    · exact (hsub.filter _).subset hu

/-! ## Merging keeps the behaviour -/

theorem chosen_eq_find? (ir : FsmIr) (s event : String) (g : GuardValuation) : chosen ir s event g =
      (selection ir s event).find? fun t => guardPassed g (some t.getGuard) := by
  unfold selection
  rw [find?_sortByKey, List.filter_filter]
  unfold chosen
  congr 1
  apply List.filter_congr
  intro t _
  exact Bool.and_comm _ _

theorem mem_before_of_sublist {α : Type*} {a b : α} {before after : List α}
    (hnodup : (before ++ b :: after).Nodup) (h : [a, b].Sublist (before ++ b :: after)) :
    a ∈ before := by
  rw [List.nodup_append] at hnodup
  obtain ⟨-, hcons, hdisjoint⟩ := hnodup
  obtain ⟨l₁, l₂, heq, hl₁, hl₂⟩ := List.sublist_append_iff.mp h
  cases l₁ with
  | nil =>
    have hl₂' : [a, b].Sublist (b :: after) := by rwa [heq]
    have hb : [b].Sublist after := by
      cases hl₂' with
      | cons _ h => exact (List.sublist_cons_self _ _).trans h
      | cons_cons _ h => exact h
    exact absurd (List.singleton_sublist.mp hb) (List.nodup_cons.mp hcons).1
  | cons c l₁ =>
    obtain ⟨rfl, -⟩ := List.cons.inj heq
    exact hl₁.subset List.mem_cons_self

section Merge

variable {ir : FsmIr} {p : List (List String)} (hm : Mergeable ir) (hf : Final ir p)

variable {a b : String}

theorem block_of_together (h : Together (blockIndex p) a b) : ∃ block ∈ p, a ∈ block ∧ b ∈ block := by
  obtain ⟨i, ha, hb⟩ := h
  obtain ⟨block, hblock, hmem⟩ := exists_of_blockIndex ha
  obtain ⟨block', hblock', hmem'⟩ := exists_of_blockIndex hb
  obtain rfl : block = block' := Option.some.inj (hblock.symm.trans hblock')
  exact ⟨block, List.mem_of_getElem? hblock, hmem, hmem'⟩

include hf in
theorem together_of_block {block : List String} (hblock : block ∈ p)
    (ha : a ∈ block) (hb : b ∈ block) : Together (blockIndex p) a b := by
  obtain ⟨i, hi⟩ := Option.isSome_iff_exists.mp (blockIndex_isSome hblock ha)
  exact ⟨i, hi, (blockIndex_eq_of_mem hf.nodup hblock ha hb).symm.trans hi⟩

include hf in
theorem representative_eq_of_sameEnd (h : SameEnd (blockIndex p) a b) : representative p a = representative p b := by
  rcases h with rfl | htogether
  · rfl
  · obtain ⟨block, hblock, ha, hb⟩ := block_of_together htogether
    cases block with
    | nil => exact absurd ha List.not_mem_nil
    | cons c rest =>
      rw [representative_of_mem hf.nodup hblock ha, representative_of_mem hf.nodup hblock hb]

include hf in
theorem sameEnd_of_representative_eq (h : representative p a = representative p b) : SameEnd (blockIndex p) a b := by
  rcases eq_or_block_of_representative_eq hf.nodup h with rfl | ⟨block, hblock, ha, hb⟩
  · exact Or.inl rfl
  · exact Or.inr (together_of_block hf hblock ha hb)

include hf in
theorem sameEnd_representative (a : String) : SameEnd (blockIndex p) (representative p a) a := by
  rcases representative_cases p a with ⟨heq, -⟩ | hmem
  · exact Or.inl heq
  · obtain ⟨rest, hblock, ha⟩ := mem_remapping_iff.mp hmem
    exact Or.inr (together_of_block hf hblock List.mem_cons_self (List.mem_cons_of_mem _ ha))

include hf in
theorem exists_state_of_together (h : Together (blockIndex p) a b) : ∃ s ∈ ir.states, s.name = a := by
  obtain ⟨block, hblock, ha, -⟩ := block_of_together h
  obtain ⟨s, hs, hname⟩ := List.mem_map.mp ((hf.sublist block hblock).subset ha)
  exact ⟨s, hs, hname⟩

theorem Together.symm {ν : String → Option ℕ} (h : Together ν a b) : Together ν b a := by
  obtain ⟨i, ha, hb⟩ := h
  exact ⟨i, hb, ha⟩

include hf in
theorem merging_of_remapping (hne : remapping p ≠ []) : Merging ir (blockIndex p) where
  keys := by
    intro s hs s' hs' htogether
    obtain ⟨block, hblock, hmem, hmem'⟩ := block_of_together htogether
    exact hf.keys block hblock s hs s' hs' hmem hmem'
  stable := hf.stable
  together := by
    obtain ⟨⟨a, c⟩, hmem⟩ := List.exists_mem_of_ne_nil _ hne
    obtain ⟨rest, hblock, ha⟩ := mem_remapping_iff.mp hmem
    have htogether := together_of_block hf hblock (List.mem_cons_of_mem _ ha) List.mem_cons_self
    obtain ⟨s, hs, rfl⟩ := exists_state_of_together hf htogether
    obtain ⟨s', hs', rfl⟩ := exists_state_of_together hf htogether.symm
    refine ⟨s, hs, s', hs', ?_, htogether⟩
    have hnodup : (s'.name :: rest).Nodup := (List.nodup_flatten.mp hf.nodup).1 _ hblock
    intro heq
    rw [heq] at ha
    exact (List.nodup_cons.mp hnodup).1 ha

variable (hmerging : Merging ir (blockIndex p))
include hm hf hmerging

theorem chosen_rel_of_sameEnd {s s' : String} (h : SameEnd (blockIndex p) s s') (event : String)
    (g : GuardValuation) :
    Option.Rel (Alike (blockIndex p)) (chosen ir s event g) (chosen ir s' event g) := by
  rcases h with rfl | htogether
  · cases chosen ir s event g with
    | none => exact .none
    | some t => exact .some ⟨Or.inl rfl, rfl, rfl, rfl, rfl, rfl, rfl, rfl, rfl, rfl⟩
  · obtain ⟨n, hn, rfl⟩ := exists_state_of_together hf htogether
    obtain ⟨n', hn', rfl⟩ := exists_state_of_together hf htogether.symm
    rw [chosen_eq_find?, chosen_eq_find?]
    apply forall₂_find? _ (hm.transitions _ hmerging n hn n' hn' htogether event)
    intro t t' halike
    rw [halike.guard]

theorem chosen_merge (r event : String) (g : GuardValuation) :
    (∃ t, chosen (merge ir p) r event g = some (redirect (representative p) t) ∧
        representative p t.source = r ∧ chosen ir t.source event g = some t) ∨
      chosen (merge ir p) r event g = none ∧
        ∀ s, representative p s = r → chosen ir s event g = none := by
  let rep := representative p
  let rows := ir.transitions.map (redirect rep)
  let tests := fun t => ready r event g (redirect rep t)
  have hduplicates : ∀ u ∈ rows, ∀ t ∈ rows, sameTransition u t = true →
      u.getGuard = t.getGuard ∧ precedence u.priority = precedence t.priority := by
    intro u hu t ht hsame
    obtain ⟨u₀, hu₀, rfl⟩ := List.mem_map.mp hu
    obtain ⟨t₀, ht₀, rfl⟩ := List.mem_map.mp ht
    simp only [sameTransition, Bool.and_eq_true, decide_eq_true_eq] at hsame
    obtain ⟨⟨⟨⟨⟨hsource, htarget⟩, hevent⟩, hguard⟩, hcondition⟩, haction⟩ := hsame
    exact hm.duplicates _ hmerging u₀ hu₀ t₀ ht₀ (sameEnd_of_representative_eq hf hsource)
      (sameEnd_of_representative_eq hf htarget) hevent hguard hcondition haction
  have hchosen : chosen (merge ir p) r event g =
      ((ir.transitions.filter tests).argmin fun t => precedence t.priority).map (redirect rep) := by
    show ((uniqueTransitions rows).filter (ready r event g)).argmin _ = _
    rw [argmin_uniqueTransitions hduplicates, List.filter_map, argmin_map]
    rfl
  have htests : ∀ t, tests t = true ↔ rep t.source = r ∧ t.event = event ∧
      guardPassed g (some t.getGuard) = true := by
    intro t
    simp only [tests, ready, tried, Bool.and_eq_true, decide_eq_true_eq, and_assoc]
    rfl
  have hready : ∀ s, rep s = r → ∀ t, ready s event g t = true ↔ tests t = true ∧ t.source = s := by
    intro s hs t
    rw [htests]
    simp only [ready, tried, Bool.and_eq_true, decide_eq_true_eq]
    constructor
    · rintro ⟨⟨rfl, hevent⟩, hguard⟩
      exact ⟨⟨hs, hevent, hguard⟩, rfl⟩
    · rintro ⟨⟨-, hevent, hguard⟩, hsource⟩
      exact ⟨⟨hsource, hevent⟩, hguard⟩
  cases hmin : (ir.transitions.filter tests).argmin fun t => precedence t.priority with
  | none =>
    right
    rw [hchosen, hmin]
    refine ⟨rfl, fun s hs => ?_⟩
    unfold chosen
    rw [List.argmin_eq_none] at hmin ⊢
    rw [List.filter_eq_nil_iff] at hmin ⊢
    intro t ht hready'
    exact hmin t ht ((hready s hs t).mp hready').1
  | some t =>
    left
    have ht := List.mem_filter.mp (List.argmin_mem hmin)
    have hsource : rep t.source = r := ((htests t).mp ht.2).1
    refine ⟨t, by rw [hchosen, hmin]; rfl, hsource, ?_⟩
    have hfilter := argmin_filter_of_argmin (p := fun u => u.source = t.source) hmin (by simp)
    rw [List.filter_filter] at hfilter
    show (ir.transitions.filter (ready t.source event g)).argmin _ = some t
    rw [← hfilter]
    congr 1
    apply List.filter_congr
    intro u _
    rw [Bool.eq_iff_iff, hready t.source hsource u, Bool.and_eq_true, decide_eq_true_eq, and_comm]

theorem chosen_corresponds (s event : String) (g : GuardValuation) :
    Option.Rel (Corresponds (representative p)) (chosen ir s event g)
      (chosen (canonicalize (merge ir p)) (representative p s) event g) := by
  rw [chosen_canonicalize]
  rcases chosen_merge hm hf hmerging (representative p s) event g with
    ⟨t', hmerge, hsource, hchosen'⟩ | ⟨hmerge, hnone⟩
  · have hsame := sameEnd_of_representative_eq hf hsource.symm
    have hrel := chosen_rel_of_sameEnd hm hf hmerging hsame event g
    rw [hchosen'] at hrel
    rw [hmerge]
    cases hchosen : chosen ir s event g with
    | none =>
      rw [hchosen] at hrel
      cases hrel
    | some t =>
      rw [hchosen] at hrel
      cases hrel with
      | some halike =>
        apply Option.Rel.some
        obtain ⟨hs, he⟩ := ends_of_chosen hchosen
        obtain ⟨hs', he'⟩ := ends_of_chosen hchosen'
        exact
          { source := by
              rw [hs]
              exact hsource
            target := (representative_eq_of_sameEnd hf halike.target).symm
            event := he'.trans he.symm
            guard := (syncGuard_getGuard _).trans halike.guard.symm
            trigger := halike.trigger.symm
            kind := halike.kind.symm
            priority := halike.priority.symm
            conditionAction := halike.conditionAction.symm
            transitionAction := halike.transitionAction.symm
            clockResets := halike.clockResets.symm
            targetIsHistory := halike.targetIsHistory.symm
            targetIsDeepHistory := halike.targetIsDeepHistory.symm }
  · rw [hmerge, hnone s rfl]
    exact .none

omit hm hmerging in
theorem findState_representative (hnames : (ir.states.map (·.name)).Nodup) (s : String) :
    (canonicalize (merge ir p)).findState (representative p s) =
      ir.findState (representative p s) := by
  have hperm : (canonicalize (merge ir p)).states.Perm (merge ir p).states := List.mergeSort_perm _ _
  have hsub : (merge ir p).states.Sublist ir.states := List.filter_sublist
  have hfind := find?_name_of_perm hperm ((hsub.map (·.name)).nodup hnames) (representative p s)
  show (canonicalize (merge ir p)).states.find? _ = ir.states.find? _
  rw [hfind]
  show (ir.states.filter _).find? _ = _
  rw [List.find?_filter]
  apply List.find?_congr
  intro n _
  by_cases hname : n.name = representative p s
  · have hkept : ((remapping p).any fun q => decide (q.1 = n.name)) = false := by
      rw [List.any_eq_false]
      intro q hq heq
      have heq' : q.1 = representative p s := (of_decide_eq_true heq).trans hname
      exact representative_not_replaced hf.nodup s q.2 (by rwa [← heq'])
    rw [hkept]
    simp
  · simp [hname]

theorem actions_representative (s : String) : (((ir.findState (representative p s)).map (·.entryActions)).getD [] =
        ((ir.findState s).map (·.entryActions)).getD []) ∧
      ((ir.findState (representative p s)).map (·.exitActions)).getD [] =
        ((ir.findState s).map (·.exitActions)).getD [] := by
  rcases sameEnd_representative hf s with heq | htogether
  · rw [heq]
    exact ⟨rfl, rfl⟩
  · obtain ⟨n, hn, hname⟩ := exists_state_of_together hf htogether
    obtain ⟨n', hn', hname'⟩ := exists_state_of_together hf htogether.symm
    rw [← hname, ← hname'] at htogether ⊢
    obtain ⟨hentry, hexit⟩ := hm.effects _ hmerging n hn n' hn' htogether
    rw [findState_of_mem hm.names hn, findState_of_mem hm.names hn']
    exact ⟨hentry, hexit⟩

theorem step_corresponds {s : String} {t t' : TransitionEdge} (h : Corresponds (representative p) t t') :
    nextState (representative p s) t' = representative p (nextState s t) ∧
      observeStep (canonicalize (merge ir p)) (representative p s) t' = observeStep ir s t := by
  have heffect : observeEffect t' = observeEffect t := by
    unfold observeEffect
    rw [h.conditionAction, h.transitionAction, h.clockResets]
  have hexit : observeExit (canonicalize (merge ir p)) (representative p s) = observeExit ir s := by
    unfold observeExit
    rw [findState_representative hf hm.names, (actions_representative hm hf hmerging s).2]
  have hentry : observeEntry (canonicalize (merge ir p)) (representative p t.target) =
      observeEntry ir t.target := by
    unfold observeEntry
    rw [findState_representative hf hm.names, (actions_representative hm hf hmerging _).1]
  unfold nextState observeStep
  rw [h.kind]
  split
  · exact ⟨rfl, heffect⟩
  · rw [h.target, heffect, hexit, hentry]
    exact ⟨rfl, rfl⟩

theorem dispatch_corresponds (v : GuardHistory) (c : String × Observation) (event : String) :
    dispatch (canonicalize (merge ir p)) v (representative p c.1, c.2) event =
      (representative p (dispatch ir v c event).1, (dispatch ir v c event).2) := by
  have hrel := chosen_corresponds hm hf hmerging c.1 event (v c.2)
  unfold dispatch
  dsimp only
  generalize chosen ir c.1 event (v c.2) = a at hrel ⊢
  generalize chosen (canonicalize (merge ir p)) (representative p c.1) event (v c.2) = b at hrel ⊢
  cases hrel with
  | none => rfl
  | some hcorresponds =>
    obtain ⟨hnext, hstep⟩ := step_corresponds hm hf hmerging (s := c.1) hcorresponds
    show (_, _) = (_, _)
    rw [hnext, hstep]

theorem dispatchAll_corresponds (v : GuardHistory) (c : String × Observation) (events : List String) :
    dispatchAll (canonicalize (merge ir p)) v (representative p c.1, c.2) events =
      (representative p (dispatchAll ir v c events).1, (dispatchAll ir v c events).2) := by
  unfold dispatchAll
  induction events generalizing c with
  | nil => rfl
  | cons event events ih =>
    rw [List.foldl_cons, List.foldl_cons, dispatch_corresponds hm hf hmerging]
    exact ih _

theorem references_represented {r : String} (hr : r ∈ references ir) {s : StateNode}
    (hs : s ∈ ir.states) (hrefers : RefersTo r s) :
    s ∈ (merge ir p).states ∧ representative p s.name = s.name := by
  obtain ⟨before, after, hsplit⟩ := List.append_of_mem hs
  have hfirst := hm.references _ hmerging r hr before s after hsplit hrefers
  have hkept : ∀ c, (s.name, c) ∉ remapping p := by
    intro c hc
    obtain ⟨rest, hblock, hrest⟩ := mem_remapping_iff.mp hc
    have htogether := together_of_block hf hblock List.mem_cons_self (List.mem_cons_of_mem _ hrest)
    -- The first member of the block is declared before the others.
    have hsub : [c, s.name].Sublist (before.map (·.name) ++ s.name :: after.map (·.name)) := by
      have hpair := ((List.singleton_sublist.mpr hrest).cons_cons c).trans (hf.sublist _ hblock)
      rwa [hsplit, List.map_append, List.map_cons] at hpair
    have hnodup := hm.names
    rw [hsplit, List.map_append, List.map_cons] at hnodup
    have hbefore : c ∈ before.map (·.name) := mem_before_of_sublist hnodup hsub
    obtain ⟨n, hn, rfl⟩ := List.mem_map.mp hbefore
    exact hfirst n hn htogether
  refine ⟨List.mem_filter.mpr ⟨hs, ?_⟩, ?_⟩
  · simp only [Bool.not_eq_eq_eq_not, Bool.not_true, List.any_eq_false, decide_eq_true_eq]
    intro q hq heq
    exact hkept q.2 (by rwa [← heq])
  · rcases representative_cases p s.name with ⟨heq, -⟩ | hmem
    · exact heq
    · exact absurd hmem (hkept _)

end Merge

/-! ## The pass -/

theorem references_run_subset {ir : FsmIr} {p : List (List String)} {r : String}
    (h : r ∈ references (canonicalize (merge ir p))) : r ∈ references ir := by
  have hsub : ∀ s ∈ (canonicalize (merge ir p)).states, s ∈ ir.states := by
    intro s hs
    have hperm : (canonicalize (merge ir p)).states.Perm (merge ir p).states :=
      List.mergeSort_perm _ _
    exact List.filter_sublist.subset (hperm.mem_iff.mp hs)
  unfold references at h ⊢
  rw [List.mem_filter] at h ⊢
  refine ⟨?_, h.2⟩
  rcases List.mem_cons.mp h.1 with hinitial | hrest
  · exact List.mem_cons.mpr (Or.inl hinitial)
  · rcases List.mem_cons.mp hrest with hid | hstate
    · have hid' : r = if ir.initialStateId = "" then ir.initialState else ir.initialStateId := hid
      split at hid'
      · exact List.mem_cons.mpr (Or.inl hid')
      · exact List.mem_cons_of_mem _ (List.mem_cons.mpr (Or.inl hid'))
    · obtain ⟨s, hs, hr⟩ := List.mem_flatMap.mp hstate
      exact List.mem_cons_of_mem _ (List.mem_cons_of_mem _ (List.mem_flatMap.mpr ⟨s, hsub s hs, hr⟩))

theorem preservesBehaviour_of_unchanged {ir : FsmIr} (hrun : run ir = ir)
    (hrep : ∀ s, representativeOf ir s = s) : PreservesBehaviour ir where
  choices := by
    intro s event g
    rw [hrun, hrep]
    cases chosen ir s event g with
    | none => exact .none
    | some t => exact .some ⟨(hrep _).symm, (hrep _).symm, rfl, rfl, rfl, rfl, rfl, rfl, rfl, rfl, rfl, rfl⟩
  runs := by
    intro v s w events
    rw [hrun, hrep, hrep]
  references := by
    intro r _ s hs hrefers
    rw [hrun]
    exact ⟨s, hs, hrefers, (hrep _).symm⟩

/-- **Minimisation** keeps the behaviour of a machine when states that it cannot tell apart are
alike. -/
theorem run_preserves_behaviour (ir : FsmIr) (h : Mergeable ir) : PreservesBehaviour ir := by
  cases hfinal : finalPartition ir with
  | none =>
    apply preservesBehaviour_of_unchanged
    · unfold run
      rw [hfinal]
    · intro s
      unfold representativeOf
      rw [hfinal]
      rfl
  | some p =>
    have hf := final_of_finalPartition h.names hfinal
    have hrep : representativeOf ir = representative p := by
      unfold representativeOf
      rw [hfinal]
    cases hempty : (remapping p).isEmpty with
    | true =>
      apply preservesBehaviour_of_unchanged
      · unfold run
        rw [hfinal]
        show (if (remapping p).isEmpty = true then ir else _) = ir
        rw [if_pos hempty]
      · intro s
        rw [hrep]
        rcases representative_cases p s with ⟨heq, -⟩ | hmem
        · exact heq
        · rw [List.isEmpty_iff.mp hempty] at hmem
          exact absurd hmem List.not_mem_nil
    | false =>
      have hrun : run ir = canonicalize (merge ir p) := by
        unfold run
        rw [hfinal]
        show (if (remapping p).isEmpty = true then ir else _) = _
        rw [hempty]
        rfl
      have hmerging := merging_of_remapping hf (by
        intro hnil
        rw [hnil] at hempty
        exact Bool.noConfusion hempty)
      refine ⟨?_, ?_, ?_⟩
      · intro s event g
        rw [hrun, hrep]
        exact chosen_corresponds h hf hmerging s event g
      · intro v s w events
        rw [hrun, hrep]
        exact dispatchAll_corresponds h hf hmerging v (s, w) events
      · intro r hr s hs hrefers
        rw [hrun] at hr ⊢
        obtain ⟨hkept, hself⟩ :=
          references_represented h hf hmerging (references_run_subset hr) hs hrefers
        have hperm : (canonicalize (merge ir p)).states.Perm (merge ir p).states :=
          List.mergeSort_perm _ _
        exact ⟨s, hperm.mem_iff.mpr hkept, hrefers, by rw [hrep, hself]⟩

/-- A choice between two paths that end with the given actions. -/
def twoPaths (left right : ActionSignature) : FsmIr :=
  { initialState := "Idle"
    states := [{ name := "Idle" }, { name := "Left" }, { name := "Right" },
      { name := "Done", kind := .final }]
    transitions := [
      { source := "Idle", event := "left", target := "Left" },
      { source := "Idle", event := "right", target := "Right" },
      { source := "Left", event := "go", target := "Done", transitionAction := some left },
      { source := "Right", event := "go", target := "Done", transitionAction := some right }] }

/-- `x := expression`, under the name `log`. -/
def logged (expression : String) : ActionSignature :=
  { name := "log", assignments := [{ target := { name := "x" }, expression := expression }] }

/-- Two paths with the same actions are merged into one. -/
theorem twoPaths_preserves_behaviour : PreservesBehaviour (twoPaths (logged "1") (logged "1")) := by
  let ir := twoPaths (logged "1") (logged "1")
  have hnames : (ir.states.map (·.name)).Nodup := by decide
  have hblocks : ∀ s ∈ ir.states, ∀ s' ∈ ir.states, blockKey ir s = blockKey ir s' →
      s.name = s'.name ∨ s.name ∈ ["Left", "Right"] ∧ s'.name ∈ ["Left", "Right"] := by decide
  let path : String → TransitionEdge := fun s =>
    { source := s, event := "go", target := "Done", transitionAction := some (logged "1") }
  have hselection : ∀ s ∈ ["Left", "Right"], ∀ event,
      selection ir s event = if event = "go" then [path s] else [] := by
    intro s hs event
    have hpath : ir.transitions.filter (fun t => t.source = s) = [path s] := by
      rcases List.mem_pair.mp hs with rfl | rfl <;> rfl
    have htried : ir.transitions.filter (tried s event) = if event = "go" then [path s] else [] := by
      have hsplit : ir.transitions.filter (tried s event) =
          (ir.transitions.filter fun t => t.source = s).filter fun t => t.event = event := by
        rw [List.filter_filter]
        exact List.filter_congr fun t _ => Bool.and_comm _ _
      rw [hsplit, hpath]
      by_cases hevent : event = "go"
      · simp [path, hevent]
      · simp [path, hevent, Ne.symm hevent]
    unfold selection
    rw [htried]
    split <;> simp [sortByKey]
  apply run_preserves_behaviour
  refine ⟨by decide, ?_, ?_, ?_, ?_⟩
  · intro ν hν s hs s' hs' htogether
    have heffects : ∀ s ∈ ir.states, s.entryActions = [] ∧ s.exitActions = [] := by decide
    rw [(heffects s hs).1, (heffects s hs).2, (heffects s' hs').1, (heffects s' hs').2]
    exact ⟨rfl, rfl⟩
  · intro ν hν s hs s' hs' htogether event
    rcases hblocks s hs s' hs' (hν.keys s hs s' hs' htogether) with heq | ⟨hleft, hright⟩
    · rw [heq]
      apply List.forall₂_same.mpr
      intro t _
      exact ⟨Or.inl rfl, rfl, rfl, rfl, rfl, rfl, rfl, rfl, rfl, rfl⟩
    · rw [hselection _ hleft, hselection _ hright]
      split
      · exact .cons ⟨Or.inl rfl, rfl, rfl, rfl, rfl, rfl, rfl, rfl, rfl, rfl⟩ .nil
      · exact .nil
  · intro ν _ u hu t ht _ _ _ _ _ _
    have hplain : ∀ t ∈ ir.transitions, t.getGuard = "" ∧ t.priority = 0 := by decide
    rw [(hplain u hu).1, (hplain u hu).2, (hplain t ht).1, (hplain t ht).2]
    exact ⟨rfl, rfl⟩
  · intro ν hν r hr before s after hsplit hrefers s' hs' htogether
    have hidle : ∀ r ∈ references ir, r = "Idle" := by decide
    have hinitial : ∀ s ∈ ir.states, ∀ s' ∈ ir.states, s.name = "Idle" ∨ s.id = "Idle" →
        blockKey ir s' = blockKey ir s → s'.name = s.name := by decide
    have hs : s ∈ ir.states := by
      rw [hsplit]
      simp
    have hmem : s' ∈ ir.states := by
      rw [hsplit]
      simp [hs']
    unfold RefersTo at hrefers
    rw [hidle r hr] at hrefers
    have heq := hinitial s hs s' hmem hrefers (hν.keys s' hmem s hs htogether)
    rw [hsplit, List.map_append, List.map_cons, List.nodup_append] at hnames
    exact hnames.2.2 _ (List.mem_map_of_mem hs') _ List.mem_cons_self heq

/-- Paths that assign different values are merged as well: the signatures hold only the names of
actions. -/
theorem twoPaths_not_preserved : ¬ PreservesBehaviour (twoPaths (logged "1") (logged "2")) := by
  intro h
  let ir := twoPaths (logged "1") (logged "2")
  let g : GuardValuation := fun _ => true
  let p := [["Idle"], ["Left", "Right"], ["Done"]]
  have hfinal : finalPartition ir = some p := by decide
  have hrep : representativeOf ir "Right" = "Left" := by
    unfold representativeOf
    rw [hfinal]
    decide
  have hrun : run ir = canonicalize (merge ir p) := by
    unfold run
    rw [hfinal]
    rfl
  have hchoices := h.choices "Right" "go" g
  rw [hrep, hrun, chosen_canonicalize] at hchoices
  have hright : (chosen ir "Right" "go" g).bind (·.transitionAction) = some (logged "2") := by decide
  have hleft : (chosen (merge ir p) "Left" "go" g).bind (·.transitionAction) =
      some (logged "1") := by decide
  cases hchosen : chosen ir "Right" "go" g with
  | none => simp [hchosen] at hright
  | some t =>
    cases hchosen' : chosen (merge ir p) "Left" "go" g with
    | none => simp [hchosen'] at hleft
    | some t' =>
      rw [hchosen] at hchoices hright
      rw [hchosen'] at hchoices hleft
      cases hchoices with
      | some hcorresponds =>
        have hsame : t'.transitionAction = t.transitionAction := hcorresponds.transitionAction
        have hactions : some (logged "1") = some (logged "2") :=
          hleft.symm.trans (hsame.trans hright)
        exact absurd hactions (by decide)

end Fsmc.Passes.StateMinimization
