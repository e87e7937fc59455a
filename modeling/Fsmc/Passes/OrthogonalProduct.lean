/-
# Fsmc.Passes.OrthogonalProduct — one state for each tuple of region states.

A composite with orthogonal regions is replaced by the product of its regions. For a tuple and an event
one transition is made: it takes the first transition of every region that has one for the event and
requires all their guards at once. Transitions without an event get no product transition; those that
leave the composite are copied to every tuple as well.
-/
import Fsmc.Ir.DeterministicId
import Fsmc.Lib.Cartesian
import Fsmc.Lib.PartitionRefinement
import Fsmc.Runtime.Orthogonal
import Mathlib.Data.String.Basic

namespace Fsmc.Passes.OrthogonalProduct

open Fsmc.Ir Fsmc.Runtime Fsmc.Lib.Cartesian Fsmc.Lib.FirstMatch Fsmc.Lib.PartitionRefinement

/-! ## Regions -/

structure RegionInfo where
  regionId : String
  states : List String
  initialState : String

/-- The states of a region, by the first of the four rules that finds one. -/
def discoverStates (ir : FsmIr) (reg : OrthogonalRegion) : List String :=
  let listed := reg.stateIds.map fun sid => ((ir.findState sid).map (·.name)).getD sid
  let below :=
    (ir.states.filter fun s => s.parentState = reg.id || s.parentState = reg.name).map (·.name)
  let children :=
    match ir.findState reg.id with
    | none => []
    | some node => node.childrenIds.filterMap fun cid => (ir.findStateById cid).map (·.name)
  if !listed.isEmpty then listed
  else if !below.isEmpty then below
  else if !children.isEmpty then children
  else [if reg.id = "" then reg.name else reg.id]

/-- A declared region, its states without duplicates. -/
def regionInfo (ir : FsmIr) (reg : OrthogonalRegion) : RegionInfo :=
  let states := (discoverStates ir reg).eraseDups
  { regionId := if reg.name = "" then reg.id else reg.name
    states := states
    initialState :=
      if reg.initialStateId ≠ "" ∧ reg.initialStateId ∈ states then reg.initialStateId
      else states.headD "" }

def regionsOf (ir : FsmIr) (parent : StateNode) : List RegionInfo :=
  parent.orthogonalRegions.map (regionInfo ir)

def subStates (regions : List RegionInfo) : List String := (regions.map (·.states)).flatten

/-- The bound on the number of product states is checked region by region. -/
def withinBound (maxProductStates : ℕ) : List RegionInfo → ℕ → Bool
  | [], _ => true
  | reg :: regions, total =>
    !reg.states.isEmpty && total * reg.states.length ≤ maxProductStates &&
      withinBound maxProductStates regions (total * reg.states.length)

/-! ## Product states -/

def productTuples (regions : List RegionInfo) : List (List String) :=
  product (regions.map (·.states))

def tupleToName (parentName : String) (tup : List String) : String :=
  parentName ++ "_" ++ "_".intercalate tup

/-- Actions without those that have the name of an earlier one. -/
def uniqueActions (acts : List ActionSignature) : List ActionSignature :=
  acts.foldl
    (fun unique act => if unique.any fun u => u.name = act.name then unique else unique ++ [act]) []

def memberNodes (ir : FsmIr) (tup : List String) : List StateNode := tup.filterMap ir.findState

/-- The product state of a tuple. -/
def productNode (ir : FsmIr) (parentName : String) (tup : List String) : StateNode :=
  let name := tupleToName parentName tup
  { id := computeDeterministicId name
    name := name
    fqn := if parentName = "" then name else parentName ++ "." ++ name
    parentState := parentName
    description := "Cartesian product state of " ++ parentName
    pinnedParent := true
    entryActions := uniqueActions ((memberNodes ir tup).flatMap (·.entryActions))
    exitActions := uniqueActions ((memberNodes ir tup).flatMap (·.exitActions)) }

def allProducts (parentName : String) (regions : List RegionInfo) (member : String) : List String :=
  (productTuples regions).flatMap fun tup =>
    (tup.filter fun m => m = member).map fun _ => tupleToName parentName tup

/-! ## Product transitions -/

def intraTransitions (ir : FsmIr) (subs : List String) : List TransitionEdge :=
  ir.transitions.filter fun t => t.source ∈ subs || t.target ∈ subs

def regionEvents (intra : List TransitionEdge) : List String :=
  keysOf id ((intra.map (·.event)).filter (· ≠ ""))

/-- The transition of a region that is combined with those of the others. -/
def leading (intra : List TransitionEdge) (event s : String) : Option TransitionEdge :=
  intra.find? (tried s event)

def conjoin (guards : List String) : String := " && ".intercalate (guards.map fun g => "(" ++ g ++ ")")

/-- The guards that are combined. -/
def guardsOf (moves : List TransitionEdge) : List String :=
  moves.filterMap fun t => t.guard.filter (· ≠ "")

/-- The names of actions that are combined. -/
def actionNames (moves : List TransitionEdge) : List String :=
  ((moves.filterMap (·.transitionAction)).map (·.name)).filter (· ≠ "")

/-- The assignments that are combined. -/
def assignmentsOf (moves : List TransitionEdge) : List ActionAssignment :=
  (moves.filterMap (·.transitionAction)).flatMap (·.assignments)

/-- The action of a product transition. -/
def combinedAction (src dst : String) (moves : List TransitionEdge) : Option ActionSignature :=
  let combined := "; ".intercalate (actionNames moves)
  if (assignmentsOf moves).isEmpty && (actionNames moves).isEmpty then none
  else some
    { name := if combined = "" then "act_" ++ src ++ "_" ++ dst else combined
      assignments := assignmentsOf moves }

/-- Where the first transitions lead. -/
def nextTuple (intra : List TransitionEdge) (event : String) (tup : List String) : List String :=
  tup.map fun s => ((leading intra event s).map (·.target)).getD s

/-- The product transition of a tuple for an event. -/
def productEdge (parentName : String) (intra : List TransitionEdge) (tup : List String)
    (event : String) : Option TransitionEdge :=
  let moves := tup.filterMap (leading intra event)
  let src := tupleToName parentName tup
  let dst := tupleToName parentName (nextTuple intra event tup)
  if moves.isEmpty then none
  else some
    { source := src
      target := dst
      event := event
      guard := if (guardsOf moves).isEmpty then none else some (conjoin (guardsOf moves))
      transitionAction := combinedAction src dst moves }

/-- The product transitions, for every tuple and event. -/
def productEdges (parentName : String) (regions : List RegionInfo) (intra : List TransitionEdge) :
    List TransitionEdge :=
  (productTuples regions).flatMap fun tup =>
    (regionEvents intra).filterMap (productEdge parentName intra tup)

/-! ## Transitions into and out of the composite -/

/-- A transition from outside that enters the composite enters the product state that it names, the
other regions in their initial states. -/
def remapIncoming (parentName : String) (regions : List RegionInfo) (t : TransitionEdge) :
    TransitionEdge :=
  let subs := subStates regions
  if t.source ∈ subs then t
  else if !t.targetIds.isEmpty then
    -- a fork: a region is entered at the last target that lies in it
    if t.targetIds.any fun tid => tid ∈ subs || tid = parentName then
      { t with
        target := tupleToName parentName (regions.map fun reg =>
          ((t.targetIds.filter (· ∈ reg.states)).getLast?).getD reg.initialState)
        targetIds := [] }
    else t
  -- the composite itself: every region in its initial state
  else if t.target = parentName then
    { t with target := tupleToName parentName (regions.map (·.initialState)) }
  else if t.target ∈ subs then
    { t with
      target := tupleToName parentName (regions.map fun reg =>
        if t.target ∈ reg.states then t.target else reg.initialState) }
  else t

/-- A transition that leaves the composite leaves each product state of its source: the first one by
the transition itself, the others by copies. -/
def remapOutgoing (parentName : String) (regions : List RegionInfo) (t : TransitionEdge) :
    TransitionEdge × List TransitionEdge :=
  let subs := subStates regions
  if t.target ∈ subs ∨ t.target = parentName then (t, [])
  else if !t.sourceIds.isEmpty then
    -- a join: a region that it does not name counts with its last state
    if t.sourceIds.any fun sid => sid ∈ subs then
      ({ t with
        source := tupleToName parentName (regions.map fun reg =>
          ((t.sourceIds.filter (· ∈ reg.states)).getLast?).getD (reg.states.getLast?.getD ""))
        sourceIds := [] }, [])
    else (t, [])
  else if t.source ∈ subs then
    match allProducts parentName regions t.source with
    -- a source without products keeps the transition, which is purged with its source
    | [] => (t, [])
    | first :: rest => ({ t with source := first }, rest.map fun p => { t with source := p })
  else (t, [])

/-! ## The pass -/

def addState (states : List StateNode) (node : StateNode) : List StateNode :=
  if states.any fun s => s.name = node.name then
    modifyFirst (fun s => s.name = node.name) (fun _ => node) states
  else states ++ [node]

/-- The states after the members and the region containers were purged. -/
def keptStates (ir : FsmIr) (parent : StateNode) (subs : List String) : List StateNode :=
  ir.states.filter fun s =>
    !(parent.orthogonalRegions.any fun reg => s.name = reg.id || s.name = reg.name) &&
      !decide (s.name ∈ subs)

/-- The transitions of the flat machine. -/
def flatTransitions (ir : FsmIr) (parentName : String) (regions : List RegionInfo) :
    List TransitionEdge :=
  let subs := subStates regions
  let remapped :=
    ir.transitions.map fun t => remapOutgoing parentName regions (remapIncoming parentName regions t)
  (remapped.map (·.1)).filter (fun t => !decide (t.source ∈ subs)) ++
    productEdges parentName regions (intraTransitions ir subs) ++ remapped.flatMap (·.2)

/-- `expand_parallel_state`, with whether it reports success. -/
def expandParallelState (maxProductStates : ℕ) (ir : FsmIr) (parent : StateNode) : FsmIr × Bool :=
  let regions := regionsOf ir parent
  if regions.length < 2 ∨ !withinBound maxProductStates regions 1 then (ir, false)
  else
    let expanded : FsmIr :=
      { ir with
        transitions := flatTransitions ir parent.name regions
        states :=
          ((productTuples regions).map (productNode ir parent.name)).foldl addState
            (keptStates ir parent (subStates regions)) }
    -- the composite is looked up again, as the purge may have removed it
    match expanded.findState parent.name with
    | none => (expanded, false)
    | some _ =>
      (expanded.modifyState parent.name fun s =>
        { s with
          kind := .composite
          isComposite := true
          initialSubState := tupleToName parent.name (regions.map (·.initialState))
          orthogonalRegions := [] }, true)

/-- One composite of the loop of `run`. -/
def expandNamed (maxProductStates : ℕ) (acc : FsmIr × Bool) (parentName : String) : FsmIr × Bool :=
  match acc.1.findState parentName with
  | none => acc
  | some parent =>
    if parent.orthogonalRegions.length < 2 then acc
    else
      let expanded := expandParallelState maxProductStates acc.1 parent
      (expanded.1, acc.2 || expanded.2)

/-- `OrthogonalProductPass::run`. -/
def run (maxProductStates : ℕ) (ir : FsmIr) : FsmIr :=
  let parallelStateNames :=
    (ir.states.filter fun s => s.kind = .parallel || !s.orthogonalRegions.isEmpty).map (·.name)
  let expanded := parallelStateNames.foldl (expandNamed maxProductStates) (ir, false)
  if expanded.2 then canonicalize (normalizeHierarchy expanded.1) else expanded.1

/-- The flat machine for one composite. -/
def flatten (maxProductStates : ℕ) (ir : FsmIr) (parent : StateNode) : FsmIr :=
  canonicalize (normalizeHierarchy (expandParallelState maxProductStates ir parent).1)

/-! ## Composites whose parts have names of their own -/

/-- The names of the product states are new and different, the regions share no state, and no transition
joins states of several regions. -/
structure Separate (maxProductStates : ℕ) (ir : FsmIr) (parent : StateNode) : Prop where
  names : (ir.states.map (·.name)).Nodup
  regions : 2 ≤ (regionsOf ir parent).length
  bound : withinBound maxProductStates (regionsOf ir parent) 1 = true
  disjoint : (subStates (regionsOf ir parent)).Nodup
  products : ((productTuples (regionsOf ir parent)).map (tupleToName parent.name)).Nodup
  fresh : ∀ p ∈ (productTuples (regionsOf ir parent)).map (tupleToName parent.name),
    p ∉ subStates (regionsOf ir parent) ∧ p ∉ ir.states.map (·.name) ∧
      p ∉ ir.transitions.map (·.source)
  joins : ∀ t ∈ ir.transitions, (t.source ∈ subStates (regionsOf ir parent) → t.sourceIds = []) ∧
    ∀ s ∈ t.sourceIds, s ∉ subStates (regionsOf ir parent)

/-- A transition that leads out of the composite. -/
def leaves (parentName : String) (regions : List RegionInfo) (t : TransitionEdge) : Bool :=
  !decide (t.target ∈ subStates regions) && t.target ≠ parentName

/-- A transition of one of the states of a tuple. -/
def triedIn (tup : List String) (event : String) (t : TransitionEdge) : Bool :=
  t.source ∈ tup && t.event = event

/-- The product state is the first one of the state. -/
def isFirst (parentName : String) (regions : List RegionInfo) (tup : List String) (s : String) : Bool :=
  (allProducts parentName regions s).head? = some (tupleToName parentName tup)

/-- The transitions out of the composite for a tuple and an event, by whether the product state is the
first one of their source. -/
def exitsOf (ir : FsmIr) (parent : StateNode) (tup : List String) (event : String) (first : Bool) :
    List TransitionEdge :=
  ir.transitions.filter fun t => triedIn tup event t && leaves parent.name (regionsOf ir parent) t &&
    decide (isFirst parent.name (regionsOf ir parent) tup t.source = first)

/-- The product transition of a tuple for an event, if there is one. -/
def synthesized (ir : FsmIr) (parent : StateNode) (tup : List String) (event : String) :
    List TransitionEdge :=
  if event = "" then []
  else (productEdge parent.name (intraTransitions ir (subStates (regionsOf ir parent))) tup
    event).toList

/-- A transition from the product state of a tuple. -/
def atProduct (parent : StateNode) (tup : List String) (t : TransitionEdge) : TransitionEdge :=
  { t with source := tupleToName parent.name tup }

theorem keep_nodup {n : ℕ} {ir : FsmIr} {parent : StateNode} (h : Separate n ir parent)
    {tup : List String} (htup : tup ∈ productTuples (regionsOf ir parent)) :
    tup.Nodup ∧ ∀ s ∈ tup, s ∈ subStates (regionsOf ir parent) :=
  nodup_of_mem_product h.disjoint htup

/-! ## The transitions of a product state -/

theorem flatMap_eq_of_nodup {α β : Type*} {l : List α} (hnodup : l.Nodup) {a : α} (ha : a ∈ l)
    {f : α → List β} (hf : ∀ b ∈ l, b ≠ a → f b = []) : l.flatMap f = f a := by
  induction l with
  | nil => exact absurd ha List.not_mem_nil
  | cons b l ih =>
    obtain ⟨hb, hl⟩ := List.nodup_cons.mp hnodup
    rw [List.flatMap_cons]
    rcases List.mem_cons.mp ha with rfl | ha
    · have hnil : l.flatMap f = [] := by
        rw [List.flatMap_eq_nil_iff]
        intro c hc
        apply hf c (List.mem_cons_of_mem _ hc)
        rintro rfl
        exact hb hc
      rw [hnil, List.append_nil]
    · have hne : b ≠ a := by
        rintro rfl
        exact hb ha
      rw [hf b List.mem_cons_self hne, List.nil_append]
      exact ih hl ha fun c hc => hf c (List.mem_cons_of_mem _ hc)

theorem flatMap_ite_singleton {α β : Type*} (l : List α) (p : α → Bool) (f : α → β) :
    (l.flatMap fun a => if p a then [f a] else []) = (l.filter p).map f := by
  induction l with
  | nil => rfl
  | cons a l ih =>
    rw [List.flatMap_cons, ih]
    by_cases ha : p a = true <;> simp [ha]

section Flat

variable {n : ℕ} {ir : FsmIr} {parent : StateNode} (h : Separate n ir parent)
include h

theorem allProducts_eq (s : String) : allProducts parent.name (regionsOf ir parent) s =
      ((productTuples (regionsOf ir parent)).filter fun tup => s ∈ tup).map
        (tupleToName parent.name) := by
  unfold allProducts
  rw [← flatMap_ite_singleton]
  apply List.flatMap_congr
  intro tup htup
  -- A tuple has a state at most once, so it gives at most one product.
  have hcount := (keep_nodup h htup).1
  rw [List.filter_eq]
  by_cases hs : s ∈ tup
  · rw [List.count_eq_one_of_mem hcount hs]
    simp [hs]
  · rw [List.count_eq_zero_of_not_mem hs]
    simp [hs]

theorem mem_allProducts {tup : List String} (htup : tup ∈ productTuples (regionsOf ir parent)) (s : String) :
    tupleToName parent.name tup ∈ allProducts parent.name (regionsOf ir parent) s ↔ s ∈ tup := by
  rw [allProducts_eq h, List.mem_map]
  refine ⟨?_, ?_⟩
  · rintro ⟨tup', hmem, hname⟩
    obtain ⟨htup', hs⟩ := List.mem_filter.mp hmem
    rw [← List.inj_on_of_nodup_map h.products htup' htup hname]
    exact of_decide_eq_true hs
  · intro hs
    exact ⟨tup, List.mem_filter.mpr ⟨htup, decide_eq_true hs⟩, rfl⟩

theorem allProducts_nodup (s : String) : (allProducts parent.name (regionsOf ir parent) s).Nodup := by
  rw [allProducts_eq h]
  exact (List.filter_sublist.map _).nodup h.products

omit h in
theorem remapIncoming_ends (parentName : String) (regions : List RegionInfo) (t : TransitionEdge) :
    (remapIncoming parentName regions t).source = t.source ∧
      (remapIncoming parentName regions t).sourceIds = t.sourceIds := by
  unfold remapIncoming
  dsimp only
  split
  · exact ⟨rfl, rfl⟩
  · split
    · split <;> exact ⟨rfl, rfl⟩
    · split
      · exact ⟨rfl, rfl⟩
      · split <;> exact ⟨rfl, rfl⟩

variable {t : TransitionEdge}

variable {regions : List RegionInfo} {intra : List TransitionEdge} {u : TransitionEdge}

omit h in
theorem remapIncoming_of_mem
    (hsource : t.source ∈ subStates regions) : remapIncoming parent.name regions t = t := by
  unfold remapIncoming
  exact if_pos hsource

/-- What becomes of a transition. -/
def remap (parentName : String) (regions : List RegionInfo) (t : TransitionEdge) :
    TransitionEdge × List TransitionEdge :=
  remapOutgoing parentName regions (remapIncoming parentName regions t)

theorem remap_outside (ht : t ∈ ir.transitions) (hsource : t.source ∉ subStates (regionsOf ir parent)) :
    (remap parent.name (regionsOf ir parent) t).1.source = t.source ∧
      (remap parent.name (regionsOf ir parent) t).2 = [] := by
  obtain ⟨hends, hids⟩ := remapIncoming_ends parent.name (regionsOf ir parent) t
  have hjoin : ((remapIncoming parent.name (regionsOf ir parent) t).sourceIds.any fun sid =>
      sid ∈ subStates (regionsOf ir parent)) = false := by
    rw [hids, List.any_eq_false]
    intro sid hsid
    simpa using (h.joins t ht).2 sid hsid
  unfold remap remapOutgoing
  dsimp only
  split
  · exact ⟨hends, rfl⟩
  · split
    · rw [hjoin]
      exact ⟨hends, rfl⟩
    · rw [if_neg (by rwa [hends])]
      exact ⟨hends, rfl⟩

omit h in
theorem remap_inner
    (hsource : t.source ∈ subStates regions) (hinner : leaves parent.name regions t = false) :
    remap parent.name regions t = (t, []) := by
  unfold remap
  rw [remapIncoming_of_mem hsource]
  unfold remapOutgoing
  apply if_pos
  unfold leaves at hinner
  by_cases htarget : t.target ∈ subStates regions
  · exact Or.inl htarget
  · simpa [htarget] using hinner

theorem remap_exit (ht : t ∈ ir.transitions) (hsource : t.source ∈ subStates (regionsOf ir parent))
    (hleaves : leaves parent.name (regionsOf ir parent) t = true) :
    remap parent.name (regionsOf ir parent) t =
      match allProducts parent.name (regionsOf ir parent) t.source with
      | [] => (t, [])
      | first :: rest =>
        ({ t with source := first }, rest.map fun p => { t with source := p }) := by
  have hids := (h.joins t ht).1 hsource
  unfold leaves at hleaves
  simp only [Bool.and_eq_true, Bool.not_eq_true', decide_eq_false_iff_not, decide_eq_true_eq] at hleaves
  unfold remap
  rw [remapIncoming_of_mem hsource]
  unfold remapOutgoing
  dsimp only
  rw [if_neg (not_or.mpr hleaves), hids, if_pos hsource]
  rfl

variable {tup : List String} (htup : tup ∈ productTuples (regionsOf ir parent)) (event : String)
include htup

theorem remap_first (ht : t ∈ ir.transitions) : let u := (remap parent.name (regionsOf ir parent) t).1
    (tried (tupleToName parent.name tup) event u &&
        !decide (u.source ∈ subStates (regionsOf ir parent))) =
      (triedIn tup event t && leaves parent.name (regionsOf ir parent) t &&
        isFirst parent.name (regionsOf ir parent) tup t.source) := by
  have hfresh := h.fresh _ (List.mem_map_of_mem htup)
  have hmem := (keep_nodup h htup).2
  by_cases hsource : t.source ∈ subStates (regionsOf ir parent)
  · by_cases hleaves : leaves parent.name (regionsOf ir parent) t = true
    · have hproducts := mem_allProducts h htup t.source
      rw [remap_exit h ht hsource hleaves]
      unfold triedIn isFirst
      cases hall : allProducts parent.name (regionsOf ir parent) t.source with
      | nil =>
        rw [hall] at hproducts
        simp [hsource]
      | cons first rest =>
        rw [hall] at hproducts
        by_cases hfirst : first = tupleToName parent.name tup
        · have hin : t.source ∈ tup := by
            rw [← hproducts, hfirst]
            exact List.mem_cons_self
          simp [tried, hfirst, hin, hleaves, hfresh.1]
        · simp [tried, hfirst]
    · have hinner := Bool.not_eq_true _ ▸ hleaves
      rw [remap_inner hsource hinner, hinner]
      simp [hsource]
  · obtain ⟨hends, -⟩ := remap_outside h ht hsource
    have hne : t.source ≠ tupleToName parent.name tup := fun heq =>
      hfresh.2.2 (heq ▸ List.mem_map_of_mem ht)
    have hnot : t.source ∉ tup := fun hin => hsource (hmem _ hin)
    simp [tried, triedIn, hends, hne, hnot]

theorem remap_first_eq (ht : t ∈ ir.transitions) (hin : t.source ∈ tup)
    (hleaves : leaves parent.name (regionsOf ir parent) t = true)
    (hfirst : isFirst parent.name (regionsOf ir parent) tup t.source = true) :
    (remap parent.name (regionsOf ir parent) t).1 =
      { t with source := tupleToName parent.name tup } := by
  rw [remap_exit h ht ((keep_nodup h htup).2 _ hin) hleaves]
  unfold isFirst at hfirst
  cases hall : allProducts parent.name (regionsOf ir parent) t.source with
  | nil => simp [hall] at hfirst
  | cons first rest =>
    rw [hall] at hfirst
    obtain rfl : first = tupleToName parent.name tup := by simpa using hfirst
    rfl

theorem remap_rest (ht : t ∈ ir.transitions) : (remap parent.name (regionsOf ir parent) t).2.filter
        (tried (tupleToName parent.name tup) event) =
      if triedIn tup event t && leaves parent.name (regionsOf ir parent) t &&
          !isFirst parent.name (regionsOf ir parent) tup t.source then
        [{ t with source := tupleToName parent.name tup }]
      else [] := by
  have hmem := (keep_nodup h htup).2
  by_cases hsource : t.source ∈ subStates (regionsOf ir parent)
  · by_cases hleaves : leaves parent.name (regionsOf ir parent) t = true
    · have hproducts := mem_allProducts h htup t.source
      have hnodup := allProducts_nodup h t.source
      rw [remap_exit h ht hsource hleaves]
      unfold triedIn isFirst
      cases hall : allProducts parent.name (regionsOf ir parent) t.source with
      | nil =>
        rw [hall] at hproducts
        have hnot : t.source ∉ tup := fun hin => List.not_mem_nil (hproducts.mpr hin)
        simp [hnot]
      | cons first rest =>
        rw [hall] at hproducts hnodup
        obtain ⟨hfirst, hrest⟩ := List.nodup_cons.mp hnodup
        have hfilter : (rest.map fun p => { t with source := p }).filter
              (tried (tupleToName parent.name tup) event) =
            if tupleToName parent.name tup ∈ rest ∧ t.event = event then
              [{ t with source := tupleToName parent.name tup }]
            else [] := by
          rw [List.filter_map]
          by_cases hevent : t.event = event
          · have hpred : (tried (tupleToName parent.name tup) event ∘ fun p =>
                { t with source := p }) = fun p => decide (p = tupleToName parent.name tup) := by
              funext p
              simp [tried, hevent]
            rw [hpred, List.filter_eq]
            by_cases hin : tupleToName parent.name tup ∈ rest
            · rw [List.count_eq_one_of_mem hrest hin]
              simp [hin, hevent]
            · rw [List.count_eq_zero_of_not_mem hin]
              simp [hin]
          · have hpred : (tried (tupleToName parent.name tup) event ∘ fun p =>
                { t with source := p }) = fun _ => false := by
              funext p
              simp [tried, hevent]
            rw [hpred]
            simp [hevent]
        show (rest.map _).filter _ = _
        rw [hfilter]
        by_cases hhead : first = tupleToName parent.name tup
        · rw [← hhead]
          simp [hfirst]
        · have hin : tupleToName parent.name tup ∈ rest ↔ t.source ∈ tup := by
            rw [← hproducts, List.mem_cons]
            exact ⟨Or.inr, fun hor => hor.resolve_left (Ne.symm hhead)⟩
          by_cases hevent : t.event = event <;> simp [hin, hhead, hleaves, hevent]
    · have hinner := Bool.not_eq_true _ ▸ hleaves
      rw [remap_inner hsource hinner, hinner]
      simp
  · obtain ⟨-, hrest⟩ := remap_outside h ht hsource
    have hnot : t.source ∉ tup := fun hin => hsource (hmem _ hin)
    rw [hrest]
    simp [triedIn, hnot]

omit h htup in
theorem productEdge_ends
    (hu : productEdge parent.name intra tup event = some u) :
    u.source = tupleToName parent.name tup ∧ u.event = event := by
  unfold productEdge at hu
  dsimp only at hu
  split at hu
  · simp at hu
  · obtain rfl := Option.some.inj hu
    exact ⟨rfl, rfl⟩

omit h htup in
theorem mem_regionEvents (hevent : event ≠ "")
    (hu : productEdge parent.name intra tup event = some u) : event ∈ regionEvents intra := by
  unfold productEdge at hu
  dsimp only at hu
  split at hu
  · simp at hu
  · next hmoves =>
      cases hall : tup.filterMap (leading intra event) with
      | nil =>
        rw [hall] at hmoves
        exact absurd rfl hmoves
      | cons t rest =>
        have ht : t ∈ tup.filterMap (leading intra event) := by simp [hall]
        obtain ⟨s, -, hlead⟩ := List.mem_filterMap.mp ht
        unfold leading at hlead
        have htried := List.find?_some hlead
        simp only [tried, Bool.and_eq_true, decide_eq_true_eq] at htried
        refine mem_keysOf.mpr ⟨event, List.mem_filter.mpr ⟨?_, decide_eq_true hevent⟩, rfl⟩
        rw [← htried.2]
        exact List.mem_map_of_mem (List.mem_of_find?_eq_some hlead)

theorem productEdges_tried (intra : List TransitionEdge) :
    (productEdges parent.name (regionsOf ir parent) intra).filter
        (tried (tupleToName parent.name tup) event) =
      if event = "" then [] else (productEdge parent.name intra tup event).toList := by
  have htuples : (productTuples (regionsOf ir parent)).Nodup := List.Nodup.of_map _ h.products
  unfold productEdges
  rw [List.filter_flatMap, flatMap_eq_of_nodup htuples htup]
  · rw [List.filterMap_eq_flatMap_toList, List.filter_flatMap]
    have hother : ∀ e, e ≠ event → (productEdge parent.name intra tup e).toList.filter
        (tried (tupleToName parent.name tup) event) = [] := by
      intro e he
      rw [List.filter_eq_nil_iff]
      intro u hu htried
      simp only [tried, Bool.and_eq_true, decide_eq_true_eq] at htried
      exact he ((productEdge_ends e (Option.mem_toList.mp hu)).2.symm.trans htried.2)
    by_cases hin : event ∈ regionEvents intra
    · have hevent : event ≠ "" := by
        obtain ⟨e, he, rfl⟩ := mem_keysOf.mp hin
        exact of_decide_eq_true (List.mem_filter.mp he).2
      have hevents : (regionEvents intra).Nodup := keysOf_nodup
      rw [if_neg hevent, flatMap_eq_of_nodup hevents hin fun e _ he => hother e he,
        List.filter_eq_self]
      intro u hu
      obtain ⟨hsource, heq⟩ := productEdge_ends event (Option.mem_toList.mp hu)
      simp [tried, hsource, heq]
    · have hnil : (regionEvents intra).flatMap (fun e =>
          (productEdge parent.name intra tup e).toList.filter
            (tried (tupleToName parent.name tup) event)) = [] := by
        rw [List.flatMap_eq_nil_iff]
        intro e he
        apply hother
        rintro rfl
        exact hin he
      rw [hnil]
      split
      · rfl
      · next hevent =>
          cases hedge : productEdge parent.name intra tup event with
          | none => rfl
          | some u => exact absurd (mem_regionEvents event hevent hedge) hin
  · intro tup' htup' hne
    rw [List.filter_eq_nil_iff]
    intro u hu htried
    obtain ⟨e, -, hedge⟩ := List.mem_filterMap.mp hu
    simp only [tried, Bool.and_eq_true, decide_eq_true_eq] at htried
    have hname := (productEdge_ends e hedge).1.symm.trans htried.1
    exact hne (List.inj_on_of_nodup_map h.products htup' htup hname)

/-- **The rows of a product state**: the transitions out of the composite that belong to it, the product
transition, and the copies of transitions out of the composite. -/
theorem flatTransitions_tried : (flatTransitions ir parent.name (regionsOf ir parent)).filter
        (tried (tupleToName parent.name tup) event) =
      (exitsOf ir parent tup event true).map (atProduct parent tup) ++
        synthesized ir parent tup event ++
        (exitsOf ir parent tup event false).map (atProduct parent tup) := by
  unfold flatTransitions
  dsimp only
  rw [List.filter_append, List.filter_append, productEdges_tried h htup]
  congr 1
  · congr 1
    rw [List.filter_filter, List.map_map, List.filter_map]
    refine (congrArg (List.map fun t => (remap parent.name (regionsOf ir parent) t).1)
      (List.filter_congr fun t ht => remap_first h htup event ht)).trans ?_
    unfold exitsOf
    simp only [Bool.decide_eq_true]
    apply List.map_congr_left
    intro t ht
    obtain ⟨hmem, hkept⟩ := List.mem_filter.mp ht
    simp only [Bool.and_eq_true, triedIn, decide_eq_true_eq] at hkept
    exact remap_first_eq h htup hmem hkept.1.1.1 hkept.1.2 hkept.2
  · unfold exitsOf
    simp only [Bool.decide_eq_false]
    rw [List.flatMap_map, List.filter_flatMap, ← flatMap_ite_singleton]
    exact List.flatMap_congr fun t ht => remap_rest h htup event ht

omit h htup in
theorem exitsOf_source {s : String} (hs : s ∈ tup) (first : Bool) :
    (exitsOf ir parent tup event first).filter (fun t => t.source = s) =
      if isFirst parent.name (regionsOf ir parent) tup s = first then
        ir.transitions.filter fun t =>
          tried s event t && leaves parent.name (regionsOf ir parent) t
      else [] := by
  unfold exitsOf
  rw [List.filter_filter]
  split
  · next hfirst =>
      apply List.filter_congr
      intro t _
      by_cases hsource : t.source = s
      · rw [hsource, hfirst]
        simp [triedIn, tried, hsource, hs]
      · simp [tried, hsource]
  · next hfirst =>
      rw [List.filter_eq_nil_iff]
      intro t _
      by_cases hsource : t.source = s
      · rw [hsource]
        simp [hfirst]
      · simp [hsource]

end Flat

/-! ## The states of the flat machine -/

/-- The states that are left and the product states. -/
def flatStates (ir : FsmIr) (parent : StateNode) : List StateNode :=
  keptStates ir parent (subStates (regionsOf ir parent)) ++
    (productTuples (regionsOf ir parent)).map (productNode ir parent.name)

theorem foldl_addState {nodes states : List StateNode} (hnodup : (nodes.map (·.name)).Nodup)
    (hnew : ∀ node ∈ nodes, ∀ s ∈ states, s.name ≠ node.name) :
    nodes.foldl addState states = states ++ nodes := by
  induction nodes generalizing states with
  | nil => simp
  | cons node nodes ih =>
    have hnone : (states.any fun s => s.name = node.name) = false := by
      rw [List.any_eq_false]
      exact fun s hs heq => hnew node List.mem_cons_self s hs (of_decide_eq_true heq)
    have hadd : addState states node = states ++ [node] := by
      unfold addState
      rw [hnone]
      rfl
    rw [List.map_cons, List.nodup_cons] at hnodup
    rw [List.foldl_cons, hadd, ih hnodup.2, List.append_assoc]
    · rfl
    · intro node' hnode' s hs heq
      rcases List.mem_append.mp hs with hs | hs
      · exact hnew node' (List.mem_cons_of_mem _ hnode') s hs heq
      · rw [List.mem_singleton.mp hs] at heq
        exact hnodup.1 (heq ▸ List.mem_map_of_mem hnode')

section FlatStates

variable {n : ℕ} {ir : FsmIr} {parent : StateNode} (h : Separate n ir parent)
include h

theorem flatStates_nodup : ((flatStates ir parent).map (·.name)).Nodup := by
  unfold flatStates
  rw [List.map_append, List.map_map, List.nodup_append]
  have hsub : (keptStates ir parent (subStates (regionsOf ir parent))).Sublist ir.states :=
    List.filter_sublist
  refine ⟨(hsub.map _).nodup h.names, h.products, ?_⟩
  rintro _ hkept _ hproduct rfl
  exact (h.fresh _ hproduct).2.1 ((hsub.map _).subset hkept)

theorem expandParallelState_spec : (expandParallelState n ir parent).1.transitions =
        flatTransitions ir parent.name (regionsOf ir parent) ∧
      List.Forall₂ SameState (flatStates ir parent) (expandParallelState n ir parent).1.states := by
  have hgo : ¬((regionsOf ir parent).length < 2 ∨ !withinBound n (regionsOf ir parent) 1) := by
    have hregions := h.regions
    rw [h.bound]
    rintro (hlt | hbound)
    · omega
    · exact Bool.noConfusion hbound
  unfold expandParallelState
  dsimp only
  have hnames := flatStates_nodup h
  unfold flatStates at hnames
  rw [List.map_append, List.nodup_append] at hnames
  have hnew : ∀ node ∈ (productTuples (regionsOf ir parent)).map (productNode ir parent.name),
      ∀ s ∈ keptStates ir parent (subStates (regionsOf ir parent)), s.name ≠ node.name := fun node hnode s hs =>
    hnames.2.2 _ (List.mem_map_of_mem hs) _ (List.mem_map_of_mem hnode)
  rw [if_neg hgo, foldl_addState hnames.2.1 hnew]
  split
  · exact ⟨rfl, forall₂_sameState_refl _⟩
  · refine ⟨rfl, ?_⟩
    let expanded : FsmIr :=
      { ir with
        transitions := flatTransitions ir parent.name (regionsOf ir parent)
        states := flatStates ir parent }
    show SameStates expanded (expanded.modifyState parent.name _)
    apply sameStates_modifyState
    exact fun s => ⟨rfl, rfl, rfl⟩

theorem findState_flatten (name : String) : Option.Rel SameState ((flatStates ir parent).find? fun s => s.name = name)
      ((flatten n ir parent).findState name) := by
  have hnormal : List.Forall₂ SameState (flatStates ir parent)
      (normalizeHierarchy (expandParallelState n ir parent).1).states :=
    sameState_trans (expandParallelState_spec h).2 (sameStates_normalizeHierarchy _)
  have hnames : (normalizeHierarchy (expandParallelState n ir parent).1).states.map (·.name) =
      (flatStates ir parent).map (·.name) := by
    rw [← List.forall₂_eq_eq_eq, List.forall₂_map_left_iff, List.forall₂_map_right_iff]
    exact hnormal.flip.imp fun s s' hsame => hsame.name
  have hperm : (flatten n ir parent).states.Perm
      (normalizeHierarchy (expandParallelState n ir parent).1).states := List.mergeSort_perm _ _
  have hfind := find?_name_of_perm hperm (by
    rw [hnames]
    exact flatStates_nodup h) name
  show Option.Rel SameState _ ((flatten n ir parent).states.find? _)
  rw [hfind]
  apply forall₂_find? _ hnormal
  intro s s' hsame
  rw [hsame.name]

theorem chosen_flatten (source event : String) (g : GuardValuation) : chosen (flatten n ir parent) source event g =
      ((((flatTransitions ir parent.name (regionsOf ir parent)).filter (tried source event)).filter
        fun t => guardPassed g (some t.getGuard)).argmin fun t => precedence t.priority).map
          syncGuard := by
  unfold flatten
  rw [chosen_canonicalize]
  unfold chosen
  rw [normalizeHierarchy_transitions, (expandParallelState_spec h).1, List.filter_filter]
  congr 2
  apply List.filter_congr
  intro t _
  exact Bool.and_comm _ _

end FlatStates

end Fsmc.Passes.OrthogonalProduct
