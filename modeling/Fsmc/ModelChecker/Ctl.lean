/-
# Fsmc.ModelChecker.Ctl — labelling states with CTL formulas.

`computeSat` computes, bottom up, the set of states that satisfy a formula. Its universe `allStates` has
every state of the model and every end of a transition, explored or not. The five operators with a loop
are `leastLoop` for `EF`, `AF`, `EU` and `AU`, and `greatestLoop` for `EG`; `AG` is computed as the
complement of an `EF`.
-/
import Fsmc.Lib.Fixpoint
import Fsmc.ModelChecker.Trace

namespace Fsmc

open Fsmc.Lib Fsmc.Cpp Fsmc.Ir

namespace ModelChecker

variable (mc : ModelChecker)

/-- `all_states`: what every call of `compute_sat` starts from. -/
def allStates : List String :=
  let ends := mc.ir.transitions.flatMap fun t => [t.source, t.target].filter (· ≠ "")
  let root := [mc.rootState].filter (· ≠ "")
  (mc.ir.states.map (·.name) ++ ends ++ root).dedup

/-- `pre_exists`: the states with an edge into `targets`. -/
def preExists (targets : List String) : List String :=
  ((mc.order.iter mc.adj).filter fun (_, edges) => edges.any fun e => e.target ∈ targets).map Prod.fst

/-- `pre_all`: the states with edges, all of them into `targets`. -/
def preAll (targets : List String) : List String :=
  ((mc.order.iter mc.adj).filter fun (_, edges) =>
    -- a state without edges is no universal predecessor of anything
    !edges.isEmpty && edges.all fun e => e.target ∈ targets).map Prod.fst

variable {s : String} {targets : List String} (sat : List String)

theorem mem_preExists :
    s ∈ mc.preExists targets ↔ ∃ t, mc.Step s t ∧ t ∈ targets := by
  have hany : ∀ edges : List GraphEdge, (edges.any fun e => decide (e.target ∈ targets)) = true ↔
      ∃ e ∈ edges, e.target ∈ targets := by simp
  simp only [preExists, List.mem_map, List.mem_filter, HashOrder.mem_iter]
  constructor
  · rintro ⟨⟨src, edges⟩, ⟨hmem, hedges⟩, rfl⟩
    obtain ⟨e, he, htarget⟩ := (hany edges).mp hedges
    have heq := (mem_adj_iff (List.ne_nil_of_mem he)).mp hmem
    exact ⟨e.target, ⟨e, heq ▸ he, rfl⟩, htarget⟩
  · rintro ⟨_, ⟨e, he, rfl⟩, htarget⟩
    exact ⟨(s, mc.edgesFrom s), ⟨(mem_adj_iff (List.ne_nil_of_mem he)).mpr rfl,
      (hany _).mpr ⟨e, he, htarget⟩⟩, rfl⟩

theorem mem_preAll :
    s ∈ mc.preAll targets ↔ (∃ t, mc.Step s t) ∧ ∀ t, mc.Step s t → t ∈ targets := by
  simp only [preAll, List.mem_map, List.mem_filter, HashOrder.mem_iter, Bool.and_eq_true,
    Bool.not_eq_true', List.isEmpty_eq_false_iff, List.all_eq_true, decide_eq_true_eq]
  constructor
  · rintro ⟨⟨src, edges⟩, ⟨hmem, hne, hall⟩, rfl⟩
    have heq := (mem_adj_iff hne).mp hmem
    obtain ⟨e, he⟩ := List.exists_mem_of_ne_nil _ hne
    refine ⟨⟨e.target, e, heq ▸ he, rfl⟩, ?_⟩
    rintro t ⟨e', he', rfl⟩
    exact hall e' (heq ▸ he')
  · rintro ⟨⟨t, e, he, rfl⟩, hall⟩
    have hne := List.ne_nil_of_mem he
    exact ⟨(s, mc.edgesFrom s), ⟨(mem_adj_iff hne).mpr rfl, hne,
      fun e' he' => hall e'.target ⟨e', he', rfl⟩⟩, rfl⟩

theorem mem_allStates : s ∈ mc.allStates ↔ (∃ st ∈ mc.ir.states, st.name = s) ∨
      (s ≠ "" ∧ ((∃ t ∈ mc.ir.transitions, t.source = s ∨ t.target = s) ∨ s = mc.rootState)) := by
  simp only [allStates, List.mem_dedup, List.mem_append, List.mem_map, List.mem_flatMap,
    List.mem_filter, List.mem_cons, List.not_mem_nil, or_false, decide_eq_true_eq]
  constructor
  · rintro ((h | ⟨t, ht, hs | hs, hne⟩) | ⟨hs, hne⟩)
    · exact Or.inl h
    · exact Or.inr ⟨hne, Or.inl ⟨t, ht, Or.inl hs.symm⟩⟩
    · exact Or.inr ⟨hne, Or.inl ⟨t, ht, Or.inr hs.symm⟩⟩
    · exact Or.inr ⟨hne, Or.inr hs⟩
  · rintro (h | ⟨hne, ⟨t, ht, hs | hs⟩ | hs⟩)
    · exact Or.inl (Or.inl h)
    · exact Or.inl (Or.inr ⟨t, ht, Or.inl hs.symm, hne⟩)
    · exact Or.inl (Or.inr ⟨t, ht, Or.inr hs.symm, hne⟩)
    · exact Or.inr ⟨hs, hne⟩

theorem step_allStates {a b : String} (h : mc.Step a b) : a ∈ mc.allStates ∧ b ∈ mc.allStates := by
  obtain ⟨t, ht, ⟨hsrc, hdst⟩, rfl, rfl⟩ := step_iff.mp h
  exact ⟨mc.mem_allStates.mpr (Or.inr ⟨hsrc, Or.inl ⟨t, ht, Or.inl rfl⟩⟩),
    mc.mem_allStates.mpr (Or.inr ⟨hdst, Or.inl ⟨t, ht, Or.inr rfl⟩⟩)⟩

theorem preExists_allStates : ∀ s ∈ mc.preExists sat, s ∈ mc.allStates := by
  intro s hs
  obtain ⟨t, hst, _⟩ := mc.mem_preExists.mp hs
  exact (mc.step_allStates hst).1

theorem preAll_allStates : ∀ s ∈ mc.preAll sat, s ∈ mc.allStates := by
  intro s hs
  obtain ⟨⟨t, hst⟩, _⟩ := mc.mem_preAll.mp hs
  exact (mc.step_allStates hst).1

/-! ## The loops -/

/-- The loop of `EF`, `AF`, `EU` and `AU`: predecessors that pass `guard` are added to `sat` until a
pass adds none. It is `none` when `n` passes are not enough. -/
def leastLoopWithin (pre : List String → List String) (guard : String → Bool) (n : Nat)
    (sat : List String) : Option (List String) :=
  grow (fun _ s => guard s) (fun sat => mc.order.iter (pre sat)) n sat

/-- The loop of `EG`: states that are no predecessor of `sat` are dropped from it until a pass drops
none. -/
def greatestLoopWithin (n : Nat) (sat : List String) : Option (List String) :=
  shrink mc.order.iter mc.preExists n sat

variable {mc} in
theorem leastLoopWithin_isSome {pre : List String → List String}
    (hpre : ∀ sat, ∀ s ∈ pre sat, s ∈ mc.allStates) (guard : String → Bool) (sat : List String) :
    (mc.leastLoopWithin pre guard (mc.allStates.length + 1) sat).isSome = true :=
  grow_isSome (fun sat' s hs => hpre sat' s (mc.order.mem_iter.mp hs)) (Nat.lt_succ_self _) sat

theorem greatestLoopWithin_isSome : (mc.greatestLoopWithin (sat.length + 1) sat).isSome = true :=
  shrink_isSome (fun _ => mc.order.length_iter) (fun _ _ => mc.order.mem_iter) (Nat.lt_succ_self _)

/-- The loop of `EF`, `AF`, `EU` and `AU`, run to its end. -/
def leastLoop (pre : List String → List String) (hpre : ∀ sat, ∀ s ∈ pre sat, s ∈ mc.allStates)
    (guard : String → Bool) (sat : List String) : List String :=
  (mc.leastLoopWithin pre guard (mc.allStates.length + 1) sat).get
    (leastLoopWithin_isSome hpre guard sat)

/-- The loop of `EG`, run to its end. -/
def greatestLoop (sat : List String) : List String :=
  (mc.greatestLoopWithin (sat.length + 1) sat).get (mc.greatestLoopWithin_isSome sat)

def satEF (p : List String) : List String :=
  mc.leastLoop mc.preExists mc.preExists_allStates (fun _ => true) p

def satAF (p : List String) : List String :=
  mc.leastLoop mc.preAll mc.preAll_allStates (fun _ => true) p

def satEU (p q : List String) : List String :=
  mc.leastLoop mc.preExists mc.preExists_allStates (fun s => s ∈ p) q

def satAU (p q : List String) : List String :=
  mc.leastLoop mc.preAll mc.preAll_allStates (fun s => s ∈ p) q

/-- The states of the universe that pass a test. -/
def statesWhere (test : String → Bool) : List String := (mc.order.iter mc.allStates).filter test

/-! ## Labelling -/

mutual

def computeSat : PropertyAstNode → List String
  | .mk op atom children =>
    match op, computeSats children with
    | .atom, _ => mc.statesWhere fun s => mc.evalPredicate s (.mk op atom children)
    | .not, [] => []
    | .not, child :: _ => mc.statesWhere fun s => s ∉ child
    | .and, [] => mc.allStates
    | .and, sat :: rest => rest.foldl (fun sat sub => (mc.order.iter sat).filter (· ∈ sub)) sat
    | .or, sats => sats.foldl (fun sat sub => mc.order.iter sub ∪ sat) []
    | .implies, left :: right :: _ => mc.statesWhere fun s => s ∉ left || s ∈ right
    | .implies, _ => mc.allStates
    | .equivalent, left :: right :: _ =>
      mc.statesWhere fun s => decide (s ∈ left) == decide (s ∈ right)
    | .equivalent, _ => mc.allStates
    -- from here on a missing operand gives the empty set, except under `AG`
    | .ex, target :: _ => mc.preExists target
    | .ax, target :: _ => mc.preAll target
    | .ef, p :: _ => mc.satEF p
    | .eg, p :: _ => mc.greatestLoop p
    | .ag, [] => mc.allStates
    | .ag, p :: _ =>
      -- `EF (Not p)`, as the source builds it
      let efSat := mc.satEF (mc.statesWhere fun s => s ∉ p)
      mc.statesWhere fun s => s ∉ efSat
    | .af, p :: _ => mc.satAF p
    | .eu, p :: q :: _ => mc.satEU p q
    | .au, p :: q :: _ => mc.satAU p q
    | _, _ => []

/-- The labellings of several formulas. -/
def computeSats : List PropertyAstNode → List (List String)
  | [] => []
  | node :: nodes => computeSat node :: computeSats nodes

end

/-- The trace that `check_ctl` shows for a violated formula. -/
def ctlTrace (node : PropertyAstNode) : List CounterexampleStep :=
  match node.op, node.children with
  | .ag, p :: _ =>
    match (mc.order.iter mc.reachableStates).find? fun s => s ∉ mc.computeSat p with
    | some s =>
      mc.reconstructTrace s ("State '" ++ s ++ "' violates invariant '" ++ p.toString ++ "'")
    | none => []
  | .ax, p :: _ =>
    match (mc.edgesFrom mc.rootState).find? fun e => e.target ∉ mc.computeSat p with
    | some e =>
      [⟨0, mc.rootState, e.event, e.guard, "Initial state"⟩,
        ⟨1, e.target, "", "", "Successor state violates '" ++ p.toString ++ "'"⟩]
    | none => []
  | _, _ => [⟨0, mc.rootState, "", "", "Initial state does not satisfy property"⟩]

def checkCtl (prop : FormalProperty) (node : PropertyAstNode) : ModelCheckResult :=
  let sat := mc.computeSat node
  if mc.rootState = "" then .pass prop
  else if mc.rootState ∈ sat then .pass prop
  else
    .fail prop
      ("CTL specification '" ++ prop.rawFormula ++ "' does not hold at initial state '" ++
        mc.rootState ++ "'.")
      (mc.ctlTrace node)

/-! ## What the loops compute -/

section Loops

variable {mc} {p q : List String}

theorem leastLoop_isUntil {pre : List String → List String}
    (hpre : ∀ sat, ∀ s ∈ pre sat, s ∈ mc.allStates) {preSet : Set String → Set String}
    (hmono : ∀ {Y Z : Set String}, Y ⊆ Z → preSet Y ⊆ preSet Z)
    (hset : ∀ sat s, s ∈ pre sat ↔ s ∈ preSet {x | x ∈ sat}) {guard : String → Bool}
    {p : Set String} (hp : ∀ s, guard s = true ↔ s ∈ p) (sat : List String) :
    IsUntil preSet p {s | s ∈ sat} {s | s ∈ mc.leastLoop pre hpre guard sat} := by
  refine grow_isUntil ?_ ?_ (Option.some_get (leastLoopWithin_isSome hpre guard sat)).symm
  · intro sat' _ Z hsat' _ s hs hguard
    exact ⟨(hp s).mp hguard, hmono hsat' ((hset sat' s).mp (mc.order.mem_iter.mp hs))⟩
  · rintro sat' s ⟨hguard, hs⟩
    exact ⟨mc.order.mem_iter.mpr ((hset sat' s).mpr hs), (hp s).mpr hguard⟩

theorem satEF_isUntil : IsUntil (preE mc.Step) Set.univ {s | s ∈ p} {s | s ∈ mc.satEF p} :=
  leastLoop_isUntil mc.preExists_allStates preE_mono (fun _ _ => mc.mem_preExists)
    (fun _ => ⟨fun _ => trivial, fun _ => rfl⟩) p

theorem satAF_isUntil : IsUntil (preA mc.Step) Set.univ {s | s ∈ p} {s | s ∈ mc.satAF p} :=
  leastLoop_isUntil mc.preAll_allStates preA_mono (fun _ _ => mc.mem_preAll)
    (fun _ => ⟨fun _ => trivial, fun _ => rfl⟩) p

theorem satEU_isUntil : IsUntil (preE mc.Step) {s | s ∈ p} {s | s ∈ q} {s | s ∈ mc.satEU p q} :=
  leastLoop_isUntil mc.preExists_allStates preE_mono (fun _ _ => mc.mem_preExists)
    (fun _ => decide_eq_true_iff) q

theorem satAU_isUntil : IsUntil (preA mc.Step) {s | s ∈ p} {s | s ∈ q} {s | s ∈ mc.satAU p q} :=
  leastLoop_isUntil mc.preAll_allStates preA_mono (fun _ _ => mc.mem_preAll)
    (fun _ => decide_eq_true_iff) q

theorem greatestLoop_isGlobally : IsGlobally (preE mc.Step) {s | s ∈ p} {s | s ∈ mc.greatestLoop p} :=
  shrink_isGlobally (fun _ _ => mc.order.mem_iter) preE_mono (fun _ _ => mc.mem_preExists)
    (Option.some_get (mc.greatestLoopWithin_isSome p)).symm

end Loops

end ModelChecker

end Fsmc
