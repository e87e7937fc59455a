/-
# Fsmc.Passes.JunctionChaining — replacing junctions by one transition for each path through them.

A path starts at a state, goes from junction to junction and ends at a state. Its guards are conjoined,
but `else` and an absent guard are left out, so that the place of an `else` branch decides what it
shadows. The new transitions go to the end of the table, behind all others of their source, and carry
assignments but no instructions.
-/
import Fsmc.Lib.Worklist
import Fsmc.Passes.ChoiceInlining
import Mathlib.Data.List.Find

namespace Fsmc.Passes.JunctionChaining

open Fsmc.Ir Fsmc.Lib Fsmc.Runtime Fsmc.Passes.ChoiceInlining Relation

/-! ## The pass -/

def combineTwoGuards (g₁ g₂ : String) : String :=
  if g₁ = "" then g₂ else if g₂ = "" then g₁ else andGuard g₁ g₂

def junctionNames (ir : FsmIr) : List String :=
  (ir.states.filter fun s => s.kind = .junction).map (·.name)

/-- `outgoing_map`. -/
def branchesOf (ir : FsmIr) (name : String) : List TransitionEdge :=
  ir.transitions.filter fun t => t.source = name

def junctionAdj (ir : FsmIr) (name : String) : List String :=
  (ir.transitions.filter fun t =>
    t.source = name && name ∈ junctionNames ir && t.target ∈ junctionNames ir).map (·.target)

theorem junctionAdj_mem (ir : FsmIr) (a : String) : ∀ b ∈ junctionAdj ir a, id b ∈ junctionNames ir := by
  intro b hb
  obtain ⟨t, ht, rfl⟩ := List.mem_map.mp hb
  have h := (List.mem_filter.mp ht).2
  simp only [Bool.and_eq_true, decide_eq_true_eq] at h
  exact h.2

/-- `has_cycle`: some junction can be reached from one of its successors. -/
def hasCycle (ir : FsmIr) : Bool :=
  (junctionNames ir).any fun j => (junctionAdj ir j).any fun k =>
    j ∈ (searchFrom (junctionAdj_mem ir) (fun _ => false) k).2.seen

/-- The paths from a transition through the junctions, in the order of the search; `fuel` bounds the
number of junctions on a path. -/
def pathsFrom (ir : FsmIr) : Nat → TransitionEdge → List (List TransitionEdge)
  | fuel, t =>
    if t.target ∉ junctionNames ir then [[t]]
    else
      match fuel with
      | 0 => []
      | n + 1 => (branchesOf ir t.target).flatMap fun b => (pathsFrom ir n b).map (t :: ·)

/-- The condition or transition action of a path, of which names and assignments are combined. -/
def combineSignature (fallback : String) (acts : List ActionSignature) : Option ActionSignature :=
  let names := (acts.map (·.name)).filter (· ≠ "")
  let assignments := acts.flatMap (·.assignments)
  if names = [] ∧ assignments = [] then none
  else
    let combined := String.intercalate "_" names
    some { ActionSignature.ofName (if combined = "" then fallback else combined) with
      assignments := assignments }

def combinedGuard (path : List TransitionEdge) : String :=
  path.foldl (fun g t => if isElse t.guard then g else combineTwoGuards g (t.guard.getD "")) ""

/-- The transition that takes a path, which starts with one edge and ends with another. -/
def chain (first last : TransitionEdge) (path : List TransitionEdge) : TransitionEdge :=
  let guard := combinedGuard path
  let triggered := path.find? fun t => t.event ≠ ""
  let event := (triggered.map (·.event)).getD ""
  { id := computeDeterministicId (first.source ++ "->" ++ last.target ++ ":" ++ event ++ "[" ++ guard ++ "]")
    source := first.source
    sourceId := first.sourceId
    sourceIds := first.sourceIds
    target := last.target
    targetId := last.targetId
    targetIds := last.targetIds
    targetIsHistory := last.targetIsHistory
    targetIsDeepHistory := last.targetIsDeepHistory
    kind := .external
    priority := if 0 < last.priority then last.priority else first.priority
    event := event
    trigger := (triggered.map (·.trigger)).getD .anonymous
    guard := if guard = "" then none else some guard
    guardAst := if guard = "" then none else some { expression := guard }
    conditionAction := combineSignature "ChainedCondAction" (path.filterMap (·.conditionAction))
    transitionAction := combineSignature "ChainedTransAction" (path.filterMap (·.transitionAction))
    clockResets := (path.flatMap (·.clockResets)).foldl pushNew [] }

/-- `composite`, for the path that starts with a transition. -/
def composite (t : TransitionEdge) (path : List TransitionEdge) : TransitionEdge :=
  chain t (path.getLastD t) path

/-- A transition that touches a junction. -/
def touches (ir : FsmIr) (t : TransitionEdge) : Bool :=
  t.source ∈ junctionNames ir || t.target ∈ junctionNames ir

/-- The transitions from a state into a junction. -/
def entering (ir : FsmIr) : List TransitionEdge :=
  ir.transitions.filter fun t => t.source ∉ junctionNames ir && t.target ∈ junctionNames ir

/-- `synthesized_transitions`, for one of these. -/
def synthesizedFrom (ir : FsmIr) (t : TransitionEdge) : List TransitionEdge :=
  (pathsFrom ir (junctionNames ir).length t).map (composite t)

/-- The transitions after the pass. -/
def chained (ir : FsmIr) : List TransitionEdge :=
  (ir.transitions.filter fun t => !touches ir t) ++ (entering ir).flatMap (synthesizedFrom ir)

/-- `ConnectiveJunctionChainingPass::run`; a cycle of junctions is an error. -/
def run (ir : FsmIr) : FsmIr :=
  if junctionNames ir = [] ∨ hasCycle ir = true then ir
  else
    { ir with
      transitions := chained ir
      states := ir.states.filter fun s => s.name ∉ junctionNames ir
      choiceNodes := ir.choiceNodes.filter fun c => c ∉ junctionNames ir }

/-! ## Following the edges -/

/-- The effects of a path, each kind in order; the name of an action only labels it. -/
structure Effects where
  conditionAssignments : List ActionAssignment
  conditionInstructions : List ActionAstNode
  assignments : List ActionAssignment
  instructions : List ActionAstNode
  clockResets : Finset String

/-- The effects of the transitions of a path, one after another. -/
def effectsAlong (path : List TransitionEdge) : Effects where
  conditionAssignments := (path.filterMap (·.conditionAction)).flatMap (·.assignments)
  conditionInstructions := (path.filterMap (·.conditionAction)).flatMap (·.instructions)
  assignments := (path.filterMap (·.transitionAction)).flatMap (·.assignments)
  instructions := (path.filterMap (·.transitionAction)).flatMap (·.instructions)
  clockResets := (path.flatMap (·.clockResets)).toFinset

/-- The path that is followed from a transition: at each junction the first true branch is taken, and an
`else` branch when no other is true. -/
inductive Follows (ir : FsmIr) (v : GuardValuation) : TransitionEdge → List TransitionEdge → Prop
  | last {t : TransitionEdge} : t.target ∉ junctionNames ir → Follows ir v t [t]
  | next {t b : TransitionEdge} {path : List TransitionEdge} : t.target ∈ junctionNames ir →
      firstTrueBranch v (branchesOf ir t.target) = some b → Follows ir v b path →
        Follows ir v t (t :: path)

/-- First-match selection after the pass takes the target and has the effects of the path that is
followed from the first transition that fires, and takes none if none fires. -/
structure PreservesJunctions (ir : FsmIr) (v : GuardValuation) (source event : String) : Prop where
  idle : firstMatch ir.transitions source event v = none →
    firstMatch (run ir).transitions source event v = none
  taken : ∀ t path, firstMatch ir.transitions source event v = some t → Follows ir v t path →
    ∃ t', firstMatch (run ir).transitions source event v = some t' ∧
      t'.target = (path.getLastD t).target ∧ effectsAlong [t'] = effectsAlong path

/-- A transition whose effects are all copied. -/
def lossless (t : TransitionEdge) : Bool :=
  t.conditionAction.all (·.instructions.isEmpty) && t.transitionAction.all (·.instructions.isEmpty)

/-- What is followed is what comes first, and nothing of it is lost: at every junction on the way no
`else` branch precedes the branch that is taken, and the transitions carry no instructions. -/
inductive Direct (ir : FsmIr) (v : GuardValuation) : TransitionEdge → Prop
  | last {t : TransitionEdge} : t.target ∉ junctionNames ir → lossless t = true → Direct ir v t
  | next {t b : TransitionEdge} : t.target ∈ junctionNames ir → lossless t = true →
      firstTrueBranch v (branchesOf ir t.target) = some b →
      (branchesOf ir t.target).find? (passes v) = some b → Direct ir v b → Direct ir v t

/-- The edges that leave a junction have no event, and `otherwise` guards no transition of the state. -/
structure WellGuarded (ir : FsmIr) (source : String) : Prop where
  events : ∀ b ∈ ir.transitions, b.source ∈ junctionNames ir → b.event = ""
  entries : ∀ t ∈ entering ir, t.source = source → t.guard ≠ some "otherwise"

/-- The choice does not depend on the order: where the first transition that fires enters a junction, no
transition to a state fires, and the path from it is direct. -/
structure Ordered (ir : FsmIr) (v : GuardValuation) (source event : String) : Prop where
  before : ∀ t, firstMatch ir.transitions source event v = some t → t.target ∈ junctionNames ir →
    ∀ u ∈ candidates ir.transitions source event v, u.target ∈ junctionNames ir
  direct : ∀ t path, firstMatch ir.transitions source event v = some t →
    t.target ∈ junctionNames ir → Follows ir v t path → Direct ir v t

/-! ## Cycles -/

variable {ir : FsmIr} {v : GuardValuation} {source event : String}

/-- A junction leads to another one. -/
def Adj (ir : FsmIr) (a b : String) : Prop := b ∈ junctionAdj ir a

theorem hasCycle_eq_false_iff : hasCycle ir = false ↔
    ∀ j ∈ junctionNames ir, ∀ k, Adj ir j k → ¬ ReflTransGen (Adj ir) k j := by
  have hstep : EdgeStep (junctionAdj ir) id = Adj ir := by
    funext a b
    apply propext
    exact ⟨fun ⟨e, he, heq⟩ => heq ▸ he, fun h => ⟨b, h, rfl⟩⟩
  have hseen : ∀ j k, j ∈ (searchFrom (junctionAdj_mem ir) (fun _ => false) k).2.seen ↔
      ReflTransGen (Adj ir) k j := by
    intro j k
    rw [← hstep]
    rcases searchFrom_spec (junctionAdj_mem ir) (fun _ => false) k with ⟨_, _, _, hstop⟩ | ⟨_, h, _⟩
    · exact absurd hstop (by simp)
    · exact h j
  unfold hasCycle
  simp only [List.any_eq_false, List.any_eq_true, decide_eq_true_eq, hseen, Adj, not_exists, not_and]

variable {t : TransitionEdge} {path : List TransitionEdge}

theorem mem_branchesOf {name : String} : t ∈ branchesOf ir name ↔ t ∈ ir.transitions ∧ t.source = name := by
  simp [branchesOf]

variable {b : TransitionEdge} {n : ℕ} (fallback : String)

theorem adj_of_branch {name : String} (hname : name ∈ junctionNames ir)
    (hb : b ∈ branchesOf ir name) (htarget : b.target ∈ junctionNames ir) : Adj ir name b.target := by
  obtain ⟨hmem, hsource⟩ := mem_branchesOf.mp hb
  exact List.mem_map.mpr ⟨b, List.mem_filter.mpr ⟨hmem, by simp [hsource, hname, htarget]⟩, rfl⟩

theorem firstTrueBranch_mem {bs : List TransitionEdge}
    (h : firstTrueBranch v bs = some b) : b ∈ bs := by
  unfold firstTrueBranch at h
  rcases Option.or_eq_some_iff.mp h with h | ⟨_, h⟩
  · exact List.mem_of_find?_eq_some h
  · exact List.mem_of_find?_eq_some h

theorem Follows.junctions (hacyclic : hasCycle ir = false) (h : Follows ir v t path) :
    ∃ js : List String, path.length = js.length + 1 ∧ js.Nodup ∧ (∀ j ∈ js, j ∈ junctionNames ir) ∧
      ∀ j ∈ js, t.target ∈ junctionNames ir ∧ ReflTransGen (Adj ir) t.target j := by
  induction h with
  | last _ => exact ⟨[], rfl, List.nodup_nil, by simp, by simp⟩
  | @next t b path htarget hbranch _ ih =>
    obtain ⟨js, hlen, hnodup, hmem, hreach⟩ := ih
    have hb : b ∈ branchesOf ir t.target := firstTrueBranch_mem hbranch
    refine ⟨t.target :: js, by simp [hlen], ?_, ?_, ?_⟩
    · refine List.nodup_cons.mpr ⟨fun hin => ?_, hnodup⟩
      -- the junction would be reached from its own branch
      obtain ⟨hjunction, hback⟩ := hreach _ hin
      exact hasCycle_eq_false_iff.mp hacyclic _ htarget _ (adj_of_branch htarget hb hjunction) hback
    · intro j hj
      rcases List.mem_cons.mp hj with rfl | hj
      · exact htarget
      · exact hmem j hj
    · intro j hj
      refine ⟨htarget, ?_⟩
      rcases List.mem_cons.mp hj with rfl | hj
      · exact ReflTransGen.refl
      · obtain ⟨hjunction, hstep⟩ := hreach j hj
        exact ReflTransGen.head (adj_of_branch htarget hb hjunction) hstep

theorem Follows.length_le (hacyclic : hasCycle ir = false) (h : Follows ir v t path) :
    path.length ≤ (junctionNames ir).length + 1 := by
  obtain ⟨js, hlen, hnodup, hmem, _⟩ := h.junctions hacyclic
  have hle := (List.subperm_of_subset hnodup hmem).length_le
  omega

/-! ## Paths -/

theorem pathsFrom_of_state (h : t.target ∉ junctionNames ir) : pathsFrom ir n t = [[t]] := by
  unfold pathsFrom
  exact if_pos h

theorem pathsFrom_of_junction (h : t.target ∈ junctionNames ir) : pathsFrom ir (n + 1) t =
      (branchesOf ir t.target).flatMap fun b => (pathsFrom ir n b).map (t :: ·) := by
  conv => lhs; unfold pathsFrom
  exact if_neg (not_not_intro h)

theorem shape_of_mem_pathsFrom : ∀ {t : TransitionEdge} {path : List TransitionEdge},
    path ∈ pathsFrom ir n t → ∃ rest, path = t :: rest ∧
      ∀ b ∈ rest, b ∈ ir.transitions ∧ b.source ∈ junctionNames ir := by
  induction n with
  | zero =>
    intro t path h
    unfold pathsFrom at h
    split at h
    · exact ⟨[], List.mem_singleton.mp h, by simp⟩
    · exact absurd h (by simp)
  | succ n ih =>
    intro t path h
    by_cases hjunction : t.target ∈ junctionNames ir
    · rw [pathsFrom_of_junction hjunction] at h
      obtain ⟨b, hb, hpath⟩ := List.mem_flatMap.mp h
      obtain ⟨tail, htail, rfl⟩ := List.mem_map.mp hpath
      obtain ⟨rest, rfl, hrest⟩ := ih htail
      obtain ⟨hmem, hsource⟩ := mem_branchesOf.mp hb
      refine ⟨b :: rest, rfl, ?_⟩
      intro x hx
      rcases List.mem_cons.mp hx with rfl | hx
      · exact ⟨hmem, hsource ▸ hjunction⟩
      · exact hrest x hx
    · rw [pathsFrom_of_state hjunction] at h
      exact ⟨[], List.mem_singleton.mp h, by simp⟩

theorem find?_flatMap_of_first {α β : Type*} {f : α → List β} {p : β → Bool} {pre post : List α} {a : α}
    {x : β} (hpre : ∀ u ∈ pre, (f u).find? p = none) (ha : (f a).find? p = some x) :
    ((pre ++ a :: post).flatMap f).find? p = some x := by
  have hnone : (pre.flatMap f).find? p = none := by
    rw [List.find?_eq_none]
    intro y hy
    obtain ⟨u, hu, hyu⟩ := List.mem_flatMap.mp hy
    exact List.find?_eq_none.mp (hpre u hu) y hyu
  rw [List.flatMap_append, List.flatMap_cons, List.find?_append, List.find?_append, hnone, ha]
  rfl

theorem Direct.find?_pathsFrom (hdirect : Direct ir v t) :
    ∀ {path : List TransitionEdge} {n : ℕ}, Follows ir v t path → passes v t = true →
      path.length ≤ n + 1 → (pathsFrom ir n t).find? (fun p => p.all (passes v)) = some path := by
  induction hdirect with
  | @last t hstate _ =>
    intro path n hfollows hpasses _
    cases hfollows with
    | last _ =>
      rw [pathsFrom_of_state hstate]
      exact List.find?_cons_of_pos (by simpa using hpasses)
    | next hjunction _ _ => exact absurd hjunction hstate
  | @next t b hjunction _ hbranch hfirst _ ih =>
    intro path n hfollows hpasses hlen
    cases hfollows with
    | last hstate => exact absurd hjunction hstate
    | @next _ b' tail _ hbranch' htail =>
      obtain rfl : b = b' := Option.some.inj (hbranch.symm.trans hbranch')
      obtain ⟨hb, pre, post, hsplit, hpre⟩ := List.find?_eq_some_iff_append.mp hfirst
      rw [List.length_cons] at hlen
      obtain ⟨m, rfl⟩ : ∃ m, n = m + 1 := by
        have hpos : 0 < tail.length := by
          cases htail <;> exact Nat.succ_pos _
        exact ⟨n - 1, by omega⟩
      have hall : ((fun p : List TransitionEdge => p.all (passes v)) ∘ (t :: ·)) =
          fun p => p.all (passes v) := by
        funext p
        simp [hpasses]
      rw [pathsFrom_of_junction hjunction, hsplit]
      apply find?_flatMap_of_first
      · intro u hu
        rw [List.find?_map, hall, Option.map_eq_none_iff, List.find?_eq_none]
        intro p hp
        obtain ⟨rest, rfl, _⟩ := shape_of_mem_pathsFrom hp
        have hnot := hpre u hu
        simp_all
      · rw [List.find?_map, hall, ih htail hb (by omega)]
        rfl

/-! ## Guards, events and effects of a path -/

theorem combineTwoGuards_holds (hv : RespectsAnd v) {g h : String} (hh : h ≠ "") (helse : isElse (some h) = false) :
    isElse (some (combineTwoGuards g h)) = false ∧
      v (combineTwoGuards g h) = ((g = "" || v g) && v h) := by
  unfold combineTwoGuards
  by_cases hempty : g = ""
  · simp [hempty, helse]
  · rw [if_neg hempty, if_neg hh]
    simp [hempty, hv g h]

theorem combinedGuard_holds (hv : RespectsAnd v) (path : List TransitionEdge) :
    guardPassed v (if combinedGuard path = "" then none else some (combinedGuard path)) =
      path.all (passes v) := by
  have hfold : ∀ (path : List TransitionEdge) (g : String), (g = "" ∨ isElse (some g) = false) →
      let G := path.foldl
        (fun g t => if isElse t.guard then g else combineTwoGuards g (t.guard.getD "")) g
      (G = "" ∨ isElse (some G) = false) ∧
        (G = "" || v G) = ((g = "" || v g) && path.all (passes v)) := by
    intro path
    induction path with
    | nil => exact fun g hg => ⟨hg, (Bool.and_true _).symm⟩
    | cons t path ih =>
      intro g hg
      rw [List.foldl_cons]
      cases helse : isElse t.guard with
      | true =>
        have hpasses : passes v t = true := by simp [passes, helse]
        have hih := ih g hg
        simpa [hpasses] using hih
      | false =>
        obtain ⟨text, htext, hne⟩ := isElse_eq_false helse
        have htext' : isElse (some text) = false := htext ▸ helse
        obtain ⟨hnotElse, hval⟩ := combineTwoGuards_holds (g := g) hv hne htext'
        have hih := ih (combineTwoGuards g text) (Or.inr hnotElse)
        have hnonempty : combineTwoGuards g text ≠ "" := fun heq => by
          rw [heq] at hnotElse
          exact absurd hnotElse (by simp [isElse])
        have hpasses : passes v t = v text := by simp [passes, htext, htext']
        simp only [htext, Option.getD_some, Bool.false_eq_true, if_false, List.all_cons, hpasses]
        refine ⟨hih.1, hih.2.trans ?_⟩
        simp [hnonempty, hval, Bool.and_assoc]
  obtain ⟨hnotElse, hval⟩ := hfold path "" (Or.inl rfl)
  have hval' : (combinedGuard path = "" || v (combinedGuard path)) = path.all (passes v) :=
    hval.trans (by simp)
  rw [← hval']
  by_cases hempty : combinedGuard path = ""
  · simp [hempty, guardPassed]
  · have hne := hnotElse.resolve_left hempty
    unfold isElse at hne
    simp only [Bool.or_eq_false_iff, decide_eq_false_iff_not] at hne
    have helse : combinedGuard path ≠ "else" := hne.1.1.2
    have hdefault : combinedGuard path ≠ "default" := hne.2
    simp [hempty, guardPassed, helse, hdefault]

theorem fires_composite (hv : RespectsAnd v)
    (hevents : ∀ b ∈ ir.transitions, b.source ∈ junctionNames ir → b.event = "")
    (hpath : path ∈ pathsFrom ir n t) :
    fires source event v (composite t path) = (tried source event t && path.all (passes v)) := by
  obtain ⟨rest, rfl, hrest⟩ := shape_of_mem_pathsFrom hpath
  have hevent : (composite t (t :: rest)).event = t.event := by
    show (((t :: rest).find? fun t => t.event ≠ "").map (·.event)).getD "" = t.event
    by_cases hempty : t.event = ""
    · have hnone : (t :: rest).find? (fun t => t.event ≠ "") = none := by
        rw [List.find?_eq_none]
        intro b hb
        rcases List.mem_cons.mp hb with rfl | hb
        · simp [hempty]
        · simp [hevents b (hrest b hb).1 (hrest b hb).2]
      rw [hnone, hempty]
      rfl
    · rw [List.find?_cons_of_pos (by simpa using hempty)]
      rfl
  unfold fires enabled tried
  rw [hevent]
  show (decide (t.source = source) && _ && guardPassed v _) = _
  rw [← combinedGuard_holds hv]
  rfl

theorem assignments_combineSignature (acts : List ActionSignature) :
    (combineSignature fallback acts).toList.flatMap (·.assignments) = acts.flatMap (·.assignments) := by
  unfold combineSignature
  simp only
  split
  · rename_i h
    rw [h.2]
    rfl
  · simp

theorem instructions_combineSignature (acts : List ActionSignature) :
    (combineSignature fallback acts).toList.flatMap (·.instructions) = [] := by
  unfold combineSignature
  simp only
  split
  · rfl
  · simp [ActionSignature.ofName]

theorem mem_foldl_pushNew (clocks : List String) : ∀ (acc : List String) (x : String),
    x ∈ clocks.foldl pushNew acc ↔ x ∈ acc ∨ x ∈ clocks := by
  induction clocks with
  | nil => simp
  | cons c clocks ih =>
    intro acc x
    rw [List.foldl_cons, ih]
    unfold pushNew
    split
    · rename_i hmem
      constructor
      · exact fun h => h.imp_right (List.mem_cons_of_mem c)
      · rintro (h | h)
        · exact Or.inl h
        · rcases List.mem_cons.mp h with rfl | h
          · exact Or.inl hmem
          · exact Or.inr h
    · simp [or_assoc]

theorem effectsAlong_composite (t : TransitionEdge) (hlossless : ∀ b ∈ path, lossless b = true) :
    effectsAlong [composite t path] = effectsAlong path := by
  have hresets : ((composite t path).clockResets).toFinset = (path.flatMap (·.clockResets)).toFinset := by
    ext x
    show x ∈ ((path.flatMap (·.clockResets)).foldl pushNew []).toFinset ↔ _
    rw [List.mem_toFinset, List.mem_toFinset, mem_foldl_pushNew]
    simp
  have hcondition : (path.filterMap (·.conditionAction)).flatMap (·.instructions) = [] := by
    rw [List.flatMap_eq_nil_iff]
    intro a ha
    obtain ⟨b, hb, hba⟩ := List.mem_filterMap.mp ha
    have h := hlossless b hb
    unfold lossless at h
    rw [hba] at h
    simpa using (Bool.and_eq_true_iff.mp h).1
  have htransition : (path.filterMap (·.transitionAction)).flatMap (·.instructions) = [] := by
    rw [List.flatMap_eq_nil_iff]
    intro a ha
    obtain ⟨b, hb, hba⟩ := List.mem_filterMap.mp ha
    have h := hlossless b hb
    unfold lossless at h
    rw [hba] at h
    simpa using (Bool.and_eq_true_iff.mp h).2
  have hsingle : ∀ o : Option ActionSignature, [o].filterMap id = o.toList := by
    intro o
    cases o <;> rfl
  have hfilter : ∀ f : TransitionEdge → Option ActionSignature,
      [composite t path].filterMap f = (f (composite t path)).toList := by
    intro f
    cases h : f (composite t path) <;> simp [h]
  unfold effectsAlong
  rw [hfilter, hfilter, hcondition, htransition]
  show Effects.mk ((combineSignature _ _).toList.flatMap _) ((combineSignature _ _).toList.flatMap _)
    ((combineSignature _ _).toList.flatMap _) ((combineSignature _ _).toList.flatMap _) _ = _
  rw [assignments_combineSignature, assignments_combineSignature, instructions_combineSignature,
    instructions_combineSignature]
  congr 1
  simpa using hresets

theorem Direct.lossless (hdirect : Direct ir v t) : ∀ {path : List TransitionEdge}, Follows ir v t path → ∀ b ∈ path,
      JunctionChaining.lossless b = true := by
  induction hdirect with
  | @last t hstate hless =>
    intro path hfollows b hb
    cases hfollows with
    | last _ => exact List.mem_singleton.mp hb ▸ hless
    | next hjunction _ _ => exact absurd hjunction hstate
  | @next t b hjunction hless hbranch _ _ ih =>
    intro path hfollows x hx
    cases hfollows with
    | last hstate => exact absurd hjunction hstate
    | @next _ b' tail _ hbranch' htail =>
      obtain rfl : b = b' := Option.some.inj (hbranch.symm.trans hbranch')
      rcases List.mem_cons.mp hx with rfl | hx
      · exact hless
      · exact ih htail x hx

/-! ## The result -/

theorem passes_of_guardPassed (h : guardPassed v t.guard = true) : passes v t = true := by
  unfold passes
  cases hguard : t.guard with
  | none => rfl
  | some text =>
    rw [hguard] at h
    unfold guardPassed at h
    simp only [Bool.or_eq_true, decide_eq_true_eq] at h
    unfold isElse
    rcases h with ((h | h) | h) | h <;> simp [h]

theorem guardPassed_of_passes (hguard : t.guard ≠ some "otherwise")
    (h : passes v t = true) : guardPassed v t.guard = true := by
  unfold passes at h
  cases htext : t.guard with
  | none => rfl
  | some text =>
    rw [htext] at h hguard
    have hne : text ≠ "otherwise" := fun heq => hguard (congrArg some heq)
    unfold isElse at h
    unfold guardPassed
    simp only [Option.getD_some, Bool.or_eq_true, decide_eq_true_eq] at h ⊢
    tauto

theorem transitions_run (hacyclic : hasCycle ir = false) : (run ir).transitions = chained ir := by
  unfold run
  split
  · rename_i h
    have hnone : junctionNames ir = [] := h.resolve_right (by simp [hacyclic])
    simp [chained, touches, entering, hnone]
  · rfl

theorem mem_entering : t ∈ entering ir ↔
    t ∈ ir.transitions ∧ t.source ∉ junctionNames ir ∧ t.target ∈ junctionNames ir := by
  simp [entering]

theorem find?_synthesizedFrom_of_not_fires (hv : RespectsAnd v) (hguarded : WellGuarded ir source)
    (ht : t ∈ entering ir) (hfires : fires source event v t = false) :
    (synthesizedFrom ir t).find? (fires source event v) = none := by
  rw [List.find?_eq_none]
  intro x hx
  obtain ⟨path, hpath, rfl⟩ := List.mem_map.mp hx
  rw [fires_composite hv hguarded.events hpath]
  intro hboth
  obtain ⟨htried, hall⟩ := Bool.and_eq_true_iff.mp hboth
  obtain ⟨rest, rfl, _⟩ := shape_of_mem_pathsFrom hpath
  have hpasses : passes v t = true := List.all_eq_true.mp hall t List.mem_cons_self
  have hsource : t.source = source := by
    unfold tried at htried
    simp only [Bool.and_eq_true, decide_eq_true_eq] at htried
    exact htried.1
  have hguard := guardPassed_of_passes (hguarded.entries t ht hsource) hpasses
  unfold fires enabled at hfires
  rw [htried, hguard] at hfires
  exact absurd hfires (by simp)

theorem find?_synthesizedFrom (hv : RespectsAnd v) (hguarded : WellGuarded ir source) (hacyclic : hasCycle ir = false)
    (hfires : fires source event v t = true) (hdirect : Direct ir v t) (hfollows : Follows ir v t path) :
    (synthesizedFrom ir t).find? (fires source event v) = some (composite t path) := by
  obtain ⟨htried, henabled⟩ := Bool.and_eq_true_iff.mp hfires
  have hfind := hdirect.find?_pathsFrom hfollows (passes_of_guardPassed henabled)
    (hfollows.length_le hacyclic)
  unfold synthesizedFrom
  rw [List.find?_map]
  have hsame : ∀ p ∈ pathsFrom ir (junctionNames ir).length t,
      (fires source event v ∘ composite t) p = p.all (passes v) := by
    intro p hp
    show fires source event v (composite t p) = _
    rw [fires_composite hv hguarded.events hp, htried, Bool.true_and]
  have hcongr : (pathsFrom ir (junctionNames ir).length t).find? (fires source event v ∘ composite t) =
      (pathsFrom ir (junctionNames ir).length t).find? fun p => p.all (passes v) := by
    exact List.find?_congr hsame
  rw [hcongr, hfind]
  rfl

/-- A transition into a junction. -/
def check : TransitionEdge := { source := "Idle", target := "J", event := "check" }

/-- The branch for heat. -/
def hot : TransitionEdge := { source := "J", target := "Cooling", guard := some "hot" }

/-- The branch for anything else. -/
def otherwise : TransitionEdge := { source := "J", target := "Idle", guard := some "else" }

/-- A machine with a junction. -/
def thermostat (branches : List TransitionEdge) : FsmIr where
  initialState := "Idle"
  states := [{ name := "Idle" }, { name := "J", kind := .junction }, { name := "Cooling" }]
  transitions := check :: branches

end Fsmc.Passes.JunctionChaining
