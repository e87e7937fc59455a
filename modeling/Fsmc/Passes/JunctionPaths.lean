/-
# Fsmc.Passes.JunctionPaths — one transition for every path through the junctions.

A search in three colours refuses junctions that form a cycle. Without a cycle the enumeration of paths ends, and
it finds each path from a state through junctions to a state once. Paths are told apart by the places of their
transitions in the table, so that equal rows count as often as they are declared.
-/
import Fsmc.Lib.LongestWalk
import Fsmc.Passes.JunctionChaining

namespace Fsmc.Passes.JunctionChaining

open Fsmc.Ir Fsmc.Lib Fsmc.Runtime Fsmc.Passes.ChoiceInlining Fsmc.Lib.CycleSearch Fsmc.Lib.LongestWalk Relation

/-! ## The pass with its search -/

/-- `has_cycle` after the search in three colours. The order of the junctions does not matter. -/
def checkCycle (ir : FsmIr) : Bool :=
  findsCycle true (junctionAdj ir) (junctionNames ir).length (junctionNames ir)

/-- `explore_paths`: the paths from a transition; there is no result if the number of nested calls does not
suffice. -/
def explorePaths (ir : FsmIr) : ℕ → TransitionEdge → Option (List (List TransitionEdge))
  | fuel, t =>
    if t.target ∉ junctionNames ir then some [[t]]
    else
      match fuel with
      | 0 => none
      | n + 1 => ((branchesOf ir t.target).mapM (explorePaths ir n)).map fun tails => tails.flatten.map (t :: ·)

/-- The transition that takes a path. -/
def compound : List TransitionEdge → TransitionEdge
  | [] => {}
  | t :: rest => composite t (t :: rest)

/-- `ConnectiveJunctionChainingPass::run`, with the codes of the errors that it reports. -/
def execute (ir : FsmIr) : Option (FsmIr × List String) :=
  if junctionNames ir = [] then some (ir, [])
  else if checkCycle ir then some (ir, ["EJUNC001"])
  else ((entering ir).mapM (explorePaths ir (junctionNames ir).length)).map fun paths =>
    ({ ir with
        transitions := (ir.transitions.filter fun t => !touches ir t) ++ paths.flatten.map compound
        states := ir.states.filter fun s => s.name ∉ junctionNames ir
        choiceNodes := ir.choiceNodes.filter fun c => c ∉ junctionNames ir }, [])

/-! ## Paths -/

/-- A transition from a junction to a junction. -/
def JunctionEdge (ir : FsmIr) (a b : String) : Prop :=
  a ∈ junctionNames ir ∧ b ∈ junctionNames ir ∧ ∃ t ∈ ir.transitions, t.source = a ∧ t.target = b

/-- Transitions between junctions form a cycle. -/
def JunctionCycle (ir : FsmIr) : Prop := ∃ j, TransGen (JunctionEdge ir) j j

/-- A transition with its place in the table. -/
abbrev Numbered := TransitionEdge × ℕ

/-- The transitions go on from a transition, each from the junction that the one before it leads to, until a
state is reached. -/
def Leads (ir : FsmIr) (t : TransitionEdge) : List Numbered → Prop
  | [] => t.target ∉ junctionNames ir
  | b :: rest => t.target ∈ junctionNames ir ∧ b ∈ ir.transitions.zipIdx ∧ b.1.source = t.target ∧ Leads ir b.1 rest

/-- A path from a state through at least one junction to a state. -/
def IsPath (ir : FsmIr) (path : List Numbered) : Prop :=
  ∃ t rest, path = t :: rest ∧ t ∈ ir.transitions.zipIdx ∧ t.1.source ∉ junctionNames ir ∧
    t.1.target ∈ junctionNames ir ∧ Leads ir t.1 rest

def nonElseGuards (path : List TransitionEdge) : List String :=
  path.filterMap fun t => if isElse t.guard then none else t.guard

/-- The conjunction of guards, none for no guard. -/
def conjunction : List String → Option String
  | [] => none
  | g :: gs => some (gs.foldl andGuard g)

/-- A transition goes from where a path starts to where it ends, under the conjunction of its guards. -/
structure Summarises (path : List TransitionEdge) (t : TransitionEdge) : Prop where
  source : path.head?.map (·.source) = some t.source
  target : path.getLast?.map (·.target) = some t.target
  guard : t.guard = conjunction (nonElseGuards path)
  passes : ∀ v, RespectsAnd v → guardPassed v t.guard = path.all (passes v)

variable {ir : FsmIr}

/-! ## The search for a cycle -/

theorem succStep_junctionAdj : SuccStep (junctionAdj ir) = JunctionEdge ir := by
  funext a b
  unfold SuccStep junctionAdj JunctionEdge
  rw [List.mem_map]
  refine propext ⟨?_, ?_⟩
  · rintro ⟨t, ht, rfl⟩
    obtain ⟨hmem, htest⟩ := List.mem_filter.mp ht
    simp only [Bool.and_eq_true, decide_eq_true_eq] at htest
    exact ⟨htest.1.2, htest.2, t, hmem, htest.1.1, rfl⟩
  · rintro ⟨ha, hb, t, hmem, rfl, rfl⟩
    exact ⟨t, List.mem_filter.mpr ⟨hmem, by simp [ha, hb]⟩, rfl⟩

theorem junctionAdj_closed : ∀ x ∈ junctionNames ir, ∀ y, SuccStep (junctionAdj ir) x y → y ∈ junctionNames ir := by
  intro x _ y hxy
  rw [succStep_junctionAdj] at hxy
  exact hxy.2.1

theorem checkCycle_iff : checkCycle ir = true ↔ JunctionCycle ir := by
  have hsearch : checkCycle ir = true ↔ ∃ r ∈ junctionNames ir, ReachesCycle (junctionAdj ir) r :=
    findsCycle_iff junctionAdj_closed le_rfl fun _ hr => hr
  rw [hsearch]
  unfold ReachesCycle Reach JunctionCycle
  rw [succStep_junctionAdj]
  constructor
  · rintro ⟨_, -, j, -, hcycle⟩
    exact ⟨j, hcycle⟩
  · rintro ⟨j, hcycle⟩
    obtain ⟨next, hfirst, -⟩ := TransGen.head'_iff.mp hcycle
    exact ⟨j, hfirst.1, j, ReflTransGen.refl, hcycle⟩

/-! ## The enumeration -/

/-- The paths with the places of their transitions. -/
def numberedPaths (ir : FsmIr) : ℕ → Numbered → List (List Numbered)
  | fuel, t =>
    if t.1.target ∉ junctionNames ir then [[t]]
    else
      match fuel with
      | 0 => []
      | n + 1 =>
        (ir.transitions.zipIdx.filter fun b => b.1.source = t.1.target).flatMap fun b =>
          (numberedPaths ir n b).map (t :: ·)

variable {n : ℕ} {t : TransitionEdge} (path : List TransitionEdge)

theorem numberedPaths_of_state {t : Numbered} (h : t.1.target ∉ junctionNames ir) :
    numberedPaths ir n t = [[t]] := by
  unfold numberedPaths
  exact if_pos h

theorem numberedPaths_of_junction {t : Numbered} (h : t.1.target ∈ junctionNames ir) :
    numberedPaths ir (n + 1) t =
      (ir.transitions.zipIdx.filter fun b => b.1.source = t.1.target).flatMap fun b =>
        (numberedPaths ir n b).map (t :: ·) := by
  conv => lhs; unfold numberedPaths
  exact if_neg (not_not_intro h)

theorem numberedPaths_zero {t : Numbered} (h : t.1.target ∈ junctionNames ir) : numberedPaths ir 0 t = [] := by
  unfold numberedPaths
  exact if_neg (not_not_intro h)

theorem map_fst_filter_zipIdx (p : TransitionEdge → Bool) (l : List TransitionEdge) (k : ℕ) :
    ((l.zipIdx k).filter fun b => p b.1).map Prod.fst = l.filter p := by
  have hfilter : (l.zipIdx k).filter (fun b => p b.1) = (l.zipIdx k).filter (p ∘ Prod.fst) := rfl
  rw [hfilter, ← List.filter_map, List.zipIdx_map_fst]

theorem map_fst_numberedPaths : ∀ (n : ℕ) (t : Numbered),
    (numberedPaths ir n t).map (List.map Prod.fst) = pathsFrom ir n t.1
  | 0, t => by
    by_cases h : t.1.target ∈ junctionNames ir
    · rw [numberedPaths_zero h]
      unfold pathsFrom
      rw [if_neg (not_not_intro h)]
      rfl
    · rw [numberedPaths_of_state h, pathsFrom_of_state h]
      rfl
  | n + 1, t => by
    by_cases h : t.1.target ∈ junctionNames ir
    · rw [numberedPaths_of_junction h, pathsFrom_of_junction h, branchesOf,
        ← map_fst_filter_zipIdx (fun b => b.source = t.1.target) ir.transitions 0, List.map_flatMap, List.flatMap_map]
      apply List.flatMap_congr
      intro b _
      rw [← map_fst_numberedPaths n b, List.map_map, List.map_map]
      rfl
    · rw [numberedPaths_of_state h, pathsFrom_of_state h]
      rfl

theorem mem_numberedPaths : ∀ {n : ℕ} {t : Numbered} {path : List Numbered},
    path ∈ numberedPaths ir n t ↔ ∃ rest, path = t :: rest ∧ Leads ir t.1 rest ∧ rest.length ≤ n
  | n, t, path => by
    by_cases h : t.1.target ∈ junctionNames ir
    · cases n with
      | zero =>
        rw [numberedPaths_zero h]
        refine ⟨fun hmem => absurd hmem List.not_mem_nil, ?_⟩
        rintro ⟨rest, -, hleads, hlen⟩
        obtain rfl : rest = [] := List.length_eq_zero_iff.mp (Nat.le_zero.mp hlen)
        exact absurd h hleads
      | succ n =>
        rw [numberedPaths_of_junction h, List.mem_flatMap]
        constructor
        · rintro ⟨b, hb, hpath⟩
          obtain ⟨tail, htail, rfl⟩ := List.mem_map.mp hpath
          obtain ⟨rest, rfl, hleads, hlen⟩ := mem_numberedPaths.mp htail
          obtain ⟨hmem, hsource⟩ := List.mem_filter.mp hb
          exact ⟨b :: rest, rfl, ⟨h, hmem, of_decide_eq_true hsource, hleads⟩, Nat.succ_le_succ hlen⟩
        · rintro ⟨rest, rfl, hleads, hlen⟩
          cases rest with
          | nil => exact absurd h hleads
          | cons b rest =>
            obtain ⟨-, hmem, hsource, hrest⟩ := hleads
            refine ⟨b, List.mem_filter.mpr ⟨hmem, decide_eq_true hsource⟩, List.mem_map_of_mem ?_⟩
            exact mem_numberedPaths.mpr ⟨rest, rfl, hrest, Nat.le_of_succ_le_succ hlen⟩
    · rw [numberedPaths_of_state h, List.mem_singleton]
      constructor
      · rintro rfl
        exact ⟨[], rfl, h, Nat.zero_le n⟩
      · rintro ⟨rest, rfl, hleads, -⟩
        cases rest with
        | nil => rfl
        | cons b rest => exact absurd hleads.1 h

theorem nodup_zipIdx (l : List TransitionEdge) : l.zipIdx.Nodup := by
  apply List.Nodup.of_map Prod.snd
  rw [List.zipIdx_map_snd]
  exact List.nodup_range'

theorem nodup_numberedPaths : ∀ (n : ℕ) (t : Numbered), (numberedPaths ir n t).Nodup
  | n, t => by
    by_cases h : t.1.target ∈ junctionNames ir
    · cases n with
      | zero =>
        rw [numberedPaths_zero h]
        exact List.nodup_nil
      | succ n =>
        rw [numberedPaths_of_junction h, List.nodup_flatMap]
        refine ⟨fun b _ => (nodup_numberedPaths n b).map List.cons_injective, ?_⟩
        refine ((nodup_zipIdx ir.transitions).filter _).imp fun {b b'} hne path hpath hpath' => ?_
        -- A path tells by which branch it goes on.
        obtain ⟨tail, htail, rfl⟩ := List.mem_map.mp hpath
        obtain ⟨tail', htail', heq⟩ := List.mem_map.mp hpath'
        obtain ⟨rest, rfl, -⟩ := mem_numberedPaths.mp htail
        obtain ⟨rest', rfl, -⟩ := mem_numberedPaths.mp htail'
        exact hne (List.cons.inj (List.cons.inj heq).2).1.symm
    · rw [numberedPaths_of_state h]
      exact List.nodup_singleton _

theorem Leads.hasWalk : ∀ {rest : List Numbered} {t : TransitionEdge}, t.target ∈ junctionNames ir →
    Leads ir t rest → ∃ n, rest.length = n + 1 ∧ HasWalk (JunctionEdge ir) t.target n
  | [], _, h, hleads => absurd h hleads
  | [b], _, _, _ => ⟨0, rfl, hasWalk_zero _ _⟩
  | b :: c :: rest, t, h, ⟨_, hmem, hsource, hrest⟩ => by
    have hb : b.1.target ∈ junctionNames ir := hrest.1
    obtain ⟨n, hlen, hwalk⟩ := hrest.hasWalk hb
    refine ⟨n + 1, by rw [List.length_cons, hlen], hasWalk_succ.mpr ⟨b.1.target, ?_, hwalk⟩⟩
    exact ⟨h, hb, b.1, List.fst_mem_of_mem_zipIdx hmem, hsource, rfl⟩

theorem Leads.length_le (hacyclic : ¬ JunctionCycle ir) {rest : List Numbered}
    (h : Leads ir t rest) : rest.length ≤ (junctionNames ir).length := by
  by_cases htarget : t.target ∈ junctionNames ir
  · obtain ⟨n, hlen, hwalk⟩ := h.hasWalk htarget
    have hlt := hwalk.lt_length (fun x hx => hacyclic ⟨x, hx⟩) (fun _ _ _ hxy => hxy.2.1) htarget
    omega
  · cases rest with
    | nil => exact Nat.zero_le _
    | cons b rest => exact absurd h.1 htarget

theorem explorePaths_eq : ∀ (n : ℕ) (t : TransitionEdge),
    (t.target ∈ junctionNames ir → ∀ m, HasWalk (JunctionEdge ir) t.target m → m < n) →
      explorePaths ir n t = some (pathsFrom ir n t)
  | n, t, hshort => by
    by_cases h : t.target ∈ junctionNames ir
    · cases n with
      | zero => exact absurd (hshort h 0 (hasWalk_zero _ _)) (Nat.not_lt_zero 0)
      | succ n =>
        have hbranches : ∀ b ∈ branchesOf ir t.target, explorePaths ir n b = some (pathsFrom ir n b) := by
          intro b hb
          obtain ⟨hmem, hsource⟩ := mem_branchesOf.mp hb
          refine explorePaths_eq n b fun htarget m hwalk => ?_
          have := hshort h (m + 1) (hasWalk_succ.mpr ⟨b.target, ⟨h, htarget, b, hmem, hsource, rfl⟩, hwalk⟩)
          omega
        have hall : (branchesOf ir t.target).mapM (explorePaths ir n) =
            some ((branchesOf ir t.target).map (pathsFrom ir n)) := mapM_eq_some hbranches
        conv_lhs => unfold explorePaths
        rw [if_neg (not_not_intro h), pathsFrom_of_junction h]
        dsimp only
        rw [hall, Option.map_some, ← List.flatMap_def, List.map_flatMap]
    · rw [pathsFrom_of_state h]
      unfold explorePaths
      rw [if_pos h]

/-! ## The guard of a path -/

theorem andGuard_ne_empty (a b : String) : andGuard a b ≠ "" := by simp [andGuard]

theorem nonElseGuards_cons_else (h : isElse t.guard = true) (path : List TransitionEdge) :
    nonElseGuards (t :: path) = nonElseGuards path :=
  List.filterMap_cons_none (if_pos h)

theorem nonElseGuards_cons {text : String} (h : isElse t.guard = false)
    (htext : t.guard = some text) (path : List TransitionEdge) :
    nonElseGuards (t :: path) = text :: nonElseGuards path :=
  List.filterMap_cons_some ((if_neg (Bool.eq_false_iff.mp h)).trans htext)

theorem foldl_combine : ∀ {g : String}, g ≠ "" →
    path.foldl (fun g t => if isElse t.guard then g else combineTwoGuards g (t.guard.getD "")) g =
      (nonElseGuards path).foldl andGuard g := by
  induction path with
  | nil => exact fun _ => rfl
  | cons t path ih =>
    intro g hg
    rw [List.foldl_cons]
    cases helse : isElse t.guard with
    | true =>
      rw [nonElseGuards_cons_else helse, if_pos rfl]
      exact ih hg
    | false =>
      obtain ⟨text, htext, hne⟩ := isElse_eq_false helse
      have hcombine : combineTwoGuards g text = andGuard g text := by
        unfold combineTwoGuards
        rw [if_neg hg, if_neg hne]
      rw [nonElseGuards_cons helse htext, htext, List.foldl_cons, if_neg Bool.false_ne_true, Option.getD_some,
        hcombine]
      exact ih (andGuard_ne_empty g text)

theorem foldl_andGuard_ne_empty (gs : List String) : ∀ {g : String}, g ≠ "" → gs.foldl andGuard g ≠ "" := by
  induction gs with
  | nil => exact fun h => h
  | cons h gs ih => exact fun _ => ih (andGuard_ne_empty _ _)

theorem combinedGuard_eq :
    (if combinedGuard path = "" then none else some (combinedGuard path)) = conjunction (nonElseGuards path) := by
  unfold combinedGuard
  induction path with
  | nil => rfl
  | cons t path ih =>
    rw [List.foldl_cons]
    cases helse : isElse t.guard with
    | true =>
      rw [nonElseGuards_cons_else helse, if_pos rfl]
      exact ih
    | false =>
      obtain ⟨text, htext, hne⟩ := isElse_eq_false helse
      rw [nonElseGuards_cons helse htext, if_neg Bool.false_ne_true, htext, Option.getD_some]
      show (if path.foldl _ text = "" then none else some (path.foldl _ text)) = some _
      rw [foldl_combine path hne, if_neg (foldl_andGuard_ne_empty _ hne)]

theorem summarises_compound (t : TransitionEdge) (rest : List TransitionEdge) :
    Summarises (t :: rest) (compound (t :: rest)) where
  source := rfl
  target := by
    show _ = some ((t :: rest).getLastD t).target
    rw [List.getLast?_cons, Option.map_some, List.getLastD_cons, List.getLastD_eq_getLast?]
  guard := combinedGuard_eq (t :: rest)
  passes := fun _ hv => combinedGuard_holds hv (t :: rest)

/-! ## The result -/

/-- Places that are kept apart from one another keep the paths from different transitions apart. -/
theorem nodup_flatMap_numberedPaths {starts : List Numbered} (h : starts.Nodup) :
    (starts.flatMap (numberedPaths ir n)).Nodup := by
  rw [List.nodup_flatMap]
  refine ⟨fun t _ => nodup_numberedPaths n t, h.imp fun {t t'} hne path hpath hpath' => ?_⟩
  obtain ⟨rest, rfl, -⟩ := mem_numberedPaths.mp hpath
  obtain ⟨rest', heq, -⟩ := mem_numberedPaths.mp hpath'
  exact hne (List.cons.inj heq).1

/-- All paths, with the places of their transitions. -/
def allPaths (ir : FsmIr) : List (List Numbered) :=
  (ir.transitions.zipIdx.filter fun t =>
    t.1.source ∉ junctionNames ir && t.1.target ∈ junctionNames ir).flatMap
      (numberedPaths ir (junctionNames ir).length)

theorem mem_allPaths (hacyclic : ¬ JunctionCycle ir) {path : List Numbered} : path ∈ allPaths ir ↔ IsPath ir path := by
  unfold allPaths IsPath
  rw [List.mem_flatMap]
  constructor
  · rintro ⟨t, ht, hpath⟩
    obtain ⟨hmem, htest⟩ := List.mem_filter.mp ht
    simp only [Bool.and_eq_true, decide_eq_true_eq] at htest
    obtain ⟨rest, rfl, hleads, -⟩ := mem_numberedPaths.mp hpath
    exact ⟨t, rest, rfl, hmem, htest.1, htest.2, hleads⟩
  · rintro ⟨t, rest, rfl, hmem, hsource, htarget, hleads⟩
    refine ⟨t, List.mem_filter.mpr ⟨hmem, by simp [hsource, htarget]⟩, ?_⟩
    exact mem_numberedPaths.mpr ⟨rest, rfl, hleads, hleads.length_le hacyclic⟩

theorem map_fst_allPaths :
    (allPaths ir).map (List.map Prod.fst) = (entering ir).flatMap (pathsFrom ir (junctionNames ir).length) := by
  have hentering := map_fst_filter_zipIdx
    (fun t => t.source ∉ junctionNames ir && t.target ∈ junctionNames ir) ir.transitions 0
  unfold allPaths entering
  rw [← hentering, List.map_flatMap, List.flatMap_map]
  exact List.flatMap_congr fun t _ => map_fst_numberedPaths _ t

theorem explored_entering (hacyclic : ¬ JunctionCycle ir) :
    (entering ir).mapM (explorePaths ir (junctionNames ir).length) =
      some ((entering ir).map (pathsFrom ir (junctionNames ir).length)) := by
  refine mapM_eq_some fun t _ => explorePaths_eq _ t fun htarget m hwalk => ?_
  exact hwalk.lt_length (fun x hx => hacyclic ⟨x, hx⟩) (fun _ _ _ hxy => hxy.2.1) htarget

theorem execute_acyclic (hacyclic : ¬ JunctionCycle ir) : ∃ ir', execute ir = some (ir', []) ∧
    ir'.transitions = (ir.transitions.filter fun t => !touches ir t) ++
      (allPaths ir).map fun path => compound (path.map Prod.fst) := by
  unfold execute
  by_cases hnone : junctionNames ir = []
  · rw [if_pos hnone]
    refine ⟨ir, rfl, ?_⟩
    simp [allPaths, touches, hnone]
  · rw [if_neg hnone, if_neg fun h => hacyclic (checkCycle_iff.mp h), explored_entering hacyclic]
    refine ⟨_, rfl, ?_⟩
    dsimp only
    rw [← List.flatMap_def, ← map_fst_allPaths, List.map_map]
    rfl

/-- The pass ends on every machine. It reports a cycle and changes nothing if and only if transitions between
junctions form one. Otherwise it removes the transitions that touch a junction and adds one for each path through
junctions, which summarises it. -/
theorem execute_exact (ir : FsmIr) : ∃ ir' errors, execute ir = some (ir', errors) ∧
    (errors = ["EJUNC001"] ∧ ir' = ir ↔ JunctionCycle ir) ∧
    (¬ JunctionCycle ir → errors = [] ∧ ∃ paths : List (List Numbered), paths.Nodup ∧
      (∀ path, path ∈ paths ↔ IsPath ir path) ∧
      ir'.transitions = (ir.transitions.filter fun t => !touches ir t) ++
        paths.map (fun path => compound (path.map Prod.fst)) ∧
      ∀ path ∈ paths, Summarises (path.map Prod.fst) (compound (path.map Prod.fst))) := by
  by_cases hcycle : JunctionCycle ir
  · have hjunctions : junctionNames ir ≠ [] := by
      obtain ⟨j, hj⟩ := hcycle
      obtain ⟨next, hfirst, -⟩ := TransGen.head'_iff.mp hj
      exact List.ne_nil_of_mem hfirst.1
    refine ⟨ir, ["EJUNC001"], ?_, ⟨fun _ => hcycle, fun _ => ⟨rfl, rfl⟩⟩, fun h => absurd hcycle h⟩
    unfold execute
    rw [if_neg hjunctions, if_pos (checkCycle_iff.mpr hcycle)]
  · obtain ⟨ir', hexecute, htransitions⟩ := execute_acyclic hcycle
    refine ⟨ir', [], hexecute, ⟨fun h => absurd h.1 (by simp), fun h => absurd h hcycle⟩, fun _ => ⟨rfl, ?_⟩⟩
    have hnodup : (allPaths ir).Nodup := nodup_flatMap_numberedPaths ((nodup_zipIdx _).filter _)
    refine ⟨allPaths ir, hnodup, fun _ => mem_allPaths hcycle, htransitions, fun path hpath => ?_⟩
    obtain ⟨t, rest, rfl, -⟩ := (mem_allPaths hcycle).mp hpath
    exact summarises_compound t.1 (rest.map Prod.fst)

end Fsmc.Passes.JunctionChaining
