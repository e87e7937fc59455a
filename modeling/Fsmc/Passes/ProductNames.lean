/-
# Fsmc.Passes.ProductNames — the names of the product states.

The name of a tuple is the name of the composite and the names of the members, joined with underscores, which
names may contain themselves. Where two tuples have one name, or a state has the name of a tuple, a product state
replaces another state. Whether this happens is decided on the names of the regions alone.
-/
import Fsmc.Lib.SeparatedWords
import Fsmc.Passes.OrthogonalProduct

namespace Fsmc.Passes.OrthogonalProduct

open Fsmc.Ir Fsmc.Lib.Cartesian Fsmc.Lib.SeparatedWords

/-! ## Names of regions -/

/-- The names of the members, region by region. -/
def memberNames (regions : List RegionInfo) : List (List (List Char)) :=
  regions.map fun reg => reg.states.map String.toList

/-- Some names of members overlap so that two tuples have one name. -/
def collidingNames (regions : List RegionInfo) : Bool := collides '_' (memberNames regions)

/-- A state has the name of the composite, followed by the name of a member of each region. -/
def takenName (ir : FsmIr) (parentName : String) (regions : List RegionInfo) : Bool :=
  ir.states.any fun s =>
    (beyond '_' parentName.toList s.name.toList).any fun rest => spells '_' rest (memberNames regions)

/-- The expansion adds one state for each tuple, and the tuples and the states have names of their own. -/
structure OneStateEach (ir : FsmIr) (parent : StateNode) (ir' : FsmIr) : Prop where
  distinct : ∀ tup ∈ productTuples (regionsOf ir parent), ∀ tup' ∈ productTuples (regionsOf ir parent),
    tupleToName parent.name tup = tupleToName parent.name tup' → tup = tup'
  fresh : ∀ tup ∈ productTuples (regionsOf ir parent), ∀ s ∈ ir.states, s.name ≠ tupleToName parent.name tup
  single : ∀ tup ∈ productTuples (regionsOf ir parent),
    (ir'.states.filter fun s => s.name = tupleToName parent.name tup) = [productNode ir parent.name tup]
  names : ir'.states.map (·.name) = (keptStates ir parent (subStates (regionsOf ir parent))).map (·.name) ++
    (productTuples (regionsOf ir parent)).map (tupleToName parent.name)
  count : ir'.states.length = (keptStates ir parent (subStates (regionsOf ir parent))).length +
    ((regionsOf ir parent).map (·.states.length)).prod

/-! ## Tuples -/

variable (parentName : String) {regions : List RegionInfo}

theorem toList_tupleToName (tup : List String) : (tupleToName parentName tup).toList =
      parentName.toList ++ '_' :: ['_'].intercalate (tup.map String.toList) := by
  unfold tupleToName
  rw [String.toList_append, String.toList_append, String.toList_intercalate, List.append_assoc]
  rfl

theorem product_memberNames (regions : List RegionInfo) :
    product (memberNames regions) = (productTuples regions).map (List.map String.toList) := by
  unfold productTuples
  rw [← product_map, List.map_map]
  rfl

theorem tupleToName_inj {parentName : String} {tup tup' : List String} :
    tupleToName parentName tup = tupleToName parentName tup' ↔
      ['_'].intercalate (tup.map String.toList) = ['_'].intercalate (tup'.map String.toList) := by
  rw [← String.toList_inj, toList_tupleToName, toList_tupleToName, List.append_right_inj, List.cons_inj_right]

theorem distinct_iff (hne : ∀ reg ∈ regions, reg.states ≠ []) (parentName : String) :
    (∀ tup ∈ productTuples regions, ∀ tup' ∈ productTuples regions,
      tupleToName parentName tup = tupleToName parentName tup' → tup = tup') ↔ collidingNames regions = false := by
  have hwords : ∀ words ∈ memberNames regions, words ≠ [] := by
    intro words hwords
    obtain ⟨reg, hreg, rfl⟩ := List.mem_map.mp hwords
    exact fun h => hne reg hreg (List.map_eq_nil_iff.mp h)
  have hinj : Function.Injective (List.map String.toList) := List.map_injective_iff.mpr fun _ _ => String.toList_inj.mp
  unfold collidingNames
  rw [← Bool.not_eq_true, collides_iff hwords, product_memberNames]
  constructor
  · rintro h ⟨_, hr, _, hr', hdiffer, heq⟩
    obtain ⟨tup, htup, rfl⟩ := List.mem_map.mp hr
    obtain ⟨tup', htup', rfl⟩ := List.mem_map.mp hr'
    exact hdiffer (congrArg _ (h tup htup tup' htup' (tupleToName_inj.mpr heq)))
  · intro h tup htup tup' htup' heq
    by_contra hdiffer
    exact h ⟨_, List.mem_map_of_mem htup, _, List.mem_map_of_mem htup', fun hsame => hdiffer (hinj hsame),
      tupleToName_inj.mp heq⟩

theorem fresh_iff {ir : FsmIr} {parentName : String} :
    (∀ tup ∈ productTuples regions, ∀ s ∈ ir.states, s.name ≠ tupleToName parentName tup) ↔
      takenName ir parentName regions = false := by
  unfold takenName
  rw [← Bool.not_eq_true, List.any_eq_true]
  simp only [any_beyond, spells_iff, product_memberNames]
  constructor
  · rintro h ⟨s, hs, rest, hname, _, hr, rfl⟩
    obtain ⟨tup, htup, rfl⟩ := List.mem_map.mp hr
    refine h tup htup s hs ?_
    rw [← String.toList_inj, hname, toList_tupleToName]
  · intro h tup htup s hs heq
    refine h ⟨s, hs, _, ?_, _, List.mem_map_of_mem htup, rfl⟩
    rw [heq, toList_tupleToName]

/-! ## The expansion -/

theorem nodup_eraseDups {α : Type*} [DecidableEq α] : ∀ l : List α, l.eraseDups.Nodup
  | [] => by simp
  | a :: l => by
    rw [List.eraseDups_cons, List.nodup_cons]
    refine ⟨fun hmem => ?_, nodup_eraseDups _⟩
    have hfilter := (List.mem_filter.mp (List.mem_eraseDups.mp hmem)).2
    simp at hfilter
  termination_by l => l.length
  decreasing_by
    have := List.length_filter_le (fun b => !b == a) l
    simp only [List.length_cons]
    omega

theorem nodup_productTuples (ir : FsmIr) (parent : StateNode) : (productTuples (regionsOf ir parent)).Nodup := by
  refine nodup_product fun states hstates => ?_
  obtain ⟨_, hreg, rfl⟩ := List.mem_map.mp hstates
  obtain ⟨reg, -, rfl⟩ := List.mem_map.mp hreg
  exact nodup_eraseDups _

theorem states_ne_nil_of_withinBound {n : ℕ} : ∀ {regions : List RegionInfo} {total : ℕ},
    withinBound n regions total = true → ∀ reg ∈ regions, reg.states ≠ []
  | [], _, _ => by simp
  | reg :: regions, total, h => by
    unfold withinBound at h
    simp only [Bool.and_eq_true, Bool.not_eq_true', List.isEmpty_eq_false_iff] at h
    intro reg' hreg'
    rcases List.mem_cons.mp hreg' with rfl | hreg'
    · exact h.1.1
    · exact states_ne_nil_of_withinBound h.2 reg' hreg'

theorem tupleToName_ne (tup : List String) : parentName ≠ tupleToName parentName tup := by
  intro h
  have hlength := congrArg List.length (congrArg String.toList h)
  rw [toList_tupleToName, List.length_append, List.length_cons] at hlength
  omega

theorem filter_modifyFirst {α : Type*} {p q : α → Bool} {f : α → α} (hq : ∀ a, p a = true → q a = false)
    (hf : ∀ a, p a = true → q (f a) = false) : ∀ l : List α, (modifyFirst p f l).filter q = l.filter q
  | [] => rfl
  | a :: l => by
    unfold modifyFirst
    split
    · next h =>
        rw [List.filter_cons_of_neg (by simp [hf a h]), List.filter_cons_of_neg (by simp [hq a h])]
    · rw [List.filter_cons, List.filter_cons, filter_modifyFirst hq hf l]

theorem states_of_success {n : ℕ} {ir : FsmIr} {parent : StateNode} (h : (expandParallelState n ir parent).2 = true) :
    withinBound n (regionsOf ir parent) 1 = true ∧ ∃ f : StateNode → StateNode, (∀ s, (f s).name = s.name) ∧
      (expandParallelState n ir parent).1.states = modifyFirst (fun s => s.name = parent.name) f
        (((productTuples (regionsOf ir parent)).map (productNode ir parent.name)).foldl addState
          (keptStates ir parent (subStates (regionsOf ir parent)))) := by
  unfold expandParallelState at h ⊢
  dsimp only at h ⊢
  split at h
  · cases h
  · next hgo =>
      have hbound : withinBound n (regionsOf ir parent) 1 = true := by
        simpa using fun hb => hgo (Or.inr hb)
      refine ⟨hbound, ?_⟩
      rw [if_neg hgo]
      split at h
      · cases h
      · exact ⟨fun s =>
          { s with
            kind := .composite
            isComposite := true
            initialSubState := tupleToName parent.name ((regionsOf ir parent).map (·.initialState))
            orthogonalRegions := [] }, fun _ => rfl, rfl⟩

/-- A successful expansion adds one state for each tuple if and only if the names of the members do not collide
and no state has the name of a tuple. -/
theorem oneStateEach_iff {n : ℕ} {ir : FsmIr} {parent : StateNode} (h : (expandParallelState n ir parent).2 = true) :
    OneStateEach ir parent (expandParallelState n ir parent).1 ↔
      collidingNames (regionsOf ir parent) = false ∧ takenName ir parent.name (regionsOf ir parent) = false := by
  obtain ⟨hbound, f, hf, hstates⟩ := states_of_success h
  rw [← distinct_iff (states_ne_nil_of_withinBound hbound) parent.name, ← fresh_iff]
  refine ⟨fun hone => ⟨hone.distinct, hone.fresh⟩, ?_⟩
  rintro ⟨hdistinct, hfresh⟩
  have htuples := nodup_productTuples ir parent
  have hname : ∀ tup, (productNode ir parent.name tup).name = tupleToName parent.name tup := fun _ => rfl
  have hkept : ∀ tup ∈ productTuples (regionsOf ir parent),
      ∀ s ∈ keptStates ir parent (subStates (regionsOf ir parent)), s.name ≠ tupleToName parent.name tup :=
    fun tup htup s hs => hfresh tup htup s (List.mem_filter.mp hs).1
  have hnames : (((productTuples (regionsOf ir parent)).map (productNode ir parent.name)).map (·.name)).Nodup := by
    rw [List.map_map]
    exact htuples.map_on hdistinct
  have hadded : ((productTuples (regionsOf ir parent)).map (productNode ir parent.name)).foldl addState
      (keptStates ir parent (subStates (regionsOf ir parent))) =
        keptStates ir parent (subStates (regionsOf ir parent)) ++
          (productTuples (regionsOf ir parent)).map (productNode ir parent.name) := by
    refine foldl_addState hnames fun node hnode s hs => ?_
    obtain ⟨tup, htup, rfl⟩ := List.mem_map.mp hnode
    exact hkept tup htup s hs
  rw [hadded] at hstates
  have hallNames : (expandParallelState n ir parent).1.states.map (·.name) =
      (keptStates ir parent (subStates (regionsOf ir parent))).map (·.name) ++
        (productTuples (regionsOf ir parent)).map (tupleToName parent.name) := by
    rw [hstates, map_modifyFirst hf, List.map_append, List.map_map]
    rfl
  refine ⟨hdistinct, hfresh, fun tup htup => ?_, hallNames, ?_⟩
  · have hother : ∀ s : StateNode, decide (s.name = parent.name) = true →
        decide (s.name = tupleToName parent.name tup) = false := by
      intro s hs
      rw [of_decide_eq_true hs]
      exact decide_eq_false (tupleToName_ne parent.name tup)
    rw [hstates, filter_modifyFirst hother fun s hs => hother (f s) (by rwa [hf]), List.filter_append,
      List.filter_eq_nil_iff.mpr fun s hs => by simpa using hkept tup htup s hs, List.nil_append, List.filter_map]
    have hsame : (productTuples (regionsOf ir parent)).filter
        ((fun s : StateNode => decide (s.name = tupleToName parent.name tup)) ∘ productNode ir parent.name) =
          (productTuples (regionsOf ir parent)).filter (· = tup) := by
      refine List.filter_congr fun tup' htup' => ?_
      exact decide_eq_decide.mpr ⟨hdistinct tup' htup' tup htup, fun heq => congrArg (tupleToName parent.name) heq⟩
    rw [hsame, List.filter_eq, List.count_eq_one_of_mem htuples htup]
    rfl
  · have hlength := congrArg List.length hallNames
    rw [List.length_map, List.length_append, List.length_map, List.length_map] at hlength
    rw [hlength]
    unfold productTuples
    rw [length_product, List.map_map]
    rfl

/-! ## Two machines -/

/-- A composite `P` with two regions. -/
def twin (first second : List String) : StateNode :=
  { id := "P", name := "P", kind := .parallel, isComposite := true
    orthogonalRegions := [{ name := "r", stateIds := first }, { name := "s", stateIds := second }] }

/-- The machine of a composite with two regions. -/
def dualMachine (first second : List String) : FsmIr where
  states := twin first second :: (first ++ second).map fun name => { id := name, name := name, parentState := "P" }

/-- Each tuple of members without underscores gets a state of its own. -/
theorem channels_oneStateEach : OneStateEach (dualMachine ["A1", "A2"] ["B1", "B2"]) (twin ["A1", "A2"] ["B1", "B2"])
    (expandParallelState 1024 (dualMachine ["A1", "A2"] ["B1", "B2"]) (twin ["A1", "A2"] ["B1", "B2"])).1 :=
  (oneStateEach_iff (by decide +kernel)).mpr ⟨by decide +kernel, by decide +kernel⟩

/-- The members `A` and `B_C` give the name that `A_B` and `C` give, and the expansion succeeds with three states. -/
theorem shared_not_oneStateEach : ¬ ∀ (n : ℕ) (ir : FsmIr), ∀ parent ∈ ir.states,
    (expandParallelState n ir parent).2 = true → OneStateEach ir parent (expandParallelState n ir parent).1 := by
  intro h
  have hone := h 1024 (dualMachine ["A", "A_B"] ["B_C", "C"]) (twin ["A", "A_B"] ["B_C", "C"])
    List.mem_cons_self (by decide +kernel)
  have hsame := hone.distinct ["A", "B_C"] (by decide +kernel) ["A_B", "C"] (by decide +kernel) (by decide +kernel)
  exact absurd hsame (by decide)

end Fsmc.Passes.OrthogonalProduct
