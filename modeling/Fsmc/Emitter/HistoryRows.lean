/-
# Fsmc.Emitter.HistoryRows — rows that restore a recorded substate.

A transition into a composite state with a history has a row for each substate that may be recorded, and the row
of the default leaf behind them. The rows of a shallow history go to the direct children themselves. What a row
asks for is the state that was active at the last transition out of a state inside the composite.
-/
import Fsmc.Backend.LastLeft
import Fsmc.Emitter.InnerFirst

namespace Fsmc.Emitter

open Fsmc.Ir Fsmc.Backend Fsmc.Runtime Fsmc.Cpp Fsmc.Lib.Ancestry

variable {σ : Signature} {ir : FsmIr}

/-! ## Leaves -/

/-- A state without states inside it. -/
def IsAtomic (ir : FsmIr) (stateName : String) : Prop :=
  ∃ s, ir.findState stateName = some s ∧ s.isComposite = false

/-- Where a composite state is entered. -/
def initialOf (ir : FsmIr) (stateName : String) : Option String :=
  (ir.findState stateName).bind fun s =>
    if s.isComposite && s.initialSubState ≠ "" then some s.initialSubState else none

/-- Following the initial substates from a state ends in a leaf. -/
inductive EntersAt (ir : FsmIr) : String → String → Prop
  | leaf {s : String} : IsAtomic ir s → EntersAt ir s s
  | inner {s c l : String} : initialOf ir s = some c → EntersAt ir c l → EntersAt ir s l

/-- A hierarchy as the front ends build it: names differ, what has states inside it is a composite state, and
transitions go to states. -/
structure WellNested (ir : FsmIr) : Prop where
  nodup : (ir.states.map (·.name)).Nodup
  named : ∀ s ∈ ir.states, s.name ≠ ""
  nested : ∀ s ∈ ir.states, s.parentState ≠ "" → ∃ p ∈ ir.states, p.name = s.parentState ∧ p.isComposite = true
  ends : ∀ t ∈ ir.transitions, ∃ s ∈ ir.states, s.name = t.target

theorem initialOf_eq_none {s : String} (h : IsAtomic ir s) : initialOf ir s = none := by
  obtain ⟨n, hn, hatomic⟩ := h
  simp [initialOf, hn, hatomic]

theorem mem_of_initialOf {s : String} (h : (initialOf ir s).isSome = true) : s ∈ ir.states.map (·.name) := by
  unfold initialOf at h
  cases hfind : ir.findState s with
  | none => simp [hfind] at h
  | some n =>
    obtain ⟨hmem, hname⟩ := FsmIr.findState_spec hfind
    exact List.mem_map.mpr ⟨n, hmem, hname⟩

theorem EntersAt.atomic {s l : String} (h : EntersAt ir s l) : IsAtomic ir l := by
  induction h with
  | leaf hs => exact hs
  | inner _ _ ih => exact ih

theorem EntersAt.exists_chain {s l : String} (h : EntersAt ir s l) :
    ∃ path, IsChain (initialOf ir) s path ∧ path ⊆ ir.states.map (·.name) ∧
      ∀ n, path.length ≤ n + 1 → findInitialLeafSubstate ir n s = l := by
  induction h with
  | @leaf s hs =>
    obtain ⟨n, hfind, hatomic⟩ := hs
    obtain ⟨hmem, hname⟩ := FsmIr.findState_spec hfind
    refine ⟨[s], .root (initialOf_eq_none ⟨n, hfind, hatomic⟩), ?_, fun k _ => ?_⟩
    · rw [List.cons_subset]
      exact ⟨List.mem_map.mpr ⟨n, hmem, hname⟩, List.nil_subset _⟩
    · cases k with
      | zero => rfl
      | succ k => simp [findInitialLeafSubstate, hfind, hatomic]
  | @inner s c l hinitial _ ih =>
    obtain ⟨path, hpath, hsub, hfind⟩ := ih
    refine ⟨s :: path, .cons hinitial hpath, ?_, fun k hk => ?_⟩
    · rw [List.cons_subset]
      exact ⟨mem_of_initialOf (by rw [hinitial]; rfl), hsub⟩
    · have hpos : 0 < path.length := List.length_pos_of_mem hpath.self_mem
      rw [List.length_cons] at hk
      obtain ⟨k, rfl⟩ : ∃ j, k = j + 1 := ⟨k - 1, by omega⟩
      rw [← hfind k (by omega), findInitialLeafSubstate]
      unfold initialOf at hinitial
      cases hs : ir.findState s with
      | none => simp [hs] at hinitial
      | some n =>
        simp only [hs, Option.bind_some, Option.ite_none_right_eq_some, Option.some.injEq] at hinitial
        obtain ⟨hcomposite, rfl⟩ := hinitial
        simp only [hcomposite, if_true]

theorem EntersAt.findInitialLeafSubstate_eq {s l : String} (h : EntersAt ir s l) :
    findInitialLeafSubstate ir ir.states.length s = l := by
  obtain ⟨path, hpath, hsub, hfind⟩ := h.exists_chain
  have hle := (hpath.nodup.subperm hsub).length_le
  rw [List.length_map] at hle
  exact hfind _ (by omega)

/-! ## The rows of a transition -/

/-- A transition can be taken to a leaf, also by the rows for recorded substates. -/
def Enterable (ir : FsmIr) (t : TransitionEdge) : Prop :=
  ∀ s, ir.findState t.target = some s → s.isComposite = true →
    (∃ l, EntersAt ir t.target l) ∧
      (s.hasHistory = true → s.hasDeepHistory = false →
        ∀ c ∈ ir.states, c.parentState = t.target → c.isComposite = false)

variable {s : StateNode}

theorem isAtomic_of_mem (hnested : WellNested ir) (hs : s ∈ ir.states)
    (hatomic : s.isComposite = false) : IsAtomic ir s.name :=
  ⟨s, FsmIr.findState_name hnested.nodup hs, hatomic⟩

theorem isAtomic_of_mem_deep (hnested : WellNested ir) {sub : String} : ∀ (n : ℕ) (parentName : String),
    sub ∈ getAllSubstates ir true n parentName → IsAtomic ir sub
  | 0, _, h => absurd h List.not_mem_nil
  | n + 1, parentName, h => by
    unfold getAllSubstates at h
    obtain ⟨s, hs, hmem⟩ := List.mem_flatMap.mp h
    split at hmem
    · exact isAtomic_of_mem_deep hnested n s.name hmem
    · rename_i hatomic
      rw [List.mem_singleton.mp hmem]
      exact isAtomic_of_mem hnested (List.mem_of_mem_filter hs) (by simpa using hatomic)

theorem mem_shallow {n : ℕ} {parentName sub : String} : sub ∈ getAllSubstates ir false (n + 1) parentName ↔
      ∃ s ∈ ir.states, s.parentState = parentName ∧ s.name = sub := by
  simp only [getAllSubstates, Bool.false_and, Bool.false_eq_true, if_false, List.mem_flatMap, List.mem_filter,
    decide_eq_true_eq, List.mem_singleton, and_assoc, eq_comm (a := sub)]

variable {t : TransitionEdge}

theorem isAtomic_recordedSubstates (hnested : WellNested ir) (h : Enterable ir t)
    (hs : ir.findState t.target = some s) (hcomposite : s.isComposite = true)
    (hhistory : s.hasHistory = true) {sub : String} (hsub : sub ∈ recordedSubstates ir s) : IsAtomic ir sub := by
  unfold recordedSubstates at hsub
  cases hdeep : s.hasDeepHistory with
  | true =>
    rw [hdeep] at hsub
    exact isAtomic_of_mem_deep hnested _ _ hsub
  | false =>
    rw [hdeep] at hsub
    cases hlength : ir.states.length with
    | zero =>
      rw [hlength] at hsub
      exact absurd hsub List.not_mem_nil
    | succ n =>
      rw [hlength, mem_shallow] at hsub
      obtain ⟨c, hc, hparent, rfl⟩ := hsub
      have hname := (FsmIr.findState_spec hs).2
      exact isAtomic_of_mem hnested hc ((h s hs hcomposite).2 hhistory hdeep c hc (hparent.trans hname))

theorem initialOf_of_entersAt {stateName l : String} (h : EntersAt ir stateName l)
    (hs : ir.findState stateName = some s) (hcomposite : s.isComposite = true) :
    s.initialSubState ≠ "" ∧ EntersAt ir s.initialSubState l := by
  cases h with
  | leaf hatomic =>
    obtain ⟨n, hn, hfalse⟩ := hatomic
    rw [hn] at hs
    cases hs
    rw [hcomposite] at hfalse
    cases hfalse
  | inner hinitial hrest =>
    unfold initialOf at hinitial
    rw [hs] at hinitial
    simp only [Option.bind_some, Option.ite_none_right_eq_some, Option.some.injEq, Bool.and_eq_true,
      decide_eq_true_eq] at hinitial
    obtain ⟨⟨-, hne⟩, rfl⟩ := hinitial
    exact ⟨hne, hrest⟩

theorem plainTarget_of_entersAt {l : String} (h : EntersAt ir t.target l) : plainTarget ir t = l := by
  unfold plainTarget
  cases hs : ir.findState t.target with
  | none =>
    cases h with
    | leaf hatomic => rfl
    | inner hinitial _ => simp [initialOf, hs] at hinitial
  | some s =>
    dsimp only
    cases hcomposite : s.isComposite with
    | true =>
      obtain ⟨hne, hrest⟩ := initialOf_of_entersAt h hs hcomposite
      have hleaf := hrest.findInitialLeafSubstate_eq
      have hdefault : defaultSubstate ir s = l := by
        unfold defaultSubstate
        rw [if_pos hne]
        exact hleaf
      rw [if_pos rfl]
      split
      · exact hdefault
      · exact hleaf
    | false =>
      cases h with
      | leaf _ => rfl
      | inner hinitial _ => simp [initialOf, hs, hcomposite] at hinitial

theorem exists_entersAt (hnested : WellNested ir) (ht : t ∈ ir.transitions)
    (h : Enterable ir t) : ∃ l, EntersAt ir t.target l := by
  obtain ⟨s, hs, hname⟩ := hnested.ends t ht
  have hfind : ir.findState t.target = some s := hname ▸ FsmIr.findState_name hnested.nodup hs
  cases hcomposite : s.isComposite with
  | true => exact (h s hfind hcomposite).1
  | false => exact ⟨t.target, .leaf ⟨s, hfind, hcomposite⟩⟩

theorem mem_historyRows {r : EmittedRow} (h : r ∈ historyRows ir t) :
    ∃ s, ir.findState t.target = some s ∧ s.isComposite = true ∧ s.hasHistory = true ∧
      ∃ sub ∈ recordedSubstates ir s, r = singleRow t sub ((guardType t).withHistory s.name sub) := by
  unfold historyRows at h
  split at h
  · rename_i s hs
    split at h
    · rename_i hboth
      obtain ⟨hcomposite, hhistory⟩ := Bool.and_eq_true_iff.mp hboth
      obtain ⟨sub, hsub, rfl⟩ := List.mem_map.mp h
      exact ⟨s, hs, hcomposite, hhistory, sub, hsub, rfl⟩
    · exact absurd h List.not_mem_nil
  · exact absurd h List.not_mem_nil

theorem isAtomic_target (hnested : WellNested ir) (ht : t ∈ ir.transitions)
    (h : Enterable ir t) {r : EmittedRow} (hr : r ∈ transitionRows ir t) {target : String}
    (htarget : r.target = some target) : IsAtomic ir target := by
  rcases List.mem_append.mp hr with hrecorded | hplain
  · obtain ⟨s, hs, hcomposite, hhistory, sub, hsub, rfl⟩ := mem_historyRows hrecorded
    cases htarget
    exact isAtomic_recordedSubstates hnested h hs hcomposite hhistory hsub
  · obtain ⟨l, hl⟩ := exists_entersAt hnested ht h
    rw [List.mem_singleton] at hplain
    rw [hplain] at htarget
    unfold plainRow at htarget
    split at htarget
    · cases htarget
    · cases htarget
      rw [plainTarget_of_entersAt hl]
      exact hl.atomic

/-! ## What the machine records -/

theorem mem_stableSort {α : Type} {lt : α → α → Bool} {a : α} {l : List α} : a ∈ stableSort lt l ↔ a ∈ l :=
  List.mem_mergeSort

theorem recordable_generated (hnested : WellNested ir) (h : Hierarchy ir) (M : Meaning σ)
    (henter : ∀ t ∈ ir.transitions, Enterable ir t) : (generated h M).Recordable (IsAtomic ir) where
  injective := Function.injective_id
  leaf_named := by
    rintro s ⟨n, hn, -⟩
    obtain ⟨hmem, rfl⟩ := FsmIr.findState_spec hn
    exact hnested.named n hmem
  named := by
    intro s p hp
    show p ≠ ""
    simpa using (Option.filter_eq_some_iff.mp hp).2
  root := id
  resolved := by
    intro s t p _ hnot
    exact ⟨rfl, by rw [← Bool.not_eq_true, isSubstateOf_generated]; exact hnot⟩
  leaf := by
    rintro s p hp ⟨n, hn, hatomic⟩
    obtain ⟨hparent, hne⟩ := Option.filter_eq_some_iff.mp hp
    obtain ⟨c, hc, rfl⟩ := Option.map_eq_some_iff.mp hparent
    obtain ⟨q, hq, hname, hcomposite⟩ := hnested.nested c (FsmIr.findState_spec hc).1 (by simpa using hne)
    rw [← hname, FsmIr.findState_name hnested.nodup hq] at hn
    cases hn
    rw [hcomposite] at hatomic
    cases hatomic
  targets := by
    intro row hrow target action heffect
    obtain ⟨r, hr, rfl⟩ := List.mem_map.mp hrow
    obtain ⟨t, ht, hmem⟩ := List.mem_flatMap.mp hr
    have ht' : t ∈ ir.transitions := mem_stableSort.mp ht
    cases htarget : r.target with
    | none => simp [Meaning.row, htarget] at heffect
    | some target' =>
      simp only [Meaning.row, htarget, Effect.external.injEq] at heffect
      exact heffect.1 ▸ isAtomic_target hnested ht' (henter t ht') hmem htarget

/-! ## Restoring -/

section

variable (h : Hierarchy ir) (M : Meaning σ)

/-- What a history keeps of a leaf inside a composite state: the leaf itself, or the direct child that it is in. -/
def recordOf (s : StateNode) (leaf : String) : Option String :=
  if s.hasDeepHistory then some leaf
  else ((generated h M).chain leaf).find? fun c => parentOf ir c = some s.name

/-- A run of the machine, as its calls tell it. -/
def trackOf (m : Machine (headerSignature σ)) : Track (headerSignature σ) :=
  (generated h M).track (initialLeaf ir) m.calls

/-- The rows of a transition go to leaves, and into a composite state with a history the first enabled one goes to
the leaf of what was active when the composite was last left, or to its default leaf. -/
structure RestoresAt (m : Machine (headerSignature σ)) (t : TransitionEdge) : Prop where
  atomic : ∀ r ∈ transitionRows ir t, ∀ target, r.target = some target → IsAtomic ir target
  restores : ∀ s, ir.findState t.target = some s → s.isComposite = true → s.hasHistory = true →
    ∀ event input, M.evalGuard (guardType t) event input m.reg m.srv m.history = true →
      ∃ r target,
        (transitionRows ir t).find? (fun r => M.evalGuard r.guard event input m.reg m.srv m.history) = some r ∧
          r.target = some target ∧
            EntersAt ir ((((trackOf h M m).left t.target).bind (recordOf h M s)).getD t.target) target

/-- The last transition out of a state inside the composite state started where the one did that left it. -/
def LeftLast (m : Machine (headerSignature σ)) (t : TransitionEdge) : Prop :=
  ∀ s, ir.findState t.target = some s →
    ((trackOf h M m).source t.target).bind (recordOf h M s) =
      ((trackOf h M m).left t.target).bind (recordOf h M s)

end

section

variable {h : Hierarchy ir} {M : Meaning σ} {m : Machine (headerSignature σ)}

theorem evalGuard_withHistory (t : TransitionEdge) (composite sub : String) (event : Event (headerSignature σ))
    (input : σ.InPorts) :
    M.evalGuard ((guardType t).withHistory composite sub) event input m.reg m.srv m.history =
      (M.evalGuard (guardType t) event input m.reg m.srv m.history && historyIs m.history composite sub) := by
  unfold guardType
  split <;> rfl

variable (hP : (generated h M).Recordable (IsAtomic ir))

include hP

theorem historyIs_iff (hfollowed : (generated h M).Followed (IsAtomic ir) (initialLeaf ir) m)
    (composite sub : String) :
    historyIs m.history composite sub = true ↔ ∃ s, (trackOf h M m).source composite = some s ∧
      sub ∈ (generated h M).chain s ∧ composite ∈ (generated h M).ancestors sub := by
  have hloop := hfollowed.historyLoop_eq hP composite sub
  have hname : (generated h M).name composite = composite := rfl
  rw [hname] at hloop
  unfold historyIs
  rw [hloop, Option.getD_some, decide_eq_true_eq]
  refine exists_congr fun s => and_congr_right fun hs => ?_
  have hmem : composite ∈ (generated h M).chain s :=
    (generated h M).chain_eq_cons s ▸ List.mem_cons_of_mem _ (hfollowed.source composite s hs).1
  rw [← Program.mem_inside hmem]
  simp [generated]

theorem mem_deep {s : String} (hs : IsAtomic ir s) (l : List String) : ∀ {y : String} {r : List String} (n : ℕ),
    (generated h M).chain s = l ++ y :: r → l ≠ [] → l.length ≤ n → s ∈ getAllSubstates ir true n y := by
  induction l using List.reverseRecOn with
  | nil => exact fun _ _ hne => absurd rfl hne
  | append_singleton l x ih =>
    intro y r n hsplit _ hn
    rw [List.length_append, List.length_singleton] at hn
    obtain ⟨n, rfl⟩ : ∃ k, n = k + 1 := ⟨n - 1, by omega⟩
    rw [List.append_assoc, List.singleton_append] at hsplit
    have hparent : parentOf ir x = some y := (hsplit ▸ isChain_generated h M s).parent_of_split
    obtain ⟨hname, -⟩ := Option.filter_eq_some_iff.mp hparent
    obtain ⟨c, hc, hcy⟩ := Option.map_eq_some_iff.mp hname
    obtain ⟨hmem, rfl⟩ := FsmIr.findState_spec hc
    unfold getAllSubstates
    refine List.mem_flatMap.mpr ⟨c, List.mem_filter.mpr ⟨hmem, by simpa using hcy⟩, ?_⟩
    rcases List.eq_nil_or_concat l with rfl | ⟨l', z, rfl⟩
    · rw [(generated h M).chain_eq_cons, List.nil_append] at hsplit
      obtain ⟨rfl, -⟩ := List.cons.inj hsplit
      obtain ⟨n', hn', hatomic⟩ := hs
      rw [hc] at hn'
      cases hn'
      simp [hatomic]
    · have hcomposite : c.isComposite = true := by
        by_contra hno
        have hinner := isChain_generated h M s
        rw [hsplit, List.concat_eq_append, List.append_assoc, List.singleton_append] at hinner
        exact hP.leaf (s := z) hinner.parent_of_split ⟨c, hc, by simpa using hno⟩
      simp only [hcomposite, Bool.and_true, if_true]
      exact ih n hsplit (by simp) (by omega)

omit hP in
theorem mem_states_of_ancestor {composite x : String} (hx : composite ∈ (generated h M).ancestors x) :
    x ∈ ir.states.map (·.name) := by
  cases hp : (generated h M).parent x with
  | none =>
    rw [(generated h M).ancestors_of_none hp] at hx
    exact absurd hx List.not_mem_nil
  | some p =>
    obtain ⟨hname, -⟩ := Option.filter_eq_some_iff.mp hp
    obtain ⟨c, hc, -⟩ := Option.map_eq_some_iff.mp hname
    obtain ⟨hmem, hcx⟩ := FsmIr.findState_spec hc
    exact List.mem_map.mpr ⟨c, hmem, hcx⟩

theorem recordOf_spec (hnested : WellNested ir) {composite leaf : String} {s : StateNode}
    (hs : ir.findState composite = some s) (hleaf : IsAtomic ir leaf)
    (hmem : composite ∈ (generated h M).ancestors leaf) :
    ∃ sub, recordOf h M s leaf = some sub ∧ sub ∈ recordedSubstates ir s ∧
      ∀ x ∈ recordedSubstates ir s,
        (x ∈ (generated h M).chain leaf ∧ composite ∈ (generated h M).ancestors x) ↔ x = sub := by
  have hname := (FsmIr.findState_spec hs).2
  have hchain : composite ∈ (generated h M).chain leaf :=
    (generated h M).chain_eq_cons leaf ▸ List.mem_cons_of_mem _ hmem
  cases hdeep : s.hasDeepHistory with
  | true =>
    refine ⟨leaf, by rw [recordOf, if_pos hdeep], ?_, fun x hx => ⟨fun hboth => ?_, ?_⟩⟩
    · have hinside : leaf ∈ (generated h M).inside composite leaf :=
        ((generated h M).mem_inside hchain).mpr ⟨(generated h M).self_mem_chain leaf, hmem⟩
      have hsplit := (generated h M).inside_append_chain hchain
      rw [(generated h M).chain_eq_cons composite] at hsplit
      have hsub : (generated h M).inside composite leaf ⊆ ir.states.map (·.name) := fun x hx =>
        mem_states_of_ancestor (((generated h M).mem_inside hchain).mp hx).2
      have hnodup : ((generated h M).inside composite leaf).Nodup :=
        ((generated h M).chain_nodup leaf).sublist (List.takeWhile_sublist _)
      have hle := (hnodup.subperm hsub).length_le
      rw [List.length_map] at hle
      unfold recordedSubstates
      rw [hdeep, hname]
      exact mem_deep hP hleaf _ _ hsplit.symm (List.ne_nil_of_mem hinside) hle
    -- what is around the leaf is no leaf
    · rw [(generated h M).chain_eq_cons, List.mem_cons] at hboth
      refine hboth.1.resolve_right fun habove => ?_
      obtain ⟨c, -, hc⟩ := (generated h M).exists_child habove
      unfold recordedSubstates at hx
      rw [hdeep] at hx
      exact hP.leaf hc (isAtomic_of_mem_deep hnested _ _ hx)
    · rintro rfl
      exact ⟨(generated h M).self_mem_chain x, hmem⟩
  | false =>
    obtain ⟨c, hc, hparent⟩ := (generated h M).exists_child hmem
    have hfound : ((generated h M).chain leaf).find? (fun c => parentOf ir c = some s.name) = some c := by
      rw [hname]
      cases hfind : ((generated h M).chain leaf).find? (fun c => parentOf ir c = some composite) with
      | none =>
        have hnone := List.find?_eq_none.mp hfind c hc
        exact absurd (decide_eq_true hparent) hnone
      | some c' =>
        have hparent' : parentOf ir c' = some composite := by simpa using List.find?_some hfind
        rw [(generated h M).child_unique (List.mem_of_find?_eq_some hfind) hc hparent' hparent]
    have hlength : ∃ n, ir.states.length = n + 1 :=
      Nat.exists_eq_succ_of_ne_zero (List.ne_nil_iff_length_pos.mp
        (List.ne_nil_of_mem (FsmIr.findState_spec hs).1)).ne'
    obtain ⟨n, hn⟩ := hlength
    have hrecorded : ∀ x, x ∈ recordedSubstates ir s ↔ parentOf ir x = some composite := by
      intro x
      unfold recordedSubstates
      rw [hdeep, hn, mem_shallow, hname]
      have hne : composite ≠ "" := hP.named hparent
      constructor
      · rintro ⟨child, hchild, hin, rfl⟩
        unfold parentOf
        rw [FsmIr.findState_name hnested.nodup hchild, Option.map_some, hin, Option.filter_some]
        simp [hne]
      · intro hx
        obtain ⟨hin, -⟩ := Option.filter_eq_some_iff.mp hx
        obtain ⟨child, hchild, hparent⟩ := Option.map_eq_some_iff.mp hin
        obtain ⟨hmem, hchildname⟩ := FsmIr.findState_spec hchild
        exact ⟨child, hmem, hparent, hchildname⟩
    refine ⟨c, by rw [recordOf, if_neg (by simp [hdeep]), hfound], (hrecorded c).mpr hparent,
      fun x hx => ⟨fun hboth => ?_, ?_⟩⟩
    · exact (generated h M).child_unique hboth.1 hc ((hrecorded x).mp hx) hparent
    · rintro rfl
      refine ⟨hc, ?_⟩
      rw [(generated h M).ancestors_of_some hparent]
      exact (generated h M).self_mem_chain composite

/-- The first enabled row goes where the last transition out of a state inside the composite state started. -/
theorem find?_transitionRows (hnested : WellNested ir) {t : TransitionEdge} (ht : t ∈ ir.transitions)
    (henter : Enterable ir t) (hfollowed : (generated h M).Followed (IsAtomic ir) (initialLeaf ir) m)
    {s : StateNode} (hs : ir.findState t.target = some s) (hcomposite : s.isComposite = true)
    (hhistory : s.hasHistory = true) (event : Event (headerSignature σ)) (input : σ.InPorts)
    (hguard : M.evalGuard (guardType t) event input m.reg m.srv m.history = true) :
    ∃ r target,
      (transitionRows ir t).find? (fun r => M.evalGuard r.guard event input m.reg m.srv m.history) = some r ∧
        r.target = some target ∧
          EntersAt ir ((((trackOf h M m).source t.target).bind (recordOf h M s)).getD t.target) target := by
  have hname := (FsmIr.findState_spec hs).2
  have hrows : historyRows ir t =
      (recordedSubstates ir s).map fun sub => singleRow t sub ((guardType t).withHistory t.target sub) := by
    unfold historyRows
    simp only [hs, hcomposite, hhistory, Bool.and_self, if_true, hname]
  have henabled : (fun r => M.evalGuard r.guard event input m.reg m.srv m.history) ∘
      (fun sub => singleRow t sub ((guardType t).withHistory t.target sub)) = historyIs m.history t.target := by
    funext sub
    simp only [Function.comp_apply, singleRow]
    rw [evalGuard_withHistory, hguard, Bool.true_and]
  unfold transitionRows
  rw [List.find?_append, hrows, List.find?_map, henabled]
  cases hsource : (trackOf h M m).source t.target with
  | none =>
    have hnone : (recordedSubstates ir s).find? (historyIs m.history t.target) = none := by
      refine List.find?_eq_none.mpr fun sub _ hfound => ?_
      obtain ⟨leaf, hleaf, -⟩ := (historyIs_iff hP hfollowed t.target sub).mp hfound
      rw [hsource] at hleaf
      cases hleaf
    obtain ⟨l, hl⟩ := exists_entersAt hnested ht henter
    have hplain : plainRow ir t = singleRow t l (guardType t) := by
      have hinto : intoComposite ir t = true := by
        unfold intoComposite
        rw [hs]
        exact hcomposite
      unfold plainRow
      rw [hinto, Bool.not_true, Bool.and_false, plainTarget_of_entersAt hl]
      rfl
    refine ⟨singleRow t l (guardType t), l, ?_, rfl, hl⟩
    rw [hnone, hplain]
    simp [singleRow, hguard]
  | some leaf =>
    obtain ⟨hmem, hleaf, -⟩ := hfollowed.source t.target leaf hsource
    obtain ⟨sub, hrecord, hsub, hunique⟩ := recordOf_spec hP hnested hs hleaf hmem
    have hfound : ∀ x ∈ recordedSubstates ir s, historyIs m.history t.target x = true ↔ x = sub := by
      intro x hx
      rw [historyIs_iff hP hfollowed, ← hunique x hx]
      constructor
      · rintro ⟨leaf', hleaf', hboth⟩
        cases hsource.symm.trans hleaf'
        exact hboth
      · exact fun hboth => ⟨leaf, hsource, hboth⟩
    have hfirst : (recordedSubstates ir s).find? (historyIs m.history t.target) = some sub := by
      cases hfind : (recordedSubstates ir s).find? (historyIs m.history t.target) with
      | none => exact absurd ((hfound sub hsub).mpr rfl) (List.find?_eq_none.mp hfind sub hsub)
      | some x => rw [(hfound x (List.mem_of_find?_eq_some hfind)).mp (List.find?_some hfind)]
    refine ⟨singleRow t sub ((guardType t).withHistory t.target sub), sub, ?_, rfl, ?_⟩
    · rw [hfirst]
      rfl
    · rw [Option.bind_some, hrecord, Option.getD_some]
      exact .leaf (isAtomic_recordedSubstates hnested henter hs hcomposite hhistory hsub)

end

/-! ## Runs -/

/-- In every run and for every transition, the rows restore what was active when the composite state was last
left. -/
def RestoresHistory (σ : Signature) (h : Hierarchy ir) : Prop :=
  ∀ (M : Meaning σ) (reg : σ.Registers) (srv : σ.Services) (ops : List (MachineOp (headerSignature σ))),
    ∀ t ∈ ir.transitions,
      RestoresAt h M (ops.foldl (generated h M).operate ((generated h M).construct (initialLeaf ir) () reg srv)) t

/-- The rows restore the history wherever the last transition out of a state inside the composite state is the one
that left it, if all states that can be entered are leaves. -/
theorem restores_run (hnested : WellNested ir) (h : Hierarchy ir) (M : Meaning σ)
    (henter : ∀ t ∈ ir.transitions, Enterable ir t) (hinitial : IsAtomic ir (initialLeaf ir))
    (hstate : initialLeaf ir ∈ (generated h M).states) (reg : σ.Registers) (srv : σ.Services)
    (ops : List (MachineOp (headerSignature σ))) {t : TransitionEdge} (ht : t ∈ ir.transitions)
    (hlast : LeftLast h M
      (ops.foldl (generated h M).operate ((generated h M).construct (initialLeaf ir) () reg srv)) t) :
    RestoresAt h M
      (ops.foldl (generated h M).operate ((generated h M).construct (initialLeaf ir) () reg srv)) t := by
  have hP := recordable_generated hnested h M henter
  have hfollowed := Program.followed_run hP () reg srv hstate hinitial ops
  refine ⟨fun r hr target htarget => isAtomic_target hnested ht (henter t ht) hr htarget, ?_⟩
  intro s hs hcomposite hhistory event input hguard
  rw [← hlast s hs]
  exact find?_transitionRows hP hnested ht (henter t ht) hfollowed hs hcomposite hhistory event input hguard

/-- Only transitions that are taken inside a composite state can make a difference. -/
theorem leftLast_of_outside {h : Hierarchy ir} {M : Meaning σ} {m : Machine (headerSignature σ)}
    (hfollowed : (generated h M).Followed (IsAtomic ir) (initialLeaf ir) m)
    (hout : t.target ∉ (generated h M).ancestors m.state) : LeftLast h M m t := by
  intro s _
  unfold trackOf
  rw [hfollowed.outside t.target hout]

/-! ## A lamp that is switched on again -/

def rise : TransitionEdge := { source := "Low", target := "High", event := "up" }

def turnOff : TransitionEdge := { source := "On", target := "Off", event := "press" }

def turnOn : TransitionEdge := { source := "Off", target := "On", event := "press" }

/-- `High` has a state inside it in the shallow one. -/
def lamp (deep : Bool) : FsmIr :=
  { initialState := "On"
    states :=
      [{ name := "On", isComposite := true, initialSubState := "Low", hasHistory := true, hasDeepHistory := deep },
        { name := "Low", parentState := "On" },
        { name := "High", parentState := "On", isComposite := !deep, initialSubState := if deep then "" else "Max" },
        { name := "Max", parentState := if deep then "" else "High" }, { name := "Off" }]
    transitions := [rise, turnOff, turnOn] }

def lampHierarchy (deep : Bool) : Hierarchy (lamp deep) where
  depth := fun s => if s = "Max" then (if deep then 0 else 2) else if s = "Low" ∨ s = "High" then 1 else 0
  depth_lt := by
    intro s p hp
    obtain ⟨hname, hne⟩ := Option.filter_eq_some_iff.mp hp
    obtain ⟨n, hn, rfl⟩ := Option.map_eq_some_iff.mp hname
    obtain ⟨hmem, rfl⟩ := FsmIr.findState_spec hn
    have hall : ∀ deep : Bool, ∀ n ∈ (lamp deep).states, decide (n.parentState ≠ "") = true →
        (if n.parentState = "Max" then (if deep then 0 else 2)
          else if n.parentState = "Low" ∨ n.parentState = "High" then 1 else 0) <
        if n.name = "Max" then (if deep then 0 else 2) else if n.name = "Low" ∨ n.name = "High" then 1 else 0 := by
      decide +kernel
    exact hall deep n hmem hne

theorem wellNested_lamp (deep : Bool) : WellNested (lamp deep) := by
  cases deep <;> exact ⟨by decide +kernel, by decide +kernel, by decide +kernel, by decide +kernel⟩

theorem enterable_lamp : ∀ t ∈ (lamp true).transitions, Enterable (lamp true) t := by
  intro t ht s hs hcomposite
  have hall : ∀ t ∈ (lamp true).transitions, ∀ s, (lamp true).findState t.target = some s →
      s.isComposite = true → t.target = "On" ∧ s.hasDeepHistory = true := by
    decide +kernel
  obtain ⟨htarget, hdeep⟩ := hall t ht s hs hcomposite
  refine ⟨⟨"Low", ?_⟩, fun _ hshallow => ?_⟩
  · rw [htarget]
    exact .inner (c := "Low") rfl (.leaf ⟨_, rfl, rfl⟩)
  · rw [hdeep] at hshallow
    cases hshallow

theorem lamp_not_restoresHistory :
    WellNested (lamp false) ∧ ¬ RestoresHistory Signature.small (lampHierarchy false) := by
  refine ⟨wellNested_lamp false, fun hall => ?_⟩
  have hrows := (hall ⟨fun _ _ _ _ _ => true, fun _ _ _ d => d⟩ 0 () [] turnOn (by simp [lamp])).atomic
  obtain ⟨s, hs, hatomic⟩ := hrows _ (List.mem_of_getElem? (i := 1) rfl) "High" rfl
  cases hs
  cases hatomic

/-- The guards hold, and the actions do nothing. -/
def quiet : Meaning Signature.small := ⟨fun _ _ _ _ _ => true, fun _ _ _ d => d⟩

/-- The lamp is turned up and off. -/
def usage : List (MachineOp (headerSignature Signature.small)) :=
  [.dispatch ⟨"up", ()⟩ none, .dispatch ⟨"press", ()⟩ none]

theorem generated_lamp : generated (lampHierarchy true) quiet = { generated (lampHierarchy true) quiet with
      rows := ((lamp true).transitions.flatMap (transitionRows (lamp true))).map quiet.row } := by
  have hprinted : printedTransitions (lamp true) = (lamp true).transitions :=
    printedTransitions_of_unprioritized (by decide +kernel)
  have hrows : ((lamp true).transitions.flatMap (transitionRows (lamp true))).map quiet.row =
      (generated (lampHierarchy true) quiet).rows := by
    rw [← hprinted]
    rfl
  rw [hrows]

theorem lamp_restores : RestoresAt (lampHierarchy true) quiet
    (usage.foldl (generated (lampHierarchy true) quiet).operate
      ((generated (lampHierarchy true) quiet).construct (initialLeaf (lamp true)) () 0 ())) turnOn := by
  have hinitial : IsAtomic (lamp true) (initialLeaf (lamp true)) := ⟨{ name := "Low", parentState := "On" }, rfl, rfl⟩
  have hstate : initialLeaf (lamp true) ∈ (generated (lampHierarchy true) quiet).states := by
    rw [generated_lamp]
    decide +kernel
  have hP := recordable_generated (wellNested_lamp true) (lampHierarchy true) quiet enterable_lamp
  have hoff : (usage.foldl (generated (lampHierarchy true) quiet).operate
      ((generated (lampHierarchy true) quiet).construct (initialLeaf (lamp true)) () 0 ())).state = "Off" := by
    rw [generated_lamp]
    decide +kernel
  refine restores_run (wellNested_lamp true) (lampHierarchy true) quiet enterable_lamp hinitial hstate 0 () usage
    (by simp [lamp]) (leftLast_of_outside (Program.followed_run hP () 0 () hstate hinitial usage) ?_)
  rw [hoff]
  decide +kernel

end Fsmc.Emitter
