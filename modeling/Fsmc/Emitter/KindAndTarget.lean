/-
# Fsmc.Emitter.KindAndTarget — what the rows of a transition keep of it.

The emitter looks first at whether the target of a transition is a composite state and only then at the kind of
the transition. Below a composite it follows the initial substates to a leaf and, for the history, collects the
substates; neither recursion remembers where it was. An internal row changes nothing but the data.
-/
import Fsmc.Backend.HookBalance
import Fsmc.Emitter.HistoryRows
import Fsmc.Lib.LongestWalk
import Fsmc.Lib.UpwardWalk

namespace Fsmc.Emitter

open Fsmc.Ir Fsmc.Backend Fsmc.Runtime Fsmc.Cpp Fsmc.Lib.Ancestry Fsmc.Lib.UpwardWalk Fsmc.Lib.LongestWalk Relation

/-! ## The recursions of the emitter -/

/-- `find_initial_leaf_substate`; `none` when it takes more calls than given. -/
def findInitialLeaf (ir : FsmIr) : ℕ → String → Option String
  | 0, _ => none
  | n + 1, stateName =>
    match ir.findState stateName with
    | some s =>
      if s.isComposite && s.initialSubState ≠ "" then findInitialLeaf ir n s.initialSubState
      else some stateName
    | none => some stateName

/-- `get_all_substates`; `none` when it takes more calls than given. -/
def allSubstates (ir : FsmIr) (deep : Bool) : ℕ → String → Option (List String)
  | 0, _ => none
  | n + 1, parentName =>
    ((ir.states.filter fun s => s.parentState = parentName).mapM fun s =>
      if deep && s.isComposite then allSubstates ir deep n s.name else some [s.name]).map List.flatten

/-- The rows of a transition, as far as the recursions come with the calls given. -/
def emitRows (ir : FsmIr) (n : ℕ) (t : TransitionEdge) : Option (List EmittedRow) :=
  let plain := if t.kind = .internal then internalRow t else singleRow t t.target (guardType t)
  match ir.findState t.target with
  | none => some [plain]
  | some s =>
    if s.isComposite then
      (allSubstates ir s.hasDeepHistory n s.name).bind fun subs =>
        if s.hasHistory && !subs.isEmpty then
          (findInitialLeaf ir n (if s.initialSubState ≠ "" then s.initialSubState else subs.headD "")).map fun leaf =>
            (subs.map fun sub => singleRow t sub ((guardType t).withHistory s.name sub)) ++
              [singleRow t leaf (guardType t)]
        else if s.initialSubState ≠ "" then
          (findInitialLeaf ir n s.initialSubState).map fun leaf => [singleRow t leaf (guardType t)]
        else some [singleRow t t.target (guardType t)]
    else some [plain]

/-- `emit_transition_table`, as far as the recursions come. -/
def emitTable (ir : FsmIr) (n : ℕ) : Option (List EmittedRow) :=
  ((printedTransitions ir).mapM (emitRows ir n)).map List.flatten

/-! ## The way to the leaf -/

/-- The initial substates lead from a state to another, where they end. -/
def LeadsTo (ir : FsmIr) (s leaf : String) : Prop := OnWay (initialOf ir) (some s) leaf ∧ initialOf ir leaf = none

variable {ir : FsmIr}

theorem findInitialLeaf_succ (n : ℕ) (s : String) : findInitialLeaf ir (n + 1) s =
      match initialOf ir s with
      | some c => findInitialLeaf ir n c
      | none => some s := by
  rw [findInitialLeaf]
  unfold initialOf
  cases ir.findState s with
  | none => rfl
  | some m =>
    by_cases hm : (m.isComposite && decide (m.initialSubState ≠ "")) = true
    · simp only [Option.bind_some, if_pos hm]
    · simp only [Option.bind_some, if_neg hm]

theorem findInitialLeafSubstate_succ (n : ℕ) (s : String) : findInitialLeafSubstate ir (n + 1) s =
      match initialOf ir s with
      | some c => findInitialLeafSubstate ir n c
      | none => s := by
  rw [findInitialLeafSubstate]
  unfold initialOf
  cases ir.findState s with
  | none => rfl
  | some m =>
    by_cases hm : (m.isComposite && decide (m.initialSubState ≠ "")) = true
    · simp only [Option.bind_some, if_pos hm]
    · simp only [Option.bind_some, if_neg hm]

variable {s : String} {t : TransitionEdge}

theorem descent_of_isChain {path : List String} (h : IsChain (initialOf ir) s path) :
    ∃ leaf, LeadsTo ir s leaf ∧ (∀ n, path.length ≤ n → findInitialLeaf ir n s = some leaf) ∧
      ∀ n, path.length ≤ n + 1 → findInitialLeafSubstate ir n s = leaf := by
  induction h with
  | @root s hs =>
    refine ⟨s, ⟨.self s, hs⟩, fun n hn => ?_, fun n _ => ?_⟩
    · obtain ⟨m, rfl⟩ : ∃ m, n = m + 1 := ⟨n - 1, by simp at hn; omega⟩
      rw [findInitialLeaf_succ, hs]
    · cases n with
      | zero => rfl
      | succ n => rw [findInitialLeafSubstate_succ, hs]
  | @cons s c path hc hrest ih =>
    obtain ⟨leaf, ⟨hway, hleaf⟩, hfind, hfind'⟩ := ih
    have hpos : 0 < path.length := List.length_pos_of_mem hrest.self_mem
    refine ⟨leaf, ⟨onWay_some.mpr (.inr (hc ▸ hway)), hleaf⟩, fun n hn => ?_, fun n hn => ?_⟩
    · rw [List.length_cons] at hn
      obtain ⟨m, rfl⟩ : ∃ m, n = m + 1 := ⟨n - 1, by omega⟩
      rw [findInitialLeaf_succ, hc]
      exact hfind m (by omega)
    · rw [List.length_cons] at hn
      obtain ⟨m, rfl⟩ : ∃ m, n = m + 1 := ⟨n - 1, by omega⟩
      rw [findInitialLeafSubstate_succ, hc]
      exact hfind' m (by omega)

theorem descent_ends (h : ¬ IntoCycle (initialOf ir) (some s)) :
    LeadsTo ir s (findInitialLeafSubstate ir ir.states.length s) ∧ ∀ n, ir.states.length < n →
      findInitialLeaf ir n s = some (findInitialLeafSubstate ir ir.states.length s) := by
  have hnodes : ∀ b, (initialOf ir b).isSome = true → b ∈ ir.states.map (·.name) := fun b hb => mem_of_initialOf hb
  have htargets : ∀ a b, initialOf ir a = some b → b ∈ ir.states.map (·.initialSubState) := by
    intro a b hb
    obtain ⟨m, hm, hinitial⟩ := Option.bind_eq_some_iff.mp hb
    obtain ⟨-, rfl⟩ := Option.ite_none_right_eq_some.mp hinitial |>.imp_right Option.some.inj
    exact List.mem_map_of_mem (FsmIr.findState_spec hm).1
  have hends : Ends (initialOf ir) (fun _ => false) (some s) :=
    (ends_iff htargets (some s)).mpr fun hc => absurd hc h
  obtain ⟨path, hpath⟩ := exists_isChain hends
  have hle := hpath.length_le hnodes
  rw [List.length_map] at hle
  obtain ⟨leaf, hleads, hfind, hfind'⟩ := descent_of_isChain hpath
  rw [hfind' _ hle]
  exact ⟨hleads, fun n hn => hfind n (by omega)⟩

/-! ## The substates of a history -/

/-- A composite state directly below another. -/
def Nested (ir : FsmIr) (p c : String) : Prop :=
  ∃ s ∈ ir.states, s.parentState = p ∧ s.isComposite = true ∧ s.name = c

/-- A composite state below which no composite contains itself. -/
def NestsWell (ir : FsmIr) (p : String) : Prop :=
  ∀ c, ReflTransGen (Nested ir) p c → ¬ TransGen (Nested ir) c c

theorem allSubstates_eq : ∀ (n m : ℕ) (p : String), (∀ k, HasWalk (Nested ir) p k → k < n) →
    (∀ k, HasWalk (Nested ir) p k → k < m) → allSubstates ir true n p = some (getAllSubstates ir true m p)
  | 0, _, p, hn, _ => absurd (hn 0 (hasWalk_zero _ p)) (Nat.not_lt_zero 0)
  | _ + 1, 0, p, _, hm => absurd (hm 0 (hasWalk_zero _ p)) (Nat.not_lt_zero 0)
  | n + 1, m + 1, p, hn, hm => by
    have hchildren : ∀ s ∈ ir.states.filter (fun s => s.parentState = p),
        (if true && s.isComposite then allSubstates ir true n s.name else some [s.name]) =
          some (if true && s.isComposite then getAllSubstates ir true m s.name else [s.name]) := by
      intro s hs
      rw [List.mem_filter, decide_eq_true_eq] at hs
      by_cases hcomposite : s.isComposite = true
      · have hnested : Nested ir p s.name := ⟨s, hs.1, hs.2, hcomposite, rfl⟩
        have hrest := allSubstates_eq n m s.name
          (fun k hk => by have := hn (k + 1) (hasWalk_succ.mpr ⟨_, hnested, hk⟩); omega)
          (fun k hk => by have := hm (k + 1) (hasWalk_succ.mpr ⟨_, hnested, hk⟩); omega)
        simp only [hcomposite, Bool.and_self, if_true, hrest]
      · simp [hcomposite]
    rw [allSubstates, mapM_eq_some hchildren, getAllSubstates, Option.map_some, List.flatMap_def]

/-- Without a cycle of composites, a walk among them has fewer steps than there are states. -/
theorem walk_lt {p : String} (hp : p ∈ ir.states.map (·.name)) (h : NestsWell ir p) {k : ℕ}
    (hk : HasWalk (Nested ir) p k) : k < ir.states.length := by
  -- the walk stays where there are no cycles
  have hbelow : ∀ (k : ℕ) (c : String), ReflTransGen (Nested ir) p c → HasWalk (Nested ir) c k →
      HasWalk (fun a b => ReflTransGen (Nested ir) p a ∧ Nested ir a b) c k := by
    intro k
    induction k with
    | zero => exact fun c _ _ => hasWalk_zero _ c
    | succ k ih =>
      intro c hc hwalk
      obtain ⟨d, hd, hrest⟩ := hasWalk_succ.mp hwalk
      exact hasWalk_succ.mpr ⟨d, ⟨hc, hd⟩, ih d (hc.tail hd) hrest⟩
  have hacyclic : ∀ c, ¬ TransGen (fun a b => ReflTransGen (Nested ir) p a ∧ Nested ir a b) c c := by
    intro c hc
    obtain ⟨d, ⟨hreach, _⟩, _⟩ := TransGen.head'_iff.mp hc
    exact h c hreach (TransGen.mono (fun _ _ hab => hab.2) _ _ hc)
  have hclosed : ∀ a ∈ ir.states.map (·.name), ∀ b, ReflTransGen (Nested ir) p a ∧ Nested ir a b →
      b ∈ ir.states.map (·.name) := by
    rintro a _ b ⟨-, s, hs, -, -, rfl⟩
    exact List.mem_map_of_mem hs
  have hlt := (hbelow k p .refl hk).lt_length hacyclic hclosed hp
  rwa [List.length_map] at hlt

theorem substates_end {deep : Bool} {p : String} (hp : p ∈ ir.states.map (·.name))
    (h : deep = true → NestsWell ir p) {n : ℕ} (hn : ir.states.length < n) :
    allSubstates ir deep n p = some (getAllSubstates ir deep ir.states.length p) := by
  cases deep with
  | true =>
    have hlt : ∀ k, HasWalk (Nested ir) p k → k < ir.states.length := fun k hk => walk_lt hp (h rfl) hk
    exact allSubstates_eq n _ p (fun k hk => (hlt k hk).trans hn) hlt
  | false =>
    obtain ⟨s, hs, -⟩ := List.mem_map.mp hp
    have hpos : 0 < ir.states.length := List.length_pos_of_mem hs
    obtain ⟨a, ha⟩ : ∃ a, ir.states.length = a + 1 := ⟨ir.states.length - 1, by omega⟩
    obtain ⟨b, rfl⟩ : ∃ b, n = b + 1 := ⟨n - 1, by omega⟩
    have hchildren : ∀ s ∈ ir.states.filter (fun s => s.parentState = p),
        (if false && s.isComposite then allSubstates ir false b s.name else some [s.name]) =
          some (if false && s.isComposite then getAllSubstates ir false a s.name else [s.name]) :=
      fun s _ => by simp
    rw [ha, allSubstates, mapM_eq_some hchildren, getAllSubstates, Option.map_some, List.flatMap_def]

/-! ## The rows of a transition -/

/-- Where the descent from a composite state begins. -/
def descentStart (ir : FsmIr) (s : StateNode) : String :=
  if s.initialSubState ≠ "" then s.initialSubState
  else if s.hasHistory then (recordedSubstates ir s).headD s.name
  else s.name

/-- The recursions for a transition meet no cycle. -/
def Descends (ir : FsmIr) (t : TransitionEdge) : Prop :=
  ∀ s, ir.findState t.target = some s → s.isComposite = true →
    (s.hasDeepHistory = true → NestsWell ir s.name) ∧ ¬ IntoCycle (initialOf ir) (some (descentStart ir s))

/-- Where a transition enters: a composite state that has a history, substates and no initial one is entered at
the first substate. -/
def entryOf (ir : FsmIr) (t : TransitionEdge) : String :=
  match ir.findState t.target with
  | some s =>
    if s.isComposite && s.hasHistory && s.initialSubState = "" then (recordedSubstates ir s).headD t.target
    else t.target
  | none => t.target

theorem emitRows_eq (h : Descends ir t) {n : ℕ} (hn : ir.states.length < n) :
    emitRows ir n t = some (transitionRows ir t) := by
  unfold emitRows transitionRows historyRows plainRow intoComposite plainTarget
  cases hs : ir.findState t.target with
  | none => by_cases hkind : t.kind = .internal <;> simp [hkind]
  | some s =>
    by_cases hcomposite : s.isComposite = true
    · obtain ⟨hmem, hname⟩ := FsmIr.findState_spec hs
      obtain ⟨hnests, hcycle⟩ := h s hs hcomposite
      have hsubs := substates_end (List.mem_map_of_mem hmem) hnests hn
      have hleaf := (descent_ends hcycle).2 n hn
      by_cases hinitial : s.initialSubState = ""
      · cases hrecorded : getAllSubstates ir s.hasDeepHistory ir.states.length s.name with
        | nil => simp [hcomposite, hsubs, hrecorded, recordedSubstates, hinitial]
        | cons sub subs =>
          by_cases hhistory : s.hasHistory = true
          · have hstart : descentStart ir s = sub := by
              simp [descentStart, hinitial, hhistory, recordedSubstates, hrecorded]
            rw [hstart] at hleaf
            simp [hcomposite, hsubs, hrecorded, recordedSubstates, hinitial, hhistory, hleaf, defaultSubstate]
          · simp [hcomposite, hsubs, hrecorded, hinitial, hhistory]
      · have hstart : descentStart ir s = s.initialSubState := by simp [descentStart, hinitial]
        rw [hstart] at hleaf
        cases hrecorded : getAllSubstates ir s.hasDeepHistory ir.states.length s.name with
        | nil => simp [hcomposite, hsubs, hrecorded, recordedSubstates, hinitial, hleaf]
        | cons sub subs =>
          by_cases hhistory : s.hasHistory = true <;>
            simp [hcomposite, hsubs, hrecorded, recordedSubstates, hinitial, hhistory, hleaf, defaultSubstate]
    · by_cases hkind : t.kind = .internal <;> simp [hcomposite, hkind]

theorem initialOf_eq {name : String} {s : StateNode} (hs : ir.findState name = some s)
    (hcomposite : s.isComposite = true) :
    initialOf ir name = if s.initialSubState ≠ "" then some s.initialSubState else none := by
  simp [initialOf, hs, hcomposite]

theorem leadsTo_self (h : initialOf ir s = none) : LeadsTo ir s s := ⟨.self s, h⟩

theorem LeadsTo.from_composite {s c leaf : String} (hc : initialOf ir s = some c) (h : LeadsTo ir c leaf) :
    LeadsTo ir s leaf := ⟨onWay_some.mpr (.inr (hc ▸ h.1)), h.2⟩

theorem leadsTo_plainTarget (h : Descends ir t) :
    LeadsTo ir (entryOf ir t) (plainTarget ir t) := by
  unfold entryOf plainTarget
  cases hs : ir.findState t.target with
  | none => exact leadsTo_self (by simp [initialOf, hs])
  | some s =>
    by_cases hcomposite : s.isComposite = true
    · have hleads := (descent_ends (h s hs hcomposite).2).1
      have hofTarget := initialOf_eq hs hcomposite
      by_cases hinitial : s.initialSubState = ""
      · by_cases hhistory : s.hasHistory = true
        · cases hrecorded : recordedSubstates ir s with
          | nil =>
            have hself : LeadsTo ir t.target t.target := leadsTo_self (by simp [hofTarget, hinitial])
            simpa [hcomposite, hinitial, hhistory, hrecorded] using hself
          | cons sub subs =>
            simpa [hcomposite, hinitial, hhistory, hrecorded, descentStart, defaultSubstate] using hleads
        · have hself : LeadsTo ir t.target t.target := leadsTo_self (by simp [hofTarget, hinitial])
          simpa [hcomposite, hinitial, hhistory] using hself
      · rw [if_pos hinitial] at hofTarget
        simp only [descentStart, ne_eq, hinitial, not_false_eq_true, if_true] at hleads
        have hover := hleads.from_composite hofTarget
        cases hempty : (s.hasHistory && !(recordedSubstates ir s).isEmpty) <;>
          simpa [hcomposite, hinitial, hempty, defaultSubstate] using hover
    · have hself : LeadsTo ir t.target t.target := leadsTo_self (by simp [initialOf, hs, hcomposite])
      simpa [hcomposite] using hself

theorem transitionRows_of_internal (hkind : t.kind = .internal)
    (htarget : intoComposite ir t = false) : transitionRows ir t = [internalRow t] := by
  have hhistory : historyRows ir t = [] := by
    unfold intoComposite at htarget
    unfold historyRows
    cases hs : ir.findState t.target with
    | none => rfl
    | some s =>
      rw [hs] at htarget
      simp [show s.isComposite = false from htarget]
  simp [transitionRows, hhistory, plainRow, hkind, htarget]

/-! ## Execution -/

/-- What an executed row leaves alone: the active state, and all hooks. -/
structure StaysInside {σ : Signature} (P : Program σ) (m : Machine σ) (event : Event σ) (input : σ.InPorts)
    (row : Row σ × ℕ) : Prop where
  state : (P.execute m event input row).state = m.state
  calls : (P.execute m event input row).calls = m.calls ++ [.action row.2]

theorem staysInside_internalRow {σ : Signature} (P : Program (headerSignature σ)) (M : Meaning σ)
    (m : Machine (headerSignature σ)) (event : Event (headerSignature σ)) (input : σ.InPorts)
    (t : TransitionEdge) (index : ℕ) : StaysInside P m event input (M.row (internalRow t), index) where
  state := rfl
  calls := Program.calls_performCurrent m _ _

/-- The kind and the target of the transitions in the table: where the recursions meet no cycle, the table is
printed, an internal transition that leads to no composite state stays inside the active state, an external one
has a row for the leaf, and the descent from any state ends unless the initial substates lead into a cycle. -/
theorem emitted_kind_and_target (ir : FsmIr) (hends : ∀ t ∈ ir.transitions, Descends ir t) :
    (∃ n, emitTable ir n = some (emitTransitionTable ir)) ∧
      (∀ t ∈ ir.transitions, ∀ r ∈ transitionRows ir t, r ∈ emitTransitionTable ir) ∧
      (∀ t ∈ ir.transitions, t.kind = .internal → intoComposite ir t = false →
        transitionRows ir t = [internalRow t] ∧
          ∀ (σ : Signature) (P : Program (headerSignature σ)) (M : Meaning σ) (m : Machine (headerSignature σ))
            (event : Event (headerSignature σ)) (input : σ.InPorts) (index : ℕ),
            StaysInside P m event input (M.row (internalRow t), index)) ∧
      (∀ t ∈ ir.transitions, t.kind = .external → ∃ leaf,
        singleRow t leaf (guardType t) ∈ transitionRows ir t ∧ LeadsTo ir (entryOf ir t) leaf) ∧
      ∀ start, ¬ IntoCycle (initialOf ir) (some start) →
        ∃ n leaf, findInitialLeaf ir n start = some leaf ∧ LeadsTo ir start leaf := by
  have hprinted : ∀ t, t ∈ printedTransitions ir ↔ t ∈ ir.transitions := fun t => Cpp.mem_stableSort
  refine ⟨⟨ir.states.length + 1, ?_⟩, ?_, ?_, ?_, ?_⟩
  · have hrows : ∀ t ∈ printedTransitions ir, emitRows ir (ir.states.length + 1) t = some (transitionRows ir t) :=
      fun t ht => emitRows_eq (hends t ((hprinted t).mp ht)) (Nat.lt_succ_self _)
    rw [emitTable, mapM_eq_some hrows, Option.map_some, emitTransitionTable, List.flatMap_def]
  · intro t ht r hr
    exact List.mem_flatMap.mpr ⟨t, (hprinted t).mpr ht, hr⟩
  · intro t _ hkind htarget
    exact ⟨transitionRows_of_internal hkind htarget, fun σ P M m event input index =>
      staysInside_internalRow P M m event input t index⟩
  · intro t ht hkind
    refine ⟨plainTarget ir t, ?_, leadsTo_plainTarget (hends t ht)⟩
    have hplain : plainRow ir t = singleRow t (plainTarget ir t) (guardType t) := by simp [plainRow, hkind]
    rw [← hplain]
    exact List.mem_append_right _ List.mem_cons_self
  · intro start hstart
    obtain ⟨hleads, hfind⟩ := descent_ends hstart
    exact ⟨_, _, hfind _ (Nat.lt_succ_self _), hleads⟩

/-- The lamp, whose deep history finds no further composite state. -/
theorem lamp_kind_and_target : ∃ n, emitTable (lamp true) n = some (emitTransitionTable (lamp true)) := by
  refine (emitted_kind_and_target (lamp true) ?_).1
  intro t ht s hs hcomposite
  have hon : s.name = "On" ∧ descentStart (lamp true) s = "Low" := by
    have hall : ∀ t ∈ (lamp true).transitions, ∀ s, (lamp true).findState t.target = some s →
        s.isComposite = true → s.name = "On" ∧ descentStart (lamp true) s = "Low" := by
      decide +kernel
    exact hall t ht s hs hcomposite
  constructor
  · rintro -
    have hnone : ∀ c, ¬ Nested (lamp true) "On" c := by
      rintro c ⟨s, hs, hparent, hinner, -⟩
      have hall : ∀ s ∈ (lamp true).states, s.parentState = "On" → s.isComposite = false := by decide +kernel
      rw [hall s hs hparent] at hinner
      cases hinner
    rw [hon.1]
    exact fun c hc => no_cycle_of_no_step hnone hc
  · rw [hon.2]
    have hleaf : initialOf (lamp true) "Low" = none := by decide +kernel
    exact not_intoCycle_of_none hleaf

/-! ## A panel -/

def beep : TransitionEdge := { source := "On", target := "On", event := "beep", kind := .internal }

def openMenu : TransitionEdge := { source := "Low", target := "Menu", event := "open" }

/-- A panel with an internal transition of a composite state, a menu that has a history and no initial page, and
two states that are each other's initial substates. -/
def panel : FsmIr :=
  { initialState := "On"
    states :=
      [{ name := "On", isComposite := true, initialSubState := "Low" }, { name := "Low", parentState := "On" },
        { name := "High", parentState := "On" }, { name := "Menu", isComposite := true, hasHistory := true },
        { name := "Page", parentState := "Menu" },
        { name := "Ping", isComposite := true, initialSubState := "Pong" },
        { name := "Pong", isComposite := true, initialSubState := "Ping" }]
    transitions := [beep, openMenu, { source := "Low", target := "Ping", event := "bounce" }] }

/-- The internal transition is printed with a target and leads from the one substate to the other; no row leads to
where the initial substates of the menu lead; and the descent from the third target does not end. -/
theorem panel_kind_and_target : (emitRows panel 3 beep = some [singleRow beep "Low" .noGuard] ∧
      ∀ (σ : Signature) (P : Program (headerSignature σ)) (M : Meaning σ) (m : Machine (headerSignature σ))
        (event : Event (headerSignature σ)) (input : σ.InPorts) (index : ℕ), m.state = "High" →
          ¬ StaysInside P m event input (M.row (singleRow beep "Low" .noGuard), index)) ∧
      (∃ rows, emitRows panel 3 openMenu = some rows ∧
        ∀ leaf, LeadsTo panel "Menu" leaf → ∀ r ∈ rows, r.target ≠ some leaf) ∧
      ∀ n, findInitialLeaf panel n "Ping" = none := by
  refine ⟨⟨by decide +kernel, ?_⟩, ⟨[singleRow openMenu "Page" (.historyIs "Menu" "Page"),
    singleRow openMenu "Page" .noGuard], by decide +kernel, ?_⟩, ?_⟩
  · intro σ P M m event input index hhigh hstays
    have hlow : (P.execute m event input (M.row (singleRow beep "Low" .noGuard), index)).state = "Low" :=
      P.state_executeExternal m event input index "Low" _
    have hsame := hstays.state
    rw [hlow, hhigh] at hsame
    have hne : ("Low" : String) ≠ "High" := by decide
    exact hne hsame
  · rintro leaf ⟨hway, -⟩ r hr htarget
    have hmenu : initialOf panel "Menu" = none := by decide +kernel
    have hleaf : leaf = "Menu" := hway.eq_of_none hmenu
    have hpages : ∀ r ∈ [singleRow openMenu "Page" (.historyIs "Menu" "Page"),
        singleRow openMenu "Page" .noGuard], r.target = some "Page" := by decide
    rw [hpages r hr, hleaf] at htarget
    exact absurd htarget (by decide)
  · intro n
    have hping : initialOf panel "Ping" = some "Pong" := by decide +kernel
    have hpong : initialOf panel "Pong" = some "Ping" := by decide +kernel
    have hboth : ∀ n, findInitialLeaf panel n "Ping" = none ∧ findInitialLeaf panel n "Pong" = none := by
      intro n
      induction n with
      | zero => exact ⟨rfl, rfl⟩
      | succ n ih =>
        rw [findInitialLeaf_succ, findInitialLeaf_succ, hping, hpong]
        exact ⟨ih.2, ih.1⟩
    exact (hboth n).1

end Fsmc.Emitter
