/-
# Fsmc.Analysis.ValidatedHierarchy — what a model is accepted for.

The validator climbs from each state and remembers where it has been. If none of its climbs comes back or
meets an unknown name, then no later climb that remembers nothing goes on for ever either, as long as it
follows the names of the parents.
-/
import Fsmc.Analysis.FsmValidator

namespace Fsmc.Analysis.FsmValidator

open Fsmc.Ir Fsmc.Lib Fsmc.Lib.Ancestry Fsmc.Lib.UpwardWalk Fsmc.Runtime Fsmc.Passes

variable {ir : FsmIr}

/-! ## The climbs -/

/-- The ancestors of a state are states, come to an end, and the state is none of them. -/
def Grounded (ir : FsmIr) (s : StateNode) : Prop :=
  s.parentState = "" ∨ ∃ p, IsChain (parentOf ir) s.parentState p ∧
    ∀ x ∈ p, x ∉ [s.name] ∧ (ir.findState x).isSome = true

theorem parentOf_of_findState {x : String} {n : StateNode} (h : ir.findState x = some n) :
    parentOf ir x = if n.parentState = "" then none else some n.parentState := by
  unfold parentOf
  rw [h]
  by_cases hp : n.parentState = "" <;> simp [hp]

theorem climb_root_iff {n : ℕ} {visited : List String} {curr : String}
    (hn : missing (ir.states.map (·.name)) (· ∈ visited) < n) : climb ir n visited curr = .root ↔
      curr = "" ∨ ∃ p, IsChain (parentOf ir) curr p ∧ ∀ x ∈ p, x ∉ visited ∧ (ir.findState x).isSome = true := by
  induction n generalizing visited curr with
  | zero => omega
  | succ n ih =>
    rw [climb]
    by_cases hempty : curr = ""
    · simp [hempty]
    rw [if_neg hempty, or_iff_right hempty]
    by_cases hvisited : curr ∈ visited
    · rw [if_pos hvisited]
      exact iff_of_false (by simp) fun ⟨p, hp, hall⟩ => (hall curr hp.self_mem).1 hvisited
    rw [if_neg hvisited]
    cases hfind : ir.findState curr with
    | none =>
      refine iff_of_false (by simp) fun ⟨p, hp, hall⟩ => ?_
      have hknown := (hall curr hp.self_mem).2
      rw [hfind] at hknown
      cases hknown
    | some st =>
      have hparent := parentOf_of_findState hfind
      have hmem : curr ∈ ir.states.map (·.name) := HierarchyWalks.isSome_findState_iff.mp (by rw [hfind]; rfl)
      have hfewer : missing (ir.states.map (·.name)) (· ∈ curr :: visited) <
          missing (ir.states.map (·.name)) (· ∈ visited) :=
        missing_lt (fun _ h => List.mem_cons_of_mem _ h) hmem hvisited List.mem_cons_self
      rw [ih (by omega)]
      by_cases hroot : st.parentState = ""
      · rw [if_pos hroot] at hparent
        exact iff_of_true (.inl hroot) ⟨[curr], .root hparent, by simp [hvisited, hfind]⟩
      rw [if_neg hroot] at hparent
      rw [or_iff_right hroot]
      constructor
      · rintro ⟨p, hp, hall⟩
        refine ⟨curr :: p, .cons hparent hp, fun x hx => ?_⟩
        rcases List.mem_cons.mp hx with rfl | hx
        · exact ⟨hvisited, by rw [hfind]; rfl⟩
        · exact ⟨fun h => (hall x hx).1 (List.mem_cons_of_mem _ h), (hall x hx).2⟩
      · rintro ⟨p, hp, hall⟩
        cases hp with
        | root hnone => rw [hparent] at hnone; cases hnone
        | cons hb hq =>
          obtain rfl := Option.some.inj (hb.symm.trans hparent)
          refine ⟨_, hq, fun x hx => ⟨fun h => ?_, (hall x (List.mem_cons_of_mem _ hx)).2⟩⟩
          rcases List.mem_cons.mp h with rfl | h
          · exact (List.nodup_cons.mp (IsChain.cons hb hq).nodup).1 hx
          · exact (hall x (List.mem_cons_of_mem _ hx)).1 h

theorem climbFrom_root_iff {s : StateNode} : climbFrom ir s = .root ↔ Grounded ir s :=
  climb_root_iff (Nat.lt_succ_of_le ((missing_le_length _ _).trans (List.length_map _).le))

/-- The check finds nothing exactly when the ancestors of every state come to an end. -/
theorem validateStateHierarchy_eq_nil : validateStateHierarchy ir = [] ↔ ∀ s ∈ ir.states, Grounded ir s := by
  have hlist : ∀ l : List StateNode, hierarchyFindings ir l = [] ↔ ∀ s ∈ l, Grounded ir s := by
    intro l
    induction l with
    | nil => simp [hierarchyFindings]
    | cons s l ih =>
      rw [List.forall_mem_cons, ← climbFrom_root_iff, ← ih, hierarchyFindings]
      cases climbFrom ir s <;> simp
  exact hlist ir.states

/-! ## Acyclic parents -/

theorem acyclic_of_grounded (h : ∀ s ∈ ir.states, Grounded ir s) : Acyclic ir := by
  intro x
  cases hfind : ir.findState x with
  | none => exact ⟨[x], .root (by simp [parentOf, hfind])⟩
  | some n =>
    have hparent := parentOf_of_findState hfind
    obtain ⟨hn, -⟩ := FsmIr.findState_spec hfind
    by_cases hroot : n.parentState = ""
    · exact ⟨[x], .root (by rw [hparent, if_pos hroot])⟩
    · obtain ⟨p, hp, -⟩ := (h n hn).resolve_left hroot
      exact ⟨x :: p, .cons (by rw [hparent, if_neg hroot]) hp⟩

theorem not_intoCycle_of_isChain {parent : String → Option String} {a : String} {p : List String}
    (h : IsChain parent a p) : ¬ IntoCycle parent (some a) := by
  induction h with
  | root ha => exact not_intoCycle_of_none ha
  | @cons a b p hb _ ih =>
    rintro ⟨c, hc, hcycle⟩
    apply ih
    rw [← hb]
    rcases onWay_some.mp hc with rfl | habove
    · obtain ⟨d, hd, hback⟩ := Relation.TransGen.head'_iff.mp hcycle
      exact ⟨c, ⟨d, hd, hback⟩, hcycle⟩
    · exact ⟨c, habove, hcycle⟩

theorem not_intoCycle_parentAfter (h : ∀ s ∈ ir.states, Grounded ir s) {done : List String} {x : String}
    (hx : (ir.findState x).isSome = true) : ¬ IntoCycle (HierarchyWalks.parentAfter ir done) (some x) := by
  have hagree : ∀ y, (ir.findState y).isSome = true → HierarchyWalks.parentAfter ir done y = parentOf ir y := by
    intro y hy
    obtain ⟨n, hn⟩ := Option.isSome_iff_exists.mp hy
    simp [HierarchyWalks.parentAfter, parentOf, hn]
  obtain ⟨n, hfind⟩ := Option.isSome_iff_exists.mp hx
  obtain ⟨hn, -⟩ := FsmIr.findState_spec hfind
  have hparent := (hagree x hx).trans (parentOf_of_findState hfind)
  by_cases hroot : n.parentState = ""
  · exact not_intoCycle_of_none (hparent.trans (if_pos hroot))
  · obtain ⟨p, hp, hall⟩ := (h n hn).resolve_left hroot
    have hp' := hp.congr fun y hy => hagree y (hall y hy).2
    exact not_intoCycle_of_isChain (.cons (hparent.trans (if_neg hroot)) hp')

theorem loops_end (h : ∀ s ∈ ir.states, Grounded ir s) : (∀ l ∈ HierarchyWalks.boundaryLoops ir, l.Ends) ∧
    (∀ l ∈ HierarchyWalks.historyLoops ir, l.Ends) ∧ ∀ l ∈ HierarchyWalks.safetyLoops ir, l.Ends := by
  have hnone : ∀ x, ¬ IntoCycle (parentOf ir) (some x) := fun x =>
    not_intoCycle_of_isChain (acyclic_of_grounded h x).choose_spec
  refine ⟨?_, ?_, ?_⟩
  · exact (HierarchyWalks.boundaryLoops_end_iff ir).mpr fun t _ _ _ => .inr ⟨hnone _, hnone _⟩
  · refine (HierarchyWalks.historyLoops_end_iff ir).mpr fun done P rest hsplit _ p hp hcycle => ?_
    by_cases hempty : p = ""
    · rw [hempty] at hcycle
      obtain ⟨_, ⟨_, hstart, -⟩, -⟩ := hcycle
      cases hstart
    · rw [HierarchyWalks.named_of_ne hempty] at hcycle
      refine absurd hcycle (not_intoCycle_parentAfter h ?_)
      rcases List.mem_append.mp hp with hp | hp
      · obtain ⟨s, hs, rfl⟩ := List.mem_map.mp hp
        obtain ⟨q, hq, hall⟩ := (h s hs).resolve_left hempty
        exact (hall _ hq.self_mem).2
      · apply HierarchyWalks.isSome_findState_iff.mpr
        apply HierarchyWalks.compositesWithHistory_subset
        rw [hsplit]
        exact List.mem_append_left _ hp
  · refine (HierarchyWalks.safetyLoops_end_iff ir).mpr fun _ s _ _ _ hcycle => ?_
    obtain ⟨c, ⟨a, ha, hc⟩, hloop⟩ := hcycle
    exact absurd ⟨c, ⟨a, rfl, hc⟩, hloop⟩ (hnone a)

/-! ## Acceptance -/

/-- What a model is accepted for. -/
structure Accepted (semErrors : List String) (ir : FsmIr) : Prop where
  nonempty : nodeNames ir ≠ []
  initial : ir.initialState = "" ∨ ir.initialState ∈ nodeNames ir
  ends : ∀ t ∈ ir.transitions, t.source ∈ nodeNames ir ∧ t.target ∈ nodeNames ir
  branches : ∀ c ∈ ir.choiceNodes, ∃ t ∈ ir.transitions, t.source = c
  grounded : ∀ s ∈ ir.states, Grounded ir s
  semantics : semErrors = []

theorem isValid_append (f g : Findings) : Findings.isValid (f ++ g) = (Findings.isValid f && Findings.isValid g) :=
  List.all_append

theorem isValid_map {α : Type} (l : List α) {f : α → DiagnosticMessage} (h : ∀ a, (f a).severity ≠ .error) :
    Findings.isValid (l.map f) = true := by
  simp [Findings.isValid, h]

theorem isValid_flatMap {α : Type} {l : List α} {f : α → Findings} :
    Findings.isValid (l.flatMap f) = true ↔ ∀ a ∈ l, (f a).isValid = true := by
  simp only [Findings.isValid, List.all_flatMap, List.all_eq_true]

theorem isValid_initial : (validateInitialState ir).isValid = true ↔
    ir.initialState = "" ∨ ir.initialState ∈ nodeNames ir := by
  unfold validateInitialState
  by_cases hempty : ir.initialState = ""
  · rw [if_pos hempty]
    exact iff_of_true (isValid_map _ fun _ => by simp) (.inl hempty)
  · rw [if_neg hempty, or_iff_right hempty]
    by_cases hin : ir.initialState ∈ nodeNames ir <;> simp [hin, Findings.isValid]

theorem isValid_endpoint {t : TransitionEdge} : (endpointFindings ir t).isValid = true ↔
    t.source ∈ nodeNames ir ∧ t.target ∈ nodeNames ir := by
  unfold endpointFindings
  by_cases hs : t.source ∈ nodeNames ir
  · by_cases ht : t.target ∈ nodeNames ir
    · refine iff_of_true ?_ ⟨hs, ht⟩
      rw [if_pos hs, if_pos ht]
      split <;> rfl
    · simp [ht, Findings.isValid]
  · simp [hs, Findings.isValid]

theorem isValid_choice {c : String} : (choiceFindings ir c).isValid = true ↔ ∃ t ∈ ir.transitions, t.source = c := by
  have hsome : (∃ t ∈ ir.transitions, t.source = c) ↔ (ir.transitions.filter fun t => t.source = c) ≠ [] := by
    simp [List.filter_eq_nil_iff]
  rw [hsome]
  unfold choiceFindings
  dsimp only
  by_cases hempty : (ir.transitions.filter fun t => t.source = c) = []
  · rw [if_pos hempty]
    exact iff_of_false (by simp [Findings.isValid]) fun h => h hempty
  · rw [if_neg hempty, isValid_append, isValid_map _ fun _ => by simp]
    refine iff_of_true ?_ hempty
    split <;> rfl

theorem isValid_hierarchy : (validateStateHierarchy ir).isValid = true ↔ ∀ s ∈ ir.states, Grounded ir s := by
  have herrors : ∀ l : List StateNode, ∀ d ∈ hierarchyFindings ir l, d.severity = .error := by
    intro l
    induction l with
    | nil => simp [hierarchyFindings]
    | cons s l ih =>
      rw [hierarchyFindings]
      cases climbFrom ir s with
      | root => exact ih
      | cycle curr => simp
      | unknown curr => simpa using ih
  rw [← validateStateHierarchy_eq_nil, Findings.isValid, List.all_eq_true, List.eq_nil_iff_forall_not_mem]
  refine forall_congr' fun d => ⟨fun h hd => ?_, fun h hd => absurd hd h⟩
  simpa [herrors _ d hd] using h hd

theorem isValid_rest (ir : FsmIr) (semErrors semWarnings : List String) :
    (validateLivelockCycles ir ++ validateDeadlockStates ir ++ validateTransitionDeterminism ir ++
      validateTimedTransitions ir ++ semErrors.map (⟨.error, "Semantics", ·⟩) ++
      semWarnings.map (⟨.warning, "Semantics", ·⟩) : Findings).isValid = true ↔ semErrors = [] := by
  have hlivelock : (validateLivelockCycles ir).isValid = true := by
    unfold validateLivelockCycles Findings.isValid
    rw [List.all_eq_true]
    rintro d hd
    rw [List.eq_of_mem_replicate hd]
    rfl
  have hsem : Findings.isValid (semErrors.map (⟨.error, "Semantics", ·⟩)) = true ↔ semErrors = [] := by
    cases semErrors <;> simp [Findings.isValid]
  simp only [isValid_append, Bool.and_eq_true, hlivelock, hsem, validateDeadlockStates,
    validateTransitionDeterminism, validateTimedTransitions]
  simp [isValid_map]

theorem isValid_structural : (structuralFindings ir).isValid = true ↔
    (ir.initialState = "" ∨ ir.initialState ∈ nodeNames ir) ∧
      (∀ t ∈ ir.transitions, t.source ∈ nodeNames ir ∧ t.target ∈ nodeNames ir) ∧
      (∀ c ∈ ir.choiceNodes, ∃ t ∈ ir.transitions, t.source = c) ∧ ∀ s ∈ ir.states, Grounded ir s := by
  unfold structuralFindings validateTransitionEndpoints validateChoicePseudostates
  rw [isValid_append, isValid_append, isValid_append]
  simp only [Bool.and_eq_true, isValid_initial, isValid_flatMap, isValid_endpoint, isValid_choice,
    isValid_hierarchy, and_assoc]

theorem isValid_validate {semErrors semWarnings : List String} :
    (validate semErrors semWarnings ir).isValid = true ↔ Accepted semErrors ir := by
  have hnodes : nodeNames ir = [] ↔ (decide (ir.states = []) && decide (ir.choiceNodes = [])) = true := by
    simp [nodeNames]
  unfold validate
  by_cases hempty : nodeNames ir = []
  · rw [if_pos (hnodes.mp hempty)]
    exact iff_of_false (by simp [Findings.isValid]) fun h => h.nonempty hempty
  · rw [if_neg (fun h => hempty (hnodes.mpr h))]
    have hreach : ∀ c : Bool, (if c then validateReachability ir else [] : Findings).isValid = true := by
      intro c
      cases c
      · rfl
      · exact isValid_map _ fun _ => by simp
    have hall := isValid_rest ir semErrors semWarnings
    simp only [isValid_append] at hall ⊢
    rw [hreach, Bool.and_true, Bool.and_assoc, Bool.and_assoc, Bool.and_assoc, Bool.and_assoc, Bool.and_assoc,
      Bool.and_eq_true, isValid_structural]
    simp only [Bool.and_assoc] at hall
    rw [hall]
    constructor
    · rintro ⟨⟨hinitial, hends, hbranches, hgrounded⟩, hsem⟩
      exact ⟨hempty, hinitial, hends, hbranches, hgrounded, hsem⟩
    · exact fun h => ⟨⟨h.initial, h.ends, h.branches, h.grounded⟩, h.semantics⟩

end Fsmc.Analysis.FsmValidator
