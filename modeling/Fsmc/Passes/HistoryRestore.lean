/-
# Fsmc.Passes.HistoryRestore — what a machine without history nodes restores.

The register of a composite that is not active names the direct child that was active when the composite
was last left, or its default. A transition to a history node restores it if the first composite whose
name is found in its target is the right one; with deep history it enters the child by default instead of
the state that was active inside it.
-/
import Fsmc.Passes.HistoryLowering

namespace Fsmc.Passes.HistoryLowering

open Fsmc.Ir Fsmc.Lib.Ancestry Fsmc.Runtime

/-! ## The states that remain -/

/-- A name that is not made up and that no history node has. -/
def Live (ir : FsmIr) (x : String) : Prop :=
  Plain ir x ∧ ∀ h ∈ ir.states, isHistory h = true → x ≠ h.name

section Lowered

variable {ir : FsmIr}

variable {x : String} {Q : String} {guard : (String → String) → String → Bool} {ρ : String → String}

theorem live_of_findState (hir : Regular ir) {n : StateNode} (hn : ir.findState x = some n)
    (hhistory : isHistory n = false) : Live ir x := by
  obtain ⟨hmem, rfl⟩ := FsmIr.findState_spec hn
  refine ⟨(hir.plain n hmem).1, fun h hh hhist heq => ?_⟩
  have hsame := FsmIr.findState_name hir.names hh
  rw [← heq, hn] at hsame
  cases hsame
  simp [hhistory] at hhist

theorem live_parent (hir : Regular ir) {x p : String} (h : parentOf ir x = some p) : Live ir p := by
  obtain ⟨n, hn, -, rfl, -⟩ := parentOf_eq_some h
  exact ⟨(hir.plain n hn).2.1, fun h hh hhist => (hir.leaves n hn h hh hhist).1⟩

theorem live_chain (hir : Regular ir) (hx : Live ir x) : ∀ y ∈ chain ir x, Live ir y := by
  by_cases hempty : x = ""
  · simp [chain, hempty]
  · have hchain := isChain_chain hir.acyclic hempty
    generalize chain ir x = p at hchain ⊢
    induction hchain with
    | root _ => simpa using hx
    | cons hparent _ ih =>
      intro y hy
      rcases List.mem_cons.mp hy with rfl | hy
      · exact hx
      · obtain ⟨-, -, -, -, hne⟩ := parentOf_eq_some hparent
        exact ih (live_parent hir hparent) hne y hy

theorem run_states (hir : Regular ir) (hne : compositesWithHistory ir ≠ []) :
    ∃ kept added, (run ir).states = kept ++ added ∧
      List.Forall₂ (Kept ir (compositesWithHistory ir)) (ir.states.filter fun s => !isHistory s) kept ∧
        (∀ r ∈ added, Added (compositesWithHistory ir) r) ∧
          ∀ P ∈ compositesWithHistory ir, ∃ r ∈ added, r.name = restoreName P := by
  obtain ⟨kept, added, hstates, hkept, hadded, hall⟩ := (lowered_lowerAll hir).states
  have hfilter : ∀ {l l' : List StateNode}, List.Forall₂ (Kept ir (compositesWithHistory ir)) l l' →
      List.Forall₂ (Kept ir (compositesWithHistory ir)) (l.filter fun s => !isHistory s)
        (l'.filter fun s => !isHistory s) := by
    intro l l' h
    induction h with
    | nil => exact .nil
    | @cons s s' l l' hs _ ih =>
      have hsame := Lowered.isHistory_eq hs
      cases hhistory : isHistory s with
      | true => simpa [hsame, hhistory] using ih
      | false => simpa [hsame, hhistory] using ⟨hs, ih⟩
  have hrest : added.filter (fun s => !isHistory s) = added := by
    apply List.filter_eq_self.mpr
    intro r hr
    simp [isHistory, (hadded r hr).kind]
  refine ⟨_, added, ?_, hfilter hkept, hadded, hall⟩
  unfold run
  rw [if_neg hne]
  show (lowerAll ir).states.filter _ = _
  rw [hstates, List.filter_append, hrest]

theorem run_findState (hir : Regular ir) (hne : compositesWithHistory ir ≠ []) (hx : Plain ir x) :
    (∃ n n', ir.findState x = some n ∧ isHistory n = false ∧ (run ir).findState x = some n' ∧
      Kept ir (compositesWithHistory ir) n n') ∨
    ((run ir).findState x = none ∧ ∀ n, ir.findState x = some n → isHistory n = true) := by
  obtain ⟨kept, added, hstates, hkept, hadded, -⟩ := run_states hir hne
  have hrest : added.find? (fun s => s.name = x) = none := by
    apply List.find?_eq_none.mpr
    intro r hr
    obtain ⟨P, hP, hname, -⟩ := (hadded r hr).name
    have hne : r.name ≠ x := fun heq => hx P hP (heq.symm.trans hname)
    simpa using hne
  have hfind : (run ir).findState x = kept.find? fun s => s.name = x := by
    unfold FsmIr.findState
    rw [hstates, List.find?_append, hrest, Option.or_none]
  rw [hfind]
  rcases Lowered.findState_forall₂ (fun _ _ hs => hs.name) hkept x with ⟨hnone, hnone'⟩ | hsome
  · refine .inr ⟨hnone', fun n hn => ?_⟩
    by_contra hhistory
    obtain ⟨hmem, hname⟩ := FsmIr.findState_spec hn
    have habsent := List.find?_eq_none.mp hnone n (List.mem_filter.mpr ⟨hmem, by simpa using hhistory⟩)
    simp [hname] at habsent
  · obtain ⟨n, n', hn, hn', hrel⟩ := hsome
    obtain ⟨hmem, hhistory⟩ := List.mem_filter.mp (List.mem_of_find?_eq_some hn)
    have hname : n.name = x := by simpa using List.find?_some hn
    exact .inl ⟨n, n', hname ▸ FsmIr.findState_name hir.names hmem, by simpa using hhistory, hn', hrel⟩

theorem run_findState_live (hir : Regular ir) (hne : compositesWithHistory ir ≠ []) (hx : Live ir x) :
    (ir.findState x = none ∧ (run ir).findState x = none) ∨
      ∃ n n', ir.findState x = some n ∧ isHistory n = false ∧ (run ir).findState x = some n' ∧
        Kept ir (compositesWithHistory ir) n n' := by
  rcases run_findState hir hne hx.1 with hsome | ⟨hnone, hhistory⟩
  · exact .inr hsome
  · left
    refine ⟨?_, hnone⟩
    cases hfound : ir.findState x with
    | none => rfl
    | some n =>
      obtain ⟨hmem, hname⟩ := FsmIr.findState_spec hfound
      exact absurd hname.symm (hx.2 n hmem (hhistory n hfound))

theorem live_of_run (hir : Regular ir) (hne : compositesWithHistory ir ≠ [])
    (hx : Plain ir x) (hfound : ((run ir).findState x).isSome = true) : Live ir x := by
  rcases run_findState hir hne hx with ⟨n, -, hn, hhistory, -⟩ | ⟨hnone, -⟩
  · exact live_of_findState hir hn hhistory
  · rw [hnone] at hfound
    cases hfound

theorem run_parentOf (hir : Regular ir) (hne : compositesWithHistory ir ≠ [])
    (hx : Live ir x) : parentOf (run ir) x = parentOf ir x := by
  unfold parentOf
  rcases run_findState_live hir hne hx with ⟨hnone, hnone'⟩ | ⟨n, n', hn, -, hn', hkept⟩
  · rw [hnone, hnone']
  · rw [hn, hn', Option.map_some, Option.map_some, hkept.parentState]

theorem run_chain (hir : Regular ir) (hne : compositesWithHistory ir ≠ [])
    (hx : Live ir x) : chain (run ir) x = chain ir x :=
  chain_congr hir.acyclic fun y hy => run_parentOf hir hne (live_chain hir hx y hy)

theorem run_defaultOf (hir : Regular ir) (hne : compositesWithHistory ir ≠ [])
    (hx : Live ir x) : defaultOf (run ir) x = defaultOf ir x := by
  unfold defaultOf
  rcases run_findState_live hir hne hx with ⟨hnone, hnone'⟩ | ⟨n, n', hn, -, hn', hkept⟩
  · rw [hnone, hnone']
  · rw [hn, hn', Option.map_some, Option.map_some, hkept.initialSubState]

theorem defaultOf_spec (hir : Regular ir) {x c : String} (h : defaultOf ir x = some c) :
    Live ir c ∧ parentOf ir c = some x := by
  unfold defaultOf at h
  obtain ⟨hc, hempty⟩ := Option.filter_eq_some_iff.mp h
  obtain ⟨n, hn, rfl⟩ := Option.map_eq_some_iff.mp hc
  obtain ⟨hmem, rfl⟩ := FsmIr.findState_spec hn
  have hempty' : n.initialSubState ≠ "" := by simpa using hempty
  exact ⟨⟨(hir.plain n hmem).2.2, fun h hh hhist => (hir.leaves n hmem h hh hhist).2⟩,
    hir.inside n hmem hempty'⟩

theorem defaults_iff (hir : Regular ir) (hne : compositesWithHistory ir ≠ [])
    {ds : List String} (hx : Live ir x) : Defaults (run ir) x ds ↔ Defaults ir x ds := by
  constructor
  · intro h
    induction h with
    | leaf hs => exact .leaf ((run_defaultOf hir hne hx).symm.trans hs)
    | down hs _ ih =>
      rw [run_defaultOf hir hne hx] at hs
      exact .down hs (ih (defaultOf_spec hir hs).1)
  · intro h
    induction h with
    | leaf hs => exact .leaf ((run_defaultOf hir hne hx).trans hs)
    | down hs _ ih => exact .down ((run_defaultOf hir hne hx).trans hs) (ih (defaultOf_spec hir hs).1)

theorem chain_child (hir : Regular ir) {x p : String} (h : parentOf ir x = some p) :
    chain ir x = x :: chain ir p := by
  obtain ⟨n, hn, rfl, -, -⟩ := parentOf_eq_some h
  exact chain_of_parentOf hir.acyclic (hir.named n hn) h

theorem leafOf_spec (hir : Regular ir) {ds : List String} (hx : Live ir x)
    (h : Defaults ir x ds) : Live ir (leafOf x ds) ∧ ∀ y ∈ chain ir x, y ∈ chain ir (leafOf x ds) := by
  induction h with
  | leaf _ => exact ⟨hx, fun y hy => hy⟩
  | @down s c ds hs hds ih =>
    obtain ⟨hlive, hparent⟩ := defaultOf_spec hir hs
    obtain ⟨hleaf, hsub⟩ := ih hlive
    have hsame : leafOf s (c :: ds) = leafOf c ds := by
      unfold leafOf
      cases ds <;> simp [List.getLast?_cons]
    rw [hsame]
    refine ⟨hleaf, fun y hy => hsub y ?_⟩
    rw [chain_child hir hparent]
    exact List.mem_cons_of_mem _ hy

/-! ## Who writes the registers -/

variable {P : String}

theorem exists_of_forall₂ {α β : Type*} {R : α → β → Prop} {l : List α} {l' : List β}
    (h : List.Forall₂ R l l') {b : β} (hb : b ∈ l') : ∃ a ∈ l, R a b := by
  induction h with
  | nil => simp at hb
  | cons hab _ ih =>
    rcases List.mem_cons.mp hb with rfl | hb
    · exact ⟨_, List.mem_cons_self, hab⟩
    · obtain ⟨a, ha, hR⟩ := ih hb
      exact ⟨a, List.mem_cons_of_mem _ ha, hR⟩

theorem entryHooks_unwritten (hir : Regular ir) (hP : P ∈ compositesWithHistory ir)
    {names : List String} : ∀ node ∈ (names.flatMap (entryHooks (run ir))).flatMap nodesOf,
      historyVar P ∉ writesOf node := by
  obtain ⟨kept, added, hstates, hkept, hadded, -⟩ := run_states hir (List.ne_nil_of_mem hP)
  intro node hnode
  obtain ⟨act, hact, hnode⟩ := List.mem_flatMap.mp hnode
  obtain ⟨x, -, hact⟩ := List.mem_flatMap.mp hact
  unfold entryHooks at hact
  cases hfound : (run ir).findState x with
  | none => simp [hfound] at hact
  | some n' =>
    rw [hfound] at hact
    have hmem := (FsmIr.findState_spec hfound).1
    rw [hstates] at hmem
    rcases List.mem_append.mp hmem with hmem | hmem
    · obtain ⟨n, hn, hrel⟩ := exists_of_forall₂ hkept hmem
      have hact' : act ∈ n.entryActions := hrel.entryActions ▸ hact
      refine hir.unwritten P hP act ?_ node hnode
      refine List.mem_append_left _ (List.mem_flatMap.mpr ⟨n, (List.mem_filter.mp hn).1, ?_⟩)
      exact List.mem_append_left _ hact'
    · have hnil : act ∈ ([] : List ActionSignature) := (hadded n' hmem).entryActions ▸ hact
      simp at hnil

theorem run_transitions (hir : Regular ir) (hne : compositesWithHistory ir ≠ []) :
    (run ir).transitions = ir.transitions.map (redirect ir (compositesWithHistory ir)) ++
      (compositesWithHistory ir).flatMap (edgesOf ir) := by
  unfold run
  rw [if_neg hne]
  exact (lowered_lowerAll hir).transitions

theorem edgeActions_unwritten (hir : Regular ir) (hP : P ∈ compositesWithHistory ir)
    {t : TransitionEdge} (ht : t ∈ (run ir).transitions) :
    ∀ node ∈ (t.conditionAction.toList ++ t.transitionAction.toList).flatMap nodesOf,
      historyVar P ∉ writesOf node := by
  rw [run_transitions hir (List.ne_nil_of_mem hP)] at ht
  intro node hnode
  obtain ⟨act, hact, hmem⟩ := List.mem_flatMap.mp hnode
  rcases List.mem_append.mp ht with ht | ht
  · obtain ⟨t₀, ht₀, rfl⟩ := List.mem_map.mp ht
    have hsame : (redirect ir (compositesWithHistory ir) t₀).conditionAction = t₀.conditionAction ∧
        (redirect ir (compositesWithHistory ir) t₀).transitionAction = t₀.transitionAction := by
      unfold redirect
      split <;> exact ⟨rfl, rfl⟩
    rw [hsame.1, hsame.2] at hact
    refine hir.unwritten P hP act (List.mem_append_right _ ?_) node hmem
    refine List.mem_flatMap.mpr ⟨t₀, ht₀, ?_⟩
    simpa [or_comm] using hact
  · obtain ⟨Q, -, hb⟩ := List.mem_flatMap.mp ht
    unfold edgesOf restoreEdges at hb
    simp only [List.mem_append, List.mem_map, List.mem_singleton] at hb
    rcases hb with ⟨name, -, rfl⟩ | rfl <;> simp [restoreEdge] at hact

theorem nodesOf_recordAction (P name : String) :
    nodesOf (recordAction P name) = [.store (recordStore P name), .store (recordStore P name)] := rfl

theorem exitHooks_live (hir : Regular ir) (hne : compositesWithHistory ir ≠ [])
    (hx : Live ir x) {n : StateNode} (hn : ir.findState x = some n) :
    exitHooks (run ir) x = n.exitActions ++ recordsOf ir (compositesWithHistory ir) n := by
  rcases run_findState_live hir hne hx with ⟨hnone, -⟩ | ⟨m, m', hm, -, hm', hkept⟩
  · rw [hn] at hnone
    cases hnone
  · rw [hn] at hm
    cases hm
    unfold exitHooks
    rw [hm', Option.map_some, Option.getD_some, hkept.exitActions]

/-- A state that sets the register of a composite is inside it, and sets it to its own name. -/
theorem writer_spec (hir : Regular ir) (hP : P ∈ compositesWithHistory ir) (hx : Live ir x)
    {node : ActionAstNode} (hnode : node ∈ (exitHooks (run ir) x).flatMap nodesOf)
    (hwrites : historyVar P ∈ writesOf node) :
    assigned node = some (historyVar P, quoted x) ∧ ∃ p, parentOf ir x = some p ∧ P ∈ chain ir p := by
  have hne := List.ne_nil_of_mem hP
  obtain ⟨act, hact, hin⟩ := List.mem_flatMap.mp hnode
  rcases run_findState_live hir hne hx with ⟨-, hnone⟩ | ⟨n, -, hn, -, -, -⟩
  · simp [exitHooks, hnone] at hact
  · obtain ⟨hmem, rfl⟩ := FsmIr.findState_spec hn
    rw [exitHooks_live hir hne hx hn] at hact
    rcases List.mem_append.mp hact with hact | hact
    · refine absurd hwrites (hir.unwritten P hP act ?_ node hin)
      exact List.mem_append_left _ (List.mem_flatMap.mpr ⟨n, hmem, List.mem_append_right _ hact⟩)
    · obtain ⟨Q, hQ, rfl⟩ := List.mem_map.mp hact
      have htarget := (List.mem_filter.mp hQ).2
      have hstore : node = .store (recordStore Q n.name) := by
        rw [nodesOf_recordAction] at hin
        simpa using hin
      subst hstore
      have hvar : historyVar P = historyVar Q := by simpa [writesOf, recordStore] using hwrites
      obtain rfl := historyVar_inj hvar
      refine ⟨by simp [assigned, recordStore], n.parentState, ?_⟩
      have hPne : P ≠ "" := by
        obtain ⟨p, hp, rfl⟩ := exists_of_mem_composites hP
        exact hir.named p hp
      unfold isTarget at htarget
      simp only [Bool.and_eq_true] at htarget
      have hparent : P ∈ chain ir n.parentState := by
        cases hdeep : isDeep ir P with
        | true => simpa [hdeep] using htarget.1
        | false =>
          have hsame : n.parentState = P := by simpa [hdeep] using htarget.1
          rw [hsame]
          exact (isChain_chain hir.acyclic hPne).self_mem
      have hempty : n.parentState ≠ "" := by
        intro hempty
        simp [hempty, chain] at hparent
      refine ⟨?_, hparent⟩
      unfold parentOf
      rw [hn]
      simp [hempty]

theorem child_writes (hir : Regular ir) (hP : P ∈ compositesWithHistory ir) {c : String}
    (hc : Live ir c) (hparent : parentOf ir c = some P) :
    (∃ node ∈ (exitHooks (run ir) c).flatMap nodesOf, assigned node = some (historyVar P, quoted c)) ∧
      c ∈ targetSubstates ir P := by
  have hne := List.ne_nil_of_mem hP
  obtain ⟨n, hmem, rfl, hsame, hPne⟩ := parentOf_eq_some hparent
  have hn := FsmIr.findState_name hir.names hmem
  have hhistory : isHistory n = false := by
    apply Bool.eq_false_iff.mpr
    exact fun h => hc.2 n hmem h rfl
  refine ⟨⟨.store (recordStore P n.name), ?_, by simp [assigned, recordStore]⟩, ?_⟩
  · rw [exitHooks_live hir hne hc hn, List.flatMap_append]
    refine List.mem_append_right _ (List.mem_flatMap.mpr ⟨recordAction P n.name, ?_, ?_⟩)
    · refine List.mem_map.mpr ⟨P, List.mem_filter.mpr ⟨hP, ?_⟩, rfl⟩
      have hself := (isChain_chain hir.acyclic hPne).self_mem
      unfold isTarget
      cases isDeep ir P <;> simp [hsame, hhistory, hself]
    · simp [nodesOf_recordAction]
  · exact List.mem_map.mpr ⟨n, List.mem_filter.mpr ⟨hmem, by simp [hsame, hhistory]⟩, rfl⟩

theorem live_composite (hir : Regular ir) (hQ : Q ∈ compositesWithHistory ir) : Live ir Q := by
  obtain ⟨⟨n, hn, hhistory⟩, hinside⟩ := hir.defaults Q hQ
  exact live_chain hir (live_of_findState hir hn hhistory) Q hinside

/-! ## Leaving -/

section Leaving

variable (other : ActionAstNode → (String → String) → String → String) {s : String} {t : TransitionEdge}

theorem exits_outside (hir : Regular ir) (hP : P ∈ compositesWithHistory ir) (hs : Live ir s)
    (ht : t ∈ (run ir).transitions) (hout : P ∉ chain ir s) (ρ : String → String) :
    writeAll other ρ (exitActionsOf (run ir) s t) (historyVar P) = ρ (historyVar P) := by
  apply foldl_writeNode_of_notMem
  intro node hnode
  simp only [exitActionsOf, List.flatMap_append, List.mem_append] at hnode
  rcases hnode with (hnode | hnode) | hnode
  · exact edgeActions_unwritten hir hP ht node (by simp [hnode])
  · intro hwrites
    rw [List.flatMap_assoc] at hnode
    obtain ⟨x, hx, hnode⟩ := List.mem_flatMap.mp hnode
    have hmem : x ∈ chain ir s := by
      rw [← run_chain hir (List.ne_nil_of_mem hP) hs]
      exact List.takeWhile_subset _ hx
    obtain ⟨-, p, hp, hPp⟩ := writer_spec hir hP (live_chain hir hs x hmem) hnode hwrites
    refine hout (chain_subset hir.acyclic hmem ?_)
    rw [chain_child hir hp]
    exact List.mem_cons_of_mem _ hPp
  · exact edgeActions_unwritten hir hP ht node (by simp [hnode])

theorem ancestor_unwritten (hir : Regular ir) (hP : P ∈ compositesWithHistory ir) {x : String}
    (hx : x ∈ chain ir P) : ∀ node ∈ (exitHooks (run ir) x).flatMap nodesOf,
      historyVar P ∉ writesOf node := by
  intro node hnode hwrites
  have hPne : P ≠ "" := by
    obtain ⟨n, hn, rfl⟩ := exists_of_mem_composites hP
    exact hir.named n hn
  have hxne : x ≠ "" := fun hempty => empty_notMem_chain ir P (hempty ▸ hx)
  -- who sets the register is below the composite
  obtain ⟨-, p, hp, hPp⟩ := writer_spec hir hP (live_chain hir (live_composite hir hP) x hx) hnode hwrites
  have hPx : P ∈ chain ir x := by
    rw [chain_child hir hp]
    exact List.mem_cons_of_mem _ hPp
  obtain rfl := (isChain_chain hir.acyclic hPne).antisymm (isChain_chain hir.acyclic hxne) hx hPx
  have hself := chain_nodup ir P
  rw [chain_child hir hp] at hself
  exact (List.nodup_cons.mp hself).1 hPp

/-- What is left when a composite is left: states below its child, the child, the composite and states
around it. -/
theorem below_split (hir : Regular ir) (hne : compositesWithHistory ir ≠ []) (hs : Live ir s)
    (hleft : P ∈ below (run ir) s (lcaOf (run ir) t)) {c : String}
    (hc : (below (run ir) s P).getLast? = some c) :
    ∃ l r, below (run ir) s (lcaOf (run ir) t) = l ++ [c] ++ P :: r ∧ c ∈ chain ir s ∧
      parentOf ir c = some P ∧ ∀ x ∈ P :: r, x ∈ chain ir P := by
  have hchain := run_chain hir hne hs
  obtain ⟨l, r, hsplit⟩ := List.append_of_mem hleft
  obtain ⟨rest, hrest⟩ : ∃ rest, chain ir s = l ++ P :: (r ++ rest) := by
    obtain ⟨rest, hrest⟩ := List.takeWhile_prefix (l := chain (run ir) s)
      fun x => decide (x ≠ lcaOf (run ir) t)
    refine ⟨rest, ?_⟩
    rw [← hchain, ← hrest]
    show below (run ir) s (lcaOf (run ir) t) ++ rest = _
    rw [hsplit, List.append_assoc]
    rfl
  have hsne : s ≠ "" := by
    rintro rfl
    simp [chain] at hrest
  have hPne : P ≠ "" := fun hempty => empty_notMem_chain ir s (by simp [hrest, hempty])
  have hfull := isChain_chain hir.acyclic hsne
  rw [hrest] at hfull
  have hbelow : below (run ir) s P = l := by
    have hnodup := hrest ▸ chain_nodup ir s
    have hpass : ∀ x ∈ l, decide (x ≠ P) = true := by
      intro x hx
      simpa using (List.nodup_append.mp hnodup).2.2 x hx P List.mem_cons_self
    unfold below
    rw [hchain, hrest, List.takeWhile_append_of_pos hpass]
    simp
  rw [hbelow] at hc
  obtain ⟨l', rfl⟩ : ∃ l', l = l' ++ [c] := ⟨l.dropLast, (List.dropLast_append_getLast? c hc).symm⟩
  have hchainP : chain ir P = P :: (r ++ rest) := chain_eq_of_isChain hPne hfull.of_split
  refine ⟨l', r, hsplit, by simp [hrest], ?_, fun x hx => ?_⟩
  · rw [List.append_assoc] at hfull
    exact IsChain.parent_of_split (a := s) (l := l') (r := r ++ rest) hfull
  · rw [hchainP, ← List.cons_append]
    exact List.mem_append_left _ hx

/-- The register of a composite that is left names its child: what is left before is overwritten, and
what is left after does not set it. -/
theorem exits_inside (hir : Regular ir) (hP : P ∈ compositesWithHistory ir) (hs : Live ir s)
    (ht : t ∈ (run ir).transitions) (hleft : P ∈ below (run ir) s (lcaOf (run ir) t)) {c : String}
    (hc : (below (run ir) s P).getLast? = some c) (ρ : String → String) :
    writeAll other ρ (exitActionsOf (run ir) s t) (historyVar P) = quoted c ∧
      c ∈ targetSubstates ir P := by
  obtain ⟨l, r, hsplit, hcmem, hparent, habove⟩ :=
    below_split hir (List.ne_nil_of_mem hP) hs hleft hc
  have hlive := live_chain hir hs c hcmem
  obtain ⟨hwrites, htarget⟩ := child_writes hir hP hlive hparent
  refine ⟨?_, htarget⟩
  have hnodes : (exitActionsOf (run ir) s t).flatMap nodesOf =
      (t.conditionAction.toList ++ l.flatMap (exitHooks (run ir))).flatMap nodesOf ++
        ((exitHooks (run ir) c).flatMap nodesOf ++
          (((P :: r).flatMap (exitHooks (run ir))).flatMap nodesOf ++
            t.transitionAction.toList.flatMap nodesOf)) := by
    unfold exitActionsOf
    rw [hsplit]
    simp only [List.flatMap_append, List.flatMap_cons, List.flatMap_nil, List.append_nil,
      List.append_assoc]
  unfold writeAll
  rw [hnodes, List.foldl_append]
  apply foldl_writeNode_eq
  · intro node hnode hw
    rcases List.mem_append.mp hnode with hnode | hnode
    · exact (writer_spec hir hP hlive hnode hw).1
    · rcases List.mem_append.mp hnode with hnode | hnode
      · rw [List.flatMap_assoc] at hnode
        obtain ⟨x, hx, hnode⟩ := List.mem_flatMap.mp hnode
        exact absurd hw (ancestor_unwritten hir hP (habove x hx) node hnode)
      · exact absurd hw (edgeActions_unwritten hir hP ht node (by simp [hnode]))
  · obtain ⟨node, hnode, hassigned⟩ := hwrites
    exact ⟨node, List.mem_append_left _ hnode, hassigned⟩

end Leaving

/-! ## Restoring -/

/-- The choices that the pass adds. -/
def isRestore (ir : FsmIr) (x : String) : Bool := (compositesWithHistory ir).any fun P => x = restoreName P

/-- The guards of the branches compare the register with a name. -/
def ReadsHistory (ir : FsmIr) (guard : (String → String) → String → Bool) : Prop :=
  ∀ P ∈ compositesWithHistory ir, ∀ ρ name,
    guard ρ (restoreGuard P name) = decide (ρ (historyVar P) = quoted name)

theorem quoted_inj {a b : String} (h : quoted a = quoted b) : a = b :=
  String.append_right_inj _ |>.mp (String.append_left_inj _ |>.mp h)

theorem branches_restoreName (hir : Regular ir) (hP : P ∈ compositesWithHistory ir) :
    branches (run ir) (restoreName P) = edgesOf ir P := by
  have hnodup : (compositesWithHistory ir).Nodup := hir.names.sublist ((List.filter_sublist).map _)
  obtain ⟨l, r, hsplit⟩ := List.append_of_mem hP
  have hothers : ∀ Q ∈ compositesWithHistory ir, Q ≠ P →
      (edgesOf ir Q).filter (fun t => t.source = restoreName P) = [] := by
    intro Q _ hne
    apply List.filter_eq_nil_iff.mpr
    intro b hb
    rw [edgesOf_source hb]
    simpa using fun h => hne (restoreName_inj h)
  have hown : (edgesOf ir P).filter (fun t => t.source = restoreName P) = edgesOf ir P :=
    List.filter_eq_self.mpr fun b hb => by simp [edgesOf_source hb]
  have hold : (ir.transitions.map (redirect ir (compositesWithHistory ir))).filter
      (fun t => t.source = restoreName P) = [] := by
    apply List.filter_eq_nil_iff.mpr
    intro t ht
    obtain ⟨t₀, ht₀, rfl⟩ := List.mem_map.mp ht
    rw [redirect_source]
    simpa using (hir.ends t₀ ht₀).1 P hP
  unfold branches
  rw [run_transitions hir (List.ne_nil_of_mem hP), List.filter_append, hold, List.nil_append,
    List.filter_flatMap]
  rw [hsplit] at hnodup hothers ⊢
  have hl : ∀ Q ∈ l, Q ≠ P := fun Q hQ =>
    (List.nodup_append.mp hnodup).2.2 Q hQ P List.mem_cons_self
  have hr : ∀ Q ∈ r, Q ≠ P := by
    rintro Q hQ rfl
    exact (List.nodup_cons.mp (List.nodup_append.mp hnodup).2.1).1 hQ
  rw [List.flatMap_append, List.flatMap_cons, hown,
    List.flatMap_eq_nil_iff.mpr fun Q hQ => hothers Q (by simp [hQ]) (hl Q hQ),
    List.flatMap_eq_nil_iff.mpr fun Q hQ => hothers Q (by simp [hQ]) (hr Q hQ)]
  simp

theorem restoreGuard_ne_else (P name : String) : restoreGuard P name ≠ "else" := by
  intro h
  have hchars := congrArg (fun s => s.toList.head?) h
  rw [restoreGuard, String.toList_append, String.toList_append, toList_historyVar] at hchars
  simp at hchars

theorem resolve_restoreName (hir : Regular ir) (hP : P ∈ compositesWithHistory ir) (hguard : ReadsHistory ir guard)
    {c : String} (hρ : ρ (historyVar P) = quoted c) :
    resolve guard (isRestore ir) (run ir) ρ (restoreName P) =
      some (if c ∈ targetSubstates ir P then c else defaultSubstate ir P) := by
  have hthrough : isRestore ir (restoreName P) = true :=
    List.any_eq_true.mpr ⟨P, hP, by simp⟩
  have hholds : ∀ name, guard ρ (restoreGuard P name) = decide (c = name) := by
    intro name
    rw [hguard P hP, hρ]
    exact decide_eq_decide.mpr ⟨quoted_inj, fun h => h ▸ rfl⟩
  have hfirst : ((targetSubstates ir P).map fun name => restoreEdge P name (restoreGuard P name)).find?
      (fun b => b.guard.any (guard ρ)) =
        if c ∈ targetSubstates ir P then some (restoreEdge P c (restoreGuard P c)) else none := by
    induction targetSubstates ir P with
    | nil => rfl
    | cons name names ih =>
      by_cases hc : c = name
      · subst hc
        simp [restoreEdge, hholds]
      · rw [List.map_cons, List.find?_cons_of_neg (by simp [restoreEdge, hholds, hc]), ih]
        simp [hc]
  have helse : ((targetSubstates ir P).map fun name => restoreEdge P name (restoreGuard P name)).find?
      (fun b => b.guard = some "else") = none := by
    apply List.find?_eq_none.mpr
    intro b hb
    obtain ⟨name, -, rfl⟩ := List.mem_map.mp hb
    simp [restoreEdge, restoreGuard_ne_else]
  unfold resolve
  rw [if_pos hthrough, branches_restoreName hir hP]
  unfold edgesOf restoreEdges
  rw [List.find?_append, List.find?_append, hfirst, helse]
  by_cases hc : c ∈ targetSubstates ir P
  · simp [hc, restoreEdge]
  · cases hg : guard ρ "else" <;> simp [hc, hg, restoreEdge]

/-- What the register of a composite that is not active holds. -/
def Holds (ir : FsmIr) (P : String) (memory : Memory) (value : String) : Prop :=
  match memory with
  | .never => value = quoted (defaultSubstate ir P)
  | .childless => True
  | .child c _ => value = quoted c ∧ c ∈ targetSubstates ir P

/-- The choice restores what the memory says. -/
def restored (ir : FsmIr) (P : String) : Memory → Option String
  | .never => some (defaultSubstate ir P)
  | .childless => none
  | .child c _ => some c

theorem resolve_of_holds (hir : Regular ir) (hP : P ∈ compositesWithHistory ir) (hguard : ReadsHistory ir guard)
    {memory : Memory} (h : Holds ir P memory (ρ (historyVar P)))
    (hx : restored ir P memory = some x) :
    resolve guard (isRestore ir) (run ir) ρ (restoreName P) = some x := by
  cases memory with
  | never =>
    cases hx
    rw [resolve_restoreName hir hP hguard h]
    simp
  | childless => cases hx
  | child c leaf =>
    cases hx
    rw [resolve_restoreName hir hP hguard h.1, if_pos h.2]

/-! ## Runs -/

theorem plain_initialName (hir : Regular ir) (hne : compositesWithHistory ir ≠ []) :
    Plain ir (initialName (run ir)) := by
  have hinitial : (run ir).initialState = ir.initialState := by
    unfold run
    rw [if_neg hne]
    exact (lowered_lowerAll hir).initialState
  obtain ⟨kept, added, hstates, hkept, -, -⟩ := run_states hir hne
  unfold initialName
  rw [hinitial, hstates]
  split
  · obtain ⟨P, hP⟩ := List.exists_mem_of_ne_nil _ hne
    obtain ⟨n, hn, hhistory⟩ := (hir.defaults P hP).1
    have hmem : n ∈ ir.states.filter fun s => !isHistory s :=
      List.mem_filter.mpr ⟨(FsmIr.findState_spec hn).1, by simp [hhistory]⟩
    have hall : ∀ m ∈ ir.states.filter fun s => !isHistory s, m ∈ ir.states :=
      fun m hm => (List.mem_filter.mp hm).1
    generalize ir.states.filter (fun s => !isHistory s) = before at hkept hmem hall
    cases hkept with
    | nil => simp at hmem
    | cons hs _ =>
      simp only [List.cons_append, List.head?_cons, Option.map_some, Option.getD_some]
      rw [hs.name]
      exact (hir.plain _ (hall _ List.mem_cons_self)).1
  · exact hir.initial

theorem initialRegisters_eq (hir : Regular ir) {P : String} (hP : P ∈ compositesWithHistory ir) :
    initialRegisters (run ir) (historyVar P) = quoted (defaultSubstate ir P) := by
  have hvars : (run ir).vars = ir.vars ++
      (compositesWithHistory ir).map fun P => historyVariable P (defaultSubstate ir P) := by
    unfold run
    rw [if_neg (List.ne_nil_of_mem hP)]
    exact (lowered_lowerAll hir).vars
  have hold : ir.vars.find? (fun v => v.name = historyVar P) = none :=
    List.find?_eq_none.mpr fun v hv => by simpa using hir.undeclared P hP v hv
  have hnew : ∀ parents : List String, P ∈ parents →
      (parents.map fun Q => historyVariable Q (defaultSubstate ir Q)).find?
        (fun v => v.name = historyVar P) = some (historyVariable P (defaultSubstate ir P)) := by
    intro parents
    induction parents with
    | nil => simp
    | cons Q parents ih =>
      intro hmem
      by_cases hQ : Q = P
      · subst hQ
        simp [historyVariable]
      · have hne : historyVar Q ≠ historyVar P := fun h => hQ (historyVar_inj h)
        rw [List.map_cons, List.find?_cons_of_neg (by simp [historyVariable, hne])]
        exact ih ((List.mem_cons.mp hmem).resolve_left fun h => hQ h.symm)
  unfold initialRegisters FsmIr.findVariable
  rw [hvars, List.find?_append, hold, Option.none_or, hnew _ hP]
  rfl

theorem chain_restoreName (hir : Regular ir) (hQ : Q ∈ compositesWithHistory ir) :
    chain (run ir) (restoreName Q) = restoreName Q :: chain ir Q := by
  have hne := List.ne_nil_of_mem hQ
  have hQne : Q ≠ "" := by
    obtain ⟨n, hn, rfl⟩ := exists_of_mem_composites hQ
    exact hir.named n hn
  obtain ⟨kept, added, hstates, hkept, hadded, hall⟩ := run_states hir hne
  have hbefore : kept.find? (fun s => s.name = restoreName Q) = none := by
    apply List.find?_eq_none.mpr
    intro n' hn'
    obtain ⟨n, hn, hrel⟩ := exists_of_forall₂ hkept hn'
    have hplain := (hir.plain n (List.mem_filter.mp hn).1).1 Q hQ
    simpa [hrel.name] using hplain
  obtain ⟨r, hr, hname⟩ := hall Q hQ
  have hfound : (added.find? fun s => s.name = restoreName Q).isSome = true :=
    List.find?_isSome.mpr ⟨r, hr, by simpa using hname⟩
  obtain ⟨r', hr'⟩ := Option.isSome_iff_exists.mp hfound
  obtain ⟨Q', -, hname', hparent⟩ := (hadded r' (List.mem_of_find?_eq_some hr')).name
  have hsame : r'.name = restoreName Q := by simpa using List.find?_some hr'
  obtain rfl := restoreName_inj (hname'.symm.trans hsame)
  have hstate : (run ir).findState (restoreName Q') = some r' := by
    unfold FsmIr.findState
    rw [hstates, List.find?_append, hbefore, Option.none_or, hr']
  have hup : parentOf (run ir) (restoreName Q') = some Q' := by
    unfold parentOf
    rw [hstate, Option.map_some, hparent]
    simp [hQne]
  have hchain : IsChain (parentOf (run ir)) Q' (chain ir Q') :=
    (isChain_chain hir.acyclic hQne).congr fun y hy =>
      run_parentOf hir hne (live_chain hir (live_composite hir hQ) y hy)
  have hrestore : restoreName Q' ≠ "" := by
    intro h
    have hchars := congrArg (fun s => s.toList.length) h
    simp [restoreName] at hchars
  exact chain_eq_of_isChain hrestore (.cons hup hchain)

theorem edgesOf_inside (hir : Regular ir) (hQ : Q ∈ compositesWithHistory ir)
    {b : TransitionEdge} (hb : b ∈ edgesOf ir Q) : Live ir b.target ∧ Q ∈ chain ir b.target := by
  obtain ⟨-, -, n, hn, hhistory⟩ := edgesOf_target hir hQ hb
  refine ⟨live_of_findState hir hn hhistory, ?_⟩
  unfold edgesOf restoreEdges at hb
  simp only [List.mem_append, List.mem_map, List.mem_singleton] at hb
  rcases hb with ⟨name, hname, rfl⟩ | rfl
  · obtain ⟨m, hm, rfl⟩ := List.mem_map.mp hname
    obtain ⟨hmem, hfilter⟩ := List.mem_filter.mp hm
    simp only [Bool.and_eq_true, decide_eq_true_eq] at hfilter
    have hQne : Q ≠ "" := by
      obtain ⟨q, hq, rfl⟩ := exists_of_mem_composites hQ
      exact hir.named q hq
    have hparent : parentOf ir m.name = some Q := by
      unfold parentOf
      rw [FsmIr.findState_name hir.names hmem, Option.map_some, hfilter.1]
      simp [hQne]
    show Q ∈ chain ir m.name
    rw [chain_child hir hparent]
    exact List.mem_cons_of_mem _ (isChain_chain hir.acyclic hQne).self_mem
  · exact (hir.defaults Q hQ).2

theorem exists_branch_of_resolve (hir : Regular ir) (hQ : Q ∈ compositesWithHistory ir)
        (hx : resolve guard (isRestore ir) (run ir) ρ (restoreName Q) = some x) :
    ∃ b ∈ edgesOf ir Q, b.target = x := by
  have hthrough : isRestore ir (restoreName Q) = true :=
    List.any_eq_true.mpr ⟨Q, hQ, by simp⟩
  unfold resolve at hx
  rw [if_pos hthrough, branches_restoreName hir hQ] at hx
  obtain ⟨b, hb, rfl⟩ := Option.map_eq_some_iff.mp hx
  rcases Option.or_eq_some_iff.mp hb with hb | ⟨-, hb⟩
  · exact ⟨b, List.mem_of_find?_eq_some hb, rfl⟩
  · exact ⟨b, List.mem_of_find?_eq_some hb, rfl⟩

theorem lca_mem_chain_of_redirected (hir : Regular ir) (hQ : Q ∈ compositesWithHistory ir)
    {t : TransitionEdge} (htarget : t.target = restoreName Q) (hends : t.source ≠ restoreName Q)
    (hlca : Plain ir (lcaOf (run ir) t)) (hne : lcaOf (run ir) t ≠ "") :
    lcaOf (run ir) t ∈ chain ir Q := by
  have hplain := hlca Q hQ
  unfold lcaOf computeLca at hplain hne ⊢
  rw [htarget, if_neg hends] at hplain hne ⊢
  cases hcommon : firstCommon (chain (run ir) t.source) (chain (run ir) (restoreName Q)) with
  | none => simp [hcommon] at hne
  | some a =>
    have hmem : a ∈ chain (run ir) (restoreName Q) := (firstCommon_mem hcommon).2
    rw [chain_restoreName hir hQ] at hmem
    rw [hcommon, Option.getD_some] at hplain
    rw [Option.getD_some]
    exact (List.mem_cons.mp hmem).resolve_left hplain

theorem lca_mem_chain_target (hir : Regular ir) (hne : compositesWithHistory ir ≠ [])
    {t : TransitionEdge} (hlive : Live ir t.target) (hlca : lcaOf (run ir) t ≠ "") :
    lcaOf (run ir) t ∈ chain ir t.target := by
  unfold lcaOf computeLca at hlca ⊢
  by_cases hself : t.source = t.target
  · rw [if_pos hself] at hlca ⊢
    cases hparent : parentOf (run ir) t.source with
    | none => simp [hparent] at hlca
    | some p =>
      rw [run_parentOf hir hne (hself ▸ hlive)] at hparent
      obtain ⟨-, -, -, -, hpne⟩ := parentOf_eq_some hparent
      rw [← hself, chain_child hir hparent]
      exact List.mem_cons_of_mem _ (isChain_chain hir.acyclic hpne).self_mem
  · rw [if_neg hself] at hlca ⊢
    cases hcommon : firstCommon (chain (run ir) t.source) (chain (run ir) t.target) with
    | none => simp [hcommon] at hlca
    | some a =>
      have hmem := (firstCommon_mem hcommon).2
      rwa [run_chain hir hne hlive] at hmem

theorem target_spec (hir : Regular ir) (hne : compositesWithHistory ir ≠ []) {s x : String} {t : TransitionEdge}
    (hs : Live ir s) (ht : t ∈ (run ir).transitions) (hsource : t.source ∈ chain ir s)
    (hx : resolve guard (isRestore ir) (run ir) ρ t.target = some x)
    (hfound : ((run ir).findState x).isSome = true) :
    Live ir x ∧ ∀ P ∈ chain ir s, P ∉ below (run ir) s (lcaOf (run ir) t) → P ∈ chain ir x := by
  have hlive := live_chain hir hs _ hsource
  have habove : ∀ P ∈ chain ir s, P ∉ below (run ir) s (lcaOf (run ir) t) →
      lcaOf (run ir) t ∈ chain ir s ∧ P ∈ chain ir (lcaOf (run ir) t) := by
    intro P hP hnot
    unfold below at hnot
    rw [run_chain hir hne hs] at hnot
    exact mem_chain_of_notMem_takeWhile hir.acyclic hP hnot
  rw [run_transitions hir hne] at ht
  rcases List.mem_append.mp ht with ht | ht
  · obtain ⟨t₀, ht₀, rfl⟩ := List.mem_map.mp ht
    obtain ⟨hplainSource, hplainTarget⟩ := hir.ends t₀ ht₀
    cases hcapture : (compositesWithHistory ir).find? (captures ir · t₀) with
    | some Q =>
      have hQ := List.mem_of_find?_eq_some hcapture
      have hredirect : redirect ir (compositesWithHistory ir) t₀ = retarget Q t₀ := by
        simp [redirect, hcapture]
      rw [hredirect] at hx hsource habove ⊢
      obtain ⟨b, hb, rfl⟩ := exists_branch_of_resolve hir hQ hx
      obtain ⟨hlive', hinside⟩ := edgesOf_inside hir hQ hb
      refine ⟨hlive', fun P hP hnot => ?_⟩
      obtain ⟨hlca, hPlca⟩ := habove P hP hnot
      have hlcaQ : lcaOf (run ir) (retarget Q t₀) ∈ chain ir Q :=
        lca_mem_chain_of_redirected hir hQ rfl (hplainSource Q hQ) (live_chain hir hs _ hlca).1
          fun h => empty_notMem_chain ir s (h ▸ hlca)
      exact chain_subset hir.acyclic hinside (chain_subset hir.acyclic hlcaQ hPlca)
    | none =>
      have hredirect : redirect ir (compositesWithHistory ir) t₀ = t₀ := by
        simp [redirect, hcapture]
      rw [hredirect] at hx hsource habove ⊢
      have hthrough : isRestore ir t₀.target = false := by
        apply List.any_eq_false.mpr
        intro Q hQ
        simpa using hplainTarget Q hQ
      have hsame : t₀.target = x := by simpa [resolve, hthrough] using hx
      subst hsame
      have hlive' := live_of_run hir hne hplainTarget hfound
      refine ⟨hlive', fun P hP hnot => ?_⟩
      obtain ⟨hlca, hPlca⟩ := habove P hP hnot
      have hlcaTarget : lcaOf (run ir) t₀ ∈ chain ir t₀.target :=
        lca_mem_chain_target hir hne hlive' fun h => empty_notMem_chain ir s (h ▸ hlca)
      exact chain_subset hir.acyclic hlcaTarget hPlca
  · -- the branches of the choices start at choices, in which no run is
    obtain ⟨Q, hQ, hb⟩ := List.mem_flatMap.mp ht
    exact absurd (edgesOf_source hb) (hlive.1 Q hQ)

section Runs

variable {other : ActionAstNode → (String → String) → String → String}
  {guard : (String → String) → String → Bool} {s : String} {ρ : String → String} {last : String → Memory}

theorem entries_keep (hir : Regular ir) (hP : P ∈ compositesWithHistory ir) (ρ : String → String)
    (names : List String) :
    writeAll other ρ (names.flatMap (entryHooks (run ir))) (historyVar P) = ρ (historyVar P) :=
  foldl_writeNode_of_notMem other (entryHooks_unwritten hir hP) ρ

theorem memoryRun_holds (hir : Regular ir) (hne : compositesWithHistory ir ≠ [])
    (hrun : MemoryRun other guard (isRestore ir) (run ir) s ρ last) :
    Live ir s ∧ ∀ P ∈ compositesWithHistory ir, P ∉ chain ir s →
      Holds ir P (last P) (ρ (historyVar P)) := by
  induction hrun with
  | start hfound hds =>
    have hlive := live_of_run hir hne (plain_initialName hir hne) hfound
    rw [defaults_iff hir hne hlive] at hds
    refine ⟨(leafOf_spec hir hlive hds).1, fun P hP _ => ?_⟩
    show writeAll other _ (startActions _ _) _ = _
    rw [startActions, entries_keep hir hP, initialRegisters_eq hir hP]
  | @inside s ρ last t _ ht _ _ ih =>
    refine ⟨ih.1, fun P hP hout => ?_⟩
    have hkeep : writeAll other ρ (t.conditionAction.toList ++ t.transitionAction.toList) (historyVar P) =
        ρ (historyVar P) := foldl_writeNode_of_notMem other (edgeActions_unwritten hir hP ht) ρ
    rw [hkeep]
    exact ih.2 P hP hout
  | @step s x ρ last t ds _ ht hsource _ hx hfound hds ih =>
    obtain ⟨hs, hholds⟩ := ih
    rw [run_chain hir hne hs] at hsource
    obtain ⟨hlive, hinside⟩ := target_spec hir hne hs ht hsource hx hfound
    rw [defaults_iff hir hne hlive] at hds
    obtain ⟨hleaf, hsub⟩ := leafOf_spec hir hlive hds
    refine ⟨hleaf, fun P hP hout => ?_⟩
    rw [entryActionsOf, entries_keep hir hP]
    by_cases hleft : P ∈ below (run ir) s (lcaOf (run ir) t)
    · -- the composite is left: its child sets the register last
      rw [remember, if_pos hleft, activeIn]
      cases hc : (below (run ir) s P).getLast? with
      | none => trivial
      | some c => exact exits_inside other hir hP hs ht hleft hc ρ
    · have hnot : P ∉ chain ir s := fun hmem => hout (hsub P (hinside P hmem hleft))
      rw [remember, if_neg hleft, exits_outside other hir hP hs ht hnot]
      exact hholds P hP hnot

/-- A transition to the history of a composite: to a history node in it, or to itself with a flag. -/
def ToHistoryOf (ir : FsmIr) (P : String) (t : TransitionEdge) : Prop :=
  P ∈ compositesWithHistory ir ∧
    ((t.targetIsHistory || t.targetIsDeepHistory) = true ∧ t.target = P ∨
      ∃ h ∈ ir.states, isHistory h = true ∧ h.parentState = P ∧ t.target = h.name)

/-- The transition asks for deep history. -/
def asksDeep (ir : FsmIr) (t : TransitionEdge) : Bool :=
  t.targetIsDeepHistory || (ir.findState t.target).any fun h => h.kind = .deepHistory

/-- The transition leads to the choice of the composite. -/
def Redirected (ir : FsmIr) (P : String) (i : ℕ) : Prop :=
  ∃ t', (run ir).transitions[i]? = some t' ∧ t'.target = restoreName P

/-- What a transition reactivates: the default of a composite that was never active, else the direct child
that was active when the composite was last left, and with deep history the innermost state. -/
def Reactivates (other : ActionAstNode → (String → String) → String → String)
    (guard : (String → String) → String → Bool) (ir : FsmIr) (s : String) (ρ : String → String)
    (memory : Memory) (P : String) (deep : Bool) (t' : TransitionEdge) : Prop :=
  let target :=
    resolve guard (isRestore ir) (run ir) (writeAll other ρ (exitActionsOf (run ir) s t')) t'.target
  match memory with
  | .never => target = some (defaultSubstate ir P)
  | .childless => True
  | .child c leaf =>
    if deep then ∃ x ds, target = some x ∧ Defaults (run ir) x ds ∧ leafOf x ds = leaf
    else target = some c

/-- All transitions to history nodes are redirected, and in all runs those that enter a composite from
outside reactivate what was active in it. -/
def RestoresHistory (other : ActionAstNode → (String → String) → String → String)
    (guard : (String → String) → String → Bool) (ir : FsmIr) : Prop :=
  ∀ i t P, ir.transitions[i]? = some t → ToHistoryOf ir P t → Redirected ir P i ∧
    ∀ s ρ last t', MemoryRun other guard (isRestore ir) (run ir) s ρ last →
      t.source ∈ chain (run ir) s → P ∉ chain (run ir) s → (run ir).transitions[i]? = some t' →
        Reactivates other guard ir s ρ (last P) P (asksDeep ir t) t'

theorem live_of_mem_targetSubstates (hir : Regular ir) {c : String} (hc : c ∈ targetSubstates ir P) : Live ir c := by
  obtain ⟨n, hn, rfl⟩ := List.mem_map.mp hc
  obtain ⟨hmem, hfilter⟩ := List.mem_filter.mp hn
  simp only [Bool.and_eq_true, Bool.not_eq_true'] at hfilter
  exact live_of_findState hir (FsmIr.findState_name hir.names hmem) hfilter.2

theorem run_transition_at (hir : Regular ir) (hne : compositesWithHistory ir ≠ []) {i : ℕ}
    {t : TransitionEdge} (hi : ir.transitions[i]? = some t) :
    (run ir).transitions[i]? = some (redirect ir (compositesWithHistory ir) t) := by
  obtain ⟨hlt, -⟩ := List.getElem?_eq_some_iff.mp hi
  rw [run_transitions hir hne, List.getElem?_append_left (by simpa using hlt), List.getElem?_map, hi]
  rfl

theorem redirected_iff (hir : Regular ir) (hP : P ∈ compositesWithHistory ir) {i : ℕ}
    {t : TransitionEdge} (hi : ir.transitions[i]? = some t) :
    Redirected ir P i ↔ (compositesWithHistory ir).find? (captures ir · t) = some P := by
  have hplain := (hir.ends t (List.mem_of_getElem? hi)).2
  unfold Redirected
  rw [run_transition_at hir (List.ne_nil_of_mem hP) hi]
  unfold redirect
  cases hcapture : (compositesWithHistory ir).find? (captures ir · t) with
  | none => simpa using hplain P hP
  | some Q =>
    constructor
    · rintro ⟨t', ht', htarget⟩
      cases ht'
      exact congrArg some (restoreName_inj htarget)
    · intro h
      cases h
      exact ⟨_, rfl, rfl⟩

/-- A transition to a history node is redirected to the right composite exactly when that is the first one
that captures it, and then it reactivates the right state exactly when, for deep history, entering the
direct child by default leads there. -/
theorem restoresHistory_iff {ir : FsmIr} (hir : Regular ir)
    (other : ActionAstNode → (String → String) → String → String)
    {guard : (String → String) → String → Bool} (hguard : ReadsHistory ir guard) {i : ℕ}
    {t : TransitionEdge} {P : String} (hi : ir.transitions[i]? = some t) (ht : ToHistoryOf ir P t) :
    (Redirected ir P i ↔ (compositesWithHistory ir).find? (captures ir · t) = some P) ∧
      ∀ s ρ last t', MemoryRun other guard (isRestore ir) (run ir) s ρ last →
        t.source ∈ chain (run ir) s → P ∉ chain (run ir) s → (run ir).transitions[i]? = some t' →
          t'.target = restoreName P →
            (Reactivates other guard ir s ρ (last P) P (asksDeep ir t) t' ↔
              (asksDeep ir t = true → ∀ c leaf, last P = .child c leaf →
                ∃ ds, Defaults ir c ds ∧ leafOf c ds = leaf)) := by
  have hP := ht.1
  have hne := List.ne_nil_of_mem hP
  refine ⟨redirected_iff hir hP hi, fun s ρ last t' hrun _ hout hi' htarget => ?_⟩
  obtain ⟨hs, hholds⟩ := memoryRun_holds hir hne hrun
  rw [run_chain hir hne hs] at hout
  have hvalue := hholds P hP hout
  rw [← exits_outside other hir hP hs (List.mem_of_getElem? hi') hout ρ] at hvalue
  unfold Reactivates
  rw [htarget]
  cases hmemory : last P with
  | never =>
    rw [hmemory] at hvalue
    simp [resolve_of_holds hir hP hguard hvalue rfl]
  | childless => simp
  | child c leaf =>
    rw [hmemory] at hvalue
    have hlive := live_of_mem_targetSubstates hir hvalue.2
    simp only [resolve_of_holds hir hP hguard hvalue rfl]
    cases asksDeep ir t with
    | false => simp
    | true =>
      simp only [if_true, forall_const, Memory.child.injEq]
      constructor
      · rintro ⟨x, ds, hx, hds, hleaf⟩ c' leaf' ⟨rfl, rfl⟩
        cases hx
        exact ⟨ds, (defaults_iff hir hne hlive).mp hds, hleaf⟩
      · intro h
        obtain ⟨ds, hds, hleaf⟩ := h c leaf ⟨rfl, rfl⟩
        exact ⟨c, ds, rfl, (defaults_iff hir hne hlive).mpr hds, hleaf⟩

end Runs

end Lowered

/-! ## Two players -/

/-- A guard that compares a register with a text. -/
def textGuard (ρ : String → String) (text : String) : Bool :=
  let name := String.ofList (text.toList.takeWhile (· ≠ ' '))
  text = name ++ " == " ++ ρ name

theorem readsHistory_textGuard {ir : FsmIr} (h : ∀ P ∈ compositesWithHistory ir, ' ' ∉ P.toList) :
    ReadsHistory ir textGuard := by
  intro P hP ρ name
  have hvar : String.ofList ((restoreGuard P name).toList.takeWhile (· ≠ ' ')) = historyVar P := by
    have hchars : ∀ c ∈ (historyVar P).toList, decide (c ≠ ' ') = true := by
      intro c hc
      have hmem : c ∈ "__history_state_".toList ++ P.toList := by
        rwa [toList_historyVar] at hc
      rcases List.mem_append.mp hmem with hc | hc
      · have hall : ∀ c ∈ "__history_state_".toList, decide (c ≠ ' ') = true := by simp
        exact hall c hc
      · have hne : c ≠ ' ' := fun heq => h P hP (heq ▸ hc)
        simpa using hne
    unfold restoreGuard
    rw [String.toList_append, String.toList_append, List.append_assoc,
      List.takeWhile_append_of_pos hchars]
    simp
  unfold textGuard
  rw [hvar]
  apply decide_eq_decide.mpr
  unfold restoreGuard
  rw [String.append_assoc, String.append_assoc]
  constructor
  · intro heq
    exact (String.append_right_inj _ |>.mp (String.append_right_inj _ |>.mp heq)).symm
  · rintro heq
    rw [heq]

/-- A player that goes on where it was. -/
def player : FsmIr :=
  { initialState := "Off"
    states :=
      [{ name := "Off" },
        { name := "Playing", kind := .composite, isComposite := true, initialSubState := "Intro",
          hasHistory := true },
        { name := "Intro", parentState := "Playing" }, { name := "Song", parentState := "Playing" }]
    transitions :=
      [{ source := "Off", target := "Playing", event := "on", targetIsHistory := true },
        { source := "Intro", target := "Song", event := "next" },
        { source := "Playing", target := "Off", event := "off" }] }

theorem player_regular : Regular player where
  acyclic := by
    apply acyclic_of_rank fun s => if s = "Playing" then 0 else 1
    intro n hn hparent
    simp only [player, List.mem_cons, List.not_mem_nil, or_false] at hn
    rcases hn with rfl | rfl | rfl | rfl <;> simp_all
  names := by decide +kernel
  named := by decide +kernel
  plain := by unfold Plain; decide +kernel
  ends := by unfold Plain; decide +kernel
  initial := by unfold Plain; decide +kernel
  leaves := by decide +kernel
  direct := by decide +kernel
  defaults := by
    intro P hP
    have hplaying : P = "Playing" := by
      have hall : ∀ P ∈ compositesWithHistory player, P = "Playing" := by decide +kernel
      exact hall P hP
    subst hplaying
    exact ⟨⟨{ name := "Intro", parentState := "Playing" }, rfl, rfl⟩, by decide +kernel⟩
  inside := by decide +kernel
  unwritten := by decide +kernel
  undeclared := by decide +kernel

/-- The player can be off with a song in its memory, and then it goes on with the song. -/
theorem player_restoresHistory :
    ∃ ρ last t', MemoryRun (fun _ ρ => ρ) textGuard (isRestore player) (run player) "Off" ρ last ∧
      last "Playing" = .child "Song" "Song" ∧ (run player).transitions[0]? = some t' ∧
        t'.target = restoreName "Playing" ∧
          Reactivates (fun _ ρ => ρ) textGuard player "Off" ρ (last "Playing") "Playing" false t' := by
  have hguard : ReadsHistory player textGuard := readsHistory_textGuard (by decide +kernel)
  have hne : compositesWithHistory player ≠ [] := by decide +kernel
  have hat : ∀ {i t}, player.transitions[i]? = some t →
      redirect player (compositesWithHistory player) t ∈ (run player).transitions :=
    fun hi => List.mem_of_getElem? (run_transition_at player_regular hne hi)
  have hoff : MemoryRun (fun _ ρ => ρ) textGuard (isRestore player) (run player) "Off" _ _ :=
    .start (by decide +kernel) (.leaf (by decide +kernel))
  have hintro := hoff.step (x := "Intro") (hat (i := 0) rfl) (by decide +kernel) (by decide +kernel)
    (by decide +kernel) (by decide +kernel) (.leaf (by decide +kernel))
  have hsong := hintro.step (x := "Song") (hat (i := 1) rfl) (by decide +kernel) (by decide +kernel)
    (by decide +kernel) (by decide +kernel) (.leaf (by decide +kernel))
  have hback := hsong.step (x := "Off") (hat (i := 2) rfl) (by decide +kernel) (by decide +kernel)
    (by decide +kernel) (by decide +kernel) (.leaf (by decide +kernel))
  have hflag : ToHistoryOf player "Playing"
      { source := "Off", target := "Playing", event := "on", targetIsHistory := true } :=
    ⟨by decide +kernel, .inl ⟨rfl, rfl⟩⟩
  obtain ⟨hredirect, hreactivate⟩ :=
    restoresHistory_iff player_regular (fun _ ρ => ρ) hguard (i := 0) rfl hflag
  obtain ⟨t', ht', htarget⟩ := hredirect.mpr (by decide +kernel)
  refine ⟨_, _, t', hback, rfl, ht', htarget, ?_⟩
  refine (hreactivate _ _ _ t' hback (by decide +kernel) (by decide +kernel) ht' htarget).mpr ?_
  exact fun hdeep => absurd hdeep (by decide +kernel)

/-- A radio whose history node does not have the name of its composite. -/
def radio : FsmIr :=
  { initialState := "Off"
    states :=
      [{ name := "Off" },
        { name := "Playing", kind := .composite, isComposite := true, initialSubState := "News" },
        { name := "News", parentState := "Playing" }, { name := "Music", parentState := "Playing" },
        { name := "Resume", kind := .shallowHistory, parentState := "Playing" }]
    transitions :=
      [{ source := "Off", target := "Resume", event := "on" },
        { source := "News", target := "Music", event := "next" },
        { source := "Playing", target := "Off", event := "off" }] }

/-- The transition to the history node of the radio still leads there, and the node is gone. -/
theorem radio_not_restoresHistory : ¬ RestoresHistory (fun _ ρ => ρ) textGuard radio := by
  intro h
  have hto : ToHistoryOf radio "Playing" { source := "Off", target := "Resume", event := "on" } :=
    ⟨by decide +kernel, .inr ⟨{ name := "Resume", kind := .shallowHistory, parentState := "Playing" },
      by simp [radio], rfl, rfl, rfl⟩⟩
  obtain ⟨⟨t', ht', htarget⟩, -⟩ := h 0 _ "Playing" rfl hto
  have hstays : (run radio).transitions[0]?.map (·.target) = some "Resume" := by decide +kernel
  rw [ht', Option.map_some, htarget] at hstays
  exact absurd hstays (by decide +kernel)

end Fsmc.Passes.HistoryLowering
