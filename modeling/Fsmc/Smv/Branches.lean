/-
# Fsmc.Smv.Branches — the branches of a module against the transitions of the machine.

In a step that the module follows, the branch of a transition is true exactly if the transition is one of the
leaf, its trigger is there and its guard holds. The first true branch is then that of the transition which is
taken, and where none is taken the state stays.
-/
import Fsmc.Smv.Followed
import Mathlib.Algebra.Order.Ring.Rat
import Mathlib.Data.List.Find
import Mathlib.Data.Nat.Cast.Order.Ring

namespace Fsmc.Smv

open Fsmc.Ir Fsmc.Cpp Fsmc.Runtime Fsmc.Lib.FirstMatch Fsmc.Lib.SmvModule

variable {E : Type} {R : Reader} {S : TypedSource}

/-! ## Branches and transitions -/

theorem eventConstant_injective {S : Source} (hnodup : ("none" :: (eventNames S).map sanitizeSmvIdent).Nodup)
    {e e' : Option String} (he : ∀ a ∈ e, a ∈ eventNames S) (he' : ∀ a ∈ e', a ∈ eventNames S)
    (h : eventConstant e = eventConstant e') : e = e' := by
  obtain ⟨hnone, hnodup'⟩ := List.nodup_cons.mp hnodup
  cases e with
  | none =>
    cases e' with
    | none => rfl
    | some b =>
      have hsame : "none" = sanitizeSmvIdent b := h
      exact absurd (hsame ▸ List.mem_map_of_mem (he' b rfl)) hnone
  | some a =>
    cases e' with
    | none =>
      have hsame : sanitizeSmvIdent a = "none" := h
      exact absurd (hsame ▸ List.mem_map_of_mem (he a rfl)) hnone
    | some b => rw [List.inj_on_of_nodup_map hnodup' (he a rfl) (he' b rfl) h]

theorem mem_eventNames {S : Source} {t : TransitionEdge} (ht : t ∈ S.ir.transitions)
    (h : isEventless t.getTriggerName = false) : t.getTriggerName ∈ eventNames S := by
  unfold eventNames
  rw [List.mem_reverse, List.mem_dedup, List.mem_reverse, List.mem_append, List.mem_filter]
  simp only [isEventless, Bool.or_eq_false_iff, decide_eq_false_iff_not] at h
  exact Or.inl ⟨List.mem_map_of_mem ht, by simp [h.1.1, h.1.2, h.2]⟩

theorem mem_declaredStates {S : Source} {t : TransitionEdge} (ht : t ∈ S.ir.transitions) :
    (isStateName t.source = true → t.source ∈ declaredStates S) ∧
      (isStateName t.target = true → t.target ∈ declaredStates S) := by
  have hends : t.source ∈ S.ir.transitions.flatMap (fun t => [t.source, t.target]) ∧
      t.target ∈ S.ir.transitions.flatMap fun t => [t.source, t.target] :=
    ⟨List.mem_flatMap.mpr ⟨t, ht, by simp⟩, List.mem_flatMap.mpr ⟨t, ht, by simp⟩⟩
  exact ⟨fun h => List.mem_filter.mpr ⟨List.mem_append_right _ hends.1, h⟩,
    fun h => List.mem_filter.mpr ⟨List.mem_append_right _ hends.2, h⟩⟩

theorem ticksOf_eq_none {t : TransitionEdge} : ticksOf t = none ↔ timerOf t = none := by
  unfold ticksOf timerOf
  cases t.trigger <;> simp

theorem mem_stateMaxTimeouts {ir : FsmIr} {t : TransitionEdge} (ht : t ∈ ir.transitions) (hsource : t.source ≠ "")
    (hticks : (ticksOf t).isSome = true) : (t.source, maxDuration ir t.source) ∈ stateMaxTimeouts ir := by
  unfold stateMaxTimeouts
  refine List.mem_map.mpr ⟨t.source, ?_, rfl⟩
  rw [mem_stableSort, List.mem_dedup]
  exact List.mem_map_of_mem (List.mem_filter.mpr ⟨ht, by simp [hsource, hticks]⟩)

section

variable {M : Meaning Datum E} {run : MachineRun S M} {i : ℕ}

/-- A transition whose branch is true: it is one of the leaf, with its trigger, and its guard holds or is an
`else` that is taken. -/
def accepts (run : MachineRun S M) (i : ℕ) (t : TransitionEdge) : Bool :=
  t.source = (run.situation i).leaf && triggered M (run.situation i) (run.stimulus i) t &&
    if isElseText (guardTextOf t) then freeValue run i (guardTextOf t)
    else passes M S.ir (run.situation i) (run.stimulus i) t

variable {t : TransitionEdge}

theorem truth_guard (hdistinct : (variableNames S.toSource).Nodup)
    (ht : t ∈ S.ir.transitions) (hreads : ReadsGuard R S M (run.situation i) (run.stimulus i) t) {text : String}
    (htext : guardPredicate S.ir t = some text) :
    R.truth (valuationAt run i) text =
      some (if isElseText (guardTextOf t) then freeValue run i (guardTextOf t)
        else passes M S.ir (run.situation i) (run.stimulus i) t) := by
  have hempty : guardTextOf t ≠ "" := by
    intro hempty
    have hnone : guardPredicate S.ir t = none := if_pos hempty
    rw [hnone] at htext
    cases htext
  have hpredicate : guardPredicate S.ir t = some (toSmvPredicate (guardExpression S.ir (guardTextOf t))) :=
    if_neg hempty
  have hsame : toSmvPredicate (guardExpression S.ir (guardTextOf t)) = text :=
    Option.some.inj (hpredicate.symm.trans htext)
  unfold ReadsGuard at hreads
  rw [if_neg hempty] at hreads
  -- a name that nothing else has is a free variable
  have hnamed : ∀ {name : String}, guardExpression S.ir (guardTextOf t) = name → IsName name →
      name ∉ knownIdents S.toSource → R.truth (valuationAt run i) text = some (freeValue run i name) := by
    intro name hname hword hfree
    rw [← hsame, hname, toSmvPredicate_of_named hword hfree]
    rw [hname, toSmvPredicate_of_named hword hfree] at hpredicate
    exact truth_name hword (valuationAt_free run i hdistinct (mem_freeGuardVars ht hpredicate hword hfree))
  by_cases helse : isElseText (guardTextOf t) = true
  · rw [if_pos helse] at hreads ⊢
    have hword : IsName (guardTextOf t) := by
      simp only [isElseText, Bool.or_eq_true, decide_eq_true_eq] at helse
      rcases helse with heq | heq
      · rw [heq]
        decide +kernel
      · rw [heq]
        decide +kernel
    exact hnamed hreads.1 hword hreads.2
  · rw [if_neg helse] at hreads ⊢
    rcases hreads with ⟨⟨hword, hfree, hother⟩, hclosed⟩ | hreads
    · rw [hnamed rfl hword hfree]
      simp [freeValue, passes, hother, hclosed, helse]
    · rw [← hsame]
      refine hreads _ (shows_valuationAt run i hdistinct) fun name hname hother => ?_
      rw [valuationAt_free run i hdistinct hname]
      simp [freeValue, hother]

theorem ends_ne (h : hasEnds t = true) : t.source ≠ "" ∧ t.target ≠ "" := by
  unfold hasEnds at h
  simpa using h

theorem holds_triggerConditions (hdecl : Declarable R S) (hsteps : Followed R S run i)
    (ht : t ∈ S.ir.transitions) (hends : hasEnds t = true) (hsource : t.source = (run.situation i).leaf) :
    (triggerConditions t).all (R.holds (valuationAt run i)) =
      triggered M (run.situation i) (run.stimulus i) t := by
  unfold triggerConditions triggered
  cases hticks : ticksOf t with
  | some n =>
    cases htimer : timerOf t with
    | none => exact absurd (ticksOf_eq_none.mpr htimer) (by simp [hticks])
    | some k =>
      have hcounter := valuationAt_timer run i hdecl.distinct
        (mem_stateMaxTimeouts ht (ends_ne hends).1 (by rw [hticks]; rfl))
      have hiff := hsteps.timers t ht hends hsource k htimer n hticks
      simp only [List.all_cons, List.all_nil, Bool.and_true]
      rw [Reader.holds_atLeast hcounter, Bool.eq_iff_iff, ← hiff, decide_eq_true_eq]
      exact Nat.cast_le
  | none =>
    rw [ticksOf_eq_none.mp hticks]
    have hwaits : waitsForNone t = isEventless t.getTriggerName := by
      simp [waitsForNone, isEventless, Bool.or_assoc]
    simp only
    cases hless : isEventless t.getTriggerName with
    | true => simp [hwaits, hless]
    | false =>
      have hmem := mem_eventNames ht hless
      have hevent := (shows_valuationAt run i hdecl.distinct).event
      rw [hwaits, hless, Bool.false_or]
      simp only [Bool.false_eq_true, if_false, List.all_cons, List.all_nil, Bool.and_true]
      rw [Reader.holds_equals, hevent]
      apply decide_eq_decide.mpr
      constructor
      · intro heq
        exact eventConstant_injective hdecl.events (run.offered i)
          (fun a ha => by rw [← Option.mem_some.mp ha]; exact hmem) (Datum.symbol.inj heq)
      · intro heq
        rw [heq]
        rfl

theorem holds_guardConditions (hdecl : Declarable R S) (hsteps : Followed R S run i)
    (ht : t ∈ S.ir.transitions) (hends : hasEnds t = true) (hsource : t.source = (run.situation i).leaf)
    (htriggered : triggered M (run.situation i) (run.stimulus i) t = true) :
    ((guardPredicate S.ir t).toList.map Condition.formula).all (R.holds (valuationAt run i)) =
      if isElseText (guardTextOf t) then freeValue run i (guardTextOf t)
      else passes M S.ir (run.situation i) (run.stimulus i) t := by
  have hreads := hsteps.guards t ht hends hsource htriggered
  cases htext : guardPredicate S.ir t with
  | none =>
    have hempty : guardTextOf t = "" := by
      by_contra hne
      rw [show guardPredicate S.ir t = some _ from if_neg hne] at htext
      cases htext
    simp [hempty, isElseText, passes, isOpenText]
  | some text =>
    simp only [Option.toList_some, List.map_cons, List.map_nil, List.all_cons, List.all_nil, Bool.and_true]
    rw [Reader.holds_formula, truth_guard hdecl.distinct ht hreads htext]
    simp

theorem takes_transitionBranch (hdecl : Declarable R S) (hsteps : Followed R S run i)
    (hleaf : (run.situation i).leaf ∈ declaredStates S.toSource) (ht : t ∈ S.ir.transitions)
    (hends : hasEnds t = true) :
    R.takes (valuationAt run i) (transitionBranch S.ir t) = accepts run i t := by
  obtain ⟨hne, htarget⟩ := ends_ne hends
  have hdeclared := (mem_declaredStates ht).1 (hdecl.sources t ht hne (Or.inl htarget))
  have hstate : R.holds (valuationAt run i) (.equals "state" (sanitizeSmvIdent t.source)) =
      decide (t.source = (run.situation i).leaf) := by
    rw [Reader.holds_equals, (shows_valuationAt run i hdecl.distinct).state]
    apply decide_eq_decide.mpr
    constructor
    · intro heq
      exact hdecl.states _ hdeclared _ hleaf (Datum.symbol.inj heq).symm
    · intro heq
      rw [heq]
  unfold Reader.takes transitionBranch accepts
  rw [List.all_cons, List.all_append, hstate]
  by_cases hsource : t.source = (run.situation i).leaf
  · rw [holds_triggerConditions hdecl hsteps ht hends hsource]
    cases htriggered : triggered M (run.situation i) (run.stimulus i) t with
    | false => simp
    | true =>
      rw [holds_guardConditions hdecl hsteps ht hends hsource htriggered]
      simp
  · simp [hsource]

/-! ## The branch that counts -/

theorem choiceIn_spec {s : String}
    (h : choiceIn M S.ir (run.situation i) (run.stimulus i) s = some t) : t ∈ S.ir.transitions ∧ t.source = s := by
  have henabled : t ∈ byPriorities S.ir ∧ enabledIn M S.ir (run.situation i) (run.stimulus i) s t = true := by
    unfold choiceIn at h
    rcases Option.or_eq_some_iff.mp h with hfirst | ⟨-, hsecond⟩
    · have hfound := List.find?_some hfirst
      rw [Bool.and_eq_true] at hfound
      exact ⟨List.mem_of_find?_eq_some hfirst, hfound.1⟩
    · exact ⟨List.mem_of_find?_eq_some hsecond, List.find?_some hsecond⟩
  unfold enabledIn at henabled
  simp only [Bool.and_eq_true, decide_eq_true_eq] at henabled
  exact ⟨mem_stableSort.mp henabled.1, henabled.2.1.1⟩

theorem selected_eq (run : MachineRun S M) (i : ℕ) (hleaf : (run.situation i).leaf ≠ "") :
    ∃ outer : List String, (run.situation i).leaf ∉ outer ∧ selected M S.ir (run.situation i) (run.stimulus i) =
      ((choiceIn M S.ir (run.situation i) (run.stimulus i) (run.situation i).leaf).or
        (outer.findSome? (choiceIn M S.ir (run.situation i) (run.stimulus i)))) := by
  obtain ⟨outer, houter⟩ := chain_head S.ir hleaf
  refine ⟨outer, ?_, ?_⟩
  · have hnodup := chain_nodup S.ir (run.situation i).leaf
    rw [houter] at hnodup
    exact (List.nodup_cons.mp hnodup).1
  · unfold selected
    rw [houter, List.findSome?_cons]
    cases choiceIn M S.ir (run.situation i) (run.stimulus i) (run.situation i).leaf <;> rfl

theorem source_eq_leaf_iff (hleaf : (run.situation i).leaf ≠ "")
    (h : selected M S.ir (run.situation i) (run.stimulus i) = some t) :
    t.source = (run.situation i).leaf ↔
      choiceIn M S.ir (run.situation i) (run.stimulus i) (run.situation i).leaf = some t := by
  constructor
  · intro hsource
    obtain ⟨outer, hnot, hselected⟩ := selected_eq run i hleaf
    rw [hselected] at h
    rcases Option.or_eq_some_iff.mp h with hown | ⟨-, hinherited⟩
    · exact hown
    · obtain ⟨s, hs, hchoice⟩ := List.exists_of_findSome?_eq_some hinherited
      have hsame := (choiceIn_spec hchoice).2
      rw [hsource] at hsame
      exact absurd (hsame ▸ hs) hnot
  · exact fun h => (choiceIn_spec h).2

theorem enabledIn_of_accepts (h : accepts run i t = true) :
    enabledIn M S.ir (run.situation i) (run.stimulus i) (run.situation i).leaf t = true := by
  unfold accepts at h
  unfold enabledIn
  rw [Bool.and_eq_true] at h ⊢
  refine ⟨h.1, ?_⟩
  have hguard := h.2
  split at hguard
  · rename_i helse
    simp [passes, helse]
  · exact hguard

theorem find?_accepts_of_none (h : choiceIn M S.ir (run.situation i) (run.stimulus i) (run.situation i).leaf = none) :
    ((sortedTransitions S.ir).filter hasEnds).find? (accepts run i) = none := by
  rw [List.find?_eq_none]
  intro t ht haccepts
  have hnone : (byPriorities S.ir).find?
      (enabledIn M S.ir (run.situation i) (run.stimulus i) (run.situation i).leaf) = none := by
    unfold choiceIn at h
    exact (Option.or_eq_none_iff.mp h).2
  exact List.find?_eq_none.mp hnone t (List.mem_filter.mp ht).1 (enabledIn_of_accepts haccepts)

theorem find?_accepts_of_some (hleaf : (run.situation i).leaf ≠ "")
    (h : choiceIn M S.ir (run.situation i) (run.stimulus i) (run.situation i).leaf = some t)
    (htarget : t.target ≠ "") :
    ((sortedTransitions S.ir).filter hasEnds).find? (accepts run i) = some t := by
  have hsource := (choiceIn_spec h).2
  have hends : hasEnds t = true := by
    unfold hasEnds
    rw [hsource]
    simp [hleaf, htarget]
  have hselected : selected M S.ir (run.situation i) (run.stimulus i) = some t := by
    obtain ⟨outer, -, hselected⟩ := selected_eq run i hleaf
    rw [hselected, h]
    rfl
  have hfree : ∀ u : TransitionEdge, isElseText (guardTextOf u) = true →
      freeValue run i (guardTextOf u) = decide (guardTextOf t = guardTextOf u) := by
    intro u helse
    unfold freeValue
    rw [if_pos helse, hselected]
    simp [hsource]
  rw [List.find?_filter]
  unfold choiceIn at h
  rcases Option.or_eq_some_iff.mp h with hfirst | ⟨hnone, hfirst⟩
  -- no `else` is accepted, since one without an `else` is taken
  · have hfound := List.find?_some hfirst
    simp only [Bool.and_eq_true, Bool.not_eq_true'] at hfound
    refine find?_of_imp hfirst (fun u _ hu => ?_) (decide_eq_true ⟨hends, ?_⟩)
    · have haccepts := (of_decide_eq_true hu).2
      rw [Bool.and_eq_true]
      refine ⟨enabledIn_of_accepts haccepts, ?_⟩
      rw [Bool.not_eq_true', Bool.eq_false_iff]
      intro helse
      unfold accepts at haccepts
      rw [if_pos helse, hfree u helse, Bool.and_eq_true, decide_eq_true_eq] at haccepts
      rw [haccepts.2, helse] at hfound
      exact Bool.noConfusion hfound.2
    · unfold accepts
      rw [hfound.2]
      exact hfound.1
  -- all that are enabled are `else`, and the one that is taken is the first of them
  · have henabled := List.find?_some hfirst
    have helse : isElseText (guardTextOf t) = true := by
      have hnot := List.find?_eq_none.mp hnone t (List.mem_of_find?_eq_some hfirst)
      simpa [henabled] using hnot
    refine find?_of_imp hfirst (fun u _ hu => enabledIn_of_accepts (of_decide_eq_true hu).2)
      (decide_eq_true ⟨hends, ?_⟩)
    unfold enabledIn at henabled
    rw [Bool.and_eq_true] at henabled
    unfold accepts
    rw [if_pos helse, hfree t helse, henabled.1]
    simp

/-! ## Steps -/

theorem ne_empty_of_declared {S : Source} {s : String} (h : s ∈ declaredStates S) : s ≠ "" := by
  rintro rfl
  exact absurd (List.mem_filter.mp h).2 (by decide)

/-- Where a step goes that the module follows: the leaf takes no transition and stays, or it takes one to the
target. -/
theorem next_leaf (hsteps : Followed R S run i) (hleaf : (run.situation i).leaf ≠ "") :
    (choiceIn M S.ir (run.situation i) (run.stimulus i) (run.situation i).leaf = none ∧
        (run.situation (i + 1)).leaf = (run.situation i).leaf) ∨
      ∃ t, choiceIn M S.ir (run.situation i) (run.stimulus i) (run.situation i).leaf = some t ∧
        t.target ≠ "" ∧ (run.situation (i + 1)).leaf = t.target := by
  have hstep := run.step i
  generalize run.situation (i + 1) = next at hstep ⊢
  obtain ⟨outer, -, hselected⟩ := selected_eq run i hleaf
  cases hchoice : choiceIn M S.ir (run.situation i) (run.stimulus i) (run.situation i).leaf with
  | none =>
    refine Or.inl ⟨rfl, ?_⟩
    cases hstep with
    | idle _ => rfl
    | internal _ _ => rfl
    | external h hkind henters =>
      have hother : ¬ _ = (run.situation i).leaf := fun hsource =>
        absurd ((source_eq_leaf_iff hleaf h).mp hsource) (by simp [hchoice])
      exact henters.unique (hsteps.inherited _ h hother hkind)
  | some t =>
    rw [hchoice, Option.some_or] at hselected
    obtain ⟨htarget, hinternal, hexternal⟩ := hsteps.own t hselected (choiceIn_spec hchoice).2
    refine Or.inr ⟨t, rfl, htarget, ?_⟩
    cases hstep with
    | idle h => exact absurd (h.symm.trans hselected) (by simp)
    | internal h hkind =>
      cases h.symm.trans hselected
      rw [hinternal hkind, (choiceIn_spec hchoice).2]
    | external h hkind henters =>
      cases h.symm.trans hselected
      exact henters.unique (.here (hexternal hkind))

theorem leaf_declared (hdecl : Declarable R S) (hstart : StartsAlike R S run) (hsteps : ∀ i, Followed R S run i)
    (i : ℕ) : (run.situation i).leaf ∈ declaredStates S.toSource := by
  induction i with
  | zero => exact hstart.declared
  | succ i ih =>
    rcases next_leaf (hsteps i) (ne_empty_of_declared ih) with ⟨-, hsame⟩ | ⟨t, hchoice, htarget, hnext⟩
    · rw [hsame]
      exact ih
    · obtain ⟨ht, hsource⟩ := choiceIn_spec hchoice
      have hends : hasEnds t = true := by
        unfold hasEnds
        rw [hsource]
        simp [ne_empty_of_declared ih, htarget]
      rw [hnext]
      exact (mem_declaredStates ht).2 (hdecl.targets t ht hends)

theorem caseValue_state (hdecl : Declarable R S) (hsteps : Followed R S run i)
    (hleaf : (run.situation i).leaf ∈ declaredStates S.toSource) :
    R.caseValue (valuationAt run i) (stateBranches S.ir) =
      some (.symbol (sanitizeSmvIdent (run.situation (i + 1)).leaf)) := by
  have hfind : (((sortedTransitions S.ir).filter hasEnds).map (transitionBranch S.ir)).find?
        (R.takes (valuationAt run i)) =
      (((sortedTransitions S.ir).filter hasEnds).find? (accepts run i)).map (transitionBranch S.ir) := by
    rw [List.find?_map]
    congr 1
    apply List.find?_congr
    intro t ht
    obtain ⟨ht, hends⟩ := List.mem_filter.mp ht
    exact takes_transitionBranch hdecl hsteps hleaf (mem_stableSort.mp ht) hends
  have hne := ne_empty_of_declared hleaf
  unfold stateBranches
  rcases next_leaf hsteps hne with ⟨hchoice, hsame⟩ | ⟨t, hchoice, htarget, hnext⟩
  · rw [find?_accepts_of_none hchoice, Option.map_none] at hfind
    rw [Reader.caseValue_append_of_none hfind, Reader.caseValue_default, hsame]
    exact congrArg some (shows_valuationAt run i hdecl.distinct).state
  · rw [find?_accepts_of_some hne hchoice htarget, Option.map_some] at hfind
    rw [Reader.caseValue_append_of_some hfind, hnext]
    rfl

variable {entry : String × ℕ}

theorem exists_of_mem_stateMaxTimeouts {ir : FsmIr} (h : entry ∈ stateMaxTimeouts ir) :
    ∃ t ∈ ir.transitions, t.source = entry.1 ∧ t.source ≠ "" ∧ (ticksOf t).isSome = true := by
  unfold stateMaxTimeouts at h
  obtain ⟨s, hs, rfl⟩ := List.mem_map.mp h
  rw [mem_stableSort, List.mem_dedup] at hs
  obtain ⟨t, ht, rfl⟩ := List.mem_map.mp hs
  obtain ⟨ht, hsource⟩ := List.mem_filter.mp ht
  simp only [Bool.and_eq_true, decide_eq_true_eq] at hsource
  exact ⟨t, ht, rfl, hsource⟩

theorem caseValue_timer (hdecl : Declarable R S) (hleaf : (run.situation i).leaf ∈ declaredStates S.toSource)
    (hentry : entry ∈ stateMaxTimeouts S.ir) :
    R.caseValue (valuationAt run i) (timerBranches entry) = some (.number (counterAt run (i + 1) entry)) := by
  obtain ⟨t, ht, hsource, hne, hticks⟩ := exists_of_mem_stateMaxTimeouts hentry
  have hdeclared : entry.1 ∈ declaredStates S.toSource :=
    hsource ▸ (mem_declaredStates ht).1 (hdecl.sources t ht hne (Or.inr hticks))
  have hcounter := valuationAt_timer run i hdecl.distinct hentry
  have hstate : (.symbol (sanitizeSmvIdent (run.situation i).leaf) : Datum) = .symbol (sanitizeSmvIdent entry.1) ↔
      (run.situation i).leaf = entry.1 := by
    constructor
    · exact fun h => hdecl.states _ hleaf _ hdeclared (Datum.symbol.inj h)
    · exact fun h => by rw [h]
  have hbelow : ((counterAt run i entry : ℕ) : ℚ) < (entry.2 : ℕ) ↔ counterAt run i entry < entry.2 := Nat.cast_lt
  unfold timerBranches
  rw [Reader.caseValue_cons]
  simp only [Reader.takes, List.all_cons, List.all_nil, Bool.and_true, Reader.holds_equals,
    Reader.holds_below hcounter, (shows_valuationAt run i hdecl.distinct).state, hstate, hbelow]
  rw [Reader.value_succ hcounter, Reader.caseValue_default]
  unfold counterAt
  rw [ticksIn]
  by_cases hcount : (run.situation i).leaf = entry.1 ∧
      ticksIn (fun j => (run.situation j).leaf) entry.1 entry.2 i < entry.2
  · rw [if_pos hcount, if_pos (by simpa [counterAt] using hcount)]
    push_cast
    rfl
  · rw [if_neg hcount, if_neg (by simpa [counterAt] using hcount)]
    rfl

end

end Fsmc.Smv
