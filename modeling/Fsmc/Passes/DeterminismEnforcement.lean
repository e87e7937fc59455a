/-
# Fsmc.Passes.DeterminismEnforcement — sorting the transition table.

The pass reports unguarded transitions that compete and then sorts the table by source, event,
priority and target. The runtime takes the first row that fires, so the sort decides which of two
competing transitions wins. What it should keep is the choice by priority and, among transitions of
one priority, by the order of declaration; the target is compared before that order.
-/
import Fsmc.Ir.GraphOps
import Fsmc.Runtime.Dispatch
import Mathlib.Data.String.Basic

namespace Fsmc.Passes.DeterminismEnforcement

open Fsmc.Ir Fsmc.Cpp Fsmc.Runtime Fsmc.Lib.FirstMatch

/-! ## The pass -/

/-- The comparator of the sort. -/
def comesBefore (a b : TransitionEdge) : Bool :=
  if a.source ≠ b.source then a.source < b.source
  else if a.event ≠ b.event then a.event < b.event
  else if precedence a.priority ≠ precedence b.priority then
    precedence a.priority < precedence b.priority
  else a.target < b.target

/-- The transitions of one source and event. -/
def group (ir : FsmIr) (key : String × String) : List TransitionEdge :=
  ir.transitions.filter fun t => t.source = key.1 && t.event = key.2

/-- The keys of `groups`, in the order of the map. -/
def groupKeys (ir : FsmIr) : List (String × String) :=
  sortByKey toLex (ir.transitions.map fun t => (t.source, t.event)).dedup

/-- `!t->guard.has_value() || t->guard->empty()`. -/
def unconditional (t : TransitionEdge) : Bool := t.guard = none || t.guard = some ""

/-- Whether a group is reported: several unguarded transitions and a priority used twice. -/
def conflicting (transList : List TransitionEdge) : Bool :=
  1 < transList.length && 1 < transList.countP unconditional &&
    transList.any fun t => 1 < transList.countP fun u => u.priority = t.priority

/-- The text of `W_NONDETERMINISTIC_CONFLICT`. -/
def conflictMessage (key : String × String) : String :=
  "State '" ++ key.1 ++ "' has multiple non-deterministic outgoing transitions for event '" ++
    key.2 ++ "' with identical priority levels."

/-- `DeterminismEnforcementPass::run`: the sorted machine and the conflicts reported. -/
def run (ir : FsmIr) : FsmIr × List String :=
  ({ ir with transitions := stableSort comesBefore ir.transitions },
    ((groupKeys ir).filter fun key => conflicting (group ir key)).map conflictMessage)

/-! ## The sort as a sort by key -/

/-- What the comparator compares. -/
def sortKey (t : TransitionEdge) : String ×ₗ String ×ₗ ℕ ×ₗ String :=
  toLex (t.source, toLex (t.event, toLex (precedence t.priority, t.target)))

theorem comesBefore_eq (a b : TransitionEdge) : comesBefore a b = decide (sortKey a < sortKey b) := by
  unfold comesBefore sortKey
  simp only [Prod.Lex.toLex_lt_toLex]
  by_cases hs : a.source = b.source
  · by_cases he : a.event = b.event
    · by_cases hp : precedence a.priority = precedence b.priority
      · simp [hs, he, hp]
      · simp [hs, he, hp]
    · simp [hs, he]
  · simp [hs]

theorem run_transitions (ir : FsmIr) : (run ir).1.transitions = sortByKey sortKey ir.transitions :=
  stableSort_eq_sortByKey fun a _ b _ => comesBefore_eq a b

theorem firstMatch_run (ir : FsmIr) (source event : String) (v : GuardValuation) :
    firstMatch (run ir).1.transitions source event v =
      (candidates ir.transitions source event v).argmin sortKey := by
  rw [run_transitions]
  exact find?_sortByKey (fires source event v)

/-! ## What the sort should keep -/

/-- The order of priorities: the lowest non-zero number first and `0` last. -/
def rank (t : TransitionEdge) : ℕ := if t.priority = 0 then 4294967296 else t.priority.toNat

/-- The transition of best priority that fires, the first declared among equals. -/
def preferred (rows : List TransitionEdge) (source event : String) (v : GuardValuation) :
    Option TransitionEdge :=
  (candidates rows source event v).argmin rank

/-- Two transitions compete for one event in one state. -/
def Competing (t u : TransitionEdge) : Prop := u.source = t.source ∧ u.event = t.event

/-- Some transition that fires should win over `t`, which is declared after `pre`. -/
def Beaten (rows pre : List TransitionEdge) (v : GuardValuation) (t : TransitionEdge) : Prop :=
  ∃ k, Competing t k ∧ enabled v k = true ∧
    (k ∈ rows ∧ rank k < rank t ∨ k ∈ pre ∧ rank k ≤ rank t)

/-- No tie is broken against the order of declaration: when two competing transitions of one
precedence are enabled and the target names put `u` before `t`, then `t` is not the choice. -/
def TiesKeepOrder (rows : List TransitionEdge) : Prop :=
  ∀ pre t post u, rows = pre ++ t :: post → Competing t u →
    precedence u.priority = precedence t.priority →
    (u ∈ post ∧ u.target < t.target ∨ u ∈ pre ∧ u.target ≤ t.target) →
    ∀ v, enabled v t = true → enabled v u = true → Beaten rows pre v t

variable {t u : TransitionEdge}

theorem precedence_mono (h : rank t ≤ rank u) : precedence t.priority ≤ precedence u.priority := by
  have ht : t.priority.toNat < 4294967296 := t.priority.toNat_lt
  have hu : u.priority.toNat < 4294967296 := u.priority.toNat_lt
  unfold rank at h
  unfold precedence
  split at h <;> split at h <;> simp_all <;> omega

theorem sortKey_le_iff (h : Competing t u) : sortKey t ≤ sortKey u ↔
      precedence t.priority < precedence u.priority ∨
        precedence t.priority = precedence u.priority ∧ t.target ≤ u.target := by
  unfold sortKey
  simp [Prod.Lex.toLex_le_toLex, h.1, h.2]

theorem sortKey_lt_iff (h : Competing t u) : sortKey t < sortKey u ↔
      precedence t.priority < precedence u.priority ∨
        precedence t.priority = precedence u.priority ∧ t.target < u.target := by
  unfold sortKey
  simp [Prod.Lex.toLex_lt_toLex, h.1, h.2]

theorem split_of_candidates {rows preC postC : List TransitionEdge} {t : TransitionEdge}
    {source event : String} {v : GuardValuation}
    (h : candidates rows source event v = preC ++ t :: postC) :
    ∃ pre post, rows = pre ++ t :: post ∧ preC = candidates pre source event v ∧
      postC = candidates post source event v := by
  obtain ⟨front, rest, rfl, hfront, hrest⟩ := List.filter_eq_append_iff.mp h
  obtain ⟨skipped, post, rfl, hskipped, -, hpost⟩ := List.filter_eq_cons_iff.mp hrest
  refine ⟨front ++ skipped, post, by simp, ?_, hpost.symm⟩
  have hnone : candidates skipped source event v = [] := by
    rw [candidates, List.filter_eq_nil_iff]
    exact hskipped
  rw [← hfront]
  simp [candidates, List.filter_append] at hnone ⊢
  exact hnone

variable {rows : List TransitionEdge}

theorem argmin_sortKey_of_ties (h : TiesKeepOrder rows)
    (source event : String) (v : GuardValuation) :
    (candidates rows source event v).argmin sortKey = preferred rows source event v := by
  cases hpref : preferred rows source event v with
  | none =>
    have hnil : candidates rows source event v = [] := List.argmin_eq_none.mp hpref
    rw [hnil, List.argmin_nil]
  | some t =>
    obtain ⟨preC, postC, hsplit, hleast⟩ := exists_isFirstLeast_of_argmin hpref
    obtain ⟨pre, post, rfl, rfl, rfl⟩ := split_of_candidates hsplit
    have ht : t ∈ candidates (pre ++ t :: post) source event v := by
      rw [hsplit]
      simp
    obtain ⟨-, ⟨hts, hte⟩, hton⟩ := mem_candidates.mp ht
    -- nothing that fires has a better claim than `t`
    have hunbeaten : ¬ Beaten (pre ++ t :: post) pre v t := by
      rintro ⟨k, ⟨hks, hke⟩, hkon, hk⟩
      have hkC : ∀ part : List TransitionEdge, k ∈ part → k ∈ candidates part source event v :=
        fun part hkp => mem_candidates.mpr ⟨hkp, ⟨hks.trans hts, hke.trans hte⟩, hkon⟩
      rcases hk with ⟨hkr, hlt⟩ | ⟨hkp, hle⟩
      · have hmin := List.le_of_mem_argmin (hkC _ hkr) hpref
        omega
      · have hmin := hleast.before k (hkC pre hkp)
        omega
    rw [hsplit]
    apply argmin_of_isFirstLeast
    refine ⟨?_, ?_⟩
    · intro u hu
      obtain ⟨hup, ⟨hus, hue⟩, huon⟩ := mem_candidates.mp hu
      have hcomp : Competing t u := ⟨hus.trans hts.symm, hue.trans hte.symm⟩
      rw [sortKey_lt_iff hcomp]
      rcases (precedence_mono (hleast.before u hu).le).lt_or_eq with hlt | heq
      · exact Or.inl hlt
      · refine Or.inr ⟨heq, lt_of_not_ge ?_⟩
        intro hle
        exact hunbeaten
          (h pre t post u rfl hcomp heq.symm (Or.inr ⟨hup, hle⟩) v hton huon)
    · intro u hu
      obtain ⟨hup, ⟨hus, hue⟩, huon⟩ := mem_candidates.mp hu
      have hcomp : Competing t u := ⟨hus.trans hts.symm, hue.trans hte.symm⟩
      rw [sortKey_le_iff hcomp]
      rcases (precedence_mono (hleast.after u hu)).lt_or_eq with hlt | heq
      · exact Or.inl hlt
      · refine Or.inr ⟨heq, le_of_not_gt ?_⟩
        intro hgt
        exact hunbeaten
          (h pre t post u rfl hcomp heq.symm (Or.inl ⟨hup, hgt⟩) v hton huon)

theorem ties_of_argmin_sortKey (h : ∀ source event v,
      (candidates rows source event v).argmin sortKey = preferred rows source event v) :
    TiesKeepOrder rows := by
  intro pre t post u hrows hcomp hprec hplace v hton huon
  by_contra hunbeaten
  have hsplit : candidates rows t.source t.event v =
      candidates pre t.source t.event v ++ t :: candidates post t.source t.event v := by
    have htfires : fires t.source t.event v t = true := fires_iff.mpr ⟨⟨rfl, rfl⟩, hton⟩
    rw [hrows, candidates, List.filter_append, List.filter_cons_of_pos htfires]
    rfl
  have hmem : ∀ k ∈ rows, Competing t k → enabled v k = true →
      k ∈ candidates rows t.source t.event v :=
    fun k hk hkt hkon => mem_candidates.mpr ⟨hk, hkt, hkon⟩
  -- `t` is the first of the candidates of least rank
  have hleast : IsFirstLeast rank (candidates pre t.source t.event v) t
      (candidates post t.source t.event v) := by
    refine ⟨?_, ?_⟩
    · intro k hk
      obtain ⟨hkp, hkt, hkon⟩ := mem_candidates.mp hk
      by_contra hle
      exact hunbeaten ⟨k, hkt, hkon, Or.inr ⟨hkp, not_lt.mp hle⟩⟩
    · intro k hk
      obtain ⟨hkp, hkt, hkon⟩ := mem_candidates.mp hk
      by_contra hlt
      exact hunbeaten ⟨k, hkt, hkon, Or.inl ⟨by simp [hrows, hkp], not_le.mp hlt⟩⟩
  have hpref : preferred rows t.source t.event v = some t := by
    rw [preferred, hsplit]
    exact argmin_of_isFirstLeast hleast
  have hcode := (h t.source t.event v).trans hpref
  have hu : u ∈ candidates rows t.source t.event v := by
    apply hmem u ?_ hcomp huon
    rw [hrows]
    rcases hplace with hpost | hpre
    · simp [hpost.1]
    · simp [hpre.1]
  have hle := (sortKey_le_iff hcomp).mp (List.le_of_mem_argmin hu hcode)
  have htarget : t.target ≤ u.target := by
    rcases hle with hlt | heq
    · omega
    · exact heq.2
  rcases hplace with ⟨-, hlt⟩ | ⟨hupre, hule⟩
  · exact absurd hlt (not_lt.mpr htarget)
  · -- `u` has the key of `t` and comes first, so `t` itself stands before its own position
    have hkey : sortKey u = sortKey t := by
      have htu : u.target = t.target := le_antisymm hule htarget
      simp [sortKey, hcomp.1, hcomp.2, hprec, htu]
    have hhead := head?_filter_of_argmin hcode
    rw [hsplit, List.filter_append] at hhead
    have hupreC : u ∈ (candidates pre t.source t.event v).filter
        (fun b => sortKey b = sortKey t) := by
      simp [mem_candidates, hupre, hcomp.1, hcomp.2, huon, hkey]
    rw [List.head?_append_of_ne_nil _ (List.ne_nil_of_mem hupreC)] at hhead
    have htpre : t ∈ candidates pre t.source t.event v :=
      List.mem_of_mem_filter (List.mem_of_head? hhead)
    exact lt_irrefl _ (hleast.before t htpre)

/-- The sorted machine executes the preferred transition, for every state, event and valuation of
the guards, exactly when every tie keeps the order of declaration. -/
theorem run_selects_preferred_iff (ir : FsmIr) : (∀ source event v, firstMatch (run ir).1.transitions source event v =
        preferred ir.transitions source event v) ↔
      TiesKeepOrder ir.transitions := by
  simp only [firstMatch_run]
  exact ⟨ties_of_argmin_sortKey, argmin_sortKey_of_ties⟩

/-- Two unguarded transitions whose targets are declared against the order of their names. -/
def racing : FsmIr where
  initialState := "Idle"
  states := [{ name := "Idle" }, { name := "Running" }, { name := "Faulted" }]
  transitions := [{ source := "Idle", target := "Running", event := "start" },
    { source := "Idle", target := "Faulted", event := "start" }]

/-- The sort lets the transition declared second win. -/
theorem racing_not_preferred : ¬ ∀ source event v, firstMatch (run racing).1.transitions source event v =
        preferred racing.transitions source event v := by
  intro h
  have hgo := h "Idle" "start" fun _ => true
  rw [firstMatch_run] at hgo
  have htarget := congrArg (Option.map (·.target)) hgo
  revert htarget
  decide

end Fsmc.Passes.DeterminismEnforcement
