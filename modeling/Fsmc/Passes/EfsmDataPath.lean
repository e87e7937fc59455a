/-
# Fsmc.Passes.EfsmDataPath — pruning the transitions that have findings.

For every finding of the interval analysis, of whatever kind, the first transition with its identifier or
between its two states is erased. A finding does not say which of several transitions between two states
it is about, so the first ones go, as many as there are findings; and a violated contract erases a
transition just as an unsatisfiable guard does.
-/
import Fsmc.Analysis.EfsmFindings
import Fsmc.Lib.EraseFirst
import Fsmc.Lib.Loop

namespace Fsmc.Passes.EfsmDataPath

open Fsmc.Cpp Fsmc.Ir Fsmc.Lib Fsmc.Lib.EraseFirst Fsmc.Analysis Fsmc.Analysis.EfsmInterval

/-! ## The pass -/

/-- The test that looks for the transition of a finding. -/
def isOf (f : EFSMAnalysisFinding) (t : TransitionEdge) : Bool :=
  (f.transitionId ≠ "" && t.id = f.transitionId) ||
    (t.source = f.sourceState && t.target = f.targetState)

/-- The transitions that are left after the findings. -/
def prune (findings : List EFSMAnalysisFinding) (ts : List TransitionEdge) : List TransitionEdge :=
  findings.foldl (fun ts f => ts.eraseP (isOf f)) ts

section Run

variable (toInt64 : Double → Int)

/-- `EFSMDataPathPass::run`, `none` where an exception leaves it. -/
def run (pruneDeadTransitions : Bool) (ir : FsmIr) : Option FsmIr :=
  if ir.vars.isEmpty && ir.ports.isEmpty then some ir
  else
    (analyze toInt64 ir).map fun findings =>
      if pruneDeadTransitions then { ir with transitions := prune findings ir.transitions } else ir

/-! ## What it should remove -/

-- what the text of a guard means
variable (holds : String → (String → ℚ) → Bool)

/-- A valuation that the intervals of a state allow. -/
def Allowed (ir : FsmIr) (state : String) (σ : String → ℚ) : Prop :=
  ∀ name iv, ((computeStateIntervals ir).getD []).find state name = some iv →
    iv.contains (.fin (σ name)) = true

/-- The guard of a transition; a named guard means its expression. -/
def enabled (ir : FsmIr) (t : TransitionEdge) (σ : String → ℚ) : Bool :=
  match t.guard with
  | none => true
  | some guard => guard = "" || holds (guardText ir guard) σ

/-- A transition whose guard is false for every valuation allowed at its source. -/
def Dead (ir : FsmIr) (t : TransitionEdge) : Prop :=
  ∀ σ, Allowed ir t.source σ → enabled holds ir t σ = false

/-- The result is the machine without some dead transitions, the others in their order. -/
def PrunesOnlyDead (ir : FsmIr) : Prop :=
  ∀ ir', run toInt64 true ir = some ir' →
    ir' = { ir with transitions := ir'.transitions } ∧
      Drops (Dead holds ir) ir.transitions ir'.transitions

/-! ## Findings and the transitions they are on -/

/-- An identifier belongs to one pair of states. -/
def UniqueIds (ir : FsmIr) : Prop :=
  ∀ t ∈ ir.transitions, ∀ u ∈ ir.transitions, t.id ≠ "" → t.id = u.id →
    t.source = u.source ∧ t.target = u.target

/-- The two states of a transition. -/
def endsOf (t : TransitionEdge) : String × String := (t.source, t.target)

/-- The two states that a finding names. -/
def findingEnds (f : EFSMAnalysisFinding) : String × String := (f.sourceState, f.targetState)

/-- How many findings there are between two states. -/
def findingsBetween (ir : FsmIr) (ends : String × String) : Nat :=
  ((analyze toInt64 ir).getD []).countP fun f => findingEnds f = ends

/-- A finding that names a transition of the machine. -/
def OnTransition (ir : FsmIr) (f : EFSMAnalysisFinding) : Prop :=
  ∃ t ∈ ir.transitions, f.transitionId = t.id ∧ findingEnds f = endsOf t

variable {toInt64} {holds} {ir : FsmIr} {t : TransitionEdge}

theorem onTransition_findingOn (ht : t ∈ ir.transitions) (name : String) (isError : Bool) :
    OnTransition ir (findingOn t name isError) :=
  ⟨t, ht, rfl, rfl⟩

theorem onTransition_of_guardFindings (ht : t ∈ ir.transitions) {env : Env} :
    ∀ f ∈ guardFindings ir env t, OnTransition ir f := by
  intro f hf
  unfold guardFindings at hf
  split at hf
  · simp at hf
  · split at hf
    · simp at hf
    · obtain ⟨⟨name, iv⟩, -, hf⟩ := List.mem_filterMap.mp hf
      dsimp only at hf
      split at hf
      · split at hf
        · obtain rfl := Option.some.inj hf
          exact onTransition_findingOn ht _ _
        · simp at hf
      · simp at hf

theorem onTransition_of_checkBound (ht : t ∈ ir.transitions) {name : String} {env : Env}
    {bound : Option Interval} : ∀ f ∈ (checkBound t name env bound).2, OnTransition ir f := by
  intro f hf
  cases bound with
  | none => simp [checkBound] at hf
  | some bound =>
    unfold checkBound at hf
    dsimp only at hf
    split at hf
    · obtain rfl := List.mem_singleton.mp hf
      exact onTransition_findingOn ht _ _
    · simp at hf

theorem onTransition_of_checkActions (ht : t ∈ ir.transitions)
    {acc r : Env × List EFSMAnalysisFinding} (hacc : ∀ f ∈ acc.2, OnTransition ir f)
    {act : Option ActionSignature} (h : checkActions toInt64 ir t acc act = some r) :
    ∀ f ∈ r.2, OnTransition ir f := by
  cases act with
  | none =>
    obtain rfl := Option.some.inj h
    exact hacc
  | some act =>
    unfold checkActions at h
    refine foldlM_option_inv (fun acc => ∀ f ∈ acc.2, OnTransition ir f) ?_ hacc h
    intro acc hacc a _ r hr
    unfold checkAssignment at hr
    obtain ⟨env, -, rfl⟩ := Option.map_eq_some_iff.mp hr
    intro f hf
    dsimp only at hf
    rcases List.mem_append.mp hf with hf | hf
    · rcases List.mem_append.mp hf with hf | hf
      · exact hacc f hf
      · exact onTransition_of_checkBound ht f hf
    · exact onTransition_of_checkBound ht f hf

variable {findings : List EFSMAnalysisFinding}

theorem onTransition_of_transitionFindings (ht : t ∈ ir.transitions) {stateEnvs : StateIntervals}
    (h : transitionFindings toInt64 ir stateEnvs t = some findings) :
    ∀ f ∈ findings, OnTransition ir f := by
  unfold transitionFindings at h
  split at h
  · obtain rfl := Option.some.inj h
    simp
  · obtain ⟨acc, hacc, hmap⟩ := Option.bind_eq_some_iff.mp h
    obtain ⟨last, hlast, rfl⟩ := Option.map_eq_some_iff.mp hmap
    have hcond := onTransition_of_checkActions ht (onTransition_of_guardFindings ht) hacc
    exact onTransition_of_checkActions ht hcond hlast

theorem onTransition_of_analyze (h : analyze toInt64 ir = some findings) : ∀ f ∈ findings, OnTransition ir f := by
  unfold analyze at h
  split at h
  · obtain rfl := Option.some.inj h
    simp
  · obtain ⟨stateEnvs, -, h⟩ := Option.bind_eq_some_iff.mp h
    refine foldlM_option_inv (fun acc => ∀ f ∈ acc, OnTransition ir f) ?_ (by simp) h
    intro acc hacc t ht r hr
    obtain ⟨here, hhere, rfl⟩ := Option.map_eq_some_iff.mp hr
    intro f hf
    rcases List.mem_append.mp hf with hf | hf
    · exact hacc f hf
    · exact onTransition_of_transitionFindings ht hhere f hf

/-! ## Pruning -/

theorem isOf_eq (hids : UniqueIds ir) {f : EFSMAnalysisFinding} (hf : OnTransition ir f)
    (ht : t ∈ ir.transitions) : isOf f t = decide (endsOf t = findingEnds f) := by
  obtain ⟨u, hu, hid, hends⟩ := hf
  rw [Bool.eq_iff_iff, decide_eq_true_iff]
  unfold isOf
  simp only [Bool.or_eq_true, Bool.and_eq_true, decide_eq_true_eq]
  refine ⟨?_, ?_⟩
  · rintro (⟨hne, hsame⟩ | ⟨hsource, htarget⟩)
    · rw [hid] at hne hsame
      obtain ⟨hsource, htarget⟩ := hids t ht u hu (hsame ▸ hne) hsame
      rw [hends]
      exact Prod.ext hsource htarget
    · exact Prod.ext hsource htarget
  · intro h
    exact Or.inr ⟨congrArg Prod.fst h, congrArg Prod.snd h⟩

theorem prune_eq (hids : UniqueIds ir) (hfindings : ∀ f ∈ findings, OnTransition ir f) {ts : List TransitionEdge}
    (hts : ∀ t ∈ ts, t ∈ ir.transitions) :
    prune findings ts = eraseFirsts endsOf (findings.map findingEnds) ts := by
  induction findings generalizing ts with
  | nil => rfl
  | cons f findings ih =>
    have hf : OnTransition ir f := hfindings f List.mem_cons_self
    have hsame : ts.eraseP (isOf f) = ts.eraseP fun t => endsOf t = findingEnds f :=
      eraseP_congr fun t ht => isOf_eq hids hf (hts t ht)
    show prune findings (ts.eraseP (isOf f)) =
      eraseFirsts endsOf (findings.map findingEnds) (ts.eraseP fun t => endsOf t = findingEnds f)
    rw [hsame]
    apply ih fun f' hf' => hfindings f' (List.mem_cons_of_mem f hf')
    intro t ht
    exact hts t (List.mem_of_mem_eraseP ht)

theorem drops_prune_iff (hids : UniqueIds ir)
    (hfindings : ∀ f ∈ findings, OnTransition ir f) {D : TransitionEdge → Prop} :
    Drops D ir.transitions (prune findings ir.transitions) ↔
      ∀ ends, ∀ t ∈ (ir.transitions.filter fun t => endsOf t = ends).take
        (findings.countP fun f => findingEnds f = ends), D t := by
  rw [prune_eq hids hfindings fun t ht => ht, drops_eraseFirsts_iff]
  have hcount : ∀ ends, (findings.map findingEnds).countP (fun k => k = ends) =
      findings.countP fun f => findingEnds f = ends := fun ends => List.countP_map
  simp only [hcount]

/-- **Pruning removes dead transitions only** exactly if, of the transitions between two states, as many
of the first are dead as there are findings between the two. -/
theorem prunesOnlyDead_iff (hids : UniqueIds ir) : PrunesOnlyDead toInt64 holds ir ↔
      ∀ ends, ∀ t ∈ (ir.transitions.filter fun t => endsOf t = ends).take
        (findingsBetween toInt64 ir ends), Dead holds ir t := by
  unfold PrunesOnlyDead findingsBetween
  by_cases hempty : (ir.vars.isEmpty && ir.ports.isEmpty) = true
  · -- nothing is analysed, and nothing is removed
    have hrun : run toInt64 true ir = some ir := if_pos hempty
    have hanalyze : analyze toInt64 ir = some [] := if_pos hempty
    rw [hrun, hanalyze]
    refine ⟨fun _ ends t ht => by simp at ht, ?_⟩
    intro _ ir' hir'
    obtain rfl := Option.some.inj hir'
    exact ⟨rfl, Drops.refl _⟩
  · have hrun : run toInt64 true ir = (analyze toInt64 ir).map fun findings =>
        { ir with transitions := prune findings ir.transitions } := by
      unfold run
      rw [if_neg hempty]
      rfl
    rw [hrun]
    cases hfindings : analyze toInt64 ir with
    | none => simp
    | some findings =>
      show _ ↔ ∀ ends, ∀ t ∈ (ir.transitions.filter fun t => endsOf t = ends).take
        (findings.countP fun f => findingEnds f = ends), Dead holds ir t
      rw [← drops_prune_iff hids (onTransition_of_analyze hfindings)]
      refine ⟨fun h => (h _ rfl).2, ?_⟩
      intro h ir' hir'
      obtain rfl := Option.some.inj hir'
      exact ⟨rfl, h⟩

end Run

/-- A variable that stays zero, and the transitions of a machine. -/
def idle (transitions : List TransitionEdge) : FsmIr :=
  { initialState := "Idle"
    states := [{ name := "Idle" }, { name := "Hot" }, { name := "Busy" }]
    vars := [{ name := "heat" }]
    transitions := transitions }

def overheated (text : String) (σ : String → ℚ) : Bool := text = "heat > 5" && 5 < σ "heat"

/-- A transition that is never taken, and one that always is. -/
def guarded : FsmIr :=
  idle [{ source := "Idle", target := "Hot", event := "tick", guard := some "heat > 5" },
    { source := "Idle", target := "Busy", event := "tick" }]

theorem guarded_prunesOnlyDead : PrunesOnlyDead (fun _ => 0) overheated guarded := by
  have hids : UniqueIds guarded := fun t ht _ _ hid => by
    simp only [guarded, idle, List.mem_cons, List.not_mem_nil, or_false] at ht
    rcases ht with rfl | rfl <;> exact absurd rfl hid
  rw [prunesOnlyDead_iff hids]
  intro ends t ht
  obtain ⟨hmem, hends⟩ := List.mem_filter.mp (List.mem_of_mem_take ht)
  obtain rfl : endsOf t = ends := of_decide_eq_true hends
  simp only [guarded, idle, List.mem_cons, List.not_mem_nil, or_false] at hmem
  rcases hmem with rfl | rfl
  · intro σ hσ
    have hheat : (Interval.mk (.fin 0) (.fin 0)).contains (.fin (σ "heat")) = true :=
      hσ "heat" _ (by decide +kernel)
    have hle : σ "heat" ≤ 0 := of_decide_eq_true (Interval.contains_iff.mp hheat).2
    have hnot : ¬ 5 < σ "heat" := fun h => absurd (h.trans_le hle) (by decide +kernel)
    show overheated "heat > 5" σ = false
    simp [overheated, hnot]
  · have hnone : findingsBetween (fun _ => 0) guarded ("Idle", "Busy") = 0 := by decide +kernel
    simp [endsOf, hnone] at ht

/-- The same guard, on the second of two transitions between two states. -/
def shared : FsmIr :=
  idle [{ source := "Idle", target := "Hot", event := "start" },
    { source := "Idle", target := "Hot", event := "tick", guard := some "heat > 5" }]

/-- The transition without a guard is erased for the other one. -/
theorem shared_not_prunesOnlyDead : ¬ PrunesOnlyDead (fun _ => 0) overheated shared := by
  intro h
  have hevents : (run (fun _ => 0) true shared).map (fun ir => ir.transitions.map (·.event)) =
      some ["tick"] := by decide +kernel
  obtain ⟨ir', hrun, htick⟩ := Option.map_eq_some_iff.mp hevents
  have hdrops := (h ir' hrun).2
  have hdead : Dead overheated shared { source := "Idle", target := "Hot", event := "start" } := by
    apply hdrops.of_notMem List.mem_cons_self
    intro hkept
    have hstart := List.mem_map_of_mem (f := (·.event)) hkept
    rw [htick] at hstart
    exact absurd hstart (by decide)
  have henvs : computeStateIntervals shared =
      some [("Idle", [("heat", ⟨.fin 0, .fin 0⟩)]), ("Hot", [("heat", ⟨.fin 0, .fin 0⟩)])] := by
    decide +kernel
  have hallowed : Allowed shared "Idle" fun _ => 0 := by
    intro name iv hiv
    rw [henvs] at hiv
    by_cases hname : name = "heat"
    · subst hname
      obtain rfl := Option.some.inj hiv
      decide
    · simp [StateIntervals.find, List.lookup_cons, beq_false_of_ne hname] at hiv
  exact absurd (hdead _ hallowed) (by decide)

end Fsmc.Passes.EfsmDataPath
