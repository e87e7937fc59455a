/-
# Fsmc.ModelChecker.CtlSemantics — the CTL labelling against the path semantics.

`toCtl` reads a property as a CTL formula when its operators have the right number of children. On a
graph in which every state has an outgoing edge `computeSat` returns exactly the states that satisfy the
formula on infinite paths. States without outgoing edges are where the operators of the code stop being
each other's duals: `pre_all` and `pre_exists` both leave such a state out. The second half of the file
says precisely when each duality holds all the same.
-/
import Fsmc.ModelChecker.Ctl

namespace Fsmc

open Relation Fsmc.Lib Fsmc.Cpp Fsmc.Ir

namespace Ir.PropertyAstNode

/-- The CTL formula for an operator over formulas, when their number is right. -/
def ctlOf (op : TemporalOp) (text : String) (φs : List (Ctl String)) : Option (Ctl String) :=
  match op, φs with
  | .atom, [] => some (.atom text)
  | .not, [φ] => some (.not φ)
  | .and, φs => some (φs.foldr .and .tt)
  | .or, φs => some (φs.foldr .or .ff)
  | .implies, [φ, ψ] => some (.implies φ ψ)
  | .equivalent, [φ, ψ] => some (.equivalent φ ψ)
  | .ex, [φ] => some (.ex φ)
  | .ax, [φ] => some (.ax φ)
  | .ef, [φ] => some (.ef φ)
  | .af, [φ] => some (.af φ)
  | .eg, [φ] => some (.eg φ)
  | .ag, [φ] => some (.ag φ)
  | .eu, [φ, ψ] => some (.eu φ ψ)
  | .au, [φ, ψ] => some (.au φ ψ)
  | _, _ => none

mutual

/-- The formula that a property is, over atoms given by their texts. -/
def toCtl : PropertyAstNode → Option (Ctl String)
  | mk op atom children => (toCtls children).bind (ctlOf op atom)

/-- The formulas that several properties are. -/
def toCtls : List PropertyAstNode → Option (List (Ctl String))
  | [] => some []
  | c :: cs => (toCtl c).bind fun φ => (toCtls cs).map fun φs => φ :: φs

end

theorem forall₂_of_toCtls {cs : List PropertyAstNode} {φs : List (Ctl String)}
    (h : toCtls cs = some φs) : List.Forall₂ (fun c φ => c.toCtl = some φ) cs φs := by
  induction cs generalizing φs with
  | nil =>
    unfold toCtls at h
    rw [← Option.some.inj h]
    exact List.Forall₂.nil
  | cons c cs ih =>
    unfold toCtls at h
    obtain ⟨φ, hφ, hrest⟩ := Option.bind_eq_some_iff.mp h
    obtain ⟨ψs, hψs, hcons⟩ := Option.map_eq_some_iff.mp hrest
    rw [← hcons]
    exact List.Forall₂.cons hφ (ih hψs)

end Ir.PropertyAstNode

namespace ModelChecker

variable {mc : ModelChecker}

/-- An atom holds in a state when the code evaluates it to true there. -/
def AtomHolds (mc : ModelChecker) (text state : String) : Prop :=
  mc.evalAtomPredicate state text = true

/-- The labelling `sat` is what `φ` says on infinite paths. -/
def Labels (mc : ModelChecker) (sat : List String) (φ : Ctl String) : Prop :=
  ∀ s, s ∈ sat ↔ s ∈ mc.allStates ∧ φ.Sat mc.Step mc.AtomHolds s

/-- Every state has an outgoing edge. -/
def Total (mc : ModelChecker) : Prop := ∀ s ∈ mc.allStates, ∃ t, mc.Step s t

theorem Total.totalOn (h : mc.Total) : TotalOn mc.Step {s | s ∈ mc.allStates} :=
  ⟨fun hab => mc.step_allStates hab, fun ha => h _ ha⟩

variable {s : String} (p : PropertyAstNode)

theorem mem_statesWhere {test : String → Bool} :
    s ∈ mc.statesWhere test ↔ s ∈ mc.allStates ∧ test s = true := by
  unfold statesWhere
  rw [List.mem_filter, HashOrder.mem_iter]

/-! ## One operator at a time -/

section Operators

variable {sat sat' : List String} {φ ψ : Ctl String}

theorem Labels.setOf_eq (h : mc.Labels sat φ) :
    {s | s ∈ sat} = {s | s ∈ mc.allStates ∧ φ.Sat mc.Step mc.AtomHolds s} :=
  Set.ext h

theorem Labels.sat_iff (h : mc.Labels sat φ) {s : String} (hs : s ∈ mc.allStates) :
    s ∈ sat ↔ φ.Sat mc.Step mc.AtomHolds s :=
  ⟨fun hmem => ((h s).mp hmem).2, fun hsat => (h s).mpr ⟨hs, hsat⟩⟩

theorem labels_statesWhere {test : String → Bool}
    (h : ∀ s ∈ mc.allStates, test s = true ↔ φ.Sat mc.Step mc.AtomHolds s) :
    mc.Labels (mc.statesWhere test) φ := by
  intro s
  rw [mem_statesWhere]
  exact and_congr_right fun hs => h s hs

theorem labels_atom {text : String} {children : List PropertyAstNode} :
    mc.Labels (mc.statesWhere fun s => mc.evalPredicate s (.mk .atom text children))
      (.atom text) := by
  apply labels_statesWhere
  intro s _
  unfold evalPredicate
  exact Iff.rfl

theorem Labels.not (h : mc.Labels sat φ) : mc.Labels (mc.statesWhere fun s => s ∉ sat) (.not φ) := by
  apply labels_statesWhere
  intro s hs
  rw [decide_eq_true_eq, h.sat_iff hs]
  exact Iff.rfl

theorem Labels.implies (h : mc.Labels sat φ) (h' : mc.Labels sat' ψ) :
    mc.Labels (mc.statesWhere fun s => s ∉ sat || s ∈ sat') (.implies φ ψ) := by
  apply labels_statesWhere
  intro s hs
  rw [Bool.or_eq_true, decide_eq_true_eq, decide_eq_true_eq, h.sat_iff hs, h'.sat_iff hs]
  exact imp_iff_not_or.symm

theorem Labels.equivalent (h : mc.Labels sat φ) (h' : mc.Labels sat' ψ) :
    mc.Labels (mc.statesWhere fun s => decide (s ∈ sat) == decide (s ∈ sat'))
      (.equivalent φ ψ) := by
  apply labels_statesWhere
  intro s hs
  rw [beq_iff_eq, decide_eq_decide, h.sat_iff hs, h'.sat_iff hs]
  exact Iff.rfl

theorem labels_all : mc.Labels mc.allStates .tt :=
  fun _ => (and_iff_left trivial).symm

theorem labels_none : mc.Labels [] .ff := by
  intro s
  exact ⟨fun hs => absurd hs List.not_mem_nil, fun hs => hs.2.elim⟩

variable {φs : List (Ctl String)}

/-- The intersection loop of `And`, whatever formula the labelling in front of it stands for. -/
theorem Labels.foldl_and {sats : List (List String)}
    (hs : List.Forall₂ mc.Labels sats φs) (h : mc.Labels sat φ) :
    mc.Labels (sats.foldl (fun sat sub => (mc.order.iter sat).filter (· ∈ sub)) sat)
      (.and φ (φs.foldr .and .tt)) := by
  induction hs generalizing sat φ with
  | nil =>
    intro s
    show s ∈ sat ↔ s ∈ mc.allStates ∧ (_ ∧ True)
    rw [and_true]
    exact h s
  | @cons sub ψ subs ψs hsub _ ih =>
    have hstep : mc.Labels ((mc.order.iter sat).filter (· ∈ sub)) (.and φ ψ) := by
      intro s
      rw [List.mem_filter, HashOrder.mem_iter, decide_eq_true_eq, h s, hsub s]
      exact and_and_left.symm
    intro s
    rw [List.foldl_cons, ih hstep s]
    show _ ∧ ((_ ∧ _) ∧ _) ↔ _ ∧ (_ ∧ (_ ∧ _))
    rw [and_assoc (c := Ctl.Sat mc.Step mc.AtomHolds (ψs.foldr .and .tt) s)]

theorem Labels.foldl_or {sats : List (List String)}
    (hs : List.Forall₂ mc.Labels sats φs) (h : mc.Labels sat φ) :
    mc.Labels (sats.foldl (fun sat sub => mc.order.iter sub ∪ sat) sat)
      (.or φ (φs.foldr .or .ff)) := by
  induction hs generalizing sat φ with
  | nil =>
    intro s
    show s ∈ sat ↔ s ∈ mc.allStates ∧ (_ ∨ False)
    rw [or_false]
    exact h s
  | @cons sub ψ subs ψs hsub _ ih =>
    have hstep : mc.Labels (mc.order.iter sub ∪ sat) (.or φ ψ) := by
      intro s
      rw [List.mem_union_iff, HashOrder.mem_iter, h s, hsub s, ← and_or_left, or_comm]
      exact Iff.rfl
    intro s
    rw [List.foldl_cons, ih hstep s]
    show _ ∧ ((_ ∨ _) ∨ _) ↔ _ ∧ (_ ∨ (_ ∨ _))
    rw [or_assoc (c := Ctl.Sat mc.Step mc.AtomHolds (ψs.foldr .or .ff) s)]

theorem Labels.ex (htotal : mc.Total) (h : mc.Labels sat φ) : mc.Labels (mc.preExists sat) (.ex φ) := by
  intro s
  rw [mem_preExists]
  show _ ↔ _ ∧ PathE _ _ _
  rw [htotal.totalOn.pathE_next]
  constructor
  · intro ⟨t, hst, ht⟩
    exact ⟨(mc.step_allStates hst).1, t, hst, ((h t).mp ht).2⟩
  · intro ⟨_, t, hst, ht⟩
    exact ⟨t, hst, (h t).mpr ⟨(mc.step_allStates hst).2, ht⟩⟩

theorem Labels.ax (htotal : mc.Total) (h : mc.Labels sat φ) : mc.Labels (mc.preAll sat) (.ax φ) := by
  intro s
  rw [mem_preAll]
  show _ ↔ _ ∧ PathA _ _ _
  constructor
  · intro ⟨⟨t, hst⟩, hall⟩
    have hs : s ∈ mc.allStates := (mc.step_allStates hst).1
    refine ⟨hs, (htotal.totalOn.pathA_next hs).mpr ⟨⟨t, hst⟩, fun u hsu => ?_⟩⟩
    exact ((h u).mp (hall u hsu)).2
  · intro ⟨hs, hpath⟩
    obtain ⟨hsucc, hall⟩ := (htotal.totalOn.pathA_next hs).mp hpath
    exact ⟨hsucc, fun u hsu => (h u).mpr ⟨(mc.step_allStates hsu).2, hall u hsu⟩⟩

theorem Labels.ef (htotal : mc.Total) (h : mc.Labels sat φ) : mc.Labels (mc.satEF sat) (.ef φ) := by
  have hfix : IsUntil (preE mc.Step) Set.univ {s | s ∈ sat} {s | s ∈ mc.satEF sat} := satEF_isUntil
  rw [h.setOf_eq] at hfix
  exact fun s => htotal.totalOn.mem_ef_iff hfix

theorem Labels.af (htotal : mc.Total) (h : mc.Labels sat φ) : mc.Labels (mc.satAF sat) (.af φ) := by
  have hfix : IsUntil (preA mc.Step) Set.univ {s | s ∈ sat} {s | s ∈ mc.satAF sat} := satAF_isUntil
  rw [h.setOf_eq] at hfix
  exact fun s => htotal.totalOn.mem_af_iff hfix

theorem Labels.eg (htotal : mc.Total) (h : mc.Labels sat φ) : mc.Labels (mc.greatestLoop sat) (.eg φ) := by
  have hfix : IsGlobally (preE mc.Step) {s | s ∈ sat} {s | s ∈ mc.greatestLoop sat} :=
    greatestLoop_isGlobally
  rw [h.setOf_eq] at hfix
  exact fun s => htotal.totalOn.mem_eg_iff hfix

theorem Labels.eu (htotal : mc.Total) (h : mc.Labels sat φ) (h' : mc.Labels sat' ψ) :
    mc.Labels (mc.satEU sat sat') (.eu φ ψ) := by
  have hfix : IsUntil (preE mc.Step) {s | s ∈ sat} {s | s ∈ sat'} {s | s ∈ mc.satEU sat sat'} :=
    satEU_isUntil
  rw [h.setOf_eq, h'.setOf_eq] at hfix
  exact fun s => htotal.totalOn.mem_eu_iff hfix

theorem Labels.au (htotal : mc.Total) (h : mc.Labels sat φ) (h' : mc.Labels sat' ψ) :
    mc.Labels (mc.satAU sat sat') (.au φ ψ) := by
  have hfix : IsUntil (preA mc.Step) {s | s ∈ sat} {s | s ∈ sat'} {s | s ∈ mc.satAU sat sat'} :=
    satAU_isUntil
  rw [h.setOf_eq, h'.setOf_eq] at hfix
  exact fun s => htotal.totalOn.mem_au_iff hfix

theorem Labels.ag (htotal : mc.Total) (h : mc.Labels sat φ) :
    mc.Labels (mc.statesWhere fun s => s ∉ mc.satEF (mc.statesWhere fun s => s ∉ sat))
      (.ag φ) := by
  have hef : mc.Labels (mc.satEF (mc.statesWhere fun s => s ∉ sat)) (.ef (.not φ)) :=
    h.not.ef htotal
  intro s
  rw [hef.not s]
  exact and_congr_right fun _ => pathA_always_iff.symm

end Operators

/-! ## The whole formula -/

theorem computeSats_eq_map (nodes : List PropertyAstNode) : mc.computeSats nodes = nodes.map mc.computeSat := by
  induction nodes with
  | nil => rfl
  | cons node nodes ih =>
    unfold computeSats
    rw [ih, List.map_cons]

variable {sats : List (List String)}

theorem labels_one {φ : Ctl String}
    (h : List.Forall₂ mc.Labels sats [φ]) : ∃ sat, sats = [sat] ∧ mc.Labels sat φ := by
  cases h with
  | cons h hnil =>
    cases hnil
    exact ⟨_, rfl, h⟩

theorem labels_two {φ ψ : Ctl String} (h : List.Forall₂ mc.Labels sats [φ, ψ]) :
    ∃ sat sat', sats = [sat, sat'] ∧ mc.Labels sat φ ∧ mc.Labels sat' ψ := by
  cases h with
  | cons h hrest =>
    obtain ⟨sat', rfl, h'⟩ := labels_one hrest
    exact ⟨_, sat', rfl, h, h'⟩

theorem labels_node (htotal : mc.Total) {op : TemporalOp} {text : String}
    {children : List PropertyAstNode} {φs : List (Ctl String)} {φ : Ctl String}
    (hφ : PropertyAstNode.ctlOf op text φs = some φ)
    (h : List.Forall₂ mc.Labels (mc.computeSats children) φs) :
    mc.Labels (mc.computeSat (.mk op text children)) φ := by
  unfold PropertyAstNode.ctlOf at hφ
  unfold computeSat
  generalize mc.computeSats children = sats at h ⊢
  -- one case for each operator with the right number of children
  split at hφ
  all_goals
    first
    | rw [← Option.some.inj hφ]
    | exact absurd hφ (by simp)
  · exact labels_atom
  · obtain ⟨sat, rfl, hsat⟩ := labels_one h
    exact hsat.not
  · cases h with
    | nil => exact labels_all
    | cons h hs => exact h.foldl_and hs
  · intro s
    apply (labels_none.foldl_or h s).trans
    show _ ∧ (False ∨ _) ↔ _
    rw [false_or]
  · obtain ⟨sat, sat', rfl, hsat, hsat'⟩ := labels_two h
    exact hsat.implies hsat'
  · obtain ⟨sat, sat', rfl, hsat, hsat'⟩ := labels_two h
    exact hsat.equivalent hsat'
  · obtain ⟨sat, rfl, hsat⟩ := labels_one h
    exact hsat.ex htotal
  · obtain ⟨sat, rfl, hsat⟩ := labels_one h
    exact hsat.ax htotal
  · obtain ⟨sat, rfl, hsat⟩ := labels_one h
    exact hsat.ef htotal
  · obtain ⟨sat, rfl, hsat⟩ := labels_one h
    exact hsat.af htotal
  · obtain ⟨sat, rfl, hsat⟩ := labels_one h
    exact hsat.eg htotal
  · obtain ⟨sat, rfl, hsat⟩ := labels_one h
    exact hsat.ag htotal
  · obtain ⟨sat, sat', rfl, hsat, hsat'⟩ := labels_two h
    exact hsat.eu htotal hsat'
  · obtain ⟨sat, sat', rfl, hsat, hsat'⟩ := labels_two h
    exact hsat.au htotal hsat'

theorem labels_computeSat (htotal : mc.Total) (node : PropertyAstNode) :
    ∀ φ, node.toCtl = some φ → mc.Labels (mc.computeSat node) φ := by
  induction node using PropertyAstNode.induct with
  | node op text children ih =>
    intro φ hφ
    unfold PropertyAstNode.toCtl at hφ
    obtain ⟨φs, hφs, hop⟩ := Option.bind_eq_some_iff.mp hφ
    apply labels_node htotal hop
    rw [computeSats_eq_map, List.forall₂_map_left_iff]
    have hall := PropertyAstNode.forall₂_of_toCtls hφs
    apply List.Forall₂.imp _ ((List.forall₂_and_left children φs).mpr ⟨ih, hall⟩)
    exact fun c ψ hc => hc.1 ψ hc.2

/-- **CTL labelling is correct on total graphs.** When every state has an outgoing edge, `compute_sat`
returns exactly the states that satisfy the formula on infinite paths, and each of its loops ends. -/
theorem computeSat_correct (mc : ModelChecker) (htotal : mc.Total) (node : PropertyAstNode)
    (φ : Ctl String) (hφ : node.toCtl = some φ) :
    (∀ s, s ∈ mc.computeSat node ↔ s ∈ mc.allStates ∧ φ.Sat mc.Step mc.AtomHolds s) ∧
      (∀ (guard : String → Bool) (sat : List String),
        (mc.leastLoopWithin mc.preExists guard (mc.allStates.length + 1) sat).isSome = true ∧
        (mc.leastLoopWithin mc.preAll guard (mc.allStates.length + 1) sat).isSome = true ∧
        (mc.greatestLoopWithin (sat.length + 1) sat).isSome = true) :=
  ⟨labels_computeSat htotal node φ hφ, fun guard sat =>
    ⟨leastLoopWithin_isSome mc.preExists_allStates guard sat,
      leastLoopWithin_isSome mc.preAll_allStates guard sat, mc.greatestLoopWithin_isSome sat⟩⟩

theorem total_iff : mc.Total ↔ ∀ s ∈ mc.allStates, mc.edgesFrom s ≠ [] := by
  apply forall_congr'
  intro s
  apply imp_congr_right
  intro _
  rw [Ne, ← terminal_iff]
  unfold Terminal
  push Not
  exact Iff.rfl

/-- A model with a state that leads to one that stays put. -/
def settling : ModelChecker where
  order := .insertion
  ir :=
    { initialState := "A"
      states := [{ name := "A" }, { name := "B" }]
      transitions := [{ source := "A", target := "B" }, { source := "B", target := "B" }] }
  stateIntervals := []

/-- `AF (EG B)` on the model that settles in `B`. -/
theorem computeSat_correct_settling : "A" ∈ settling.computeSat (.unary .af (.unary .eg (.ofAtom "B"))) ↔
      "A" ∈ settling.allStates ∧
        (Ctl.af (.eg (.atom "B"))).Sat settling.Step settling.AtomHolds "A" :=
  (computeSat_correct settling (total_iff.mpr (by decide)) _ _ rfl).1 "A"

/-! ## Dualities -/

theorem mem_foldl_filter {sat : List String} :
    s ∈ sats.foldl (fun sat sub => (mc.order.iter sat).filter (· ∈ sub)) sat ↔
      s ∈ sat ∧ ∀ sub ∈ sats, s ∈ sub := by
  induction sats generalizing sat with
  | nil => simp
  | cons sub sats ih =>
    rw [List.foldl_cons, ih, List.mem_filter, HashOrder.mem_iter, decide_eq_true_eq, and_assoc,
      List.forall_mem_cons]

theorem mem_foldl_union {sat : List String} :
    s ∈ sats.foldl (fun sat sub => mc.order.iter sub ∪ sat) sat ↔
      s ∈ sat ∨ ∃ sub ∈ sats, s ∈ sub := by
  induction sats generalizing sat with
  | nil => simp
  | cons sub sats ih =>
    rw [List.foldl_cons, ih, List.mem_union_iff, HashOrder.mem_iter, or_comm (a := s ∈ sub),
      or_assoc]
    simp only [List.mem_cons, exists_eq_or_imp]

theorem preE_allStates : preE mc.Step {s | s ∈ mc.allStates} ⊆ {s | s ∈ mc.allStates} :=
  fun _ ⟨_, hst, _⟩ => (mc.step_allStates hst).1

theorem preA_allStates : preA mc.Step {s | s ∈ mc.allStates} ⊆ {s | s ∈ mc.allStates} :=
  fun _ ⟨⟨_, hst⟩, _⟩ => (mc.step_allStates hst).1

theorem computeSat_sub (node : PropertyAstNode) : ∀ s ∈ mc.computeSat node, s ∈ mc.allStates := by
  induction node using PropertyAstNode.induct with
  | node op text children ih =>
    have hsats : ∀ sat ∈ mc.computeSats children, ∀ s ∈ sat, s ∈ mc.allStates := by
      rw [computeSats_eq_map]
      intro sat hsat
      obtain ⟨c, hc, rfl⟩ := List.mem_map.mp hsat
      exact ih c hc
    unfold computeSat
    generalize mc.computeSats children = sats at hsats
    intro s hs
    split at hs
    all_goals
      first
      | exact (mem_statesWhere.mp hs).1
      | exact absurd hs List.not_mem_nil
      | exact mc.preExists_allStates _ s hs
      | exact mc.preAll_allStates _ s hs
      | exact hs
      | skip
    · exact hsats _ List.mem_cons_self s (mem_foldl_filter.mp hs).1
    · cases mem_foldl_union.mp hs with
      | inl hnil => exact absurd hnil List.not_mem_nil
      | inr hsub =>
        obtain ⟨sub, hsub, hmem⟩ := hsub
        exact hsats sub hsub s hmem
    · exact satEF_isUntil.sub (hsats _ List.mem_cons_self) preE_allStates hs
    · exact hsats _ List.mem_cons_self s (greatestLoop_isGlobally.holds hs)
    · exact satAF_isUntil.sub (hsats _ List.mem_cons_self) preA_allStates hs
    · exact satEU_isUntil.sub (hsats _ (List.mem_cons_of_mem _ List.mem_cons_self)) preE_allStates hs
    · exact satAU_isUntil.sub (hsats _ (List.mem_cons_of_mem _ List.mem_cons_self)) preA_allStates hs

theorem setOf_computeSat_sub : {s | s ∈ mc.computeSat p} ⊆ {s | s ∈ mc.allStates} :=
  computeSat_sub p

theorem setOf_statesWhere_not (sat : List String) :
    {s | s ∈ mc.statesWhere fun s => s ∉ sat} = {s | s ∈ mc.allStates} \ {s | s ∈ sat} := by
  ext s
  show s ∈ mc.statesWhere _ ↔ _
  rw [mem_statesWhere, decide_eq_true_eq]
  exact Iff.rfl

/-- `AX p` and `!EX !p`: the states with an outgoing edge on which they agree are all there are of the
first. -/
theorem mem_computeSat_ax_iff (s : String) : s ∈ mc.computeSat (.unary .ax p) ↔
      s ∈ mc.computeSat (.unary .not (.unary .ex (.unary .not p))) ∧ ∃ t, mc.Step s t := by
  show s ∈ mc.preAll (mc.computeSat p) ↔
    s ∈ mc.statesWhere (fun s => s ∉ mc.preExists (mc.statesWhere fun s => s ∉ mc.computeSat p)) ∧ _
  rw [mem_preAll, mem_statesWhere, decide_eq_true_eq, mem_preExists]
  constructor
  · intro ⟨⟨t, hst⟩, hall⟩
    refine ⟨⟨(mc.step_allStates hst).1, ?_⟩, t, hst⟩
    intro ⟨u, hsu, hu⟩
    rw [mem_statesWhere, decide_eq_true_eq] at hu
    exact hu.2 (hall u hsu)
  · intro ⟨⟨_, hno⟩, hsucc⟩
    refine ⟨hsucc, fun t hst => ?_⟩
    by_contra ht
    apply hno
    exact ⟨t, hst, mem_statesWhere.mpr ⟨(mc.step_allStates hst).2, decide_eq_true ht⟩⟩

theorem computeSat_af_iff : (∀ s, s ∈ mc.computeSat (.unary .af p) ↔
        s ∈ mc.computeSat (.unary .not (.unary .eg (.unary .not p)))) ↔
      ∀ t ∈ mc.allStates, Terminal mc.Step t → t ∈ mc.computeSat p := by
  have hX : IsUntil (preA mc.Step) Set.univ {s | s ∈ mc.computeSat p}
      {s | s ∈ mc.satAF (mc.computeSat p)} := satAF_isUntil
  have hY : IsGlobally (preE mc.Step) {s | s ∈ mc.statesWhere fun s => s ∉ mc.computeSat p}
      {s | s ∈ mc.greatestLoop (mc.statesWhere fun s => s ∉ mc.computeSat p)} :=
    greatestLoop_isGlobally
  rw [setOf_statesWhere_not] at hY
  have hduality := af_eq_compl_eg_iff (setOf_computeSat_sub p) (fun hab => mc.step_allStates hab) hX hY
  rw [← setOf_statesWhere_not, Set.ext_iff] at hduality
  exact hduality

/-- `A[p U q]` and `!(E[!q U (!p && !q)] || EG !q)` agree exactly when no terminal state satisfies `p`
without `q`. -/
theorem computeSat_au_iff (p q : PropertyAstNode) : (∀ s, s ∈ mc.computeSat (.binary .au p q) ↔
        s ∈ mc.computeSat (.unary .not (.binary .or
          (.binary .eu (.unary .not q) (.binary .and (.unary .not p) (.unary .not q)))
          (.unary .eg (.unary .not q))))) ↔
      ∀ t ∈ mc.allStates, Terminal mc.Step t → t ∈ mc.computeSat p → t ∈ mc.computeSat q := by
  let notP := mc.statesWhere fun s => s ∉ mc.computeSat p
  let notQ := mc.statesWhere fun s => s ∉ mc.computeSat q
  let neither := (mc.order.iter notP).filter (· ∈ notQ)
  have hX : IsUntil (preA mc.Step) {s | s ∈ mc.computeSat p} {s | s ∈ mc.computeSat q}
      {s | s ∈ mc.satAU (mc.computeSat p) (mc.computeSat q)} := satAU_isUntil
  have hE : IsUntil (preE mc.Step) {s | s ∈ notQ} {s | s ∈ neither}
      {s | s ∈ mc.satEU notQ neither} := satEU_isUntil
  have hY : IsGlobally (preE mc.Step) {s | s ∈ notQ} {s | s ∈ mc.greatestLoop notQ} :=
    greatestLoop_isGlobally
  have hneither : {s | s ∈ neither} = {s | s ∈ notP} ∩ {s | s ∈ notQ} := by
    ext s
    show s ∈ (mc.order.iter notP).filter (· ∈ notQ) ↔ _
    rw [List.mem_filter, HashOrder.mem_iter, decide_eq_true_eq]
    exact Iff.rfl
  rw [hneither, setOf_statesWhere_not, setOf_statesWhere_not] at hE
  rw [setOf_statesWhere_not] at hY
  have hduality := au_eq_compl_iff (setOf_computeSat_sub q) (fun hab => mc.step_allStates hab) hX hE hY
  have hunion : {s | s ∈ mc.satEU notQ neither} ∪ {s | s ∈ mc.greatestLoop notQ} =
      {s | s ∈ mc.order.iter (mc.greatestLoop notQ) ∪ (mc.order.iter (mc.satEU notQ neither) ∪ [])} := by
    ext s
    rw [Set.mem_union, or_comm]
    simp only [Set.mem_ofPred_eq, List.mem_union_iff, HashOrder.mem_iter, List.not_mem_nil, or_false]
  rw [hunion, ← setOf_statesWhere_not, Set.ext_iff] at hduality
  exact hduality

/-- **CTL dualities, with terminal states.** `AX p` is `!EX !p` without the terminal states; `AF p` is
`!EG !p` exactly when every terminal state satisfies `p`; `A[p U q]` is `!(E[!q U (!p && !q)] || EG !q)`
exactly when no terminal state satisfies `p` without `q`. -/
theorem ctl_dualities (mc : ModelChecker) (p q : PropertyAstNode) : (∀ s, s ∈ mc.computeSat (.unary .ax p) ↔
        s ∈ mc.computeSat (.unary .not (.unary .ex (.unary .not p))) ∧ ∃ t, mc.Step s t) ∧
      ((∀ s, s ∈ mc.computeSat (.unary .af p) ↔
          s ∈ mc.computeSat (.unary .not (.unary .eg (.unary .not p)))) ↔
        ∀ t ∈ mc.allStates, Terminal mc.Step t → t ∈ mc.computeSat p) ∧
      ((∀ s, s ∈ mc.computeSat (.binary .au p q) ↔
          s ∈ mc.computeSat (.unary .not (.binary .or
            (.binary .eu (.unary .not q) (.binary .and (.unary .not p) (.unary .not q)))
            (.unary .eg (.unary .not q))))) ↔
        ∀ t ∈ mc.allStates, Terminal mc.Step t → t ∈ mc.computeSat p → t ∈ mc.computeSat q) :=
  ⟨mem_computeSat_ax_iff p, computeSat_af_iff p, computeSat_au_iff p q⟩

/-- A model with a single state and no transition. -/
def halted : ModelChecker where
  order := .insertion
  ir := { initialState := "A", states := [{ name := "A" }] }
  stateIntervals := []

/-- In a terminal state `AX A`, `AF false` and `A[A U false]` fail, and what they are dual to holds. -/
theorem ctl_dualities_fail_halted : ("A" ∉ halted.computeSat (.unary .ax (.ofAtom "A")) ∧
      "A" ∈ halted.computeSat (.unary .not (.unary .ex (.unary .not (.ofAtom "A"))))) ∧
    ("A" ∉ halted.computeSat (.unary .af (.ofAtom "false")) ∧
      "A" ∈ halted.computeSat (.unary .not (.unary .eg (.unary .not (.ofAtom "false"))))) ∧
    ("A" ∉ halted.computeSat (.binary .au (.ofAtom "A") (.ofAtom "false")) ∧
      "A" ∈ halted.computeSat (.unary .not (.binary .or
        (.binary .eu (.unary .not (.ofAtom "false"))
          (.binary .and (.unary .not (.ofAtom "A")) (.unary .not (.ofAtom "false"))))
        (.unary .eg (.unary .not (.ofAtom "false")))))) := by
  decide

end ModelChecker

end Fsmc
