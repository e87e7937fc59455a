/-
# Fsmc.Analysis.GuardWarnings — when the warnings about guards are right.

The bounds of a variable are bounds of comparisons of the guard with its name. So a conjunction of comparisons is
reported as dead, and two of them are passed over in silence, only if the bounds of two comparisons leave nothing
between them. Then the two cannot hold together, unless they are about different variables of one name or a strict
bound was moved too far.
-/
import Fsmc.Analysis.GuardConjunctions
import Mathlib.Tactic.Linarith

namespace Fsmc.Analysis.GuardSatisfiability

open Fsmc.Cpp Fsmc.Ir Fsmc.Lib
open Fsmc.Analysis.EfsmInterval (Env)

/-! ## The constraints of a guard -/

section Constraints

variable {rs : List (String × Interval)} {env : Env} {name : String} {iv : Interval}

theorem mem_assign {entry : String × Interval} (h : entry ∈ AssocList.assign name iv env) :
    entry = (name, iv) ∨ entry ∈ env := by
  induction env with
  | nil => exact Or.inl (List.mem_singleton.mp h)
  | cons e env ih =>
    rw [AssocList.assign] at h
    split at h
    · exact (List.mem_cons.mp h).imp_right (List.mem_cons_of_mem _)
    · rcases List.mem_cons.mp h with rfl | h
      · exact Or.inr List.mem_cons_self
      · exact (ih h).imp_right (List.mem_cons_of_mem _)

theorem mem_of_lookup (h : env.lookup name = some iv) : (name, iv) ∈ env := by
  obtain ⟨front, behind, rfl, -⟩ := List.lookup_eq_some_iff.mp h
  exact List.mem_append_right _ List.mem_cons_self

/-- The bounds of an interval are those of readings of a name. -/
def BoundedBy (rs : List (String × Interval)) (name : String) (iv : Interval) : Prop :=
  (∃ r ∈ rs, r.1 = name ∧ iv.lo = r.2.lo) ∧ ∃ r ∈ rs, r.1 = name ∧ iv.hi = r.2.hi

theorem BoundedBy.mono {rs' : List (String × Interval)} (h : BoundedBy rs name iv) (hsub : ∀ r ∈ rs, r ∈ rs') :
    BoundedBy rs' name iv := by
  obtain ⟨⟨r, hr, hlo⟩, r', hr', hhi⟩ := h
  exact ⟨⟨r, hsub r hr, hlo⟩, r', hsub r' hr', hhi⟩

theorem max_eq_or (a b : Double) : a.max b = a ∨ a.max b = b := by
  unfold Double.max
  split
  · exact Or.inr rfl
  · exact Or.inl rfl

theorem min_eq_or (a b : Double) : a.min b = a ∨ a.min b = b := by
  unfold Double.min
  split
  · exact Or.inr rfl
  · exact Or.inl rfl

theorem BoundedBy.intersectWith {iv' : Interval} (h : BoundedBy rs name iv) (h' : BoundedBy rs name iv') :
    BoundedBy rs name (iv.intersectWith iv') := by
  unfold Interval.intersectWith BoundedBy
  dsimp only
  constructor
  · rcases max_eq_or iv.lo iv'.lo with heq | heq <;> rw [heq]
    · exact h.1
    · exact h'.1
  · rcases min_eq_or iv.hi iv'.hi with heq | heq <;> rw [heq]
    · exact h.2
    · exact h'.2

theorem boundedBy_of_mem_foldl : ∀ entry ∈ rs.foldl constrain [], BoundedBy rs entry.1 entry.2 := by
  induction rs using List.reverseRecOn with
  | nil => exact fun _ h => absurd h List.not_mem_nil
  | append_singleton rs r ih =>
    have hold : ∀ {name iv}, (name, iv) ∈ rs.foldl constrain [] → BoundedBy (rs ++ [r]) name iv := fun hmem =>
      (ih _ hmem).mono fun _ hr => List.mem_append_left _ hr
    have hnew : BoundedBy (rs ++ [r]) r.1 r.2 :=
      ⟨⟨r, by simp, rfl, rfl⟩, r, by simp, rfl, rfl⟩
    intro entry hmem
    rw [List.foldl_append] at hmem
    rcases mem_assign hmem with rfl | hmem
    · dsimp only
      cases hlookup : (rs.foldl constrain []).lookup r.1 with
      | none => exact hnew
      | some old => exact (hold (mem_of_lookup hlookup)).intersectWith hnew
    · exact hold hmem

theorem lookup_foldl_isSome {r : String × Interval} (h : r ∈ rs) :
    ((rs.foldl constrain []).lookup r.1).isSome = true := by
  induction rs using List.reverseRecOn with
  | nil => exact absurd h List.not_mem_nil
  | append_singleton rs r' ih =>
    rw [List.foldl_append]
    show (List.lookup r.1 (AssocList.assign r'.1 _ _)).isSome = true
    by_cases hname : r.1 = r'.1
    · rw [hname, AssocList.lookup_assign_self]
      rfl
    · rw [AssocList.lookup_assign_of_ne hname]
      rcases List.mem_append.mp h with h | h
      · exact ih h
      · exact absurd (congrArg Prod.fst (List.mem_singleton.mp h)) hname

end Constraints

/-! ## The bounds of conjunctions -/

section Bounds

variable {g : Guard} {s : List Char} {cs : List Comparison}

theorem Readable.constraints (h : Readable g s cs) :
    extractGuardConstraints s = (cs.map Comparison.reading).foldl constrain [] := by
  unfold extractGuardConstraints
  rw [h.clauses]

theorem Readable.boundedBy (h : Readable g s cs) {entry : String × Interval}
    (hmem : entry ∈ extractGuardConstraints s) : BoundedBy (cs.map Comparison.reading) entry.1 entry.2 := by
  rw [h.constraints] at hmem
  exact boundedBy_of_mem_foldl entry hmem

theorem Readable.lookup_isSome (h : Readable g s cs) {c : Comparison} (hc : c ∈ cs) :
    ((extractGuardConstraints s).lookup (String.ofList c.name)).isSome = true := by
  rw [h.constraints]
  exact lookup_foldl_isSome (r := c.reading) (List.mem_map_of_mem hc)

/-- The values that truth values take. -/
def Admits (isBoolean : List Char → Prop) (v : Valuation) : Prop := ∀ x, isBoolean x → v x = 0 ∨ v x = 1

/-- Of two comparisons with one name that can hold together, neither has its upper bound below the lower bound of the
other. -/
def Tolerates (isBoolean : List Char → Prop) (cs : List Comparison) : Prop :=
  ∀ c ∈ cs, ∀ c' ∈ cs, c.name = c'.name →
    (∃ v, Admits isBoolean v ∧ c.guard.holds v = true ∧ c'.guard.holds v = true) →
    c'.interval.hi.lt c.interval.lo = false

theorem Tolerates.isEmpty_eq_false {isBoolean : List Char → Prop} {v : Valuation} {name : String} {iv : Interval}
    (h : Tolerates isBoolean cs) (hv : Admits isBoolean v) (hholds : ∀ c ∈ cs, c.guard.holds v = true)
    (hbounded : BoundedBy (cs.map Comparison.reading) name iv) : iv.isEmpty = false := by
  obtain ⟨⟨r, hr, hname, hlo⟩, r', hr', hname', hhi⟩ := hbounded
  obtain ⟨c, hc, rfl⟩ := List.mem_map.mp hr
  obtain ⟨c', hc', rfl⟩ := List.mem_map.mp hr'
  unfold Interval.isEmpty
  rw [hlo, hhi]
  exact h c hc c' hc' (String.ofList_injective (hname.trans hname'.symm)) ⟨v, hv, hholds c hc, hholds c' hc'⟩

theorem Readable.holds (h : Readable g s cs) {v : Valuation} (hv : g.holds v = true) :
    ∀ c ∈ cs, c.guard.holds v = true := by
  obtain ⟨b, core, b', -, -, -, h⟩ := h
  exact h.holds hv

theorem Readable.ne_nil (h : Readable g s cs) : s ≠ [] := by
  obtain ⟨b, core, b', rfl, -, -, h⟩ := h
  obtain ⟨c, more, rfl, -⟩ := h.reads.first
  simp

end Bounds

/-! ## The warnings -/

/-- A transition with a guard is reported as dead only if the guard never holds. -/
def DeadRight (isBoolean : List Char → Prop) (ir : FsmIr) (t : TransitionEdge) (g : Guard) : Prop :=
  Warning.dead t ∈ run ir → ∀ v, Admits isBoolean v → g.holds v = false

/-- Two transitions whose guards have a common variable are passed over only if the guards never hold together. -/
def SilenceRight (isBoolean : List Char → Prop) (ir : FsmIr) (t₁ t₂ : TransitionEdge) (g₁ g₂ : Guard) : Prop :=
  (∃ x ∈ g₁.variables, x ∈ g₂.variables) → Warning.overlapping t₁ t₂ ∉ run ir →
    ∀ v, Admits isBoolean v → (g₁.holds v && g₂.holds v) = false

/-- If the guards have a common variable, variables of one name are compared in both. -/
def ComparedInBoth (g₁ g₂ : Guard) (cs₁ cs₂ : List Comparison) : Prop :=
  (∃ x ∈ g₁.variables, x ∈ g₂.variables) → ∃ c₁ ∈ cs₁, ∃ c₂ ∈ cs₂, c₁.name = c₂.name

section Warnings

variable {isBoolean : List Char → Prop} {ir : FsmIr} {t t₁ t₂ : TransitionEdge} {g g₁ g₂ : Guard}
  {cs cs₁ cs₂ : List Comparison}

theorem deadRight_of_readable (ht : t ∈ ir.transitions) (h : Readable g (guardOf t).toList cs)
    (htolerates : Tolerates isBoolean cs) : DeadRight isBoolean ir t g := by
  intro hdead v hv
  rw [dead_mem_run ht] at hdead
  obtain ⟨entry, hentry, hempty⟩ := List.any_eq_true.mp (Bool.and_eq_true_iff.mp hdead).2
  by_contra hholds
  rw [Bool.not_eq_false] at hholds
  rw [htolerates.isEmpty_eq_false hv (h.holds hholds) (h.boundedBy hentry)] at hempty
  cases hempty

theorem exists_empty_of_silence (h : Rivals ir t₁ t₂) (hpriority : t₁.priority = t₂.priority)
    (h₁ : Readable g₁ (guardOf t₁).toList cs₁) (h₂ : Readable g₂ (guardOf t₂).toList cs₂)
    (hcommon : ∃ c₁ ∈ cs₁, ∃ c₂ ∈ cs₂, c₁.name = c₂.name) (hsilence : Warning.overlapping t₁ t₂ ∉ run ir) :
    provablyMutuallyExclusive (constraintsOf t₁) (constraintsOf t₂) = true := by
  have hfound : foundCommonVar (constraintsOf t₁) (constraintsOf t₂) = true := by
    obtain ⟨c₁, hc₁, c₂, hc₂, hname⟩ := hcommon
    obtain ⟨iv, hiv⟩ := Option.isSome_iff_exists.mp (h₁.lookup_isSome hc₁)
    refine List.any_eq_true.mpr ⟨_, mem_of_lookup hiv, ?_⟩
    rw [hname]
    exact h₂.lookup_isSome hc₂
  have hne : ∀ {t : TransitionEdge} {g cs}, Readable g (guardOf t).toList cs → guardOf t ≠ "" := fun h heq =>
    h.ne_nil (by rw [heq]; rfl)
  by_contra hnot
  refine hsilence (overlapping_mem_run h ?_)
  unfold mayOverlap
  rw [decide_eq_true (hne h₁), decide_eq_true (hne h₂), decide_eq_true hpriority, hfound,
    Bool.eq_false_iff.mpr hnot]
  simp

theorem silenceRight_of_readable (h : Rivals ir t₁ t₂) (hpriority : t₁.priority = t₂.priority)
    (h₁ : Readable g₁ (guardOf t₁).toList cs₁) (h₂ : Readable g₂ (guardOf t₂).toList cs₂)
    (hcompared : ComparedInBoth g₁ g₂ cs₁ cs₂) (htolerates : Tolerates isBoolean (cs₁ ++ cs₂)) :
    SilenceRight isBoolean ir t₁ t₂ g₁ g₂ := by
  intro hcommon hsilence v hv
  have hempty := exists_empty_of_silence h hpriority h₁ h₂ (hcompared hcommon) hsilence
  obtain ⟨entry, hentry, hmatch⟩ := List.any_eq_true.mp hempty
  obtain ⟨ival, hival, hmeet⟩ := (Option.any_eq_true _ _).mp hmatch
  by_contra hboth
  rw [Bool.not_eq_false, Bool.and_eq_true_iff] at hboth
  have hholds : ∀ c ∈ cs₁ ++ cs₂, c.guard.holds v = true :=
    List.forall_mem_append.mpr ⟨h₁.holds hboth.1, h₂.holds hboth.2⟩
  have hbounded : BoundedBy ((cs₁ ++ cs₂).map Comparison.reading) entry.1 (entry.2.intersectWith ival) := by
    rw [List.map_append]
    exact ((h₁.boundedBy hentry).mono fun _ hr => List.mem_append_left _ hr).intersectWith
      ((h₂.boundedBy (mem_of_lookup hival)).mono fun _ hr => List.mem_append_right _ hr)
  rw [htolerates.isEmpty_eq_false hv hholds hbounded] at hmeet
  cases hmeet

end Warnings

/-- **The warnings are right** about conjunctions of comparisons, unless the bounds of two comparisons that can hold
together leave nothing between them. -/
theorem warnings_right (isBoolean : List Char → Prop) (ir : FsmIr) :
    (∀ t ∈ ir.transitions, ∀ g cs, Readable g (guardOf t).toList cs → Tolerates isBoolean cs →
      DeadRight isBoolean ir t g) ∧
    ∀ t₁ t₂ g₁ g₂ cs₁ cs₂, Rivals ir t₁ t₂ → t₁.priority = t₂.priority → Readable g₁ (guardOf t₁).toList cs₁ →
      Readable g₂ (guardOf t₂).toList cs₂ → ComparedInBoth g₁ g₂ cs₁ cs₂ → Tolerates isBoolean (cs₁ ++ cs₂) →
        SilenceRight isBoolean ir t₁ t₂ g₁ g₂ := by
  constructor
  · intro t ht g cs h htolerates
    exact deadRight_of_readable ht h htolerates
  · intro t₁ t₂ g₁ g₂ cs₁ cs₂ h hpriority h₁ h₂ hcompared htolerates
    exact silenceRight_of_readable h hpriority h₁ h₂ hcompared htolerates

/-! ## Two machines -/

def guarded (guard : String) : TransitionEdge :=
  { source := "Idle", target := "Busy", event := "tick", guard := some guard }

/-- A machine whose transitions have these guards. -/
def guardedMachine (guards : List String) : FsmIr := { transitions := guards.map guarded }

def hot : Comparison := ⟨[], "temp".toList, .gt, .number "50".toList 50⟩

def cold : Comparison := ⟨[], "temp".toList, .le, .number "30".toList 30⟩

/-- A machine with these guards, and with their conjunction. -/
def thermostat : FsmIr := guardedMachine ["temp > 50", "temp <= 30", "(temp > 50) && temp <= 30"]

theorem isNumber_digits {text : List Char} {value : ℚ} (hne : text ≠ []) (hdigits : ∀ c ∈ text, c.isDigit = true)
    (hvalue : stod (cleanNumber (String.ofList text)) = some (.fin value)) : IsNumber text value := by
  refine ⟨⟨[], text, [], [], ?_, Or.inl rfl, ⟨hne, hdigits⟩, Or.inl rfl, List.forall_mem_nil _⟩, hvalue⟩
  rw [List.append_nil, List.append_nil, List.nil_append]

theorem isIdentifier_temp : IsIdentifier "temp".toList := ⟨⟨'t', "emp".toList, rfl, by decide⟩, by decide⟩

theorem isComparison_hot : IsComparison hot :=
  ⟨Or.inl rfl, isIdentifier_temp, by decide +kernel, isNumber_digits (by decide) (by decide) (by decide +kernel)⟩

theorem isComparison_cold : IsComparison cold :=
  ⟨Or.inl rfl, isIdentifier_temp, by decide +kernel, isNumber_digits (by decide) (by decide) (by decide +kernel)⟩

theorem conjunction_hot : Conjunction 3 hot.guard "temp > 50".toList [hot] :=
  @Conjunction.comparison hot [' '] [' '] isComparison_hot (noAnd_of_notMem (by decide)) (by decide) (by decide)

theorem conjunction_cold : Conjunction 3 cold.guard "temp <= 30".toList [cold] :=
  @Conjunction.comparison cold [' '] [' '] isComparison_cold (noAnd_of_notMem (by decide)) (by decide) (by decide)

theorem conjunction_both :
    Conjunction 2 (.and hot.guard cold.guard) "(temp > 50) && temp <= 30".toList [hot, cold] := by
  have hinner : Conjunction 1 hot.guard "temp > 50".toList [hot] :=
    .lower (by decide) (.lower (by decide) conjunction_hot)
  have hparens : Conjunction 4 hot.guard "(temp > 50)".toList [hot] :=
    @Conjunction.parens _ _ [] [] _ hinner (by decide) (by decide)
  have hleft : Conjunction 2 hot.guard "(temp > 50)".toList [hot] := .lower (by decide) (.lower (by decide) hparens)
  exact @Conjunction.and _ _ _ _ [' '] [' '] _ _ hleft conjunction_cold (by decide) (by decide)

theorem tolerates_temperatures : Tolerates (fun _ => False) [hot, cold] := by
  intro c hc c' hc' _ hboth
  obtain ⟨v, -, hv, hv'⟩ := hboth
  simp only [List.mem_cons, List.not_mem_nil, or_false] at hc hc'
  rcases hc with rfl | rfl <;> rcases hc' with rfl | rfl
  · decide +kernel
  · have habove : (50 : ℚ) < v "temp".toList := of_decide_eq_true hv
    have hbelow : v "temp".toList ≤ 30 := of_decide_eq_true hv'
    linarith
  · decide +kernel
  · decide +kernel

example : (run thermostat).length = 1 := by decide +kernel

/-- The guards of the thermostat are treated rightly. -/
theorem thermostat_warnings_right : (Warning.dead (guarded "(temp > 50) && temp <= 30") ∈ run thermostat ∧
      DeadRight (fun _ => False) thermostat (guarded "(temp > 50) && temp <= 30") (.and hot.guard cold.guard)) ∧
    SilenceRight (fun _ => False) thermostat (guarded "temp > 50") (guarded "temp <= 30") hot.guard cold.guard := by
  have hmem : guarded "(temp > 50) && temp <= 30" ∈ thermostat.transitions := by
    unfold thermostat guardedMachine
    simp
  obtain ⟨hdead, hsilence⟩ := warnings_right (fun _ => False) thermostat
  refine ⟨⟨(dead_mem_run hmem).mpr (by decide +kernel), ?_⟩, ?_⟩
  · exact hdead _ hmem _ _ (conjunction_both.readable (by decide)) tolerates_temperatures
  · have hrivals : Rivals thermostat (guarded "temp > 50") (guarded "temp <= 30") :=
      ⟨.cons_cons _ (.cons_cons _ (List.nil_sublist _)), rfl⟩
    exact hsilence _ _ _ _ _ _ hrivals rfl (conjunction_hot.readable (by decide))
      (conjunction_cold.readable (by decide)) (fun _ => ⟨hot, by simp, cold, by simp, rfl⟩) tolerates_temperatures

/-- `!(speed > 5) && speed < 3`. -/
def slow : Guard :=
  .and (.not (.compare (.var "speed".toList) .gt (.number 5))) (.compare (.var "speed".toList) .lt (.number 3))

/-- **A negation is not seen**: a guard that holds is reported as dead. -/
theorem negation_not_deadRight : Writes 1 slow "!(speed > 5) && speed < 3".toList ∧
    guarded "!(speed > 5) && speed < 3" ∈ (guardedMachine ["!(speed > 5) && speed < 3"]).transitions ∧
      ¬DeadRight (fun _ => False) (guardedMachine ["!(speed > 5) && speed < 3"])
        (guarded "!(speed > 5) && speed < 3") slow := by
  have hspeed : OperandText (.var "speed".toList) "speed".toList :=
    .var ⟨⟨'s', "peed".toList, rfl, by decide⟩, by decide, by decide +kernel⟩
  have hfive : OperandText (.number 5) "5".toList :=
    .number (isNumber_digits (by decide) (by decide) (by decide +kernel))
  have hthree : OperandText (.number 3) "3".toList :=
    .number (isNumber_digits (by decide) (by decide) (by decide +kernel))
  have habove : Writes 3 _ "speed > 5".toList :=
    @Writes.compare _ _ _ _ [' '] [' '] .gt hspeed hfive (by decide) (by decide)
  have hbelow : Writes 3 _ "speed < 3".toList :=
    @Writes.compare _ _ _ _ [' '] [' '] .lt hspeed hthree (by decide) (by decide)
  have hnot : Writes 4 _ "!(speed > 5)".toList :=
    .not (.parens (.operand (by decide) (.operand (by decide) habove)))
  have hleft : Writes 2 _ "!(speed > 5) ".toList :=
    @Writes.blankRight _ ' ' _ "!(speed > 5)".toList rfl (.operand (by decide) (.operand (by decide) hnot))
  have hright : Writes 3 _ " speed < 3".toList := .blankLeft rfl hbelow
  have hmem : guarded "!(speed > 5) && speed < 3" ∈ (guardedMachine ["!(speed > 5) && speed < 3"]).transitions :=
    List.mem_singleton.mpr rfl
  refine ⟨.operand (by decide) (.and hleft hright), hmem, fun h => ?_⟩
  have hfalse := h ((dead_mem_run hmem).mpr (by decide +kernel)) (fun _ => 0) nofun
  exact absurd hfalse (by decide +kernel)

end Fsmc.Analysis.GuardSatisfiability
