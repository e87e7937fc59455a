/-
# Fsmc.Verification.McdcPairs — pairs of test vectors that show what a condition does.

A mask gives every position a bit, and the valuation of a mask takes the bit of the last position of a condition. For
each position the masks are searched for the first one at which switching the bit changes the decision, so every
condition that can change the decision gets one pair. The decision is the expression that was read from the text of
the guard: where it is another function than the guard, pairs are missing or wrong.
-/
import Fsmc.Verification.McdcExpressions
import Mathlib.Data.Nat.Init

namespace Fsmc.Verification

open Fsmc.Frontend

/-! ## The pairs -/

structure McdcTestVector where
  conditionValues : List Char → Option Bool
  decisionOutcome : Bool
  conditionTested : List Char := []

structure McdcIndependencePair where
  conditionName : List Char
  vectorTrue : McdcTestVector
  vectorFalse : McdcTestVector

/-- The loop that fills `env` for a mask, from a position on; a later entry replaces an earlier one. -/
def envFrom (mask : ℕ) : ℕ → List (List Char) → (List Char → Option Bool) → List Char → Option Bool
  | _, [], env => env
  | i, c :: conds, env => envFrom mask (i + 1) conds (Function.update env c (some (mask.testBit i)))

def truthRow (expr : BoolExpr) (conds : List (List Char)) (mask : ℕ) : McdcTestVector :=
  { conditionValues := envFrom mask 0 conds fun _ => none
    decisionOutcome := expr.evaluate (envFrom mask 0 conds fun _ => none) }

/-- A mask has the bit of a position, and the decision changes with it. -/
def changesAt (expr : BoolExpr) (conds : List (List Char)) (i mask : ℕ) : Bool :=
  mask.testBit i &&
    (truthRow expr conds mask).decisionOutcome != (truthRow expr conds (mask ^^^ 2 ^ i)).decisionOutcome

def pairAt (expr : BoolExpr) (conds : List (List Char)) (i : ℕ) : Option McdcIndependencePair :=
  conds[i]?.bind fun cond =>
    ((List.range (2 ^ conds.length)).find? (changesAt expr conds i)).map fun mask =>
      ⟨cond, { truthRow expr conds mask with conditionTested := cond },
        { truthRow expr conds (mask ^^^ 2 ^ i) with conditionTested := cond }⟩

/-- `compute_mcdc_pairs`; there is no shift by 64 places. -/
def computeMcdcPairs (expr : BoolExpr) (conds : List (List Char)) : Option (List McdcIndependencePair) :=
  if conds.length < 64 then some ((List.range conds.length).filterMap (pairAt expr conds)) else none

/-! ## What the pairs are for -/

/-- A condition can change a decision by itself. -/
def Affects (decision : (List Char → Bool) → Bool) (cond : List Char) : Prop :=
  ∃ ρ, decision (Function.update ρ cond true) ≠ decision (Function.update ρ cond false)

/-- Two valuations that differ in a condition only, and that have the different outcomes of the decision. -/
def ShowsEffect (decision : (List Char → Bool) → Bool) (conds : List (List Char)) (cond : List Char)
    (pair : McdcIndependencePair) : Prop :=
  ∃ ρ, pair.vectorTrue.conditionValues = envOf conds (Function.update ρ cond true) ∧
    pair.vectorFalse.conditionValues = envOf conds (Function.update ρ cond false) ∧
    pair.vectorTrue.decisionOutcome = decision (Function.update ρ cond true) ∧
    pair.vectorFalse.decisionOutcome = decision (Function.update ρ cond false) ∧
    pair.vectorTrue.decisionOutcome ≠ pair.vectorFalse.decisionOutcome

/-- One pair for each condition that can change the decision, and none for the others. -/
structure PairsExact (decision : (List Char → Bool) → Bool) (conds : List (List Char))
    (pairs : List McdcIndependencePair) : Prop where
  named : ∀ pair ∈ pairs, pair.conditionName ∈ conds
  effective : ∀ cond ∈ conds, Affects decision cond →
    ∃ pair, pairs.filter (·.conditionName = cond) = [pair] ∧ ShowsEffect decision conds cond pair
  masked : ∀ cond ∈ conds, ¬ Affects decision cond → pairs.filter (·.conditionName = cond) = []

/-! ## Masks and valuations -/

variable {expr : BoolExpr} {conds : List (List Char)} {cond w : List Char} {i j mask : ℕ}

/-- The last position of a condition, counted from a first one. -/
def lastFrom : ℕ → List (List Char) → List Char → Option ℕ
  | _, [], _ => none
  | i, c :: conds, w => (lastFrom (i + 1) conds w).or (if c = w then some i else none)

theorem lastFrom_eq_some : ∀ {i : ℕ} {conds : List (List Char)}, lastFrom i conds w = some j →
    ∃ k, j = i + k ∧ conds[k]? = some w
  | _, [], h => by cases h
  | i, c :: conds, h => by
    rw [lastFrom, Option.or_eq_some_iff] at h
    rcases h with h | ⟨-, h⟩
    · obtain ⟨k, rfl, hk⟩ := lastFrom_eq_some h
      exact ⟨k + 1, by omega, by rw [List.getElem?_cons_succ, hk]⟩
    · split at h
      · next heq =>
          obtain rfl := Option.some.inj h
          exact ⟨0, rfl, by rw [List.getElem?_cons_zero, heq]⟩
      · cases h

theorem isSome_lastFrom : ∀ {i : ℕ} {conds : List (List Char)}, (lastFrom i conds w).isSome = true ↔ w ∈ conds
  | _, [] => by simp [lastFrom]
  | i, c :: conds => by
    rw [lastFrom, Option.isSome_or, Bool.or_eq_true, isSome_lastFrom, List.mem_cons]
    by_cases h : c = w
    · simp [h]
    · rw [if_neg h]
      simp [Ne.symm h]

theorem envFrom_apply : ∀ (i : ℕ) (conds : List (List Char)) (env : List Char → Option Bool) (w : List Char),
    envFrom mask i conds env w = ((lastFrom i conds w).map mask.testBit).or (env w)
  | _, [], env, w => rfl
  | i, c :: conds, env, w => by
    rw [envFrom, envFrom_apply (i + 1) conds _ w, lastFrom]
    cases hlast : lastFrom (i + 1) conds w with
    | some j => rfl
    | none =>
      by_cases h : c = w
      · subst h
        simp
      · rw [if_neg h, Function.update_of_ne (Ne.symm h)]
        rfl

/-- The last position of a condition. -/
def position (conds : List (List Char)) (w : List Char) : Option ℕ := lastFrom 0 conds w

theorem position_eq_some (h : position conds w = some j) : conds[j]? = some w := by
  obtain ⟨k, rfl, hk⟩ := lastFrom_eq_some h
  rwa [Nat.zero_add]

theorem exists_position (h : w ∈ conds) : ∃ j, position conds w = some j :=
  Option.isSome_iff_exists.mp (isSome_lastFrom.mpr h)

def valuation (conds : List (List Char)) (mask : ℕ) (w : List Char) : Bool :=
  ((position conds w).map mask.testBit).getD false

theorem valuation_of_position (h : position conds w = some j) : valuation conds mask w = mask.testBit j := by
  rw [valuation, h]
  rfl

theorem envFrom_eq_envOf : (envFrom mask 0 conds fun _ => none) = envOf conds (valuation conds mask) := by
  funext w
  rw [envFrom_apply]
  by_cases hmem : w ∈ conds
  · obtain ⟨j, hj⟩ := Option.isSome_iff_exists.mp (isSome_lastFrom (i := 0).mpr hmem)
    rw [envOf_of_mem hmem, valuation, position, hj]
    rfl
  · have hnone : lastFrom 0 conds w = none := by
      rw [← Option.not_isSome_iff_eq_none, isSome_lastFrom]
      exact hmem
    rw [envOf_of_notMem hmem, hnone]
    rfl

/-- The decision that an expression makes. -/
def BoolExpr.decision (expr : BoolExpr) (conds : List (List Char)) (ρ : List Char → Bool) : Bool :=
  expr.evaluate (envOf conds ρ)

variable {ρ ρ' : List Char → Bool}

theorem envOf_congr (h : ∀ w ∈ conds, ρ w = ρ' w) : envOf conds ρ = envOf conds ρ' := by
  funext w
  by_cases hmem : w ∈ conds
  · rw [envOf_of_mem hmem, envOf_of_mem hmem, h w hmem]
  · rw [envOf_of_notMem hmem, envOf_of_notMem hmem]

theorem eq_of_envOf_eq (h : envOf conds ρ = envOf conds ρ') : ∀ w ∈ conds, ρ w = ρ' w := by
  intro w hw
  have happ := congrFun h w
  rw [envOf_of_mem hw, envOf_of_mem hw] at happ
  exact Option.some.inj happ

theorem truthRow_eq : truthRow expr conds mask =
    ⟨envOf conds (valuation conds mask), expr.decision conds (valuation conds mask), []⟩ := by
  unfold truthRow BoolExpr.decision
  rw [envFrom_eq_envOf]

theorem valuation_flip (hpos : position conds cond = some i) (hbit : mask.testBit i = true) :
    (∀ w ∈ conds, valuation conds mask w = Function.update (valuation conds mask) cond true w) ∧
      ∀ w ∈ conds, valuation conds (mask ^^^ 2 ^ i) w = Function.update (valuation conds mask) cond false w := by
  constructor
  · intro w _
    by_cases hw : w = cond
    · rw [hw, Function.update_self, valuation_of_position hpos, hbit]
    · rw [Function.update_of_ne hw]
  · intro w hmem
    obtain ⟨j, hj⟩ := exists_position hmem
    by_cases hw : w = cond
    · subst hw
      rw [Function.update_self, valuation_of_position hpos, Nat.testBit_xor, hbit, Nat.testBit_two_pow_self]
      rfl
    · -- another condition has another position
      have hne : i ≠ j := by
        rintro rfl
        exact hw (Option.some.inj ((position_eq_some hj).symm.trans (position_eq_some hpos)))
      rw [Function.update_of_ne hw, valuation_of_position hj, valuation_of_position hj, Nat.testBit_xor,
        Nat.testBit_two_pow_of_ne hne, Bool.xor_false]

theorem valuation_dead (h : ∀ w, position conds w ≠ some i) :
    valuation conds (mask ^^^ 2 ^ i) = valuation conds mask := by
  funext w
  cases hpos : position conds w with
  | none =>
    unfold valuation
    rw [hpos]
    rfl
  | some j =>
    have hne : i ≠ j := by
      rintro rfl
      exact h w hpos
    rw [valuation_of_position hpos, valuation_of_position hpos, Nat.testBit_xor, Nat.testBit_two_pow_of_ne hne,
      Bool.xor_false]

theorem exists_mask (conds : List (List Char)) (ρ : List Char → Bool) :
    ∃ mask < 2 ^ conds.length, ∀ w ∈ conds, valuation conds mask w = ρ w := by
  refine ⟨Nat.ofBits fun i : Fin conds.length => ρ conds[i], Nat.ofBits_lt_two_pow _, ?_⟩
  intro w hw
  obtain ⟨j, hj⟩ := exists_position hw
  obtain ⟨hlt, hget⟩ := List.getElem?_eq_some_iff.mp (position_eq_some hj)
  rw [valuation_of_position hj, Nat.testBit_ofBits_lt _ _ hlt]
  exact congrArg ρ hget

/-! ## The pair of a condition -/

variable {decision : (List Char → Bool) → Bool}

/-- The first mask with a condition set at which switching it changes the decision. -/
structure IsFirstChange (decision : (List Char → Bool) → Bool) (conds : List (List Char)) (cond : List Char)
    (mask : ℕ) : Prop where
  below : mask < 2 ^ conds.length
  set : valuation conds mask cond = true
  changes : decision (Function.update (valuation conds mask) cond true) ≠
    decision (Function.update (valuation conds mask) cond false)
  first : ∀ m < mask, valuation conds m cond = true →
    decision (Function.update (valuation conds m) cond true) =
      decision (Function.update (valuation conds m) cond false)

/-- A decision that looks at the conditions only. -/
def DependsOn (decision : (List Char → Bool) → Bool) (conds : List (List Char)) : Prop :=
  ∀ ρ ρ', (∀ w ∈ conds, ρ w = ρ' w) → decision ρ = decision ρ'

theorem BoolExpr.decision_dependsOn (expr : BoolExpr) (conds : List (List Char)) :
    DependsOn (expr.decision conds) conds := by
  intro ρ ρ' h
  unfold BoolExpr.decision
  rw [envOf_congr h]

theorem update_congr (h : ∀ w ∈ conds, ρ w = ρ' w) (cond : List Char) (b : Bool) :
    ∀ w ∈ conds, Function.update ρ cond b w = Function.update ρ' cond b w := by
  intro w hw
  by_cases hne : w = cond
  · rw [hne, Function.update_self, Function.update_self]
  · rw [Function.update_of_ne hne, Function.update_of_ne hne, h w hw]

theorem changesAt_iff (hpos : position conds cond = some i) : changesAt expr conds i mask = true ↔
    valuation conds mask cond = true ∧ expr.decision conds (Function.update (valuation conds mask) cond true) ≠
      expr.decision conds (Function.update (valuation conds mask) cond false) := by
  unfold changesAt
  rw [Bool.and_eq_true, bne_iff_ne, truthRow_eq, truthRow_eq, valuation_of_position hpos]
  refine and_congr_right fun hbit => ?_
  obtain ⟨hset, hflipped⟩ := valuation_flip hpos hbit
  rw [expr.decision_dependsOn conds _ _ hset, expr.decision_dependsOn conds _ _ hflipped]

variable {pair : McdcIndependencePair}

theorem pairAt_eq_some_iff (hpos : position conds cond = some i) :
    pairAt expr conds i = some pair ↔ ∃ mask, IsFirstChange (expr.decision conds) conds cond mask ∧
      pair = ⟨cond, ⟨envOf conds (Function.update (valuation conds mask) cond true),
          expr.decision conds (Function.update (valuation conds mask) cond true), cond⟩,
        ⟨envOf conds (Function.update (valuation conds mask) cond false),
          expr.decision conds (Function.update (valuation conds mask) cond false), cond⟩⟩ := by
  have hfirst : ∀ mask, (List.range (2 ^ conds.length)).find? (changesAt expr conds i) = some mask ↔
      IsFirstChange (expr.decision conds) conds cond mask := by
    intro mask
    rw [List.find?_range_eq_some, changesAt_iff hpos, List.mem_range]
    constructor
    · rintro ⟨⟨hset, hchanges⟩, hbelow, hno⟩
      refine ⟨hbelow, hset, hchanges, fun m hm hset' => ?_⟩
      by_contra hne
      have hfound := (changesAt_iff hpos).mpr ⟨hset', hne⟩
      have hnot := hno m hm
      rw [hfound] at hnot
      cases hnot
    · rintro ⟨hbelow, hset, hchanges, hno⟩
      refine ⟨⟨hset, hchanges⟩, hbelow, fun m hm => ?_⟩
      rw [Bool.not_eq_true', ← Bool.not_eq_true, changesAt_iff hpos]
      exact fun hall => hall.2 (hno m hm hall.1)
  unfold pairAt
  rw [position_eq_some hpos, Option.bind_some, Option.map_eq_some_iff]
  refine exists_congr fun mask => ?_
  rw [hfirst]
  refine and_congr_right fun h => ?_
  obtain ⟨hset, hflipped⟩ := valuation_flip hpos ((valuation_of_position hpos).symm.trans h.set)
  rw [truthRow_eq, truthRow_eq, expr.decision_dependsOn conds _ _ hset, expr.decision_dependsOn conds _ _ hflipped,
    envOf_congr hset, envOf_congr hflipped]
  exact eq_comm

theorem pairAt_eq_none (hget : conds[i]? = some cond) (hpos : position conds cond ≠ some i) :
    pairAt expr conds i = none := by
  have hdead : ∀ w, position conds w ≠ some i := by
    intro w hw
    have hsame := (position_eq_some hw).symm.trans hget
    exact hpos (Option.some.inj hsame ▸ hw)
  have hnone : (List.range (2 ^ conds.length)).find? (changesAt expr conds i) = none := by
    rw [List.find?_eq_none]
    intro mask _
    unfold changesAt
    rw [truthRow_eq, truthRow_eq, valuation_dead hdead, bne_self_eq_false, Bool.and_false]
    exact Bool.false_ne_true
  unfold pairAt
  rw [hget, hnone]
  rfl

theorem pairAt_name (h : pairAt expr conds i = some pair) :
    conds[i]? = some pair.conditionName := by
  unfold pairAt at h
  obtain ⟨c, hc, hpair⟩ := Option.bind_eq_some_iff.mp h
  obtain ⟨mask, -, rfl⟩ := Option.map_eq_some_iff.mp hpair
  exact hc

theorem filterMap_range_single {α : Type*} {n j : ℕ} {g : ℕ → Option α} (hj : j < n)
    (h : ∀ i < n, i ≠ j → g i = none) : (List.range n).filterMap g = (g j).toList := by
  induction n with
  | zero => omega
  | succ n ih =>
    rw [List.range_succ, List.filterMap_append]
    by_cases hlast : j = n
    · subst hlast
      have hnil : (List.range j).filterMap g = [] := by
        rw [List.filterMap_eq_nil_iff]
        intro i hi
        have hlt := List.mem_range.mp hi
        exact h i (by omega) (by omega)
      rw [hnil, List.nil_append, List.filterMap_cons]
      cases g j <;> rfl
    · have hnone : g n = none := h n (by omega) (Ne.symm hlast)
      rw [ih (by omega) fun i hi hne => h i (by omega) hne, List.filterMap_cons, hnone]
      exact List.append_nil _

theorem filter_pairs (hpos : position conds cond = some i) :
    ((List.range conds.length).filterMap (pairAt expr conds)).filter (·.conditionName = cond) =
      (pairAt expr conds i).toList := by
  obtain ⟨hlt, -⟩ := List.getElem?_eq_some_iff.mp (position_eq_some hpos)
  rw [List.filter_filterMap, filterMap_range_single (j := i) hlt]
  · cases hpair : pairAt expr conds i with
    | none => rfl
    | some pair =>
      have hname := Option.some.inj ((pairAt_name hpair).symm.trans (position_eq_some hpos))
      rw [Option.filter_some, if_pos (decide_eq_true hname)]
  · intro k hk hne
    cases hpair : pairAt expr conds k with
    | none => rfl
    | some pair =>
      rw [Option.filter_some, if_neg]
      rw [decide_eq_true_eq]
      intro hname
      have hget : conds[k]? = some cond := by rw [pairAt_name hpair, hname]
      have hnone : pairAt expr conds k = none := by
        refine pairAt_eq_none hget ?_
        rw [hpos]
        exact fun heq => hne (Option.some.inj heq).symm
      rw [hnone] at hpair
      cases hpair

/-! ## When the pairs are exact -/

theorem exists_isFirstChange (hdepends : DependsOn decision conds) (hmem : cond ∈ conds)
    (h : Affects decision cond) : ∃ mask, IsFirstChange decision conds cond mask := by
  classical
  obtain ⟨ρ, hρ⟩ := h
  obtain ⟨mask, hbelow, hmask⟩ := exists_mask conds (Function.update ρ cond true)
  have hupdate : ∀ b, ∀ w ∈ conds, Function.update (valuation conds mask) cond b w = Function.update ρ cond b w := by
    intro b w hw
    rw [update_congr hmask cond b w hw, Function.update_idem]
  let P : ℕ → Prop := fun m => m < 2 ^ conds.length ∧ valuation conds m cond = true ∧
    decision (Function.update (valuation conds m) cond true) ≠
      decision (Function.update (valuation conds m) cond false)
  have hex : ∃ m, P m := by
    refine ⟨mask, hbelow, ?_, ?_⟩
    · rw [hmask cond hmem, Function.update_self]
    · rw [hdepends _ _ (hupdate true), hdepends _ _ (hupdate false)]
      exact hρ
  obtain ⟨hfound, hset, hchanges⟩ := Nat.find_spec hex
  refine ⟨Nat.find hex, hfound, hset, hchanges, fun m hm hset' => ?_⟩
  by_contra hne
  exact Nat.find_min hex hm ⟨hm.trans hfound, hset', hne⟩

/-- The guard has the values of the expression at a mask, with the condition on and off. -/
def AgreesAt (decision : (List Char → Bool) → Bool) (expr : BoolExpr) (conds : List (List Char)) (cond : List Char)
    (mask : ℕ) : Prop :=
  ∀ b, decision (Function.update (valuation conds mask) cond b) =
    expr.decision conds (Function.update (valuation conds mask) cond b)

/-- A guard can be tested by the pairs of an expression. -/
structure Testable (decision : (List Char → Bool) → Bool) (expr : BoolExpr) (conds : List (List Char)) : Prop where
  few : conds.length < 64
  effects : ∀ cond ∈ conds, Affects decision cond → Affects (expr.decision conds) cond
  agrees : ∀ cond ∈ conds, ∀ mask, IsFirstChange (expr.decision conds) conds cond mask →
    AgreesAt decision expr conds cond mask

theorem exact_iff_testable (hdepends : DependsOn decision conds) :
    (∃ pairs, computeMcdcPairs expr conds = some pairs ∧ PairsExact decision conds pairs) ↔
      Testable decision expr conds := by
  constructor
  · rintro ⟨pairs, hpairs, hexact⟩
    unfold computeMcdcPairs at hpairs
    split at hpairs
    · next hfew =>
        obtain rfl := Option.some.inj hpairs
        refine ⟨hfew, fun cond hmem haffects => ?_, fun cond hmem mask hfirst => ?_⟩
        · obtain ⟨i, hpos⟩ := exists_position hmem
          obtain ⟨pair, hpair, -⟩ := hexact.effective cond hmem haffects
          rw [filter_pairs hpos] at hpair
          cases hat : pairAt expr conds i with
          | none =>
            rw [hat] at hpair
            cases hpair
          | some pair' =>
            obtain ⟨mask, hfirst, -⟩ := (pairAt_eq_some_iff hpos).mp hat
            exact ⟨_, hfirst.changes⟩
        · obtain ⟨i, hpos⟩ := exists_position hmem
          have hat : pairAt expr conds i = some _ := (pairAt_eq_some_iff hpos).mpr ⟨mask, hfirst, rfl⟩
          by_cases haffects : Affects decision cond
          · obtain ⟨pair, hpair, ρ, htrue, hfalse, hontrue, honfalse, -⟩ := hexact.effective cond hmem haffects
            rw [filter_pairs hpos, hat] at hpair
            obtain rfl := (List.cons.inj hpair).1
            intro b
            cases b with
            | true => exact (hdepends _ _ (eq_of_envOf_eq htrue)).trans hontrue.symm
            | false => exact (hdepends _ _ (eq_of_envOf_eq hfalse)).trans honfalse.symm
          · have hnil := hexact.masked cond hmem haffects
            rw [filter_pairs hpos, hat] at hnil
            cases hnil
    · cases hpairs
  · rintro ⟨hfew, heffects, hagrees⟩
    refine ⟨_, if_pos hfew, ?_, fun cond hmem haffects => ?_, fun cond hmem hmasked => ?_⟩
    · intro pair hpair
      obtain ⟨i, -, hat⟩ := List.mem_filterMap.mp hpair
      exact List.mem_of_getElem? (pairAt_name hat)
    · obtain ⟨i, hpos⟩ := exists_position hmem
      obtain ⟨mask, hfirst⟩ :=
        exists_isFirstChange (expr.decision_dependsOn conds) hmem (heffects cond hmem haffects)
      have hat : pairAt expr conds i = some _ := (pairAt_eq_some_iff hpos).mpr ⟨mask, hfirst, rfl⟩
      have hshows := hagrees cond hmem mask hfirst
      exact ⟨_, (filter_pairs hpos).trans (congrArg Option.toList hat), valuation conds mask, rfl, rfl,
        (hshows true).symm, (hshows false).symm, hfirst.changes⟩
    · obtain ⟨i, hpos⟩ := exists_position hmem
      rw [filter_pairs hpos]
      cases hat : pairAt expr conds i with
      | none => rfl
      | some pair =>
        obtain ⟨mask, hfirst, -⟩ := (pairAt_eq_some_iff hpos).mp hat
        have hagree := hagrees cond hmem mask hfirst
        refine absurd ⟨valuation conds mask, ?_⟩ hmasked
        rw [hagree true, hagree false]
        exact hfirst.changes

theorem testable_iff_of_eq (h : ∀ ρ, decision ρ = expr.decision conds ρ) :
    Testable decision expr conds ↔ conds.length < 64 := by
  refine ⟨Testable.few, fun hfew => ⟨hfew, fun cond _ haffects => ?_, fun cond _ mask _ b => h _⟩⟩
  obtain ⟨ρ, hρ⟩ := haffects
  refine ⟨ρ, ?_⟩
  rw [← h, ← h]
  exact hρ

/-! ## Guard texts -/

/-- The conditions of a term, from left to right. -/
def condsOf : GuardParser.Term → List (List Char)
  | .empty => []
  | .atom name _ => [name.toList]
  | .not t => condsOf t
  | .and l r | .or l r => condsOf l ++ condsOf r

def valueOf (ρ : List Char → Bool) : GuardParser.Term → Bool
  | .empty => false
  | .atom name _ => ρ name.toList
  | .not t => !valueOf ρ t
  | .and l r => valueOf ρ l && valueOf ρ r
  | .or l r => valueOf ρ l || valueOf ρ r

theorem valueOf_congr {ρ ρ' : List Char → Bool} : ∀ {t : GuardParser.Term}, (∀ w ∈ condsOf t, ρ w = ρ' w) →
    valueOf ρ t = valueOf ρ' t
  | .empty, _ => rfl
  | .atom name _, h => h name.toList (List.mem_singleton_self _)
  | .not t, h => congrArg not (valueOf_congr h)
  | .and l r, h => by
    rw [valueOf, valueOf, valueOf_congr fun w hw => h w (List.mem_append_left _ hw),
      valueOf_congr fun w hw => h w (List.mem_append_right _ hw)]
  | .or l r, h => by
    rw [valueOf, valueOf, valueOf_congr fun w hw => h w (List.mem_append_left _ hw),
      valueOf_congr fun w hw => h w (List.mem_append_right _ hw)]

/-- `parsed_guard.atomic_guards`. -/
def conditionsOf (raw : String) : List (List Char) := ((GuardParser.parse raw).map (condsOf ·.term)).getD []

def guardValue (raw : String) (ρ : List Char → Bool) : Bool :=
  ((GuardParser.parse raw).map (valueOf ρ ·.term)).getD false

def decisionText (raw : String) : List Char := (GuardParser.toDiagramString (raw.length + 1) raw).toList

def decisionExpr (raw : String) : Option BoolExpr :=
  parseSimpleExpr (conditionsOf raw) ((decisionText raw).length + 1) (decisionText raw)

theorem guardValue_dependsOn (raw : String) : DependsOn (guardValue raw) (conditionsOf raw) := by
  intro ρ ρ' h
  unfold conditionsOf at h
  unfold guardValue
  cases hparse : GuardParser.parse raw with
  | none => rfl
  | some p =>
    rw [hparse] at h
    exact valueOf_congr h

theorem length_trim_le (s : List Char) : (trim s).length ≤ s.length :=
  (List.rdropWhile_prefix _ _).length_le.trans (List.dropWhile_suffix _).length_le

theorem length_splitFrom {c : Char} : ∀ {depth : ℤ} {right text l r : List Char},
    splitFrom c depth right text = some (l, r) → l.length + r.length + 2 = text.length + right.length
  | depth, right, x :: y :: rest, l, r, h => by
    rw [splitFrom] at h
    split at h
    · have ih := length_splitFrom h
      simp only [List.length_cons] at ih ⊢
      omega
    · split at h
      · have ih := length_splitFrom h
        simp only [List.length_cons] at ih ⊢
        omega
      · split at h
        · obtain ⟨rfl, rfl⟩ := Prod.mk.inj (Option.some.inj h)
          simp only [List.length_cons, List.length_reverse]
          omega
        · have ih := length_splitFrom h
          simp only [List.length_cons] at ih ⊢
          omega
  | _, _, [], _, _, h => by simp [splitFrom] at h
  | _, _, [_], _, _, h => by simp [splitFrom] at h

theorem length_splitLast {c : Char} {s l r : List Char} (h : splitLast c s = some (l, r)) :
    l.length + r.length + 2 = s.length := by
  have hlen := length_splitFrom h
  simpa using hlen

theorem parseSimpleExpr_isSome (conds : List (List Char)) : ∀ (fuel : ℕ) (s : List Char), s.length < fuel →
    (parseSimpleExpr conds fuel s).isSome = true
  | 0, _, h => absurd h (Nat.not_lt_zero _)
  | fuel + 1, s, h => by
    have ih : ∀ t : List Char, t.length < s.length → ∃ e, parseSimpleExpr conds fuel (trim t) = some e := by
      intro t ht
      have hle := length_trim_le t
      exact Option.isSome_iff_exists.mp (parseSimpleExpr_isSome conds fuel (trim t) (by omega))
    rw [parseSimpleExpr]
    split
    · rfl
    · split
      · next l r hsplit =>
          have hlen := length_splitLast hsplit
          obtain ⟨el, hl⟩ := ih l (by omega)
          obtain ⟨er, hr⟩ := ih r (by omega)
          rw [hl, hr]
          rfl
      · split
        · next l r hsplit =>
            have hlen := length_splitLast hsplit
            obtain ⟨el, hl⟩ := ih l (by omega)
            obtain ⟨er, hr⟩ := ih r (by omega)
            rw [hl, hr]
            rfl
        · split
          · next hhead =>
              have hpos : s ≠ [] := by
                rintro rfl
                cases hhead
              have hlen := List.length_pos_iff.mpr hpos
              obtain ⟨e, he⟩ := ih s.tail (by rw [List.length_tail]; omega)
              rw [he]
              rfl
          · split
            · next hbrackets =>
                obtain ⟨e, he⟩ := ih s.tail.dropLast (by
                  rw [List.length_dropLast, List.length_tail]
                  omega)
                rw [he]
                rfl
            · rfl

theorem decisionExpr_of_writes {raw : String} {e : BoolExpr} {k : Shape} {f : Formula}
    (hplain : Plain (conditionsOf raw)) (hexpr : decisionExpr raw = some e) (h : Writes 0 k f (decisionText raw))
    (ρ : List Char → Bool) :
    e.decision (conditionsOf raw) ρ = f.eval fun w => decide (w ∈ conditionsOf raw) && ρ w := by
  have hread := h.parse_eq hplain ((decisionText raw).length + 1) [] [] (List.forall_mem_nil _) (List.forall_mem_nil _)
    (Or.inr (Or.inr ⟨rfl, rfl⟩)) (by simp)
  rw [List.nil_append, List.append_nil] at hread
  unfold decisionExpr at hexpr
  rw [hread] at hexpr
  obtain rfl := Option.some.inj hexpr
  unfold BoolExpr.decision
  rw [Formula.evaluate_expr]
  congr 1
  funext w
  by_cases hw : w ∈ conditionsOf raw
  · rw [envOf_of_mem hw, decide_eq_true hw]
    rfl
  · rw [envOf_of_notMem hw, decide_eq_false hw]
    rfl

end Fsmc.Verification
