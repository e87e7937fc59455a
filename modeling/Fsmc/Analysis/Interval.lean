/-
# Fsmc.Analysis.Interval — numeric intervals of the data-path analysis.

An interval is a pair of `double` bounds; the default one is unbounded. After the operations come the four
ways in which a bound follows from what holds of every number in the interval.
-/
import Fsmc.Cpp.Double
import Mathlib.Tactic.Linarith

namespace Fsmc.Analysis

open Fsmc.Cpp

structure Interval where
  lo : Double := .negInf
  hi : Double := .posInf
  deriving DecidableEq, Repr

namespace Interval

def isEmpty (iv : Interval) : Bool := iv.hi.lt iv.lo

def contains (iv : Interval) (val : Double) : Bool := iv.lo.le val && val.le iv.hi

def intersectWith (iv other : Interval) : Interval := ⟨iv.lo.max other.lo, iv.hi.min other.hi⟩

def joinWith (iv other : Interval) : Interval :=
  if iv.isEmpty then other
  else if other.isEmpty then iv
  else ⟨iv.lo.min other.lo, iv.hi.max other.hi⟩

/-- `widen_with`: a bound that moves goes to infinity. -/
def widenWith (iv other : Interval) : Interval :=
  if iv.isEmpty then other
  else if other.isEmpty then iv
  else ⟨if other.lo.lt iv.lo then .negInf else iv.lo, if iv.hi.lt other.hi then .posInf else iv.hi⟩

def addConst (iv : Interval) (k : Double) : Interval := ⟨iv.lo.add k, iv.hi.add k⟩

def add (iv other : Interval) : Interval :=
  if iv.isEmpty || other.isEmpty then ⟨.fin 1, .fin 0⟩
  else ⟨iv.lo.add other.lo, iv.hi.add other.hi⟩

def subConst (iv : Interval) (k : Double) : Interval := ⟨iv.lo.sub k, iv.hi.sub k⟩

def sub (iv other : Interval) : Interval :=
  if iv.isEmpty || other.isEmpty then ⟨.fin 1, .fin 0⟩
  else ⟨iv.lo.sub other.hi, iv.hi.sub other.lo⟩

def mulConst (iv : Interval) (k : Double) : Interval :=
  if iv.isEmpty then iv
  else if (Double.fin 0).le k then ⟨iv.lo.mul k, iv.hi.mul k⟩
  else ⟨iv.hi.mul k, iv.lo.mul k⟩

def mul (iv other : Interval) : Interval :=
  if iv.isEmpty || other.isEmpty then ⟨.fin 1, .fin 0⟩
  else
    let p1 := iv.lo.mul other.lo
    let p2 := iv.lo.mul other.hi
    let p3 := iv.hi.mul other.lo
    let p4 := iv.hi.mul other.hi
    ⟨((p1.min p2).min p3).min p4, ((p1.max p2).max p3).max p4⟩

def divConst (iv : Interval) (k : Double) : Interval :=
  if iv.isEmpty || k = .fin 0 then {}
  else if (Double.fin 0).lt k then ⟨iv.lo.div k, iv.hi.div k⟩
  else ⟨iv.hi.div k, iv.lo.div k⟩

/-- The literal `1e-9`. -/
def tolerance : Double := roundDouble (mkRat 1 1000000000)

/-- `operator==`: bounds that differ by less than the tolerance are equal, infinite ones never. -/
def same (iv other : Interval) : Bool :=
  (iv.isEmpty && other.isEmpty) ||
    ((iv.lo.sub other.lo).abs.lt tolerance && (iv.hi.sub other.hi).abs.lt tolerance)

/-! ## Bounds -/

variable {iv : Interval} {x c : ℚ}

theorem contains_iff {v : Double} : iv.contains v = true ↔ iv.lo.le v = true ∧ v.le iv.hi = true := by
  unfold contains
  rw [Bool.and_eq_true]

theorem upper_of_contains (h : iv.contains (.fin x) = true) : (∃ b, iv.hi = .fin b ∧ iv.contains (.fin b) = true) ∨
      iv.hi = .posInf ∧ ∀ y, x ≤ y → iv.contains (.fin y) = true := by
  obtain ⟨lo, hi⟩ := iv
  rw [contains_iff] at h
  cases lo <;> cases hi <;> simp_all [contains, Double.le]
  case fin.fin => exact h.1.trans h.2
  case fin.posInf => exact fun y hy => h.trans hy

theorem lower_of_contains (h : iv.contains (.fin x) = true) : (∃ b, iv.lo = .fin b ∧ iv.contains (.fin b) = true) ∨
      iv.lo = .negInf ∧ ∀ y, y ≤ x → iv.contains (.fin y) = true := by
  obtain ⟨lo, hi⟩ := iv
  rw [contains_iff] at h
  cases lo <;> cases hi <;> simp_all [contains, Double.le]
  case fin.fin => exact h.1.trans h.2
  case negInf.fin => exact fun y hy => hy.trans h

theorem hi_lt_of_forall (hx : iv.contains (.fin x) = true)
    (h : ∀ y, iv.contains (.fin y) = true → y < c) : iv.hi.lt (.fin c) = true := by
  cases upper_of_contains hx with
  | inl hb =>
    obtain ⟨b, hhi, hb⟩ := hb
    rw [hhi]
    exact decide_eq_true (h b hb)
  | inr htop =>
    have hlt : max x c < c := h _ (htop.2 _ (le_max_left x c))
    exact absurd hlt (not_lt_of_ge (le_max_right x c))

theorem hi_le_of_forall (hx : iv.contains (.fin x) = true)
    (h : ∀ y, iv.contains (.fin y) = true → y ≤ c) : iv.hi.le (.fin c) = true := by
  cases upper_of_contains hx with
  | inl hb =>
    obtain ⟨b, hhi, hb⟩ := hb
    rw [hhi]
    exact decide_eq_true (h b hb)
  | inr htop =>
    have hle : max x (c + 1) ≤ c := h _ (htop.2 _ (le_max_left x _))
    have hmore := le_max_right x (c + 1)
    linarith

theorem lt_lo_of_forall (hx : iv.contains (.fin x) = true)
    (h : ∀ y, iv.contains (.fin y) = true → c < y) : (Double.fin c).lt iv.lo = true := by
  cases lower_of_contains hx with
  | inl hb =>
    obtain ⟨b, hlo, hb⟩ := hb
    rw [hlo]
    exact decide_eq_true (h b hb)
  | inr hbot =>
    have hlt : c < min x c := h _ (hbot.2 _ (min_le_left x c))
    exact absurd hlt (not_lt_of_ge (min_le_right x c))

theorem le_lo_of_forall (hx : iv.contains (.fin x) = true)
    (h : ∀ y, iv.contains (.fin y) = true → c ≤ y) : (Double.fin c).le iv.lo = true := by
  cases lower_of_contains hx with
  | inl hb =>
    obtain ⟨b, hlo, hb⟩ := hb
    rw [hlo]
    exact decide_eq_true (h b hb)
  | inr hbot =>
    have hle : c ≤ min x (c - 1) := h _ (hbot.2 _ (min_le_left x _))
    have hless := min_le_right x (c - 1)
    linarith

end Interval

/-- `state_intervals_`: for a state, the intervals of the variables that are tracked there. -/
abbrev StateIntervals := List (String × List (String × Interval))

/-- The interval that is recorded for a variable in a state. -/
def StateIntervals.find (ivs : StateIntervals) (state var : String) : Option Interval :=
  (ivs.lookup state).bind fun env => env.lookup var

end Fsmc.Analysis
