/-
# Fsmc.Cpp.Rounding — rounding a quotient, and signs under rounding.
-/
import Mathlib.Algebra.Order.Field.Power
import Mathlib.Data.Int.Log
import Mathlib.Data.Nat.Log
import Mathlib.Data.Rat.Floor
import Mathlib.Tactic.FieldSimp
import Mathlib.Tactic.Linarith
import Mathlib.Tactic.Ring
import Fsmc.Cpp.Double

namespace Fsmc.Cpp

/-- The quotient rounded to the nearest number, ties to even. -/
def roundedQuotient (a b : Nat) : Nat :=
  if 2 * (a % b) > b ∨ 2 * (a % b) = b ∧ a / b % 2 = 1 then a / b + 1 else a / b

theorem roundDouble_zero : roundDouble 0 = .fin 0 := by decide +kernel

theorem Double.neg_le_neg_iff (a b : Double) : a.neg.le b.neg = b.le a := by
  cases a <;> cases b <;> simp [Double.neg, Double.le]

end Fsmc.Cpp
