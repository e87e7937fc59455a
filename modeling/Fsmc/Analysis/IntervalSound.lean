/-
# Fsmc.Analysis.IntervalSound — the bounds of products, and joining and widening.

A bound is an infinity or a number; the product of a zero with an infinity is the one way in which a NaN is made of
other bounds here. Joining and widening lose no value.
-/
import Fsmc.Analysis.Interval
import Fsmc.Cpp.Rounding

namespace Fsmc.Cpp.Double

variable {a b : Double} {x y c : ℚ}

/-! ## Bounds -/

theorem lt_eq_false_of_le_of_le {v : Double} (hlo : a.le v = true) (hhi : v.le b = true) : b.lt a = false := by
  cases a <;> cases b <;> cases v <;> simp_all [le, lt]
  linarith

theorem le_trans' {v : Double} (h : a.le v = true) (h' : v.le b = true) : a.le b = true := by
  cases a <;> cases b <;> cases v <;> simp_all [le]
  exact h.trans h'

theorem neg_neg_self (a : Double) : a.neg.neg = a := by
  cases a <;> simp [neg]

theorem neg_le_fin_neg : a.neg.le (fin (-x)) = (fin x).le a := neg_le_neg_iff a (fin x)

theorem fin_neg_le_neg : (fin (-x)).le a.neg = a.le (fin x) := neg_le_neg_iff (fin x) a

/-! ## Products -/

theorem infOf_of_pos (h : 0 < c) : infOf c = posInf := by
  rw [infOf, if_neg h.ne', if_neg (not_lt.mpr h.le)]

theorem infOf_of_neg (h : c < 0) : infOf c = negInf := by
  rw [infOf, if_neg h.ne, if_pos h]

theorem infOf_zero : infOf 0 = nan := if_pos rfl

theorem infOf_neg (c : ℚ) : infOf (-c) = (infOf c).neg := by
  rcases lt_trichotomy c 0 with h | h | h
  · rw [infOf_of_neg h, infOf_of_pos (neg_pos.mpr h)]
    rfl
  · rw [h, neg_zero, infOf_zero]
    rfl
  · rw [infOf_of_pos h, infOf_of_neg (neg_lt_zero.mpr h)]
    rfl

/-- A product whose finite results are rounded by `r`. -/
def mulWith (r : ℚ → Double) : Double → Double → Double
  | fin p, fin q => r (p * q)
  | a, b => a.mul b

section MulWith

variable {r : ℚ → Double}

theorem mulWith_comm (a b : Double) : mulWith r a b = mulWith r b a := by
  cases a <;> cases b <;> simp [mulWith, mul, mul_comm]

theorem neg_mulWith (hneg : ∀ q, r (-q) = (r q).neg) (a b : Double) : mulWith r a.neg b = (mulWith r a b).neg := by
  cases a with
  | nan => cases b <;> rfl
  | negInf =>
    cases b with
    | fin q =>
      show infOf q = (infOf (-q)).neg
      rw [infOf_neg, neg_neg_self]
    | _ => rfl
  | posInf =>
    cases b with
    | fin q => exact infOf_neg q
    | _ => rfl
  | fin p =>
    cases b with
    | nan => rfl
    | negInf => exact infOf_neg (-p)
    | posInf => exact infOf_neg p
    | fin q =>
      show r (-p * q) = (r (p * q)).neg
      rw [neg_mul, hneg]

variable (hneg : ∀ q, r (-q) = (r q).neg) (hv : ∀ q ≤ y, (r q).le (fin y) = true)

include hv

theorem mulWith_le_of_pos (ha : a.le (fin x) = true) (hc : 0 < c) (h : x * c ≤ y) :
    (mulWith r a (fin c)).le (fin y) = true := by
  cases a with
  | negInf =>
    show (infOf (-c)).le _ = true
    rw [infOf_of_neg (neg_lt_zero.mpr hc)]
    rfl
  | fin l =>
    have hl : l ≤ x := of_decide_eq_true ha
    have hlc : l * c ≤ x * c := by gcongr
    exact hv _ (hlc.trans h)
  | posInf => simp [le] at ha
  | nan => simp [le] at ha

include hneg

theorem mulWith_le_of_neg (ha : (fin x).le a = true) (hc : c < 0) (h : x * c ≤ y) :
    (mulWith r a (fin c)).le (fin y) = true := by
  have hflip : mulWith r a.neg (fin (-c)) = mulWith r a (fin c) := by
    rw [neg_mulWith hneg, mulWith_comm, show fin (-c) = (fin c).neg from rfl, neg_mulWith hneg,
      neg_neg_self, mulWith_comm]
  rw [← hflip]
  apply mulWith_le_of_pos hv (neg_le_fin_neg.trans ha) (neg_pos.mpr hc)
  rwa [neg_mul_neg]

omit hneg hv in
theorem mulWith_fin_zero (hzero : r 0 = fin 0) (q : ℚ) : mulWith r (fin q) (fin 0) = fin 0 := by
  show r (q * 0) = fin 0
  rw [mul_zero, hzero]

end MulWith

theorem fin_mul_zero (q : ℚ) : (fin q).mul (fin 0) = fin 0 := by
  show roundDouble (q * 0) = fin 0
  rw [mul_zero, roundDouble_zero]

/-- The products of the bounds of two intervals. -/
def corners (r : ℚ → Double) (lo hi lo' hi' : Double) : List Double :=
  [mulWith r lo lo', mulWith r lo hi', mulWith r hi lo', mulWith r hi hi']

section Corners

variable {r : ℚ → Double} {lo hi lo' hi' : Double} (hneg : ∀ q, r (-q) = (r q).neg)
  (hzero : r 0 = fin 0) (hlo : lo.le (fin x) = true) (hhi : (fin x).le hi = true)
  (hlo' : lo'.le (fin y) = true) (hhi' : (fin y).le hi' = true)

include hneg hzero hlo hhi hlo' hhi'

theorem exists_corner_le_of_nonneg (hx : 0 ≤ x) (hv : ∀ q ≤ x * y, (r q).le (fin (x * y)) = true) :
    (∀ p ∈ corners r lo hi lo' hi', p = nan) ∨
      ∃ p ∈ corners r lo hi lo' hi', p.le (fin (x * y)) = true := by
  cases lo' with
  | nan => simp [le] at hlo'
  | posInf => simp [le] at hlo'
  | fin b =>
    have hb : b ≤ y := of_decide_eq_true hlo'
    have hxb : x * b ≤ x * y := by gcongr
    rcases lt_trichotomy b 0 with hbneg | rfl | hpos
    · exact Or.inr ⟨_, by simp [corners], mulWith_le_of_neg hneg hv hhi hbneg hxb⟩
    · have hle : 0 ≤ x * y := mul_nonneg hx hb
      cases lo with
      | nan => simp [le] at hlo
      | posInf => simp [le] at hlo
      | fin l =>
        refine Or.inr ⟨mulWith r (fin l) (fin 0), by simp [corners], ?_⟩
        rw [mulWith_fin_zero hzero]
        exact decide_eq_true hle
      | negInf =>
        cases hi with
        | nan => simp [le] at hhi
        | negInf => simp [le] at hhi
        | fin h =>
          refine Or.inr ⟨mulWith r (fin h) (fin 0), by simp [corners], ?_⟩
          rw [mulWith_fin_zero hzero]
          exact decide_eq_true hle
        | posInf =>
          cases hi' with
          | nan => simp [le] at hhi'
          | negInf => simp [le] at hhi'
          | posInf => exact Or.inr ⟨negInf, by simp [corners, mulWith, mul], rfl⟩
          | fin q =>
            have hq : 0 ≤ q := hb.trans (of_decide_eq_true hhi')
            rcases hq.lt_or_eq with hpos | rfl
            · have hcorner : mulWith r negInf (fin q) = negInf := infOf_of_neg (neg_lt_zero.mpr hpos)
              exact Or.inr ⟨negInf, by simp [corners, hcorner], rfl⟩
            · exact Or.inl (by simp [corners, mulWith, mul, infOf])
    · exact Or.inr ⟨_, by simp [corners], mulWith_le_of_pos hv hlo hpos hxb⟩
  | negInf =>
    cases hi with
    | nan => simp [le] at hhi
    | negInf => simp [le] at hhi
    | posInf => exact Or.inr ⟨negInf, by simp [corners, mulWith, mul], rfl⟩
    | fin h =>
      have hxh : x ≤ h := of_decide_eq_true hhi
      rcases (hx.trans hxh).lt_or_eq with hpos | rfl
      · have hcorner : mulWith r (fin h) negInf = negInf := infOf_of_neg (neg_lt_zero.mpr hpos)
        exact Or.inr ⟨negInf, by simp [corners, hcorner], rfl⟩
      · obtain rfl : x = 0 := hxh.antisymm hx
        cases hi' with
        | nan => simp [le] at hhi'
        | negInf => simp [le] at hhi'
        | fin q =>
          refine Or.inr ⟨mulWith r (fin 0) (fin q), by simp [corners], ?_⟩
          rw [mulWith_comm, mulWith_fin_zero hzero]
          simp [le]
        | posInf =>
          cases lo with
          | nan => simp [le] at hlo
          | posInf => simp [le] at hlo
          | negInf => exact Or.inr ⟨negInf, by simp [corners, mulWith, mul], rfl⟩
          | fin l =>
            have hl : l ≤ 0 := of_decide_eq_true hlo
            rcases hl.lt_or_eq with hlneg | rfl
            · have hcorner : mulWith r (fin l) posInf = negInf := infOf_of_neg hlneg
              exact Or.inr ⟨negInf, by simp [corners, hcorner], rfl⟩
            · exact Or.inl (by simp [corners, mulWith, mul, infOf])

/-- **Some corner is below the product**, unless all corners are NaNs. -/
theorem exists_corner_le (hv : ∀ q ≤ x * y, (r q).le (fin (x * y)) = true) :
    (∀ p ∈ corners r lo hi lo' hi', p = nan) ∨
      ∃ p ∈ corners r lo hi lo' hi', p.le (fin (x * y)) = true := by
  by_cases hx : 0 ≤ x
  · exact exists_corner_le_of_nonneg hneg hzero hlo hhi hlo' hhi' hx hv
  · -- both factors change their sign, and the bounds their places
    have hnn : ∀ a b : Double, mulWith r a.neg b.neg = mulWith r a b := by
      intro a b
      rw [neg_mulWith hneg, mulWith_comm, neg_mulWith hneg, neg_neg_self, mulWith_comm]
    have hflip : ∀ p, p ∈ corners r hi.neg lo.neg hi'.neg lo'.neg ↔ p ∈ corners r lo hi lo' hi' := by
      intro p
      simp only [corners, hnn, List.mem_cons, List.not_mem_nil, or_false]
      tauto
    have hxy : -x * -y = x * y := neg_mul_neg x y
    have h := exists_corner_le_of_nonneg (x := -x) (y := -y) hneg hzero (neg_le_fin_neg.trans hhi)
      (fin_neg_le_neg.trans hlo) (neg_le_fin_neg.trans hhi') (fin_neg_le_neg.trans hlo')
      (by linarith) (hxy ▸ hv)
    simpa only [hflip, hxy] using h

/-- **Some corner is above the product**, unless all corners are NaNs. -/
theorem exists_le_corner (hv : ∀ q ≥ x * y, (fin (x * y)).le (r q) = true) :
    (∀ p ∈ corners r lo hi lo' hi', p = nan) ∨
      ∃ p ∈ corners r lo hi lo' hi', (fin (x * y)).le p = true := by
  -- the first factor changes its sign, and its bounds their places
  have hflip : ∀ p, p ∈ corners r hi.neg lo.neg lo' hi' ↔ p.neg ∈ corners r lo hi lo' hi' := by
    intro p
    have hflip : ∀ q : Double, p = q.neg ↔ p.neg = q := fun q =>
      ⟨fun h => by rw [h, neg_neg_self], fun h => by rw [← h, neg_neg_self]⟩
    simp only [corners, neg_mulWith hneg, hflip, List.mem_cons, List.not_mem_nil, or_false]
    tauto
  have hxy : -x * y = -(x * y) := neg_mul x y
  have hbelow : ∀ q ≤ -x * y, (r q).le (fin (-x * y)) = true := by
    intro q hq
    have habove := hv (-q) (by linarith)
    rwa [hneg, ← neg_le_neg_iff, neg_neg_self, neg, ← hxy] at habove
  have h := exists_corner_le (x := -x) (y := y) hneg hzero (neg_le_fin_neg.trans hhi)
    (fin_neg_le_neg.trans hlo) hlo' hhi' hbelow
  rw [hxy] at h
  rcases h with hnan | ⟨p, hp, hle⟩
  · left
    intro p hp
    have hp' := hnan p.neg ((hflip p.neg).mpr (by rwa [neg_neg_self]))
    rw [← neg_neg_self p, hp']
    rfl
  · refine Or.inr ⟨p.neg, (hflip p).mp hp, ?_⟩
    rw [← neg_neg_self p, neg_le_fin_neg] at hle
    exact hle

end Corners

/-! ## Minimum and maximum -/

theorem le_of_lt' (h : a.lt b = true) : a.le b = true := by
  cases a <;> cases b <;> simp_all [le, lt]
  exact h.le

theorem le_of_lt_eq_false (ha : a ≠ nan) (hb : b ≠ nan) (h : b.lt a = false) : a.le b = true := by
  cases a <;> cases b <;> simp_all [le, lt]

theorem ne_nan_of_le (h : a.le b = true) : a ≠ nan ∧ b ≠ nan := by
  cases a <;> cases b <;> simp_all [le]

theorem min_ne_nan (ha : a ≠ nan) : a.min b ≠ nan := by
  unfold min
  split
  · next h => exact (ne_nan_of_le (le_of_lt' h)).1
  · exact ha

theorem max_ne_nan (ha : a ≠ nan) : a.max b ≠ nan := by
  unfold max
  split
  · next h => exact (ne_nan_of_le (le_of_lt' h)).2
  · exact ha

theorem min_le_of_le {v : Double} (ha : a ≠ nan) (h : a.le v = true ∨ b.le v = true) : (a.min b).le v = true := by
  unfold min
  by_cases hlt : b.lt a = true
  · rw [if_pos hlt]
    exact h.elim (fun hav => le_trans' (le_of_lt' hlt) hav) id
  · rw [if_neg hlt]
    refine h.elim id fun hbv => ?_
    exact le_trans' (le_of_lt_eq_false ha (ne_nan_of_le hbv).1 (by simpa using hlt)) hbv

theorem le_max_of_le {v : Double} (ha : a ≠ nan) (h : v.le a = true ∨ v.le b = true) : v.le (a.max b) = true := by
  unfold max
  by_cases hlt : a.lt b = true
  · rw [if_pos hlt]
    exact h.elim (fun hva => le_trans' hva (le_of_lt' hlt)) id
  · rw [if_neg hlt]
    refine h.elim id fun hvb => ?_
    exact le_trans' hvb (le_of_lt_eq_false (ne_nan_of_le hvb).2 ha (by simpa using hlt))

theorem lt_nan (a : Double) : a.lt nan = false := by
  cases a <;> rfl

theorem nan_min (a : Double) : nan.min a = nan := by
  unfold min
  rw [lt_nan]
  rfl

theorem min_four_le {a b c d v : Double} (ha : a ≠ nan) (h : ∃ p ∈ [a, b, c, d], p.le v = true) :
    (((a.min b).min c).min d).le v = true := by
  obtain ⟨p, hp, hle⟩ := h
  simp only [List.mem_cons, List.not_mem_nil, or_false] at hp
  have hab : a.min b ≠ nan := min_ne_nan ha
  have habc : (a.min b).min c ≠ nan := min_ne_nan hab
  rcases hp with rfl | rfl | rfl | rfl
  · exact min_le_of_le habc (Or.inl (min_le_of_le hab (Or.inl (min_le_of_le ha (Or.inl hle)))))
  · exact min_le_of_le habc (Or.inl (min_le_of_le hab (Or.inl (min_le_of_le ha (Or.inr hle)))))
  · exact min_le_of_le habc (Or.inl (min_le_of_le hab (Or.inr hle)))
  · exact min_le_of_le habc (Or.inr hle)

theorem le_max_four {a b c d v : Double} (ha : a ≠ nan) (h : ∃ p ∈ [a, b, c, d], v.le p = true) :
    v.le (((a.max b).max c).max d) = true := by
  obtain ⟨p, hp, hle⟩ := h
  simp only [List.mem_cons, List.not_mem_nil, or_false] at hp
  have hab : a.max b ≠ nan := max_ne_nan ha
  have habc : (a.max b).max c ≠ nan := max_ne_nan hab
  rcases hp with rfl | rfl | rfl | rfl
  · exact le_max_of_le habc (Or.inl (le_max_of_le hab (Or.inl (le_max_of_le ha (Or.inl hle)))))
  · exact le_max_of_le habc (Or.inl (le_max_of_le hab (Or.inl (le_max_of_le ha (Or.inr hle)))))
  · exact le_max_of_le habc (Or.inl (le_max_of_le hab (Or.inr hle)))
  · exact le_max_of_le habc (Or.inr hle)

end Fsmc.Cpp.Double

namespace Fsmc.Analysis.Interval

open Fsmc.Cpp

variable {iv other : Interval} {x y c v : ℚ}

def Proper (iv : Interval) : Prop := iv.lo ≠ .nan ∧ iv.hi ≠ .nan

instance (iv : Interval) : Decidable iv.Proper := inferInstanceAs (Decidable (iv.lo ≠ Double.nan ∧ iv.hi ≠ Double.nan))

theorem proper_of_contains (h : iv.contains (.fin x) = true) : iv.Proper :=
  ⟨(Double.ne_nan_of_le (contains_iff.mp h).1).1, (Double.ne_nan_of_le (contains_iff.mp h).2).2⟩

theorem isEmpty_of_contains (h : iv.contains (.fin x) = true) : iv.isEmpty = false :=
  Double.lt_eq_false_of_le_of_le (contains_iff.mp h).1 (contains_iff.mp h).2

/-! ## Joining and widening -/

theorem joinWith_of_isEmpty_eq_false (h : iv.isEmpty = false) (h' : other.isEmpty = false) :
    iv.joinWith other = ⟨iv.lo.min other.lo, iv.hi.max other.hi⟩ := by
  unfold joinWith
  rw [h, h']
  rfl

theorem contains_joinWith_left (h : iv.contains (.fin x) = true) : (iv.joinWith other).contains (.fin x) = true := by
  have hempty := isEmpty_of_contains h
  cases hother : other.isEmpty with
  | true =>
    unfold joinWith
    rwa [hempty, hother]
  | false =>
    obtain ⟨hlo, hhi⟩ := contains_iff.mp h
    rw [joinWith_of_isEmpty_eq_false hempty hother, contains_iff]
    exact ⟨Double.min_le_of_le (Double.ne_nan_of_le hlo).1 (Or.inl hlo),
      Double.le_max_of_le (Double.ne_nan_of_le hhi).2 (Or.inl hhi)⟩

theorem contains_joinWith_right (hiv : iv.Proper) (h : other.contains (.fin x) = true) :
    (iv.joinWith other).contains (.fin x) = true := by
  have hother := isEmpty_of_contains h
  cases hempty : iv.isEmpty with
  | true =>
    unfold joinWith
    rwa [hempty]
  | false =>
    obtain ⟨hlo, hhi⟩ := contains_iff.mp h
    rw [joinWith_of_isEmpty_eq_false hempty hother, contains_iff]
    exact ⟨Double.min_le_of_le hiv.1 (Or.inr hlo), Double.le_max_of_le hiv.2 (Or.inr hhi)⟩

theorem widenWith_of_isEmpty_eq_false (h : iv.isEmpty = false) (h' : other.isEmpty = false) :
    iv.widenWith other = ⟨if other.lo.lt iv.lo then .negInf else iv.lo,
      if iv.hi.lt other.hi then .posInf else iv.hi⟩ := by
  unfold widenWith
  rw [h, h']
  rfl

theorem contains_widenWith_left (h : iv.contains (.fin x) = true) :
    (iv.widenWith other).contains (.fin x) = true := by
  have hempty := isEmpty_of_contains h
  cases hother : other.isEmpty with
  | true =>
    unfold widenWith
    rwa [hempty, hother]
  | false =>
    obtain ⟨hlo, hhi⟩ := contains_iff.mp h
    rw [widenWith_of_isEmpty_eq_false hempty hother, contains_iff]
    refine ⟨?_, ?_⟩
    · split
      · rfl
      · exact hlo
    · dsimp only
      split
      · rfl
      · exact hhi

theorem contains_widenWith_right (hiv : iv.Proper) (h : other.contains (.fin x) = true) :
    (iv.widenWith other).contains (.fin x) = true := by
  have hother := isEmpty_of_contains h
  cases hempty : iv.isEmpty with
  | true =>
    unfold widenWith
    rwa [hempty]
  | false =>
    obtain ⟨hlo, hhi⟩ := contains_iff.mp h
    rw [widenWith_of_isEmpty_eq_false hempty hother, contains_iff]
    refine ⟨?_, ?_⟩
    · split
      · rfl
      · next hlt =>
          have hle := Double.le_of_lt_eq_false hiv.1 (Double.ne_nan_of_le hlo).1 (by simpa using hlt)
          exact Double.le_trans' hle hlo
    · dsimp only
      split
      · rfl
      · next hlt =>
          have hle := Double.le_of_lt_eq_false (Double.ne_nan_of_le hhi).2 hiv.2 (by simpa using hlt)
          exact Double.le_trans' hhi hle

/-! ## Arithmetic -/

theorem contains_self (v : ℚ) : (Interval.mk (.fin v) (.fin v)).contains (.fin v) = true := by
  simp [contains, Double.le]

theorem mul_of_isEmpty_eq_false (h : iv.isEmpty = false) (h' : other.isEmpty = false) : iv.mul other =
      ⟨(((iv.lo.mul other.lo).min (iv.lo.mul other.hi)).min (iv.hi.mul other.lo)).min
        (iv.hi.mul other.hi),
        (((iv.lo.mul other.lo).max (iv.lo.mul other.hi)).max (iv.hi.mul other.lo)).max
          (iv.hi.mul other.hi)⟩ := by
  unfold mul
  rw [h, h']
  rfl

end Fsmc.Analysis.Interval
