/-
# Fsmc.Analysis.IntervalExact — when the operations on intervals lose no value.

The bounds are computed in `double` arithmetic. An operation loses a value exactly when a zero meets an
infinite bound in the product that the minimum starts with, or when a computed bound is rounded inwards.
Joining and widening lose nothing, and widening changes an interval at most twice, unless it is empty.
-/
import Fsmc.Analysis.IntervalSound

namespace Fsmc.Analysis.Interval

open Fsmc.Cpp

/-! ## Rounded bounds -/

/-- The number is not rounded up. -/
def RoundsDown (q : ℚ) : Prop := (roundDouble q).le (.fin q) = true

/-- The number is not rounded down. -/
def RoundsUp (q : ℚ) : Prop := (Double.fin q).le (roundDouble q) = true

instance (q : ℚ) : Decidable (RoundsDown q) := inferInstanceAs (Decidable (_ = _))

instance (q : ℚ) : Decidable (RoundsUp q) := inferInstanceAs (Decidable (_ = _))

/-- What two bounds give that are both numbers. -/
def ofBounds (f : ℚ → ℚ → ℚ) : Double → Double → List ℚ
  | .fin p, .fin q => [f p q]
  | _, _ => []

/-- The number is the result for some numbers in the two intervals. -/
def Value (f : ℚ → ℚ → ℚ) (A B : Interval) (v : ℚ) : Prop :=
  ∃ x y, A.contains (.fin x) = true ∧ B.contains (.fin y) = true ∧ f x y = v

/-- The interval has all results in it. -/
def Covers (f : ℚ → ℚ → ℚ) (A B R : Interval) : Prop :=
  ∀ x y, A.contains (.fin x) = true → B.contains (.fin y) = true → R.contains (.fin (f x y)) = true

/-- Some number is in the interval. -/
def HasNumber (A : Interval) : Prop := ∃ x : ℚ, A.contains (.fin x) = true

variable {A B R : Interval} {f : ℚ → ℚ → ℚ} {k m : ℚ} {p : ℚ → Prop}

theorem covers_iff : Covers f A B R ↔ (∀ v, Value f A B v → R.lo.le (.fin v) = true) ∧
      ∀ v, Value f A B v → (Double.fin v).le R.hi = true := by
  constructor
  · intro h
    refine ⟨?_, ?_⟩
    · rintro v ⟨x, y, hx, hy, rfl⟩
      exact (contains_iff.mp (h x y hx hy)).1
    · rintro v ⟨x, y, hx, hy, rfl⟩
      exact (contains_iff.mp (h x y hx hy)).2
  · rintro ⟨hlo, hhi⟩ x y hx hy
    exact contains_iff.mpr ⟨hlo _ ⟨x, y, hx, hy, rfl⟩, hhi _ ⟨x, y, hx, hy, rfl⟩⟩

theorem forall_le_iff (hm : p m) (hleast : ∀ v, p v → m ≤ v) :
    (∀ v, p v → (roundDouble m).le (.fin v) = true) ↔ RoundsDown m := by
  constructor
  · intro h
    exact h m hm
  · intro h v hv
    exact Double.le_trans' h (decide_eq_true (hleast v hv))

theorem forall_ge_iff (hm : p m) (hgreatest : ∀ v, p v → v ≤ m) :
    (∀ v, p v → (Double.fin v).le (roundDouble m) = true) ↔ RoundsUp m := by
  constructor
  · intro h
    exact h m hm
  · intro h v hv
    have hle : (Double.fin v).le (.fin m) = true := decide_eq_true (hgreatest v hv)
    exact Double.le_trans' hle h

theorem HasNumber.lo (h : HasNumber A) : A.lo = .negInf ∨ ∃ a, A.lo = .fin a ∧ A.contains (.fin a) = true ∧
      ∀ x, A.contains (.fin x) = true → a ≤ x := by
  obtain ⟨x, hx⟩ := h
  rcases lower_of_contains hx with ⟨a, hlo, ha⟩ | ⟨hlo, -⟩
  · refine Or.inr ⟨a, hlo, ha, ?_⟩
    intro y hy
    have hle := (contains_iff.mp hy).1
    rw [hlo] at hle
    exact of_decide_eq_true hle
  · exact Or.inl hlo

theorem HasNumber.hi (h : HasNumber A) : A.hi = .posInf ∨ ∃ b, A.hi = .fin b ∧ A.contains (.fin b) = true ∧
      ∀ x, A.contains (.fin x) = true → x ≤ b := by
  obtain ⟨x, hx⟩ := h
  rcases upper_of_contains hx with ⟨b, hhi, hb⟩ | ⟨hhi, -⟩
  · refine Or.inr ⟨b, hhi, hb, ?_⟩
    intro y hy
    have hle := (contains_iff.mp hy).2
    rw [hhi] at hle
    exact of_decide_eq_true hle
  · exact Or.inl hhi

theorem HasNumber.isEmpty (h : HasNumber A) : A.isEmpty = false := isEmpty_of_contains h.choose_spec

/-! ## Sums and differences -/

/-- The finite bounds of a result are not rounded inwards. -/
def RoundsOutward (lows highs : List ℚ) : Prop :=
  (∀ q ∈ lows, RoundsDown q) ∧ ∀ q ∈ highs, RoundsUp q

instance (lows highs : List ℚ) : Decidable (RoundsOutward lows highs) :=
  inferInstanceAs (Decidable (_ ∧ _))

theorem covers_sub_iff (hA : HasNumber A) (hB : HasNumber B) : Covers (· - ·) A B (A.sub B) ↔
      RoundsOutward (ofBounds (· - ·) A.lo B.hi) (ofBounds (· - ·) A.hi B.lo) := by
  have hsub : A.sub B = ⟨A.lo.sub B.hi, A.hi.sub B.lo⟩ := by
    unfold sub
    rw [hA.isEmpty, hB.isEmpty]
    rfl
  rw [covers_iff, hsub]
  refine and_congr ?_ ?_
  · rcases hA.lo with hlo | ⟨a, hlo, ha, hleast⟩
    · rcases hB.hi with hhi | ⟨b, hhi, -, -⟩ <;> simp [hlo, hhi, ofBounds, Double.sub, Double.le]
    · rcases hB.hi with hhi | ⟨b, hhi, hb, hgreatest⟩
      · simp [hlo, hhi, ofBounds, Double.sub, Double.le]
      · simp only [hlo, hhi, ofBounds, Double.sub, List.forall_mem_singleton]
        apply forall_le_iff ⟨a, b, ha, hb, rfl⟩
        rintro v ⟨x, y, hx, hy, rfl⟩
        exact sub_le_sub (hleast x hx) (hgreatest y hy)
  · rcases hA.hi with hhi | ⟨a, hhi, ha, hgreatest⟩
    · rcases hB.lo with hlo | ⟨b, hlo, -, -⟩ <;> simp [hlo, hhi, ofBounds, Double.sub, Double.le]
    · rcases hB.lo with hlo | ⟨b, hlo, hb, hleast⟩
      · simp [hlo, hhi, ofBounds, Double.sub, Double.le]
      · simp only [hlo, hhi, ofBounds, Double.sub, List.forall_mem_singleton]
        apply forall_ge_iff ⟨a, b, ha, hb, rfl⟩
        rintro v ⟨x, y, hx, hy, rfl⟩
        exact sub_le_sub (hgreatest x hx) (hleast y hy)

theorem covers_add_iff (hA : HasNumber A) (hB : HasNumber B) : Covers (· + ·) A B (A.add B) ↔
      RoundsOutward (ofBounds (· + ·) A.lo B.lo) (ofBounds (· + ·) A.hi B.hi) := by
  have hadd : A.add B = ⟨A.lo.add B.lo, A.hi.add B.hi⟩ := by
    unfold add
    rw [hA.isEmpty, hB.isEmpty]
    rfl
  rw [covers_iff, hadd]
  refine and_congr ?_ ?_
  · rcases hA.lo with hlo | ⟨a, hlo, ha, hleast⟩
    · rcases hB.lo with hlo' | ⟨b, hlo', -, -⟩ <;>
        simp [hlo, hlo', ofBounds, Double.add, Double.neg, Double.sub, Double.le]
    · rcases hB.lo with hlo' | ⟨b, hlo', hb, hleast'⟩
      · simp [hlo, hlo', ofBounds, Double.add, Double.neg, Double.sub, Double.le]
      · simp only [hlo, hlo', ofBounds, Double.add, Double.neg, Double.sub, sub_neg_eq_add,
          List.forall_mem_singleton]
        apply forall_le_iff ⟨a, b, ha, hb, rfl⟩
        rintro v ⟨x, y, hx, hy, rfl⟩
        exact add_le_add (hleast x hx) (hleast' y hy)
  · rcases hA.hi with hhi | ⟨a, hhi, ha, hgreatest⟩
    · rcases hB.hi with hhi' | ⟨b, hhi', -, -⟩ <;>
        simp [hhi, hhi', ofBounds, Double.add, Double.neg, Double.sub, Double.le]
    · rcases hB.hi with hhi' | ⟨b, hhi', hb, hgreatest'⟩
      · simp [hhi, hhi', ofBounds, Double.add, Double.neg, Double.sub, Double.le]
      · simp only [hhi, hhi', ofBounds, Double.add, Double.neg, Double.sub, sub_neg_eq_add,
          List.forall_mem_singleton]
        apply forall_ge_iff ⟨a, b, ha, hb, rfl⟩
        rintro v ⟨x, y, hx, hy, rfl⟩
        exact add_le_add (hgreatest x hx) (hgreatest' y hy)

/-! ## Constants -/

/-- The interval of one number. -/
def point (k : ℚ) : Interval := ⟨.fin k, .fin k⟩

theorem contains_point {x : ℚ} : (point k).contains (.fin x) = true ↔ x = k := by
  rw [contains_iff]
  simp only [point, Double.le, decide_eq_true_eq]
  constructor
  · rintro ⟨hle, hge⟩
    exact hge.antisymm hle
  · rintro rfl
    exact ⟨le_rfl, le_rfl⟩

theorem hasNumber_point (k : ℚ) : HasNumber (point k) := ⟨k, contains_point.mpr rfl⟩

theorem covers_point_iff : Covers f A (point k) R ↔
    ∀ x, A.contains (.fin x) = true → R.contains (.fin (f x k)) = true := by
  constructor
  · intro h x hx
    exact h x k hx (contains_point.mpr rfl)
  · intro h x y hx hy
    obtain rfl := contains_point.mp hy
    exact h x hx

theorem add_point (h : A.isEmpty = false) : A.add (point k) = A.addConst (.fin k) := by
  unfold add
  rw [h, (hasNumber_point k).isEmpty]
  rfl

theorem sub_point (h : A.isEmpty = false) : A.sub (point k) = A.subConst (.fin k) := by
  unfold sub
  rw [h, (hasNumber_point k).isEmpty]
  rfl

/-- The bounds are both numbers. -/
def Bounded (A : Interval) : Prop := (∃ a, A.lo = .fin a) ∧ ∃ b, A.hi = .fin b

theorem covers_of_mono (hA : HasNumber A) (hf : Monotone fun x => f x k)
    (hlo : A.lo = .negInf → R.lo = .negInf) (hhi : A.hi = .posInf → R.hi = .posInf)
    (hlo' : ∀ a, A.lo = .fin a → R.lo = roundDouble (f a k))
    (hhi' : ∀ b, A.hi = .fin b → R.hi = roundDouble (f b k)) :
    Covers f A (point k) R ↔ RoundsOutward (ofBounds f A.lo (.fin k)) (ofBounds f A.hi (.fin k)) := by
  rw [covers_iff]
  have hk : (point k).contains (.fin k) = true := contains_point.mpr rfl
  refine and_congr ?_ ?_
  · rcases hA.lo with h | ⟨a, h, ha, hleast⟩
    · rw [hlo h, h]
      simp [ofBounds, Double.le]
    · rw [hlo' a h, h]
      simp only [ofBounds, List.forall_mem_singleton]
      apply forall_le_iff ⟨a, k, ha, hk, rfl⟩
      rintro v ⟨x, y, hx, hy, rfl⟩
      obtain rfl := contains_point.mp hy
      exact hf (hleast x hx)
  · rcases hA.hi with h | ⟨b, h, hb, hgreatest⟩
    · rw [hhi h, h]
      simp [ofBounds, Double.le]
    · rw [hhi' b h, h]
      simp only [ofBounds, List.forall_mem_singleton]
      apply forall_ge_iff ⟨b, k, hb, hk, rfl⟩
      rintro v ⟨x, y, hx, hy, rfl⟩
      obtain rfl := contains_point.mp hy
      exact hf (hgreatest x hx)

theorem covers_of_anti (hA : HasNumber A) (hf : Antitone fun x => f x k)
    (hlo : A.hi = .posInf → R.lo = .negInf) (hhi : A.lo = .negInf → R.hi = .posInf)
    (hlo' : ∀ b, A.hi = .fin b → R.lo = roundDouble (f b k))
    (hhi' : ∀ a, A.lo = .fin a → R.hi = roundDouble (f a k)) :
    Covers f A (point k) R ↔ RoundsOutward (ofBounds f A.hi (.fin k)) (ofBounds f A.lo (.fin k)) := by
  rw [covers_iff]
  have hk : (point k).contains (.fin k) = true := contains_point.mpr rfl
  refine and_congr ?_ ?_
  · rcases hA.hi with h | ⟨b, h, hb, hgreatest⟩
    · rw [hlo h, h]
      simp [ofBounds, Double.le]
    · rw [hlo' b h, h]
      simp only [ofBounds, List.forall_mem_singleton]
      apply forall_le_iff ⟨b, k, hb, hk, rfl⟩
      rintro v ⟨x, y, hx, hy, rfl⟩
      obtain rfl := contains_point.mp hy
      exact hf (hgreatest x hx)
  · rcases hA.lo with h | ⟨a, h, ha, hleast⟩
    · rw [hhi h, h]
      simp [ofBounds, Double.le]
    · rw [hhi' a h, h]
      simp only [ofBounds, List.forall_mem_singleton]
      apply forall_ge_iff ⟨a, k, ha, hk, rfl⟩
      rintro v ⟨x, y, hx, hy, rfl⟩
      obtain rfl := contains_point.mp hy
      exact hf (hleast x hx)

theorem mulConst_of_nonneg (h : A.isEmpty = false) (hk : 0 ≤ k) :
    A.mulConst (.fin k) = ⟨A.lo.mul (.fin k), A.hi.mul (.fin k)⟩ := by
  have htest : (Double.fin 0).le (.fin k) = true := decide_eq_true hk
  unfold mulConst
  rw [h, htest]
  rfl

theorem mulConst_of_neg (h : A.isEmpty = false) (hk : k < 0) :
    A.mulConst (.fin k) = ⟨A.hi.mul (.fin k), A.lo.mul (.fin k)⟩ := by
  have htest : (Double.fin 0).le (.fin k) = false := decide_eq_false (not_le.mpr hk)
  unfold mulConst
  rw [h, htest]
  rfl

/-- The bounds of a product with a constant, those that are numbers. -/
def mulConstBounds (A : Interval) (k : ℚ) : List ℚ × List ℚ :=
  if 0 ≤ k then (ofBounds (· * ·) A.lo (.fin k), ofBounds (· * ·) A.hi (.fin k))
  else (ofBounds (· * ·) A.hi (.fin k), ofBounds (· * ·) A.lo (.fin k))

/-- No infinite bound is multiplied by zero, and the others are not rounded inwards. -/
def MulConstOk (A : Interval) (k : ℚ) : Prop :=
  (k = 0 → Bounded A) ∧ RoundsOutward (mulConstBounds A k).1 (mulConstBounds A k).2

theorem covers_mulConst_iff (hA : HasNumber A) :
    Covers (· * ·) A (point k) (A.mulConst (.fin k)) ↔ MulConstOk A k := by
  unfold MulConstOk mulConstBounds
  rcases lt_trichotomy k 0 with hk | rfl | hk
  · rw [mulConst_of_neg hA.isEmpty hk, if_neg (not_le.mpr hk)]
    have hne : k = 0 → Bounded A := fun h => absurd h hk.ne
    rw [covers_of_anti hA (fun x y hxy => mul_le_mul_of_nonpos_right hxy hk.le)]
    · exact (and_iff_right hne).symm
    · intro h
      show A.hi.mul (.fin k) = _
      rw [h]
      exact Double.infOf_of_neg hk
    · intro h
      show A.lo.mul (.fin k) = _
      rw [h]
      exact Double.infOf_of_pos (neg_pos.mpr hk)
    · intro b h
      show A.hi.mul (.fin k) = _
      rw [h]
      rfl
    · intro a h
      show A.lo.mul (.fin k) = _
      rw [h]
      rfl
  · rw [mulConst_of_nonneg hA.isEmpty le_rfl, if_pos le_rfl]
    by_cases hbounded : Bounded A
    · obtain ⟨⟨a, ha⟩, b, hb⟩ := hbounded
      have hok : Covers (· * ·) A (point 0) ⟨A.lo.mul (.fin 0), A.hi.mul (.fin 0)⟩ ↔ True := by
        rw [ha, hb, Double.fin_mul_zero, Double.fin_mul_zero, covers_point_iff]
        refine iff_true_intro fun x _ => ?_
        rw [mul_zero]
        exact contains_self 0
      rw [hok]
      refine (iff_true_intro ⟨fun _ => ⟨⟨a, ha⟩, b, hb⟩, ?_⟩).symm
      simp [RoundsOutward, ofBounds, ha, hb, RoundsDown, RoundsUp, roundDouble_zero, Double.le]
    · refine iff_of_false ?_ fun h => hbounded (h.1 rfl)
      intro hcovers
      obtain ⟨x, hx⟩ := hA
      have hzero := contains_iff.mp (covers_point_iff.mp hcovers x hx)
      -- an infinite bound becomes a NaN
      obtain ⟨hlo, hhi⟩ := contains_iff.mp hx
      obtain ⟨lo, hi⟩ := A
      apply hbounded
      cases lo <;> cases hi <;> simp_all [Bounded, Double.mul, Double.infOf, Double.le]
  · rw [mulConst_of_nonneg hA.isEmpty hk.le, if_pos hk.le]
    have hne : k = 0 → Bounded A := fun h => absurd h hk.ne'
    rw [covers_of_mono hA (fun x y hxy => mul_le_mul_of_nonneg_right hxy hk.le)]
    · exact (and_iff_right hne).symm
    · intro h
      show A.lo.mul (.fin k) = _
      rw [h]
      exact Double.infOf_of_neg (neg_lt_zero.mpr hk)
    · intro h
      show A.hi.mul (.fin k) = _
      rw [h]
      exact Double.infOf_of_pos hk
    · intro a h
      show A.lo.mul (.fin k) = _
      rw [h]
      rfl
    · intro b h
      show A.hi.mul (.fin k) = _
      rw [h]
      rfl

/-- The bounds of a quotient by a constant, those that are numbers. -/
def divConstBounds (A : Interval) (k : ℚ) : List ℚ × List ℚ :=
  if 0 < k then (ofBounds (· / ·) A.lo (.fin k), ofBounds (· / ·) A.hi (.fin k))
  else (ofBounds (· / ·) A.hi (.fin k), ofBounds (· / ·) A.lo (.fin k))

theorem divConst_of_ne_zero (h : A.isEmpty = false) (hk : k ≠ 0) :
    A.divConst (.fin k) = if 0 < k then ⟨A.lo.div (.fin k), A.hi.div (.fin k)⟩
      else ⟨A.hi.div (.fin k), A.lo.div (.fin k)⟩ := by
  have hskip : (A.isEmpty || decide (Double.fin k = .fin 0)) = false := by
    rw [h]
    simpa using hk
  unfold divConst
  rw [hskip, if_neg Bool.false_ne_true]
  by_cases hpos : 0 < k
  · rw [if_pos hpos, if_pos (show (Double.fin 0).lt (.fin k) = true from decide_eq_true hpos)]
  · rw [if_neg hpos, if_neg (by simpa [Double.lt] using hpos)]

theorem covers_divConst_iff (hA : HasNumber A) (hk : k ≠ 0) : Covers (· / ·) A (point k) (A.divConst (.fin k)) ↔
      RoundsOutward (divConstBounds A k).1 (divConstBounds A k).2 := by
  unfold divConstBounds
  rw [divConst_of_ne_zero hA.isEmpty hk]
  rcases hk.lt_or_gt with hneg | hpos
  · rw [if_neg (not_lt.mpr hneg.le), if_neg (not_lt.mpr hneg.le)]
    apply covers_of_anti hA fun x y hxy => div_le_div_of_nonpos_of_le hneg.le hxy
    · intro h
      show A.hi.div (.fin k) = _
      rw [h]
      exact Double.infOf_of_neg hneg
    · intro h
      show A.lo.div (.fin k) = _
      rw [h]
      exact Double.infOf_of_pos (neg_pos.mpr hneg)
    · intro b h
      show A.hi.div (.fin k) = _
      rw [h]
      rfl
    · intro a h
      show A.lo.div (.fin k) = _
      rw [h]
      rfl
  · rw [if_pos hpos, if_pos hpos]
    apply covers_of_mono hA fun x y hxy => div_le_div_of_nonneg_right hxy hpos.le
    · intro h
      show A.lo.div (.fin k) = _
      rw [h]
      exact Double.infOf_of_neg (neg_lt_zero.mpr hpos)
    · intro h
      show A.hi.div (.fin k) = _
      rw [h]
      exact Double.infOf_of_pos hpos
    · intro a h
      show A.lo.div (.fin k) = _
      rw [h]
      rfl
    · intro b h
      show A.hi.div (.fin k) = _
      rw [h]
      rfl

/-! ## Products -/

/-- The pairs of bounds that are multiplied. -/
def boundPairs (A B : Interval) : List (Double × Double) :=
  [(A.lo, B.lo), (A.lo, B.hi), (A.hi, B.lo), (A.hi, B.hi)]

/-- The products of two bounds that are numbers. -/
def productBounds (A B : Interval) : List ℚ :=
  (boundPairs A B).flatMap fun b => ofBounds (· * ·) b.1 b.2

/-- The products of the bounds, the finite ones without rounding. -/
def exactCorners (A B : Interval) : List Double :=
  (boundPairs A B).map fun b => Double.mulWith .fin b.1 b.2

/-- The first product is no NaN, and unless some product is infinite to that side, every product of
numbers has one beside it that is not rounded inwards past it. -/
structure MulOk (A B : Interval) : Prop where
  first : A.lo.mul B.lo ≠ .nan
  low : .negInf ∈ exactCorners A B ∨
    ∀ q ∈ productBounds A B, ∃ q' ∈ productBounds A B, (roundDouble q').le (.fin q) = true
  high : .posInf ∈ exactCorners A B ∨
    ∀ q ∈ productBounds A B, ∃ q' ∈ productBounds A B, (Double.fin q).le (roundDouble q') = true

/-- The products as the code rounds them. -/
def roundedCorners (A B : Interval) : List Double := (boundPairs A B).map fun b => b.1.mul b.2

theorem mul_cases (a b : Double) : (∃ p q, a = .fin p ∧ b = .fin q) ∨
    Double.mulWith .fin a b = a.mul b ∧ ofBounds (· * ·) a b = [] ∧ ∀ q, a.mul b ≠ .fin q := by
  have hinf : ∀ c q, Double.infOf c ≠ .fin q := by
    intro c q
    unfold Double.infOf
    split
    · simp
    · split <;> simp
  cases a <;> cases b <;> simp [Double.mulWith, Double.mul, ofBounds, hinf]

variable {q : ℚ}

theorem mem_productBounds_of_exact (h : .fin q ∈ exactCorners A B) : q ∈ productBounds A B := by
  obtain ⟨⟨a, b⟩, hmem, hq⟩ := List.mem_map.mp h
  refine List.mem_flatMap.mpr ⟨(a, b), hmem, ?_⟩
  rcases mul_cases a b with ⟨p, p', rfl, rfl⟩ | ⟨hmul, -, hne⟩
  · obtain rfl : p * p' = q := Double.fin.inj hq
    exact List.mem_singleton_self _
  · exact absurd (hmul.symm.trans hq) (hne q)

theorem mem_roundedCorners_of_productBounds (h : q ∈ productBounds A B) :
    roundDouble q ∈ roundedCorners A B := by
  obtain ⟨⟨a, b⟩, hmem, hq⟩ := List.mem_flatMap.mp h
  refine List.mem_map.mpr ⟨(a, b), hmem, ?_⟩
  cases a <;> cases b <;> simp [ofBounds] at hq
  subst hq
  rfl

theorem mem_roundedCorners_of_exact {d : Double} (h : d ∈ exactCorners A B) (hd : ∀ q, d ≠ .fin q) :
    d ∈ roundedCorners A B := by
  obtain ⟨⟨a, b⟩, hmem, rfl⟩ := List.mem_map.mp h
  refine List.mem_map.mpr ⟨(a, b), hmem, ?_⟩
  rcases mul_cases a b with ⟨p, p', rfl, rfl⟩ | ⟨hmul, -, -⟩
  · exact absurd rfl (hd _)
  · exact hmul.symm

theorem mem_roundedCorners {d : Double} (h : d ∈ roundedCorners A B) :
    (∃ q ∈ productBounds A B, d = roundDouble q) ∨ d ∈ exactCorners A B ∧ ∀ q, d ≠ .fin q := by
  obtain ⟨⟨a, b⟩, hmem, rfl⟩ := List.mem_map.mp h
  rcases mul_cases a b with ⟨p, p', rfl, rfl⟩ | ⟨hmul, -, hne⟩
  · exact Or.inl ⟨p * p', List.mem_flatMap.mpr ⟨_, hmem, List.mem_singleton_self _⟩, rfl⟩
  · exact Or.inr ⟨List.mem_map.mpr ⟨_, hmem, hmul⟩, hne⟩

theorem value_of_mem_productBounds (hA : HasNumber A) (hB : HasNumber B)
    (h : q ∈ productBounds A B) : Value (· * ·) A B q := by
  obtain ⟨⟨a, b⟩, hmem, hq⟩ := List.mem_flatMap.mp h
  have hbound : ∀ {I : Interval}, HasNumber I → ∀ c, I.lo = .fin c ∨ I.hi = .fin c →
      I.contains (.fin c) = true := by
    intro I hI c hc
    rcases hc with hc | hc
    · rcases hI.lo with h | ⟨a, h, ha, -⟩
      · simp [hc] at h
      · rwa [Double.fin.inj (hc.symm.trans h)]
    · rcases hI.hi with h | ⟨a, h, ha, -⟩
      · simp [hc] at h
      · rwa [Double.fin.inj (hc.symm.trans h)]
  have hpair : (a = A.lo ∨ a = A.hi) ∧ (b = B.lo ∨ b = B.hi) := by
    simp only [boundPairs, List.mem_cons, Prod.mk.injEq, List.not_mem_nil, or_false] at hmem
    tauto
  cases a <;> cases b <;> simp [ofBounds] at hq
  case fin.fin c c' =>
    exact ⟨c, c', hbound hA c (hpair.1.imp Eq.symm Eq.symm),
      hbound hB c' (hpair.2.imp Eq.symm Eq.symm), hq.symm⟩

theorem min_four_mem (a b c d : Double) : ((a.min b).min c).min d ∈ [a, b, c, d] := by
  have hmin : ∀ x y : Double, x.min y = x ∨ x.min y = y := by
    intro x y
    unfold Double.min
    split
    · exact Or.inr rfl
    · exact Or.inl rfl
  rcases hmin ((a.min b).min c) d with h | h <;> rw [h]
  · rcases hmin (a.min b) c with h | h <;> rw [h]
    · rcases hmin a b with h | h <;> rw [h] <;> simp
    · simp
  · simp

theorem max_four_mem (a b c d : Double) : ((a.max b).max c).max d ∈ [a, b, c, d] := by
  have hmax : ∀ x y : Double, x.max y = x ∨ x.max y = y := by
    intro x y
    unfold Double.max
    split
    · exact Or.inr rfl
    · exact Or.inl rfl
  rcases hmax ((a.max b).max c) d with h | h <;> rw [h]
  · rcases hmax (a.max b) c with h | h <;> rw [h]
    · rcases hmax a b with h | h <;> rw [h] <;> simp
    · simp
  · simp

theorem not_all_nan (hfirst : A.lo.mul B.lo ≠ .nan) : ¬ ∀ d ∈ exactCorners A B, d = .nan := by
  intro hall
  have hnan : Double.mulWith .fin A.lo B.lo = .nan := hall _ List.mem_cons_self
  apply hfirst
  rcases mul_cases A.lo B.lo with ⟨p, q, hp, hq⟩ | ⟨hmul, -, -⟩
  · rw [hp, hq] at hnan
    exact absurd hnan (by simp [Double.mulWith])
  · rw [← hmul, hnan]

theorem mul_lower_iff (hA : HasNumber A) (hB : HasNumber B) (hfirst : A.lo.mul B.lo ≠ .nan) :
    (∀ v, Value (· * ·) A B v → (A.mul B).lo.le (.fin v) = true) ↔ (.negInf ∈ exactCorners A B ∨
      ∀ q ∈ productBounds A B, ∃ q' ∈ productBounds A B,
        (roundDouble q').le (.fin q) = true) := by
  rw [mul_of_isEmpty_eq_false hA.isEmpty hB.isEmpty]
  constructor
  · intro h
    by_cases hinf : .negInf ∈ exactCorners A B
    · exact Or.inl hinf
    · refine Or.inr fun q hq => ?_
      have hle := h q (value_of_mem_productBounds hA hB hq)
      rcases mem_roundedCorners (min_four_mem _ _ _ _ : _ ∈ roundedCorners A B) with
        ⟨q', hq', heq⟩ | ⟨hmem, hne⟩
      · exact ⟨q', hq', heq ▸ hle⟩
      · -- the least product is no number and below one
        dsimp only at hle
        revert hmem hne hle
        generalize ((((A.lo.mul B.lo).min (A.lo.mul B.hi)).min (A.hi.mul B.lo)).min
          (A.hi.mul B.hi)) = d
        intro hle hmem hne
        cases d with
        | negInf => exact absurd hmem hinf
        | fin r => exact absurd rfl (hne r)
        | posInf => simp [Double.le] at hle
        | nan => simp [Double.le] at hle
  · rintro h v ⟨x, y, hx, hy, rfl⟩
    obtain ⟨hlo, hhi⟩ := contains_iff.mp hx
    obtain ⟨hlo', hhi'⟩ := contains_iff.mp hy
    apply Double.min_four_le hfirst
    obtain ⟨d, hd, hle⟩ := (Double.exists_corner_le (r := .fin) (fun _ => rfl) rfl hlo hhi hlo' hhi'
      (fun _ hq => decide_eq_true hq)).resolve_left (not_all_nan hfirst)
    rcases h with hinf | hround
    · exact ⟨.negInf, mem_roundedCorners_of_exact hinf (by simp), rfl⟩
    · cases d with
      | negInf => exact ⟨.negInf, mem_roundedCorners_of_exact hd (by simp), rfl⟩
      | posInf => simp [Double.le] at hle
      | nan => simp [Double.le] at hle
      | fin q =>
        obtain ⟨q', hq', hle'⟩ := hround q (mem_productBounds_of_exact hd)
        exact ⟨roundDouble q', mem_roundedCorners_of_productBounds hq', Double.le_trans' hle' hle⟩

theorem mul_upper_iff (hA : HasNumber A) (hB : HasNumber B) (hfirst : A.lo.mul B.lo ≠ .nan) :
    (∀ v, Value (· * ·) A B v → (Double.fin v).le (A.mul B).hi = true) ↔
      (.posInf ∈ exactCorners A B ∨ ∀ q ∈ productBounds A B, ∃ q' ∈ productBounds A B,
        (Double.fin q).le (roundDouble q') = true) := by
  rw [mul_of_isEmpty_eq_false hA.isEmpty hB.isEmpty]
  constructor
  · intro h
    by_cases hinf : .posInf ∈ exactCorners A B
    · exact Or.inl hinf
    · refine Or.inr fun q hq => ?_
      have hle := h q (value_of_mem_productBounds hA hB hq)
      rcases mem_roundedCorners (max_four_mem _ _ _ _ : _ ∈ roundedCorners A B) with
        ⟨q', hq', heq⟩ | ⟨hmem, hne⟩
      · exact ⟨q', hq', heq ▸ hle⟩
      · -- the greatest product is no number and above one
        dsimp only at hle
        revert hmem hne hle
        generalize ((((A.lo.mul B.lo).max (A.lo.mul B.hi)).max (A.hi.mul B.lo)).max
          (A.hi.mul B.hi)) = d
        intro hle hmem hne
        cases d with
        | posInf => exact absurd hmem hinf
        | fin r => exact absurd rfl (hne r)
        | negInf => simp [Double.le] at hle
        | nan => simp [Double.le] at hle
  · rintro h v ⟨x, y, hx, hy, rfl⟩
    obtain ⟨hlo, hhi⟩ := contains_iff.mp hx
    obtain ⟨hlo', hhi'⟩ := contains_iff.mp hy
    apply Double.le_max_four hfirst
    obtain ⟨d, hd, hle⟩ := (Double.exists_le_corner (r := .fin) (fun _ => rfl) rfl hlo hhi hlo' hhi'
      (fun _ hq => decide_eq_true hq)).resolve_left (not_all_nan hfirst)
    rcases h with hinf | hround
    · exact ⟨.posInf, mem_roundedCorners_of_exact hinf (by simp), rfl⟩
    · cases d with
      | posInf => exact ⟨.posInf, mem_roundedCorners_of_exact hd (by simp), rfl⟩
      | negInf => simp [Double.le] at hle
      | nan => simp [Double.le] at hle
      | fin q =>
        obtain ⟨q', hq', hle'⟩ := hround q (mem_productBounds_of_exact hd)
        exact ⟨roundDouble q', mem_roundedCorners_of_productBounds hq', Double.le_trans' hle hle'⟩

theorem covers_mul_iff (hA : HasNumber A) (hB : HasNumber B) : Covers (· * ·) A B (A.mul B) ↔ MulOk A B := by
  by_cases hfirst : A.lo.mul B.lo = .nan
  · refine iff_of_false ?_ fun h => h.first hfirst
    intro hcovers
    obtain ⟨x, hx⟩ := hA
    obtain ⟨y, hy⟩ := hB
    have hproper := (proper_of_contains (hcovers x y hx hy)).1
    rw [mul_of_isEmpty_eq_false (isEmpty_of_contains hx) (isEmpty_of_contains hy)] at hproper
    -- a NaN that stands first stays
    apply hproper
    dsimp only
    rw [hfirst, Double.nan_min, Double.nan_min, Double.nan_min]
  · rw [covers_iff, mul_lower_iff hA hB hfirst, mul_upper_iff hA hB hfirst]
    exact ⟨fun h => ⟨hfirst, h.1, h.2⟩, fun h => ⟨h.low, h.high⟩⟩

/-! ## Widening -/

/-- How many of the widening steps change the interval. -/
def changes : Interval → List Interval → ℕ
  | _, [] => 0
  | iv, other :: others =>
    (if iv.widenWith other = iv then 0 else 1) + changes (iv.widenWith other) others

/-- How many bounds have not gone to infinity. -/
def openBounds (iv : Interval) : ℕ :=
  (if iv.lo = .negInf then 0 else 1) + if iv.hi = .posInf then 0 else 1

variable {iv : Interval}

theorem widenWith_step (hproper : iv.Proper) (h : iv.isEmpty = false) (other : Interval) :
    (iv.widenWith other).isEmpty = false ∧ (iv.widenWith other).Proper ∧
      (if iv.widenWith other = iv then 0 else 1) + openBounds (iv.widenWith other) ≤
        openBounds iv := by
  cases hother : other.isEmpty with
  | true =>
    have heq : iv.widenWith other = iv := by
      unfold widenWith
      rw [h, hother]
      rfl
    rw [heq, if_pos rfl, Nat.zero_add]
    exact ⟨h, hproper, le_rfl⟩
  | false =>
    rw [widenWith_of_isEmpty_eq_false h hother]
    obtain ⟨lo, hi⟩ := iv
    obtain ⟨lo', hi'⟩ := other
    obtain ⟨hlo, hhi⟩ := hproper
    dsimp only at hlo hhi ⊢
    have hnlo : lo'.lt lo = true → lo ≠ .negInf := by
      rintro hlt rfl
      cases lo' <;> simp [Double.lt] at hlt
    have hnhi : hi.lt hi' = true → hi ≠ .posInf := by
      rintro hlt rfl
      cases hi' <;> simp [Double.lt] at hlt
    have hbottom : ∀ d : Double, d.lt .negInf = false := by
      intro d
      cases d <;> rfl
    have htop : ∀ d : Double, Double.lt .posInf d = false := by
      intro d
      cases d <;> rfl
    refine ⟨?_, ⟨?_, ?_⟩, ?_⟩
    · unfold isEmpty at h ⊢
      dsimp only at h ⊢
      split
      · exact htop _
      · split
        · exact hbottom _
        · exact h
    · dsimp only
      split
      · simp
      · exact hlo
    · dsimp only
      split
      · simp
      · exact hhi
    · unfold openBounds
      dsimp only
      by_cases h1 : lo'.lt lo = true <;> by_cases h2 : hi.lt hi' = true <;>
        simp only [h1, h2, if_true, Bool.false_eq_true, if_false, Interval.mk.injEq] <;>
        simp_all <;> split <;> omega

theorem changes_le (hproper : iv.Proper) (h : iv.isEmpty = false)
    (others : List Interval) : changes iv others ≤ openBounds iv := by
  induction others generalizing iv with
  | nil => exact Nat.zero_le _
  | cons other others ih =>
    obtain ⟨hempty, hproper', hle⟩ := widenWith_step hproper h other
    have hrest := ih hproper' hempty
    show (if iv.widenWith other = iv then 0 else 1) + changes (iv.widenWith other) others ≤ _
    omega

theorem openBounds_le (iv : Interval) : openBounds iv ≤ 2 := by
  unfold openBounds
  split <;> split <;> omega

/-- The empty interval can be widened three times. -/
def threeSteps : List Interval := [point 0, ⟨.fin (-1), .fin 0⟩, ⟨.fin (-1), .fin 1⟩]

theorem changes_threeSteps (h : iv.isEmpty = true) : changes iv threeSteps = 3 := by
  have hne : point 0 ≠ iv := by
    rintro rfl
    exact absurd h (by decide)
  have hfirst : iv.widenWith (point 0) = point 0 := by
    unfold widenWith
    rw [h]
    rfl
  unfold threeSteps changes
  rw [hfirst, if_neg hne]
  decide

theorem changes_le_two_iff (hproper : iv.Proper) :
    (∀ others : List Interval, (∀ other ∈ others, other.Proper) → changes iv others ≤ 2) ↔
      iv.isEmpty = false := by
  constructor
  · intro h
    by_contra hempty
    have hthree := h threeSteps (by decide)
    rw [changes_threeSteps (by simpa using hempty)] at hthree
    omega
  · intro h others _
    exact (changes_le hproper h others).trans (openBounds_le iv)

/-! ## All operations -/

/-- Every operation keeps all results, joining and widening keep both intervals, and no chain of
widening steps changes the interval more than twice. -/
structure OverApproximates (A B : Interval) (k : ℚ) : Prop where
  add : Covers (· + ·) A B (A.add B)
  sub : Covers (· - ·) A B (A.sub B)
  mul : Covers (· * ·) A B (A.mul B)
  addConst : ∀ x, A.contains (.fin x) = true → (A.addConst (.fin k)).contains (.fin (x + k)) = true
  subConst : ∀ x, A.contains (.fin x) = true → (A.subConst (.fin k)).contains (.fin (x - k)) = true
  mulConst : ∀ x, A.contains (.fin x) = true → (A.mulConst (.fin k)).contains (.fin (x * k)) = true
  divConst : k ≠ 0 → ∀ x, A.contains (.fin x) = true →
    (A.divConst (.fin k)).contains (.fin (x / k)) = true
  join : ∀ x, A.contains (.fin x) = true ∨ B.contains (.fin x) = true →
    (A.joinWith B).contains (.fin x) = true
  widen : ∀ x, A.contains (.fin x) = true ∨ B.contains (.fin x) = true →
    (A.widenWith B).contains (.fin x) = true
  chain : ∀ others : List Interval, (∀ other ∈ others, other.Proper) → changes A others ≤ 2

/-- The interval is not empty, no zero meets an infinite bound in the first product of bounds or in a
product with the constant, and no finite bound is rounded inwards. -/
structure KeepsBounds (A B : Interval) (k : ℚ) : Prop where
  add : HasNumber A → HasNumber B →
    RoundsOutward (ofBounds (· + ·) A.lo B.lo) (ofBounds (· + ·) A.hi B.hi)
  sub : HasNumber A → HasNumber B →
    RoundsOutward (ofBounds (· - ·) A.lo B.hi) (ofBounds (· - ·) A.hi B.lo)
  mul : HasNumber A → HasNumber B → MulOk A B
  addConst : HasNumber A →
    RoundsOutward (ofBounds (· + ·) A.lo (.fin k)) (ofBounds (· + ·) A.hi (.fin k))
  subConst : HasNumber A →
    RoundsOutward (ofBounds (· - ·) A.lo (.fin k)) (ofBounds (· - ·) A.hi (.fin k))
  mulConst : HasNumber A → MulConstOk A k
  divConst : k ≠ 0 → HasNumber A → RoundsOutward (divConstBounds A k).1 (divConstBounds A k).2
  nonempty : A.isEmpty = false

theorem covers_iff_of {P : Prop} (h : HasNumber A → HasNumber B → (Covers f A B R ↔ P)) :
    Covers f A B R ↔ (HasNumber A → HasNumber B → P) := by
  constructor
  · intro hcovers hA hB
    exact (h hA hB).mp hcovers
  · intro hP x y hx hy
    exact (h ⟨x, hx⟩ ⟨y, hy⟩).mpr (hP ⟨x, hx⟩ ⟨y, hy⟩) x y hx hy

theorem forall_contains_iff_of {g : ℚ → ℚ} {P : Prop}
    (h : HasNumber A → ((∀ x, A.contains (.fin x) = true → R.contains (.fin (g x)) = true) ↔ P)) :
    (∀ x, A.contains (.fin x) = true → R.contains (.fin (g x)) = true) ↔ (HasNumber A → P) := by
  constructor
  · intro hcontains hA
    exact (h hA).mp hcontains
  · intro hP x hx
    exact (h ⟨x, hx⟩).mpr (hP ⟨x, hx⟩) x hx

theorem addConst_iff : (∀ x, A.contains (.fin x) = true →
    (A.addConst (.fin k)).contains (.fin (x + k)) = true) ↔ (HasNumber A →
      RoundsOutward (ofBounds (· + ·) A.lo (.fin k)) (ofBounds (· + ·) A.hi (.fin k))) := by
  apply forall_contains_iff_of
  intro hA
  rw [← add_point hA.isEmpty, ← covers_point_iff (f := (· + ·))]
  exact covers_add_iff hA (hasNumber_point k)

theorem subConst_iff : (∀ x, A.contains (.fin x) = true →
    (A.subConst (.fin k)).contains (.fin (x - k)) = true) ↔ (HasNumber A →
      RoundsOutward (ofBounds (· - ·) A.lo (.fin k)) (ofBounds (· - ·) A.hi (.fin k))) := by
  apply forall_contains_iff_of
  intro hA
  rw [← sub_point hA.isEmpty, ← covers_point_iff (f := (· - ·))]
  exact covers_sub_iff hA (hasNumber_point k)

/-- **Exactly when the operations over-approximate.** -/
theorem overApproximates_iff (A B : Interval) (k : ℚ) (hA : A.Proper) :
    OverApproximates A B k ↔ KeepsBounds A B k := by
  have hadd := covers_iff_of (f := (· + ·)) fun hA hB => covers_add_iff (A := A) (B := B) hA hB
  have hsub := covers_iff_of (f := (· - ·)) fun hA hB => covers_sub_iff (A := A) (B := B) hA hB
  have hmul := covers_iff_of (f := (· * ·)) fun hA hB => covers_mul_iff (A := A) (B := B) hA hB
  have hmulConst := forall_contains_iff_of fun hA =>
    (covers_point_iff.symm.trans (covers_mulConst_iff (A := A) (k := k) hA))
  have hdivConst := fun hk : k ≠ 0 => forall_contains_iff_of fun hA =>
    (covers_point_iff.symm.trans (covers_divConst_iff (A := A) hA hk))
  constructor
  · intro h
    exact ⟨hadd.mp h.add, hsub.mp h.sub, hmul.mp h.mul, addConst_iff.mp h.addConst,
      subConst_iff.mp h.subConst, hmulConst.mp h.mulConst, fun hk => (hdivConst hk).mp (h.divConst hk),
      (changes_le_two_iff hA).mp h.chain⟩
  · intro h
    refine ⟨hadd.mpr h.add, hsub.mpr h.sub, hmul.mpr h.mul, addConst_iff.mpr h.addConst,
      subConst_iff.mpr h.subConst, hmulConst.mpr h.mulConst,
      fun hk => (hdivConst hk).mpr (h.divConst hk), ?_, ?_, (changes_le_two_iff hA).mpr h.nonempty⟩
    · rintro x (hx | hx)
      · exact contains_joinWith_left hx
      · exact contains_joinWith_right hA hx
    · rintro x (hx | hx)
      · exact contains_widenWith_left hx
      · exact contains_widenWith_right hA hx

theorem overApproximates_iff_unit : OverApproximates ⟨.fin 0, .fin 1⟩ ⟨.fin 2, .fin 3⟩ 2 ↔
    KeepsBounds ⟨.fin 0, .fin 1⟩ ⟨.fin 2, .fin 3⟩ 2 :=
  overApproximates_iff _ _ _ (by decide)

/-- The product of the interval from zero to one with the unbounded one has no number in it. -/
theorem unit_mul_unbounded_loses : ¬ OverApproximates ⟨.fin 0, .fin 1⟩ {} 1 := by
  intro h
  exact absurd (h.mul 0 0 (by decide) (by decide)) (by decide)

end Fsmc.Analysis.Interval
