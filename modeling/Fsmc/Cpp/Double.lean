/-
# Fsmc.Cpp.Double — `double` values and `std::stod`.

A `double` is an infinity, a NaN or a finite value, and a finite value is the rational number it stands
for; the two zeros compare equal and are one value here. Results that C++ rounds are rounded to the
nearest representable number, ties to even (`roundDouble`). `stod` reads the longest prefix that
`strtod` accepts and is `none` where `std::stod` throws: when nothing can be read
(`std::invalid_argument`) or the value leaves the range of `double` (`std::out_of_range`).
-/
import Mathlib.Data.Rat.Lemmas
import Mathlib.Algebra.Order.Ring.Rat
import Fsmc.Cpp.Text

namespace Fsmc.Cpp

/-- A floating-point value. -/
inductive Double where
  | nan
  | negInf
  | fin (q : ℚ)
  | posInf
  deriving DecidableEq, Repr

/-! ## Rounding -/

/-- `q` scaled by `2 ^ (-e)`, as numerator and denominator. -/
def scaled (n d : Nat) (e : Int) : Nat × Nat := (n * 2 ^ (-e).toNat, d * 2 ^ e.toNat)

def twoPow (m : Nat) (e : Int) : ℚ :=
  if 0 ≤ e then ((m * 2 ^ e.toNat : Nat) : ℚ) else mkRat m (2 ^ (-e).toNat)

/-- The exponent of the last place of a 53 bit significand for `n / d`, at least that of the least
subnormal number. -/
def ulpExponent (n d : Nat) : Int :=
  let guess : Int := (Nat.log2 n : Int) - Nat.log2 d - 52
  let (a, b) := scaled n d guess
  max (if a < 2 ^ 52 * b then guess - 1 else guess) (-1074)

/-- Rounds to the nearest `double`, ties to even; what is too large becomes an infinity. -/
def roundDouble (q : ℚ) : Double :=
  let e := ulpExponent q.num.natAbs q.den
  let (a, b) := scaled q.num.natAbs q.den e
  let m := a / b
  let r := a % b
  let m := if 2 * r > b ∨ 2 * r = b ∧ m % 2 = 1 then m + 1 else m
  let magnitude := twoPow m e
  if magnitude ≥ twoPow 1 1024 then (if q < 0 then .negInf else .posInf)
  else .fin (if q < 0 then -magnitude else magnitude)

namespace Double

/-- `a < b`, false when one side is a NaN. -/
def lt : Double → Double → Bool
  | nan, _ => false
  | _, nan => false
  | fin a, fin b => decide (a < b)
  | negInf, negInf => false
  | negInf, _ => true
  | fin _, posInf => true
  | fin _, negInf => false
  | posInf, _ => false

/-- `a <= b`, false when one side is a NaN. -/
def le : Double → Double → Bool
  | nan, _ => false
  | _, nan => false
  | fin a, fin b => decide (a ≤ b)
  | negInf, _ => true
  | fin _, posInf => true
  | fin _, negInf => false
  | posInf, posInf => true
  | posInf, _ => false

/-- `std::isinf`. -/
def isInf : Double → Bool
  | negInf => true
  | posInf => true
  | _ => false

def sub : Double → Double → Double
  | nan, _ => nan
  | _, nan => nan
  | fin a, fin b => roundDouble (a - b)
  | fin _, negInf => posInf
  | fin _, posInf => negInf
  | negInf, negInf => nan
  | negInf, _ => negInf
  | posInf, posInf => nan
  | posInf, _ => posInf

def neg : Double → Double
  | nan => nan
  | negInf => posInf
  | fin a => fin (-a)
  | posInf => negInf

def add (a b : Double) : Double := sub a (neg b)

/-- An infinity of the sign of `q`; with a zero it makes a NaN. -/
def infOf (q : ℚ) : Double := if q = 0 then nan else if q < 0 then negInf else posInf

def mul : Double → Double → Double
  | nan, _ => nan
  | _, nan => nan
  | fin a, fin b => roundDouble (a * b)
  | fin a, posInf => infOf a
  | fin a, negInf => infOf (-a)
  | posInf, fin b => infOf b
  | negInf, fin b => infOf (-b)
  | posInf, posInf => posInf
  | negInf, negInf => posInf
  | posInf, negInf => negInf
  | negInf, posInf => negInf

/-- `a / b` for a `b` that is not zero. -/
def div : Double → Double → Double
  | nan, _ => nan
  | _, nan => nan
  | fin a, fin b => roundDouble (a / b)
  | fin _, _ => fin 0
  | posInf, fin b => infOf b
  | negInf, fin b => infOf (-b)
  | _, _ => nan

/-- `std::min`: the first unless the second is smaller. -/
def min (a b : Double) : Double := if b.lt a then b else a

/-- `std::max`: the first unless it is smaller than the second. -/
def max (a b : Double) : Double := if a.lt b then b else a

def abs : Double → Double
  | nan => nan
  | fin a => fin |a|
  | _ => posInf

/-- The literal `1e-6`. -/
def tolerance : Double := roundDouble (mkRat 1 1000000)

/-- `std::abs(a - b) < 1e-6`. -/
def near (a b : Double) : Bool := lt (abs (sub a b)) tolerance

theorem near_self (x : ℚ) : (fin x).near (fin x) = true := by
  show lt (abs (roundDouble (x - x))) tolerance = true
  rw [sub_self]
  decide +kernel

theorem le_antisymm {a b : Double} (hab : a.le b = true) (hba : b.le a = true) : a = b := by
  cases a <;> cases b <;> simp_all [le]
  exact hab.antisymm hba

end Double

/-! ## `std::stod` -/

def digitValue (base : Nat) (c : Char) : Option Nat :=
  let v := if c.isDigit then some (c.toNat - '0'.toNat)
    else if 'a' ≤ c ∧ c ≤ 'f' then some (c.toNat - 'a'.toNat + 10)
    else if 'A' ≤ c ∧ c ≤ 'F' then some (c.toNat - 'A'.toNat + 10)
    else none
  v.filter (· < base)

/-- Reads digits: the number with `acc` in front, how many there were, and what follows them. -/
def scanDigits (base : Nat) : List Char → Nat → Nat × Nat × List Char
  | [], acc => (acc, 0, [])
  | c :: cs, acc =>
    match digitValue base c with
    | none => (acc, 0, c :: cs)
    | some d =>
      let (m, k, rest) := scanDigits base cs (acc * base + d)
      (m, k + 1, rest)

/-- Reads digits with at most one point: the number without its point, how many digits stood behind
the point, and what follows. -/
def scanMantissa (base : Nat) (l : List Char) : Option (Nat × Nat × List Char) :=
  let (m, k, rest) := scanDigits base l 0
  match rest with
  | '.' :: rest' =>
    let (m', k', rest'') := scanDigits base rest' m
    if k + k' = 0 then none else some (m', k', rest'')
  | _ => if k = 0 then none else some (m, 0, rest)

/-- Reads an optional sign: whether it was a minus, and what follows. -/
def scanSign : List Char → Bool × List Char
  | '-' :: cs => (true, cs)
  | '+' :: cs => (false, cs)
  | cs => (false, cs)

/-- Reads an optional exponent part that starts with `mark`. -/
def scanExponent (mark : Char) : List Char → Int
  | c :: cs =>
    if c.toLower = mark then
      let (neg, digits) := scanSign cs
      let (m, _, _) := scanDigits 10 digits 0
      if neg then -(m : Int) else m
    else 0
  | [] => 0

def scaleBy (base m : Nat) (e : Int) : ℚ :=
  if 0 ≤ e then ((m * base ^ e.toNat : Nat) : ℚ) else mkRat m (base ^ (-e).toNat)

/-- The magnitude of a number in decimal or, after `0x`, in hexadecimal notation. -/
def scanMagnitude (l : List Char) : Option ℚ :=
  let hex := match l with
    | '0' :: x :: cs => if x.toLower = 'x' then scanMantissa 16 cs else none
    | _ => none
  match hex with
  | some (m, k, rest) => some (scaleBy 2 m (scanExponent 'p' rest - 4 * k))
  | none => (scanMantissa 10 l).map fun (m, k, rest) => scaleBy 10 m (scanExponent 'e' rest - k)

/-- A value that was read exactly, as `strtod` returns it: `none` when the range is left upwards, or
downwards with a loss of precision. -/
def inRange (q : ℚ) : Option Double :=
  match roundDouble q with
  | .fin r => if r ≠ q ∧ |r| < twoPow 1 (-1022) then none else some (.fin r)
  | _ => none

/-- `std::stod`, `none` where it throws. -/
def stod (s : String) : Option Double :=
  let (neg, l) := scanSign (s.toList.dropWhile isSpace)
  let lower := l.map Char.toLower
  if "inf".toList.isPrefixOf lower then some (if neg then .negInf else .posInf)
  else if "nan".toList.isPrefixOf lower then some .nan
  else (scanMagnitude l).bind fun q => inRange (if neg then -q else q)

example : stod "  -12.5e1 volts" = some (.fin (-125)) := by decide +kernel
example : stod "volts" = none := by decide +kernel

end Fsmc.Cpp
