/-
  CandidateSearch/Decimal/Elementary.lean
  =======================================
  **Square root and exponential.**

  Both are computed to a hundred digits and then rounded to the precision of programs.
  The root is the exact one, a tie going to the even neighbour.  The exponential halves
  its argument until it is below one, sums the power series there, and squares the sum
  as often as it halved.
-/
import CandidateSearch.Decimal.Arithmetic
import CandidateSearch.Decimal.Text

namespace CandidateSearch.Decimal

open Number

/-- Digits to which a root or an exponential is computed. -/
def workingDigits : Nat := 100

/-! ### Square root -/

/-- Newton's iteration from above: each step is at least the root, and the first one
    that does not decrease is the whole part of the root. -/
def newton (n : Nat) : Nat → Nat → Nat
  | 0, x => x
  | fuel + 1, x =>
      let y := (x + n / x) / 2
      if y < x then newton n fuel y else x

/-- The whole part of the square root of `n`. -/
def isqrt (n : Nat) : Nat :=
  if n = 0 then 0 else newton n (n.log2 + 1) (twoTo (n.log2 / 2 + 1))

/-- The root of a number to `workingDigits` digits. `root` is the whole part of the
    root, `exact` says that nothing is missing from it; a tie goes to the even
    neighbour. -/
def roundRoot (root : Nat) (exact : Bool) (scale : Int) : Decimal :=
  let surplus := digitCount root - workingDigits
  let unit := tenTo surplus
  let q := root / unit
  let twice := 2 * (root % unit)
  let up := unit < twice || (twice == unit && (!exact || q % 2 == 1))
  ⟨if up then q + 1 else q, scale - surplus⟩

/-- The square root of a positive decimal.  Its coefficient is first given so many
    digits that the whole part of its root has more than `workingDigits`, and a scale
    that can be halved. -/
def root (d : Decimal) : Decimal :=
  let n := d.coefficient.natAbs
  let missing := 2 * workingDigits + 4 - digitCount n
  let shift := if (d.scale + missing) % 2 = 0 then missing else missing + 1
  let m := n * tenTo shift
  let r := isqrt m
  roundRoot r (r * r == m) ((d.scale + shift) / 2)

/-- The square root that programs see. -/
def sqrt? (d : Decimal) : Except Fault Decimal :=
  if d.coefficient < 0 then .error (.undefined "sqrt" d.text)
  else if d.isZero || d.isOne then .ok d.round
  else .ok d.root.round

/-! ### Exponential -/

/-- The sum of `term + term · y / n + term · y² / (n (n + 1)) + …`, all in units of
    `1 / unit`, until the terms vanish. -/
def expSeries (unit y : Int) : Nat → Nat → Int → Int → Int
  | 0, _, _, sum => sum
  | fuel + 1, n, term, sum =>
      if term = 0 then sum
      else
        let next := (term * y).tdiv (unit * n)
        expSeries unit y fuel (n + 1) next (sum + next)

/-- `d` squared `n` times, with `p` digits throughout. -/
def squareTimes (p : Nat) : Nat → Decimal → Decimal
  | 0, d => d
  | n + 1, d =>
      let square : Decimal := ⟨d.coefficient * d.coefficient, 2 * d.scale⟩
      squareTimes p n (square.toPrecision p)

/-- The exponential of a decimal. -/
def exponential (d : Decimal) : Decimal :=
  let whole := d.truncate.coefficient.natAbs
  let halvings := if whole = 0 then 0 else whole.log2 + 1
  let p := workingDigits + 20 + digitCount whole
  let unit : Int := tenTo p
  let y : Int :=
    if 0 ≤ d.scale then (d.coefficient * unit).tdiv (tenTo d.scale.toNat * twoTo halvings)
    else (d.coefficient * tenTo (-d.scale).toNat * unit).tdiv (twoTo halvings)
  let sum := expSeries unit y (p + 25) 1 unit unit
  (squareTimes p halvings ((⟨sum, p⟩ : Decimal).toPrecision p)).toPrecision workingDigits

/-- The exponential that programs see. -/
def exp (d : Decimal) : Decimal :=
  if d.isZero then one.round else d.exponential.round

end CandidateSearch.Decimal
