/-
  CandidateSearch/Decimal/Basic.lean
  ==================================
  **Decimal numbers: a whole number of units of a power of ten.**

  `⟨c, s⟩` stands for `c · 10 ^ (-s)`, so `⟨150, 2⟩` is written `1.50`.  Trailing
  zeros are part of a decimal's text and not of its value: `⟨15, 1⟩` and `⟨150, 2⟩`
  are different decimals with the same value, and comparing goes by value.

  The two ways of cutting a decimal down are here as well.  `toPrecision p` gives it
  `p` digits: surplus digits are cut off, where a positive number is rounded half up
  and a negative one goes toward zero; missing digits are zeros.  `truncate` drops the
  fraction.
-/
import CandidateSearch.Number.Digits

namespace CandidateSearch

/-- The number `coefficient · 10 ^ (-scale)`. -/
structure Decimal where
  coefficient : Int
  scale : Int
deriving DecidableEq, Repr

namespace Decimal

open Number

def ofInt (n : Int) : Decimal := ⟨n, 0⟩

def one : Decimal := ⟨1, 0⟩

def isZero (d : Decimal) : Bool := d.coefficient == 0

def neg (d : Decimal) : Decimal := ⟨-d.coefficient, d.scale⟩

/-- The number of digits of the coefficient. -/
def digits (d : Decimal) : Nat := digitCount d.coefficient.natAbs

/-! ### Comparing by value -/

/-- The coefficient that the value of `d` has at a scale that is at least its own. -/
def coefficientAt (d : Decimal) (scale : Int) : Int :=
  d.coefficient * tenTo (scale - d.scale).toNat

/-- The place of the first digit, counted from the point: positive in front of it. -/
def leading (d : Decimal) : Int := d.digits - d.scale

/-- Which of two magnitudes is the smaller.  The places of the first digits decide; only
    where they agree are the coefficients brought to one scale. -/
def compareMagnitudes (a b : Decimal) : Ordering :=
  match Ord.compare a.leading b.leading with
  | .eq =>
      let scale := max a.scale b.scale
      Ord.compare (a.coefficientAt scale).natAbs (b.coefficientAt scale).natAbs
  | order => order

/-- Which of two values is the smaller. -/
def compare (a b : Decimal) : Ordering :=
  match Ord.compare a.coefficient.sign b.coefficient.sign with
  | .eq =>
      if a.coefficient = 0 then .eq
      else if 0 < a.coefficient then compareMagnitudes a b
      else compareMagnitudes b a
  | order => order

/-- Equal as numbers, whatever the scales. -/
def same (a b : Decimal) : Bool := compare a b == .eq

def less (a b : Decimal) : Bool := compare a b == .lt

def atMost (a b : Decimal) : Bool := compare a b != .gt

/-- The value is one.  The digits are counted first, so that the power of ten is only
    formed when it is as long as the coefficient. -/
def isOne (d : Decimal) : Bool :=
  d.scale + 1 == d.digits && d.coefficient == tenTo d.scale.toNat

/-! ### Cutting down -/

/-- The same value at a scale that is higher by `n`. -/
def pad (d : Decimal) (n : Nat) : Decimal := ⟨d.coefficient * tenTo n, d.scale + n⟩

/-- `d` without its last `n` digits: half up if it is positive, toward zero if it is
    negative. -/
def cut (d : Decimal) (n : Nat) : Decimal :=
  let unit : Int := tenTo n
  let quotient := d.coefficient.tdiv unit
  let rest := d.coefficient.tmod unit
  ⟨if 0 < d.coefficient ∧ unit ≤ 2 * rest then quotient + 1 else quotient, d.scale - n⟩

/-- `d` with `p` digits.  Rounding up a run of nines gives one digit more. -/
def toPrecision (d : Decimal) (p : Nat) : Decimal :=
  if p < d.digits then d.cut (d.digits - p)
  else d.pad (p - d.digits)

/-- The whole part of `d`, toward zero. -/
def truncate (d : Decimal) : Decimal :=
  if 0 ≤ d.scale then ⟨d.coefficient.tdiv (tenTo d.scale.toNat), 0⟩
  else ⟨d.coefficient * tenTo (-d.scale).toNat, 0⟩

/-- The value has no fraction. -/
def isInteger (d : Decimal) : Bool := d.truncate.same d

/-- `d` with the trailing zeros of its coefficient moved into the scale. -/
def normalized (d : Decimal) : Decimal :=
  if d.coefficient = 0 then ⟨0, 0⟩
  else
    let (kept, dropped) := dropZeros d.coefficient.natAbs
    ⟨d.coefficient.sign * kept, d.scale - dropped⟩

end Decimal

end CandidateSearch
