/-
  CandidateSearch/Number/Shortest.lean
  ====================================
  **The fewest digits that read back as the same float.**

  A finite float that is not zero is `m · 2 ^ q`.  The reals that round to it form an
  interval around it, and its shortest text is the point of that interval on the
  coarsest grid of powers of ten that has one; of two points the nearer is taken.
  Where both are equally near, the caller says which one is wanted.

  All comparisons are between natural numbers, so nothing is lost on the way.
-/
import CandidateSearch.Number.Digits

namespace CandidateSearch.Number

/-! ### Floats taken apart -/

/-- A positive float `significand · 2 ^ exponent`. -/
structure Binary where
  significand : Nat
  exponent : Int
deriving DecidableEq, Repr

/-- The sign bit is set. -/
def signBit (x : Float) : Bool := x.toBits.toNat / twoTo 63 == 1

/-- The magnitude of a finite float. -/
def magnitude (x : Float) : Binary :=
  let bits := x.toBits.toNat
  let fraction := bits % twoTo 52
  let biased : Nat := bits / twoTo 52 % twoTo 11
  if biased = 0 then ⟨fraction, -1074⟩ else ⟨twoTo 52 + fraction, (biased : Int) - 1075⟩

/-! ### The interval of a float

  Everything is measured in quarters of the float's unit in the last place, so that
  the ends of the interval are whole numbers as well. -/

/-- How far the interval reaches below: half a unit, or a quarter where the floats below
    are twice as dense. -/
def Binary.below (b : Binary) : Nat :=
  if b.significand = twoTo 52 ∧ -1074 < b.exponent then 1 else 2

/-- `n` quarters of a unit of `b` as a fraction of natural numbers over `10 ^ e`. -/
def Binary.over (b : Binary) (e : Int) (n : Nat) : Nat × Nat :=
  let q := b.exponent - 2
  (n * twoTo q.toNat * tenTo (-e).toNat, twoTo (-q).toNat * tenTo e.toNat)

/-- The point `c · 10 ^ e` rounds to `b`: it lies between the ends of the interval, which
    belong to it if the significand is even. -/
def Binary.covers (b : Binary) (e : Int) (c : Nat) : Bool :=
  let (low, unit) := b.over e (4 * b.significand - b.below)
  let (high, _) := b.over e (4 * b.significand + 2)
  if b.significand % 2 = 0 then low ≤ c * unit && c * unit ≤ high
  else low < c * unit && c * unit < high

/-! ### Choosing the digits -/

/-- Which of two equally near points is taken. -/
inductive Tie where
  | up
  | even
deriving DecidableEq, Repr

/-- The point of the grid `10 ^ e` that stands for `b`, if the interval has one. -/
def Binary.onGrid (b : Binary) (tie : Tie) (e : Int) : Option Nat :=
  let (value, unit) := b.over e (4 * b.significand)
  let lower := value / unit
  let upper := lower + 1
  match b.covers e lower, b.covers e upper with
  | true, true =>
      let twice := 2 * (value - lower * unit)
      if twice < unit then some lower
      else if unit < twice then some upper
      else match tie with
        | .up => some upper
        | .even => some (if lower % 2 = 0 then lower else upper)
  | true, false => some lower
  | false, true => some upper
  | false, false => none

/-- The power of ten of the first digit of `b`.  The smallest float is above
    `10 ^ (-324)`, so shifting by four hundred places leaves a whole part. -/
def Binary.leading (b : Binary) : Int :=
  let (value, unit) := b.over (-400) (4 * b.significand)
  digitCount (value / unit) - 401

/-- Digits `digits · 10 ^ exponent` of a positive float. -/
structure Digits where
  digits : Nat
  exponent : Int
deriving DecidableEq, Repr

/-- The shortest digits of a float: the grids are tried in turn from the one just above
    the first digit, where only a power of ten can lie, down to that of the seventeenth
    digit, which always has a point. -/
def Binary.shortest (b : Binary) (tie : Tie) : Digits :=
  let leading := b.leading
  let tried := (List.range 18).findSome? fun n : Nat =>
    let e := leading + 1 - (n : Int)
    (b.onGrid tie e).map fun digits => (⟨digits, e⟩ : Digits)
  tried.getD ⟨0, 0⟩

/-- The shortest digits of the magnitude of a finite float. -/
def shortest (tie : Tie) (x : Float) : Digits :=
  let b := magnitude x
  if b.significand = 0 then ⟨0, 0⟩ else b.shortest tie

end CandidateSearch.Number
