/-
  CandidateSearch/Decimal/Binary.lean
  ===================================
  **Decimals and floats.**

  Variables hold floats while arithmetic is decimal.  A float becomes the decimal that
  its shortest text shows, so `0.1` is one tenth and not its binary expansion.  A
  decimal becomes a nearby float; where no finite one exists, that is a fault.
-/
import CandidateSearch.Decimal.Arithmetic
import CandidateSearch.Number.Text

namespace CandidateSearch.Decimal

open Number

/-! ### From floats -/

/-- The decimal that the text of a float shows. -/
def ofFloat? (x : Float) : Except Fault Decimal :=
  if x.isFinite then
    let d := shortest .up x
    let n : Int := d.digits * tenTo d.exponent.toNat
    .ok ⟨if signBit x then -n else n, (-d.exponent).toNat⟩
  else .error (.nonFinite (Number.text x))

/-! ### To floats -/

/-- A whole number with a sign as the nearest float. -/
def signedFloat (n : Int) (toFloat : Nat → Float) : Float :=
  if n < 0 then -(toFloat n.natAbs) else toFloat n.natAbs

/-- `n · 10 ^ (-places)` as the nearest float; below the range of floats it is zero. -/
def scaledDown (n places : Nat) : Float :=
  if digitCount n + 400 < places then 0 else Float.ofScientific n true places

/-- `x · 10 ^ n` with the power formed by repeated squaring of floats. -/
def powerOfTen : Nat → Float → Float → Nat → Float
  | 0, result, _, _ => result
  | fuel + 1, result, square, n =>
      let result := if n % 2 = 1 then result * square else result
      if n / 2 = 0 then result else powerOfTen fuel result (square * square) (n / 2)

/-- A coefficient of more than about twenty-five digits loses digits at its end,
    nineteen at a time, before it becomes a float. -/
def shed (d : Decimal) : Decimal :=
  let bits := if d.coefficient = 0 then 0 else d.coefficient.natAbs.log2 + 1
  let digits : Nat := (bits + 1) * 30102999566398119521 / tenTo 20
  let surplus : Nat := (digits - 25) / 19 * 19
  ⟨d.coefficient.tdiv (tenTo surplus), d.scale - surplus⟩

/-- The float of a decimal.  A whole coefficient is rounded once; a fraction is rounded
    once too; a number with a negative scale is the product of two floats.  A scale of
    `2 ^ 31` or more, up or down, counts as out of range. -/
def toFloat (d : Decimal) : Float :=
  if d.coefficient = 0 then 0
  else if d.scale = 0 then signedFloat d.coefficient fun n => Float.ofScientific n false 0
  else
    let d := d.shed
    if twoTo 31 ≤ d.scale.natAbs then 1 / 0
    else if 0 < d.scale then signedFloat d.coefficient fun n => scaledDown n d.scale.toNat
    else
      let n := (-d.scale).toNat
      (signedFloat d.coefficient fun n => Float.ofScientific n false 0) *
        powerOfTen (n.log2 + 1) 1 10 n

/-- The finite float of a decimal. -/
def toFloat? (d : Decimal) : Except Fault Float :=
  let x := d.toFloat
  if x.isFinite then .ok x else .error (.nonFinite d.text)

/-! ### Powers -/

/-- `base ^ exponent`.  A whole exponent of at most 64 bits is exact; any other one goes
    through floats. -/
def pow? (base exponent : Decimal) : Except Fault Decimal :=
  let n := exponent.truncate.coefficient
  if exponent.isInteger && fitsSigned 64 n then powInt base n
  else do
    let x ← base.toFloat?
    let y ← exponent.toFloat?
    let power := x.pow y
    if power.isNaN then .error (.undefined "^" base.text) else ofFloat? power

end CandidateSearch.Decimal
