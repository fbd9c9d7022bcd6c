/-
  CandidateSearch/Decimal/Arithmetic.lean
  =======================================
  **Sums, products, quotients and remainders of decimals.**

  Sums, differences and products are exact; a quotient is carried to a hundred digits
  at least.  Each has a rounded form beside it (`add`, `sub`, `mul`, `div?`, `rem?`)
  which gives its result `precision` digits: `add 1 2` is `3.0000000000000000000`.
  Programs only see the rounded forms.

  Integer powers are formed by repeated squaring with ten digits more than the
  precision, so that the last digit of the rounded power is not disturbed.
-/
import CandidateSearch.Decimal.Basic
import CandidateSearch.Fault

namespace CandidateSearch.Decimal

open Number

/-- Digits kept by every operation of a program. -/
def precision : Nat := 20

/-- Digits carried on top of the precision while a power is formed. -/
def guardDigits : Nat := 10

/-- `d` with the digits that a program sees. -/
def round (d : Decimal) : Decimal := d.toPrecision precision

/-! ### Exact sums and products -/

/-- `d` at the scale of an added zero, at most fifteen places higher than its own. -/
def padToward (d : Decimal) (scale : Int) : Decimal :=
  d.pad (min 15 (scale - d.scale).toNat)

/-- The exact sum, at the larger of the two scales.  Adding zero keeps the other
    summand. -/
def exactAdd (a b : Decimal) : Decimal :=
  if b.isZero then a.padToward b.scale
  else if a.isZero then b.padToward a.scale
  else
    let scale := max a.scale b.scale
    ⟨a.coefficientAt scale + b.coefficientAt scale, scale⟩

/-- The exact difference, at the larger of the two scales. -/
def exactSub (a b : Decimal) : Decimal :=
  let scale := max a.scale b.scale
  ⟨a.coefficientAt scale - b.coefficientAt scale, scale⟩

/-- The exact product.  A factor of one gives the other factor without trailing
    zeros. -/
def exactMul (a b : Decimal) : Decimal :=
  if a.isOne then b.normalized
  else if b.isOne then a.normalized
  else ⟨a.coefficient * b.coefficient, a.scale + b.scale⟩

/-! ### Quotients -/

/-- Digits to which a quotient is carried. -/
def quotientDigits : Nat := 100

/-- `n` shifted left until it is at least `d`, and by how many places. -/
def raise (d : Nat) : Nat → Nat → Nat → Nat × Nat
  | 0, n, places => (n, places)
  | fuel + 1, n, places => if n < d then raise d fuel (n * 10) (places + 1) else (n, places)

/-- Long division: appends at most `room` digits to the quotient `q`, where `r` is ten
    times the remainder.  Gives the quotient, the remainder and the digits appended. -/
def longDivide (d : Nat) : Nat → Nat → Nat → Nat → Nat × Nat × Nat
  | 0, q, r, places => (q, r, places)
  | room + 1, q, r, places =>
      if r = 0 then (q, r, places)
      else longDivide d room (10 * q + r / d) (r % d * 10) (places + 1)

/-- `n / d` for positive `n` and `d`, as a whole number of units of the places given:
    to `quotientDigits` digits, the last one rounded half up. -/
def divideNat (n d : Nat) : Nat × Nat :=
  let (m, raised) := raise d (d.log2 + 1) n 0
  let q := m / d
  let (q, r, places) := longDivide d (quotientDigits - digitCount q) q (m % d * 10) 0
  (if r ≠ 0 ∧ 5 ≤ r / d then q + 1 else q, raised + places)

/-- The quotient of `a` by a `b` that is not zero. -/
def quotient (a b : Decimal) : Decimal :=
  if a.isZero || b.isOne then a
  else
    let scale := a.scale - b.scale
    if a.coefficient = b.coefficient then ⟨1, scale⟩
    else
      let (q, places) := divideNat a.coefficient.natAbs b.coefficient.natAbs
      ⟨a.coefficient.sign * b.coefficient.sign * q, scale + places⟩

/-! ### The operations of programs -/

def add (a b : Decimal) : Decimal := (exactAdd a b).round

def sub (a b : Decimal) : Decimal := (exactSub a b).round

def mul (a b : Decimal) : Decimal := (exactMul a b).round

def div? (a b : Decimal) : Except Fault Decimal :=
  if b.isZero then .error .divisionByZero else .ok (quotient a b).round

/-- `b` times a whole number. -/
def times (b q : Decimal) : Decimal :=
  if b.isOne then q else ⟨b.coefficient * q.coefficient, b.scale + q.scale⟩

/-- The remainder of the division that truncates toward zero; it has the sign of `a`. -/
def rem? (a b : Decimal) : Except Fault Decimal :=
  if b.isZero then .error .divisionByZero
  else .ok (exactSub a (times b (quotient a b).truncate)).round

/-- `result · square ^ n` by repeated squaring; each product is cut to the precision and
    its guard digits. -/
def powNat : Nat → Decimal → Decimal → Nat → Decimal
  | 0, result, _, _ => result
  | fuel + 1, result, square, n =>
      if n = 0 then result
      else
        let keep := fun d : Decimal => d.toPrecision (precision + guardDigits)
        let result := if n % 2 = 1 then keep (exactMul result square) else result
        powNat fuel result (keep (exactMul square square)) (n / 2)

/-- `base ^ n` for a whole number `n`. -/
def powInt (base : Decimal) (n : Int) : Except Fault Decimal :=
  let power := powNat (n.natAbs.log2 + 1) one base n.natAbs
  if n < 0 then div? one power else .ok power.round

end CandidateSearch.Decimal
