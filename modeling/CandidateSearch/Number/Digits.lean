/-
  CandidateSearch/Number/Digits.lean
  ==================================
  **Decimal digits of natural numbers.**

  How many digits a number is written with, what is left of it once its trailing
  zeros are gone, and the number that a run of digit characters stands for:
  `digitCount 120 = 3`, `dropZeros 120 = (12, 1)`, `ofDigits ['1', '2'] = 12`.
-/

namespace CandidateSearch.Number

/-! ### Powers -/

/-- The number that is written as a one and `n` zeros. -/
def tenTo (n : Nat) : Nat := Nat.pow 10 n

/-- The number that is written in binary as a one and `n` zeros. -/
def twoTo (n : Nat) : Nat := Nat.pow 2 n

/-! ### Counting digits -/

/-- One more than the largest `e` with `10 ^ e ≤ n`, looked for upwards from an
    exponent that is already known to be small enough. -/
def digitCountFrom (n : Nat) : Nat → Nat → Nat
  | 0, e => e + 1
  | fuel + 1, e => if tenTo (e + 1) ≤ n then digitCountFrom n fuel (e + 1) else e + 1

/-- The number of decimal digits of `n`; zero is written with one digit.  The
    search starts at `log2 n · 1233 / 4096`, which is never too large because
    `10 ^ 1233 ≤ 2 ^ 4096`. -/
def digitCount (n : Nat) : Nat :=
  digitCountFrom n n.log2 (n.log2 * 1233 / 4096)

/-! ### Trailing zeros -/

def dropZerosFrom : Nat → Nat → Nat → Nat × Nat
  | 0, n, dropped => (n, dropped)
  | fuel + 1, n, dropped =>
      if n % 10 = 0 then dropZerosFrom fuel (n / 10) (dropped + 1) else (n, dropped)

/-- `n` without its trailing zeros, and how many there were.  Zero itself is left
    alone. -/
def dropZeros (n : Nat) : Nat × Nat :=
  if n = 0 then (0, 0) else dropZerosFrom n.log2 n 0

/-! ### Reading digits -/

/-- The ten decimal digits. -/
def isDigit (c : Char) : Bool := '0' ≤ c && c ≤ '9'

/-- The number written by a list of digit characters, most significant first. -/
def ofDigits (cs : List Char) : Nat :=
  cs.foldl (fun n c => 10 * n + (c.toNat - '0'.toNat)) 0

/-- A run of `n` zeros. -/
def zeros (n : Nat) : String := String.ofList (List.replicate n '0')

end CandidateSearch.Number
