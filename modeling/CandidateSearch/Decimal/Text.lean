/-
  CandidateSearch/Decimal/Text.lean
  =================================
  **Reading and writing decimals.**

  Reading takes an optional sign, digits with at most one point among them, and an
  optional exponent: `-1.50`, `.5`, `1.`, `2e-3`.  An underscore may stand among the
  digits, not in front of them, and is skipped.  The scale that results must fit a
  signed word of 64 bits.

  Writing keeps every digit of the coefficient: `⟨150, 2⟩` is `1.50`.  A number with
  more than five zeros after its point is written `1.50E-8`, and one with more than
  fifteen zeros after its coefficient `150e+16`.
-/
import CandidateSearch.Decimal.Basic
import CandidateSearch.Fault

namespace CandidateSearch.Decimal

open Number

/-! ### Reading -/

/-- An optional sign in front: whether it is a minus, and what follows it. -/
def splitSign : List Char → Bool × List Char
  | '-' :: rest => (true, rest)
  | '+' :: rest => (false, rest)
  | cs => (false, cs)

/-- The bounds of a signed word of `bits` bits. -/
def fitsSigned (bits : Nat) (n : Int) : Bool :=
  -(twoTo (bits - 1) : Int) ≤ n && n < twoTo (bits - 1)

/-- A signed whole number written with decimal digits only; it must fit 128 bits. -/
def readExponent (cs : List Char) : Option Int :=
  let (negative, body) := splitSign cs
  if body.isEmpty || !body.all isDigit then none
  else
    let n : Int := ofDigits body
    let value := if negative then -n else n
    if fitsSigned 128 value then some value else none

/-- A mantissa: whether it is negative, its digits in one run, and how many characters
    of it stand after the point, underscores aside.  The sign is that of the run, so it
    may also stand right after a leading point. -/
def readMantissa (cs : List Char) : Option (Bool × List Char × Nat) :=
  let whole := cs.takeWhile (· != '.')
  let fraction := (cs.dropWhile (· != '.')).drop 1
  let (negative, run) := splitSign (whole ++ fraction)
  if run.isEmpty || run.head? == some '_' then none
  else if !run.all (fun c => isDigit c || c == '_') then none
  else some (negative, run.filter isDigit, (fraction.filter (· != '_')).length)

/-- The decimal that a text stands for. -/
def ofChars? (cs : List Char) : Option Decimal := do
  let isMark := fun c : Char => c == 'e' || c == 'E'
  let exponent ← match cs.dropWhile (fun c => !isMark c) with
    | [] => some 0
    | _ :: rest => readExponent rest
  let (negative, run, places) ← readMantissa (cs.takeWhile (fun c => !isMark c))
  let scale : Int := places - exponent
  if fitsSigned 64 scale then
    let n : Int := ofDigits run
    some ⟨if negative then -n else n, scale⟩
  else none

/-- The decimal that a text stands for, or the fault that there is none. -/
def parse (text : String) : Except Fault Decimal :=
  match ofChars? text.toList with
  | some d => .ok d
  | none => .error (.invalidNumber text)

/-! ### Writing -/

/-- Digits with a point in front of the last `scale` of them, zeros filled in where the
    digits do not reach. -/
def positional (digits : String) (scale : Int) : String :=
  if scale ≤ 0 then digits ++ zeros (-scale).toNat
  else
    let places := scale.toNat
    let cs := (List.replicate (places + 1 - digits.length) '0') ++ digits.toList
    let whole := cs.length - places
    String.ofList (cs.take whole) ++ "." ++ String.ofList (cs.drop whole)

/-- Digits with a point after the first one, if more follow. -/
def pointed (digits : String) : String :=
  match digits.toList with
  | first :: second :: rest => String.ofList (first :: '.' :: second :: rest)
  | _ => digits

/-- The text of a decimal. -/
def text (d : Decimal) : String :=
  if d.coefficient = 0 then "0"
  else
    let digits := toString d.coefficient.natAbs
    let body :=
      if 5 < d.scale - digits.length then
        let exponent := d.scale + 1 - digits.length
        s!"{pointed digits}E-{exponent}"
      else if 15 < -d.scale then
        let exponent := -d.scale
        s!"{digits}e+{exponent}"
      else positional digits d.scale
    if d.coefficient < 0 then "-" ++ body else body

end CandidateSearch.Decimal
