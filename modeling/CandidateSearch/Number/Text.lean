/-
  CandidateSearch/Number/Text.lean
  ================================
  **The text of a float.**

  Two layouts of the same shortest digits.  `text` never writes an exponent:
  `1000000000000000000000`, `0.0000001`, `-0`.  `jsonText` always shows that the
  number is a float, and changes to an exponent outside `1e-5 … 1e15`: `3.0`, `1e+16`,
  `1.5e-7`.
-/
import CandidateSearch.Number.Shortest
import CandidateSearch.Decimal.Text

namespace CandidateSearch.Number

/-- A minus in front of the text of a float whose sign bit is set. -/
def signed (x : Float) (body : String) : String :=
  if signBit x then "-" ++ body else body

/-- Positional text; of two equally near digits the upper one is written. -/
def text (x : Float) : String :=
  if x.isNaN then "NaN"
  else if x.isInf then signed x "inf"
  else
    let d := shortest .up x
    signed x (Decimal.positional (toString d.digits) (-d.exponent))

/-- Text of a float inside a JSON document; the infinities and NaN have none there and
    are written `null`.  Of two equally near digits the even one is written. -/
def jsonText (x : Float) : String :=
  if x.isNaN || x.isInf then "null"
  else
    let d := shortest .even x
    let digits := toString d.digits
    let leading := d.exponent + digits.length - 1
    signed x <|
      if -5 ≤ leading ∧ leading ≤ 15 then
        let body := Decimal.positional digits (-d.exponent)
        if 0 ≤ d.exponent then body ++ ".0" else body
      else
        let mark := if leading < 0 then "e-" else "e+"
        Decimal.pointed digits ++ mark ++ toString leading.natAbs

end CandidateSearch.Number
