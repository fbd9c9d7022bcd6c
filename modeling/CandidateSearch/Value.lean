/-
  CandidateSearch/Value.lean
  ==========================
  **What a variable can hold.**

  A number is stored as a float, while all arithmetic is done on decimals; `number?` and
  `ofDecimal?` lead from one to the other.  A list may have any length, a vector is a
  tuple.  Values are compared the way floats are: `0` and `-0` are the same and NaN is not
  the same as itself.
-/
import CandidateSearch.Decimal.Binary
import CandidateSearch.Syntax.Ty
import CandidateSearch.Text.Json

namespace CandidateSearch

inductive Value where
  | number (x : Float)
  | atom (name : String)
  | bool (b : Bool)
  | list (items : List Value)
  | vector (items : List Value)
deriving Repr

namespace Value

/-! ### Kinds -/

/-- The kind of a value, as it is named in faults. -/
def kind : Value → String
  | .number _ => "number"
  | .atom _ => "atom"
  | .bool _ => "bool"
  | .list _ => "list"
  | .vector _ => "vector"

def mismatch (v : Value) (expected : String) : Fault := .typeMismatch expected v.kind

def ofDecimal? (d : Decimal) : Except Fault Value := d.toFloat?.map .number

def number? : Value → Except Fault Decimal
  | .number x => Decimal.ofFloat? x
  | v => .error (v.mismatch "number")

def bool? : Value → Except Fault Bool
  | .bool b => .ok b
  | v => .error (v.mismatch "bool")

def list? : Value → Except Fault (List Value)
  | .list items => .ok items
  | v => .error (v.mismatch "list")

/-! ### Comparing -/

mutual

/-- Whether two values are the same; a list is never the same as a vector. -/
def same : Value → Value → Bool
  | .number x, .number y => x == y
  | .atom a, .atom b => a == b
  | .bool a, .bool b => a == b
  | .list xs, .list ys => sameAll xs ys
  | .vector xs, .vector ys => sameAll xs ys
  | _, _ => false

def sameAll : List Value → List Value → Bool
  | [], [] => true
  | x :: xs, y :: ys => same x y && sameAll xs ys
  | _, _ => false

end

/-! ### Texts -/

mutual

def text : Value → String
  | .number x => Number.text x
  | .atom name => name
  | .bool b => if b then "true" else "false"
  | .list items => "[" ++ ", ".intercalate (texts items) ++ "]"
  | .vector items => "\x7b" ++ ", ".intercalate (texts items) ++ "\x7d"

def texts : List Value → List String
  | [] => []
  | v :: rest => text v :: texts rest

end

mutual

/-- The value in a JSON document, where a vector is an array like a list. -/
def json : Value → Text.Json
  | .number x => .number (Number.jsonText x)
  | .atom name => .string name
  | .bool b => .bool b
  | .list items => .array (jsons items)
  | .vector items => .array (jsons items)

def jsons : List Value → List Text.Json
  | [] => []
  | v :: rest => json v :: jsons rest

end

/-! ### Defaults -/

mutual

/-- What is reported for an output that has never been bound. -/
def default : Ty → Value
  | .integer | .real | .unknown => .number 0
  | .bool => .bool false
  | .atom => .atom ""
  | .list _ => .list []
  | .vector members => .vector (defaults members)

def defaults : List Ty → List Value
  | [] => []
  | t :: rest => default t :: defaults rest

end

/-! ### Lists -/

/-- The item at an index that counts from zero. -/
def nth (items : List Value) (index : Decimal) : Except Fault Value :=
  let item :=
    if index.isInteger && decide (0 ≤ index.coefficient) then
      items[index.truncate.coefficient.toNat]?
    else none
  match item with
  | some v => .ok v
  | none => .error (.indexOutOfRange index.text items.length)

def sumFrom (total : Decimal) : List Value → Except Fault Decimal
  | [] => .ok total
  | v :: rest => do
      let d ← v.number?
      sumFrom (total.add d) rest

/-- The sum of the items, which have to be numbers. -/
def sum (items : List Value) : Except Fault Decimal := sumFrom (.ofInt 0) items

end Value

end CandidateSearch
