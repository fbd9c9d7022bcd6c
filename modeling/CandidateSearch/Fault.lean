/-
  CandidateSearch/Fault.lean
  ==========================
  **What can go wrong while a program runs.**

  A fault means that the program is broken and ends the whole run.  It is not the
  same as a branch that fails: failing only says that there is no solution down
  that branch.
-/

namespace CandidateSearch

/-- The cause that ends a run. -/
inductive Fault where
  | unbound (name : String)                       -- a variable is read before it has a value
  | typeMismatch (expected found : String)        -- a value of the wrong kind
  | divisionByZero
  | undefined (operation argument : String)       -- outside the domain of a function
  | indexOutOfRange (index : String) (length : Nat)
  | invalidStep (step : String)                   -- a range that does not go up
  | noEntry                                       -- a program without modules
  | missingInput (name : String)
  | nonFinite (value : String)                    -- a number with no counterpart on the other side
  | invalidNumber (text : String)
  | arity (expected found : Nat)                  -- a vector and its variables differ in number
deriving DecidableEq, Repr

/-- The wording of a fault. -/
def Fault.message : Fault → String
  | .unbound name => s!"variable '{name}' is read before it is bound"
  | .typeMismatch expected found => s!"expected {expected}, but got {found}"
  | .divisionByZero => "division by zero"
  | .undefined operation argument => s!"{operation} is undefined for {argument}"
  | .indexOutOfRange index length =>
      s!"index {index} is out of range for a list of length {length}"
  | .invalidStep step => s!"for step must be positive, got {step}"
  | .noEntry => "program has no entry module"
  | .missingInput name => s!"input '{name}' was not provided"
  | .nonFinite value => s!"{value} cannot be represented as a decimal"
  | .invalidNumber text => s!"invalid numeric literal '{text}'"
  | .arity expected found =>
      s!"cannot destructure {found} values into {expected} variables"

end CandidateSearch
