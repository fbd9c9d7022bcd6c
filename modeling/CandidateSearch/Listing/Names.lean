/-
  CandidateSearch/Listing/Names.lean
  ==================================
  **Names in a listing.**

  Each module, method, alternative and unit gets the name of an item:
  `heat_loss` is listed as `HeatLoss`, its second method as `HeatLossMethod2`, and the
  first unit of that as `HeatLossMethod2Unit1`.
-/
import CandidateSearch.Resolved.Basic

namespace CandidateSearch.Listing

/-- Drops underscores; the first letter and those that followed an underscore become
    capitals. -/
def camelCase : Bool → List Char → List Char
  | _, [] => []
  | capital, c :: cs =>
      if c = '_' then camelCase true cs
      else (if capital then c.toUpper else c) :: camelCase false cs

/-- The name of a module. -/
def typeName (name : String) : String := String.ofList (camelCase true name.toList)

def methodName (owner : String) (number : Nat) : String := s!"{owner}Method{number}"

def alternativeName (owner : String) (number : Nat) : String := s!"{owner}Alternative{number}"

def unitName (owner : String) (number : Nat) : String := s!"{owner}Unit{number}"

/-- The name of a variable; the one word that is no name gets an underscore. -/
def ident (name : String) : String := if name = "Self" then "Self_" else name

/-- How a unit gets at a variable. -/
def access (v : Resolved.Var) : String :=
  match v.slot with
  | .outer _ => "outer." ++ ident v.name
  | .inner _ => "method." ++ ident v.name

end CandidateSearch.Listing
