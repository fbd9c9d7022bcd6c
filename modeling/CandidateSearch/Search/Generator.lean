/-
  CandidateSearch/Search/Generator.lean
  =====================================
  **Sources of candidates.**

  A generator always has a candidate to offer.  Advancing it binds that candidate and
  gives the generator of those that are left, if there are any.  A range offers the
  decimals from its first one up to its last one, a member generator the items of a list.
-/
import CandidateSearch.Store

namespace CandidateSearch.Search

/-! ### Ranges -/

structure Range where
  target : Ref
  current : Decimal            -- the number to offer
  last : Decimal
  step : Decimal
deriving Repr

namespace Range

/-- The range that has the given first number, if it is not empty.  The step has to be
    positive. -/
def start? (target : Ref) (first last step : Decimal) : Except Fault (Option Range) :=
  if step.atMost (.ofInt 0) then .error (.invalidStep step.text)
  else if first.atMost last then .ok (some ⟨target, first, last, step⟩)
  else .ok none

/-- What is left after the current number. -/
def next? (r : Range) : Option Range :=
  let next := r.current.add r.step
  if next.atMost r.last then some { r with current := next } else none

end Range

/-! ### Members of a list -/

structure Member where
  target : Binder
  item : Value                 -- the item to offer
  rest : List Value
deriving Repr

namespace Member

def start? (target : Binder) : List Value → Option Member
  | [] => none
  | item :: rest => some ⟨target, item, rest⟩

def next? (m : Member) : Option Member := start? m.target m.rest

end Member

/-! ### Generators -/

inductive Generator where
  | range (r : Range)
  | member (m : Member)
deriving Repr

namespace Generator

def next? : Generator → Option Generator
  | .range r => r.next?.map .range
  | .member m => m.next?.map .member

/-- Binds the candidate that the generator offers. -/
def bind : Generator → Effect Unit
  | .range r => do
      let v ← Effect.ofExcept (Value.ofDecimal? r.current)
      modify (·.write r.target v)
  | .member m => m.target.bind m.item

/-- Binds the candidate and gives what is left. -/
def advance (g : Generator) : Effect (Option Generator) := do
  g.bind
  return g.next?

def label : Generator → String
  | .range _ => "For"
  | .member _ => "Member"

end Generator

end CandidateSearch.Search
