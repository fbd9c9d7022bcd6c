/-
  CandidateSearch/Schedule/Phase.lean
  ===================================
  **What a statement is for.**

  A statement makes assumptions by enumerating values, calculates, tests, or does none of
  these (a guard or a call).  An assignment to a constraint counts as a test.
-/
import CandidateSearch.Resolved.Basic

namespace CandidateSearch.Schedule

open Resolved

inductive Phase where
  | assume             -- binds by enumeration
  | compute            -- pure calculation
  | test               -- a condition, with the calculations joined to it
  | other              -- a guard or a call
deriving DecidableEq, Repr

def Phase.text : Phase → String
  | .assume => "assume"
  | .compute => "calc"
  | .test => "test"
  | .other => "other"

/-- The names in a list, each once, in the order of their first occurrences. -/
def distinct (names : List String) : List String :=
  names.foldl (fun seen name => if seen.contains name then seen else seen ++ [name]) []

/-- A statement with what scheduling needs to know about it. -/
structure Entry where
  index : Nat                  -- its place in the source
  stmt : Stmt
  phase : Phase
  target : Option String       -- the binding it produces or checks
  reads : List String          -- the variables it reads, inputs aside
  writes : List String
  guard : Bool
deriving Repr

def phaseOf (s : Stmt) : Phase :=
  match s.action with
  | .range .. | .select .. => .assume
  | .assign .. => if s.isConstraint then .test else .compute
  | .cases .. => .compute
  | .test _ => .test
  | .guard _ | .call .. | .malformed => .other

/-- The variables that a statement reads, inputs aside. -/
def readNames (s : Stmt) : List String :=
  distinct ((s.reads.filter fun v => !v.input).map (·.name))

def writeNames (s : Stmt) : List String := distinct (s.writes.map (·.name))

/-- The binding that a statement produces or checks.  A test is about the first variable
    that it reads, an input only where there is no other. -/
def targetOf (s : Stmt) : Option String :=
  match s.action with
  | .range target .. => some target.name
  | .select target _ | .assign target _ | .cases target _ => target.name?
  | .test _ => (readNames s).head? <|> s.reads.head?.map (·.name)
  | .guard _ | .call .. | .malformed => none

def classify (index : Nat) (s : Stmt) : Entry :=
  { index, stmt := s, phase := phaseOf s, target := targetOf s
    reads := readNames s, writes := writeNames s, guard := s.isGuard }

def classifyAll (stmts : List Stmt) : List Entry := stmts.mapIdx classify

end CandidateSearch.Schedule
