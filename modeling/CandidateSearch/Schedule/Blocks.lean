/-
  CandidateSearch/Schedule/Blocks.lean
  ====================================
  **Statements that run together.**

  Once the statements of a method are in order they are joined into blocks: a test with
  the calculations right in front of it, and other calculations that stand next to each
  other.  Every other statement is a block of its own.
-/
import CandidateSearch.Schedule.Order

namespace CandidateSearch.Schedule

open Resolved

/-! ### Groups of entries -/

/-- Entries that become one block. -/
structure Group where
  phase : Phase
  target : Option String
  members : List Entry
deriving Repr

/-- Adds an entry to the groups so far, which are given with the newest first.  A test
    takes the calculations right in front of it. -/
def absorb (groups : List Group) (e : Entry) : List Group :=
  if e.phase = .test then
    let calcs := groups.takeWhile (·.phase = .compute)
    let rest := groups.dropWhile (·.phase = .compute)
    ⟨e.phase, e.target, calcs.reverse.flatMap (·.members) ++ [e]⟩ :: rest
  else ⟨e.phase, e.target, [e]⟩ :: groups

/-- Calculations that stand next to each other become one group. -/
def joinCalcs : List Group → List Group
  | [] => []
  | group :: rest =>
      match joinCalcs rest with
      | [] => [group]
      | next :: others =>
          if group.phase = .compute ∧ next.phase = .compute then
            { group with members := group.members ++ next.members } :: others
          else group :: next :: others

def groups (ordered : List Entry) : List Group := joinCalcs (ordered.foldl absorb []).reverse

/-! ### Blocks -/

/-- Statements that run as one unit. -/
structure Block where
  phase : Phase
  target : Option String
  operands : List String       -- the variables that are read and not written inside
  writes : List String
  stmts : List Stmt
deriving Repr

def Group.block (g : Group) : Block :=
  let writes := distinct (g.members.flatMap (·.writes))
  { phase := g.phase, target := g.target
    operands := (distinct (g.members.flatMap (·.reads))).filter fun name => !writes.contains name
    writes, stmts := g.members.map (·.stmt) }

/-- The statements of blocks, in order. -/
def flatten (blocks : List Block) : List Stmt := blocks.flatMap (·.stmts)

/-- The wording for a statement that cannot be scheduled. -/
def malformedMessage (index : Nat) : String :=
  s!"statement {index} is malformed and cannot be scheduled"

/-- The blocks of a method body, or the place of a statement that is malformed. -/
def schedule (stmts : List Stmt) : Except Nat (List Block) :=
  match stmts.findIdx? Stmt.isMalformed with
  | some index => .error index
  | none => .ok ((groups (order (classifyAll stmts))).map Group.block)

end CandidateSearch.Schedule
