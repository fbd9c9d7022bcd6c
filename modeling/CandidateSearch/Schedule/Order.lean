/-
  CandidateSearch/Schedule/Order.lean
  ===================================
  **The order of execution.**

  Every statement is placed after the statements that write what it reads; a writer that
  is missing is placed first, and so on down.  Of several writers an enumeration is
  preferred to a calculation and a calculation to a call, and then the one that stands
  first in the source.

  Tests come as early as they can.  A call whose results nobody reads comes last.
-/
import CandidateSearch.Schedule.Phase

namespace CandidateSearch.Schedule

/-- How far an ordering has got. -/
structure Progress where
  done : List Nat := []                -- the entries placed or being placed
  written : List String := []          -- the variables that have been written
  order : List Entry := []             -- the entries placed so far
deriving Repr

def Progress.isDone (p : Progress) (e : Entry) : Bool := p.done.contains e.index

def Progress.begin (p : Progress) (e : Entry) : Progress := { p with done := e.index :: p.done }

def Progress.emit (p : Progress) (e : Entry) : Progress :=
  { p with written := p.written ++ e.writes, order := p.order ++ [e] }

/-- Places an entry at once. -/
def Progress.place (p : Progress) (e : Entry) : Progress := (p.begin e).emit e

/-- The first entry not yet placed that is accepted and writes a variable. -/
def Progress.writer? (p : Progress) (entries : List Entry) (name : String)
    (accept : Entry → Bool) : Option Entry :=
  entries.find? fun e => !p.isDone e && accept e && e.writes.contains name

/-- The entry that is to provide a variable. -/
def Progress.provider? (p : Progress) (entries : List Entry) (name : String) : Option Entry :=
  p.writer? entries name (fun e => e.phase = .assume)
    <|> p.writer? entries name (fun e => e.phase = .compute)
    <|> p.writer? entries name (fun e => e.phase = .other && !e.guard)

/-- Places an entry after the entries that provide what it reads: the calculated ones
    first and then the enumerated ones.  An entry that is being placed is not placed
    again, so a circle of entries does no harm; each round marks one entry more, and as
    many rounds as there are entries are enough. -/
def resolve (entries : List Entry) : Nat → Progress → Entry → Progress
  | 0, p, _ => p
  | fuel + 1, p, e =>
      if p.isDone e then p
      else
        let pull := fun (enumerated : Bool) (p : Progress) (name : String) =>
          if p.written.contains name then p
          else match p.provider? entries name with
            | some writer =>
                if (writer.phase == .assume) == enumerated then resolve entries fuel p writer else p
            | none => p
        let p := p.begin e
        let p := e.reads.foldl (pull false) p
        let p := e.reads.foldl (pull true) p
        p.emit e

/-- Places an entry and what it needs. -/
def Progress.settle (entries : List Entry) (p : Progress) (e : Entry) : Progress :=
  resolve entries entries.length p e

/-- Places a test, after the calculation of the variable that it is about. -/
def Progress.settleTest (entries : List Entry) (p : Progress) (e : Entry) : Progress :=
  let feeding := e.target.bind fun name => p.writer? entries name (fun e => e.phase = .compute)
  let p := match feeding with
    | some writer => p.settle entries writer
    | none => p
  p.settle entries e

/-- The entry calculates something: a calculation, or a call whose results are read. -/
def computes (entries : List Entry) (e : Entry) : Bool :=
  e.phase == .compute ||
    (e.phase == .other && !e.guard &&
      e.writes.any fun name => entries.any fun reader => reader.reads.contains name)

/-- The entries in the order of execution. -/
def order (entries : List Entry) : List Entry :=
  let p : Progress := (entries.filter (·.guard)).foldl Progress.place {}
  let p := (entries.filter (·.phase = .test)).foldl (Progress.settleTest entries) p
  let p := (entries.filter (computes entries)).foldl (Progress.settle entries) p
  let p := (entries.filter (·.phase = .assume)).foldl (Progress.settle entries) p
  let p := (entries.filter (·.phase = .other)).foldl (Progress.settle entries) p
  p.order

end CandidateSearch.Schedule
