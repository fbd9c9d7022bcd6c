/-
  CandidateSearch/Source/Document.lean
  ====================================
  **Source texts and what is reported about them.**

  A document is a text under a name, with its line ends brought to one form.  A
  diagnostic shows a problem to a reader: the line of the document it stands on and
  carets under the stretch it is about.
-/
import CandidateSearch.Source.Problem

namespace CandidateSearch.Source

open Text (padLeft rule)

/-! ### Documents -/

/-- The name of a text that has none of its own. -/
def inlineName : String := "<inline>"

/-- A carriage return in front of a line feed is dropped. -/
def joinLineEnds : List Char → List Char
  | '\r' :: '\n' :: cs => '\n' :: joinLineEnds cs
  | c :: cs => c :: joinLineEnds cs
  | [] => []

/-- One form of line ends, and spaces for tabs. -/
def normalize (cs : List Char) : List Char :=
  (joinLineEnds cs).map fun c => if c = '\t' then ' ' else c

/-- A named text in normal form. -/
structure Document where
  name : String
  chars : List Char

def Document.ofText (name text : String) : Document := ⟨name, normalize text.toList⟩

/-! ### Lines -/

/-- The stretches between line feeds; there is always one more than line feeds. -/
def segments : List Char → List (List Char)
  | [] => [[]]
  | c :: cs =>
      if c = '\n' then [] :: segments cs
      else match segments cs with
        | [] => [[c]]
        | segment :: rest => (c :: segment) :: rest

/-- A line without the carriage return at its end. -/
def dropReturn (line : List Char) : List Char :=
  if line.getLast? = some '\r' then line.dropLast else line

/-- The lines of a text.  What follows the last line feed is a line if there is anything;
    it keeps a carriage return at its end. -/
def lines (cs : List Char) : List (List Char) :=
  let all := segments cs
  all.dropLast.map dropReturn ++
    match all.getLast? with
    | some (c :: line) => [c :: line]
    | _ => []

/-! ### Diagnostics -/

/-- A problem as it is shown.  Line and column are zero where there is no place. -/
structure Diagnostic where
  message : String
  file : String := ""
  line : Nat := 0
  column : Nat := 0
  snippet : String := ""
  pointer : String := ""
deriving DecidableEq, Repr

namespace Diagnostic

/-- A message about a stretch of a text.  The carets start at its column and are as many
    as it has bytes, at least one, but do not go past the end of the line. -/
def ofSpan (message file : String) (chars : List Char) (span : Span) : Diagnostic :=
  let snippet := (lines chars)[span.line - 1]?.getD []
  let indent := min (span.column - 1) snippet.length
  let carets := min (max span.length 1) (max (snippet.length - indent) 1)
  { message, file, line := span.line, column := span.column
    snippet := String.ofList snippet
    pointer := rule indent ' ' ++ rule carets '^' }

def position (d : Diagnostic) : Position := ⟨d.line, d.column⟩

/-- The text shown to a reader. -/
def text (d : Diagnostic) : String :=
  if d.line = 0 ∨ d.column = 0 then
    if d.file.isEmpty then d.message else s!"{d.message} ({d.file})"
  else
    let location :=
      if d.file.isEmpty then s!"line {d.line}, column {d.column}"
      else s!"{d.file}:{d.line}:{d.column}"
    let number := padLeft 3 (toString d.line)
    s!"{d.message}\n --> {location}\n  |\n{number} | {d.snippet}\n  | {d.pointer}"

/-- Several diagnostics, with a blank line between them. -/
def texts (ds : List Diagnostic) : String := "\n\n".intercalate (ds.map text)

end Diagnostic

/-- A complaint shown in the document it is about. -/
def Document.diagnose (document : Document) (complaint : Complaint) : Diagnostic :=
  .ofSpan complaint.problem.message document.name document.chars complaint.span

end CandidateSearch.Source
