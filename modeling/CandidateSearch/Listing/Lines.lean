/-
  CandidateSearch/Listing/Lines.lean
  ==================================
  **Lines of program text.**

  A text is put together from lines with their levels of indentation; `enclosed` sets
  lines one level in between an opening and a closing line.
-/

namespace CandidateSearch.Listing

structure Line where
  level : Nat
  text : String
deriving DecidableEq, Repr

/-- A line at the outermost level. -/
def line (text : String) : Line := ⟨0, text⟩

def blank : Line := line ""

/-- Lines one level in, between an opening and a closing line. -/
def enclosed (opening : String) (body : List Line) (closing : String) : List Line :=
  line opening :: body.map (fun l => ⟨l.level + 1, l.text⟩) ++ [line closing]

/-- The text of a line: four spaces for each level, none in front of an empty line. -/
def Line.render (l : Line) : String :=
  if l.text.isEmpty then "\n"
  else String.ofList (List.replicate (4 * l.level) ' ') ++ l.text ++ "\n"

def render (lines : List Line) : String := String.join (lines.map Line.render)

end CandidateSearch.Listing
