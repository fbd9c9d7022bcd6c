/-
  CandidateSearch/Source/Span.lean
  ================================
  **Places and stretches of a source text.**

  A span is a half-open range of bytes together with the line and the column where it
  starts.  Lines and columns count from one, columns in characters; the span `0-0@0:0`
  stands for "nowhere".
-/

namespace CandidateSearch.Source

/-- A line and a column, counted from one. -/
structure Position where
  line : Nat
  column : Nat
deriving DecidableEq, Repr, Inhabited

def Position.text (p : Position) : String := s!"{p.line}:{p.column}"

/-- A range of bytes and the position of its first character. -/
structure Span where
  start : Nat := 0
  stop : Nat := 0
  line : Nat := 0
  column : Nat := 0
deriving DecidableEq, Repr, Inhabited

namespace Span

/-- Length in bytes. -/
def length (s : Span) : Nat := s.stop - s.start

def isEmpty (s : Span) : Bool := s.stop ≤ s.start

def position (s : Span) : Position := ⟨s.line, s.column⟩

/-- From the start of `s` to the end of `t`, or of `s` if that lies further on. -/
def merge (s t : Span) : Span := { s with stop := max t.stop s.stop }

/-- The same stretch, said to lie on another line. -/
def onLine (s : Span) (line : Nat) : Span := { s with line := line }

end Span

/-! ### Walking over a text -/

/-- A place in a text: bytes in front of it, and its line and column. -/
structure Place where
  offset : Nat := 0
  line : Nat := 1
  column : Nat := 1
deriving DecidableEq, Repr, Inhabited

/-- The place after a character. -/
def Place.step (p : Place) (c : Char) : Place :=
  if c = '\n' then ⟨p.offset + c.utf8Size, p.line + 1, 1⟩
  else ⟨p.offset + c.utf8Size, p.line, p.column + 1⟩

/-- The place after a run of characters. -/
def Place.advance (p : Place) (cs : List Char) : Place := cs.foldl Place.step p

/-- The span between two places. -/
def Place.to (p q : Place) : Span := ⟨p.offset, q.offset, p.line, p.column⟩

end CandidateSearch.Source
