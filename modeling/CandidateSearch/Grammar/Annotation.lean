/-
  CandidateSearch/Grammar/Annotation.lean
  =======================================
  **Types as they are written.**

      type = "integer" | "i" | "real" | "r" | "bool" | "b" | "atom" | "a"
           | "[" [type {"," type}] "]" | "{" [type {"," type}] "}"
-/
import CandidateSearch.Grammar.Cursor

namespace CandidateSearch.Grammar

open Source

/-- A type, where it was written, and its members where it is a vector type. -/
structure Annotation where
  ty : Ty
  span : Span
  members : List (Ty × Span) := []

/-- The types that are written as one word. -/
def simpleTy? : Reserved → Option Ty
  | .integer | .i => some .integer
  | .real | .r => some .real
  | .bool | .b => some .bool
  | .atom | .a => some .atom
  | _ => none

/-- A type may start with this word or symbol. -/
def startsTy (w : Reserved) : Bool :=
  (simpleTy? w).isSome || w = .openBracket || w = .openBrace

/-- Skips a token that is no type. -/
def noAnnotation : Parse Annotation := do
  let token ← peek
  complain (.expected "type" token.text) token.span
  let _ ← advance
  return ⟨.unknown, token.span, []⟩

/-- The members of a list or vector type up to its closing symbol, and that symbol. -/
def annotationMembers (close : Reserved) (member : Parse Annotation) (fuel : Nat) :
    Parse (List Annotation) := do
  let token ← peek
  let members ← match token.kind with
    | .reserved w => if startsTy w then commaSeparated member fuel else pure []
    | _ => pure []
  let _ ← consume close
  return members

/-- A type that is nested at most `depth` deep. -/
def annotationAt : Nat → Parse Annotation
  | 0 => noAnnotation
  | depth + 1 => do
      let token ← peek
      match token.kind with
      | .reserved .openBracket =>
          let _ ← advance
          let members ← annotationMembers .closeBracket (annotationAt depth) depth
          return ⟨.list (members.map (·.ty)), token.span, []⟩
      | .reserved .openBrace =>
          let _ ← advance
          let members ← annotationMembers .closeBrace (annotationAt depth) depth
          let tys := members.map fun m => (m.ty, m.span)
          return ⟨.vector (members.map (·.ty)), token.span, tys⟩
      | .reserved w =>
          match simpleTy? w with
          | some ty =>
              let _ ← advance
              return ⟨ty, token.span, []⟩
          | none => noAnnotation
      | _ => noAnnotation

def annotation : Parse Annotation := do annotationAt ((← remaining) + 1)

end CandidateSearch.Grammar
