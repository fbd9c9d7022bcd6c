/-
  CandidateSearch/Grammar/Cursor.lean
  ===================================
  **Reading tokens, and the variables met on the way.**

  The grammar is read from left to right and never gives up: what is not as it should be
  gives a complaint, a placeholder is put in its place, and reading goes on.  The cursor
  never goes past the end token.

  Besides the tokens that are left, the state holds the variables that can be seen: the
  parameters of the module being read and the variables of the method being read.
-/
import CandidateSearch.Source.Problem
import CandidateSearch.Syntax.Expr
import CandidateSearch.Token.Basic

namespace CandidateSearch.Grammar

open Source Syntax

structure State where
  rest : List Token                     -- the tokens that are left
  last : Option Token := none           -- the token read last
  fields : List Var := []               -- the parameters of the module
  locals : List Var := []               -- the variables of the method body
  complaints : List Complaint := []     -- the newest first

abbrev Parse := StateM State

/-! ### Moving on -/

/-- What is seen where no token is left. -/
def noToken : Token := ⟨.eof, {}⟩

/-- The token at the cursor. -/
def peek : Parse Token := do return (← get).rest.headD noToken

/-- The token after the one at the cursor. -/
def peekNext : Parse Token := do return (← get).rest.tail.headD noToken

/-- Moves past the token at the cursor, unless it is the end token, and gives it. -/
def advance : Parse Token := do
  let token ← peek
  unless token.isEof do
    modify fun s => { s with rest := s.rest.tail, last := some token }
  return token

/-- The cursor stands at a reserved word or symbol. -/
def at? (w : Reserved) : Parse Bool := do return (← peek).is w

def atEnd? : Parse Bool := do return (← peek).isEof

/-! ### Complaints -/

def complain (problem : Problem) (span : Span) : Parse Unit :=
  modify fun s => { s with complaints := ⟨problem, span⟩ :: s.complaints }

/-- Complains unless the cursor stands at `w`. -/
def expect (w : Reserved) : Parse Bool := do
  let token ← peek
  if token.is w then return true
  complain (.expected w.text token.text) token.span
  return false

/-- Expects `w` and moves on either way. -/
def consume (w : Reserved) : Parse Token := do
  let _ ← expect w
  advance

/-- Moves past a semicolon.  One that is missing at the end of the text is reported on
    the line above where the end token stands on a line of its own. -/
def terminator : Parse Bool := do
  let token ← peek
  if token.is .semicolon then
    let _ ← advance
    return true
  let problem := Problem.expected ";" token.text
  if token.isEof then
    let previous := ((← get).last.map fun t => t.span.line).getD token.span.line
    if previous < token.span.line then complain problem (token.span.onLine (token.span.line - 1))
    else complain problem token.span
  else
    complain problem token.span
    let _ ← advance
  return false

/-! ### Variables -/

/-- The variable of a name: a parameter, or else one of the method body. -/
def State.find? (s : State) (name : String) : Option Var :=
  (s.fields ++ s.locals).find? fun v => v.name == name

/-- The name of a variable whose declaration contradicts an earlier one. -/
def conflictName : String := "dummy"

/-- Declares a variable.  A second declaration must agree with the first, which stays in
    force. -/
def declare (name : String) (span : Span) (ty : Ty) (tySpan : Span) (scope : Scope)
    (input : Bool) : Parse Var := do
  match (← get).find? name with
  | some found =>
      if found.ty.compatible ty then return { found with span := span }
      complain (.redefinedVariable name found.ty) tySpan
      return { found with name := conflictName, ty := .unknown, tySpan := span, span := span }
  | none =>
      let v : Var := { name, ty, tySpan, scope, input, span }
      match scope with
      | .parameter => modify fun s => { s with fields := s.fields ++ [v] }
      | .body => modify fun s => { s with locals := s.locals ++ [v] }
      return v

/-- An occurrence of a variable that must have been declared. -/
def lookup (name : String) (span : Span) : Parse (Option Var) := do
  match (← get).find? name with
  | some found => return some { found with span := span }
  | none =>
      complain (.undefinedVariable name) span
      return none

/-! ### Repetition

  The number of rounds is bounded by the tokens that are left when a repetition starts;
  each round reads one token at least. -/

/-- Items with commas between them, up to a closing symbol that is left in place.  A comma
    may stand after the last item. -/
def itemsFrom {α : Type} (close : Reserved) (item : Parse α) : Nat → Parse (List α)
  | 0 => return []
  | fuel + 1 => do
      let first ← item
      if ← at? .comma then
        let next ← peekNext
        let _ ← advance
        if next.is close then return [first]
        return first :: (← itemsFrom close item fuel)
      return [first]

/-- Such items, or nothing at all. -/
def items {α : Type} (close : Reserved) (item : Parse α) (fuel : Nat) : Parse (List α) := do
  if ← at? close then return []
  itemsFrom close item fuel

/-- One item or more with commas between them. -/
def commaSeparated {α : Type} (item : Parse α) : Nat → Parse (List α)
  | 0 => return []
  | fuel + 1 => do
      let first ← item
      if ← at? .comma then
        let _ ← advance
        return first :: (← commaSeparated item fuel)
      return [first]

/-- Items up to the word `end` or the end of the text. -/
def untilEndWord {α : Type} (item : Parse α) : Nat → Parse (List α)
  | 0 => return []
  | fuel + 1 => do
      let token ← peek
      if token.is .endWord || token.isEof then return []
      let first ← item
      return first :: (← untilEndWord item fuel)

/-- Items up to the end of the text. -/
def untilEnd {α : Type} (item : Parse α) : Nat → Parse (List α)
  | 0 => return []
  | fuel + 1 => do
      if ← atEnd? then return []
      let first ← item
      return first :: (← untilEnd item fuel)

/-- The number of tokens that are left. -/
def remaining : Parse Nat := do return (← get).rest.length

end CandidateSearch.Grammar
