/-
  CandidateSearch/Grammar/Statement.lean
  ======================================
  **Statements.**

      stmt   = ("test" "(" expr ")" | "when" "(" expr ")" | call | assign) ";"
      call   = "call" "(" module-name "," vector "," vector ")"
      assign = primary "=" rhs
      rhs    = "for" "(" expr "," expr "," expr ")" | "select" "(" expr ")"
             | "case" "(" expr "->" expr {"," expr "->" expr} ")" | expr

  A variable that has not been declared is declared by an assignment to it, with the type
  of the right-hand side.  A statement without its semicolon counts as missing.
-/
import CandidateSearch.Grammar.Expression
import CandidateSearch.Syntax.Module

namespace CandidateSearch.Grammar

open Source Syntax

/-! ### Right-hand sides -/

/-- A bound of a range. -/
def bound : Parse Expr := do
  let e ← expression
  checkNumeric e
  return e

/-- One arm of a `case`. -/
def arm : Parse (Expr × Expr) := do
  let condition ← expression
  let _ ← consume .arrow
  let value ← expression
  return (condition, value)

def rhs : Parse Rhs := do
  let token ← peek
  match token.kind with
  | .reserved .forWord => do
      let _ ← advance
      let _ ← consume .openParen
      let first ← bound
      let _ ← consume .comma
      let last ← bound
      let _ ← consume .comma
      let step ← bound
      let _ ← consume .closeParen
      return .range first last step token.span
  | .reserved .select => do
      let _ ← advance
      let _ ← consume .openParen
      let list ← expression
      checkList list
      let _ ← consume .closeParen
      return .select list token.span
  | .reserved .caseWord => do
      let _ ← advance
      let _ ← consume .openParen
      let arms ← commaSeparated arm ((← remaining) + 1)
      let _ ← consume .closeParen
      return .cases arms token.span
  | _ => return .expr (← expression)

/-! ### Assignments -/

/-- A variable with a constraint name takes truth values only. -/
def checkConstraint (name : String) (value : Rhs) : Parse Unit :=
  if isConstraintName name then
    unless value.ty = .unknown || value.ty = .bool do
      complain (.expectedType "bool" value.ty) value.span
  else return ()

/-- An assignment that declares its variable. -/
def declaringAssign (name : String) (span : Span) : Parse Action := do
  let _ ← advance
  let _ ← consume .equals
  let value ← rhs
  checkConstraint name value
  let v ← declare name span value.ty span .body false
  return .assign (.var v) value

/-- An assignment to variables that are declared already, or on the spot with a type. -/
def plainAssign : Parse Action := do
  let token ← peek
  let target ← primary
  match target with
  | .var _ | .vector .. | .missing _ => pure ()
  | _ => complain (.expected "variable" token.text) target.span
  let _ ← consume .equals
  let value ← rhs
  match target with
  | .var v => checkConstraint v.name value
  | _ => pure ()
  return .assign target value

def assign : Parse Action := do
  let token ← peek
  let next ← peekNext
  match token.kind with
  | .var name =>
      if !next.is .colon && ((← get).find? name).isNone then declaringAssign name token.span
      else plainAssign
  | _ => plainAssign

/-! ### Calls -/

/-- The text of a token that can name a module: an atom or a reserved word. -/
def moduleName? (token : Token) : Option String :=
  match token.kind with
  | .atom name => some name
  | .reserved w => if w.isWord then some w.text else none
  | _ => none

/-- The placeholder for a name that could not be read. -/
def missingName : String := "dummy"

/-- An argument of a call: a vector. -/
def vectorArgument : Parse Expr := do
  let e ← primary
  match e with
  | .vector .. | .missing _ => return e
  | _ =>
      complain (.expectedType "vector" e.ty) e.span
      return .missing e.span

/-- A call of one of the modules given. -/
def call (callables : List String) : Parse Action := do
  let _ ← advance
  let _ ← consume .openParen
  let token ← peek
  let callee ← match (moduleName? token).filter callables.contains with
    | some name => pure name
    | none => do
        complain (.expected "atom" token.text) token.span
        pure missingName
  let _ ← advance
  let _ ← consume .comma
  let inputs ← vectorArgument
  let _ ← consume .comma
  let outputs ← vectorArgument
  let _ ← consume .closeParen
  return .call callee inputs outputs

/-! ### Statements -/

/-- A condition in parentheses after a word. -/
def condition : Parse Expr := do
  let _ ← advance
  let _ ← consume .openParen
  let e ← expression
  let _ ← consume .closeParen
  return e

def action (callables : List String) : Parse Action := do
  let token ← peek
  match token.kind with
  | .reserved .test => return .test (← condition)
  | .reserved .whenWord => return .guard (← condition)
  | .reserved .call => call callables
  | _ => assign

def stmt (callables : List String) : Parse Stmt := do
  let token ← peek
  let read ← action callables
  let complete ← terminator
  return ⟨if complete then read else .missing, token.span⟩

end CandidateSearch.Grammar
