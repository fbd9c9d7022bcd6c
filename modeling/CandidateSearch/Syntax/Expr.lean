/-
  CandidateSearch/Syntax/Expr.lean
  ================================
  **Expressions of a source, with where they stand.**

  Variables are resolved while a source is read, so an occurrence already carries the
  type and the scope of its variable.  Numbers keep their text, so that they can be read
  exactly later on.  `missing` stands where no expression could be read.

  `Expr.ty` is the static type.  It is `unknown` where it cannot be found out; a list has
  the type of its first element.
-/
import CandidateSearch.Source.Span
import CandidateSearch.Syntax.Ty

namespace CandidateSearch.Syntax

open Source (Span)

/-! ### Variables -/

/-- Where a variable was declared. -/
inductive Scope where
  | parameter          -- in a parameter group of the module
  | body               -- in the body of a method
deriving DecidableEq, Repr

/-- An occurrence of a variable. -/
structure Var where
  name : String
  ty : Ty
  tySpan : Span        -- where its type was written
  scope : Scope
  input : Bool         -- a member of the first parameter group
  span : Span
deriving DecidableEq, Repr

/-! ### Operators -/

inductive UnaryOp where
  | neg
  | not
deriving DecidableEq, Repr

/-- The binary operators.  Greater-than is less-than with the operands exchanged. -/
inductive BinaryOp where
  | or | and
  | eq | ne | lt | le
  | add | sub | mul | div | mod | pow
deriving DecidableEq, Repr

def BinaryOp.text : BinaryOp → String
  | .or => "or"
  | .and => "and"
  | .eq => "="
  | .ne => "\\="
  | .lt => "<"
  | .le => "=<"
  | .add => "+"
  | .sub => "-"
  | .mul => "*"
  | .div => "/"
  | .mod => "mod"
  | .pow => "^"

/-- The operators whose result is a truth value. -/
def BinaryOp.isLogical : BinaryOp → Bool
  | .or | .and | .eq | .ne | .lt | .le => true
  | _ => false

inductive Builtin where
  | sqrt | exp | length
  | nth                -- of an index, counted from zero, and a list
  | sum
deriving DecidableEq, Repr

def Builtin.text : Builtin → String
  | .sqrt => "sqrt"
  | .exp => "exp"
  | .length => "length"
  | .nth => "nth"
  | .sum => "sum"

/-! ### Expressions -/

inductive Expr where
  | number (digits : String) (span : Span)
  | string (content : String) (span : Span)
  | atom (name : String) (span : Span)
  | bool (value : Bool) (span : Span)
  | var (v : Var)
  | list (items : List Expr) (span : Span)
  | vector (members : List (Expr × Bool)) (span : Span)  -- each with whether it declares
  | unary (op : UnaryOp) (operand : Expr) (span : Span)
  | binary (op : BinaryOp) (lhs rhs : Expr) (span : Span)
  | builtin (f : Builtin) (args : List Expr) (span : Span)
  | missing (span : Span)
deriving Repr

namespace Expr

def span : Expr → Span
  | .number _ s | .string _ s | .atom _ s | .bool _ s | .list _ s | .vector _ s
  | .unary _ _ s | .binary _ _ _ s | .builtin _ _ s | .missing s => s
  | .var v => v.span

def isMissing : Expr → Bool
  | .missing _ => true
  | _ => false

mutual

/-- Some part of the expression could not be read. -/
def hasMissing : Expr → Bool
  | .missing _ => true
  | .list items _ => anyMissing items
  | .vector members _ => anyMemberMissing members
  | .unary _ operand _ => hasMissing operand
  | .binary _ lhs rhs _ => hasMissing lhs || hasMissing rhs
  | .builtin _ args _ => anyMissing args
  | .number .. | .string .. | .atom .. | .bool .. | .var .. => false

def anyMissing : List Expr → Bool
  | [] => false
  | e :: es => hasMissing e || anyMissing es

def anyMemberMissing : List (Expr × Bool) → Bool
  | [] => false
  | (e, _) :: rest => hasMissing e || anyMemberMissing rest

end

/-! ### Static types -/

/-- The type of an arithmetic operation on operands of the types given. -/
def arithmeticTy (op : BinaryOp) (lhs rhs : Ty) : Ty :=
  if lhs = .unknown ∨ rhs = .unknown then .unknown
  else if op = .div then .real
  else if lhs = .integer ∧ rhs = .integer then .integer
  else .real

/-- The type of a numeral. -/
def numeralTy (digits : String) : Ty :=
  if digits.toList.any fun c => c == '.' || c == 'e' || c == 'E' then .real else .integer

mutual

def ty : Expr → Ty
  | .number digits _ => numeralTy digits
  | .string .. | .atom .. => .atom
  | .bool .. => .bool
  | .var v => v.ty
  | .list items _ => .list (firstTy items)
  | .vector members _ => .vector (memberTys members)
  | .unary .not _ _ => .bool
  | .unary .neg operand _ => ty operand
  | .binary op lhs rhs _ => if op.isLogical then .bool else arithmeticTy op (ty lhs) (ty rhs)
  | .builtin f args _ =>
      match f with
      | .sqrt | .exp => .real
      | .length => .integer
      | .nth => elementTy (argTys args)[1]?
      | .sum => if elementTy (argTys args)[0]? = .integer then .integer else .real
  | .missing _ => .unknown

def firstTy : List Expr → List Ty
  | [] => []
  | e :: _ => [ty e]

def memberTys : List (Expr × Bool) → List Ty
  | [] => []
  | (e, _) :: rest => ty e :: memberTys rest

def argTys : List Expr → List Ty
  | [] => []
  | e :: rest => ty e :: argTys rest

/-- The type of an element of something of a type. -/
def elementTy (list : Option Ty) : Ty := (list.bind Ty.element).getD .unknown

end

end Expr

end CandidateSearch.Syntax
