/-
  CandidateSearch/Grammar/Expression.lean
  =======================================
  **Expressions, from the loosest level to the tightest.**

      or             = and {"or" and}
      and            = not {"and" not}
      not            = "not" "(" or ")" | equality
      equality       = relational {("=" | "==" | "\=") relational}
      relational     = additive {("<" | "=<" | ">" | ">=") additive}
      additive       = multiplicative {("+" | "-") multiplicative}
      multiplicative = power {("*" | "/" | "mod") power}
      power          = unary ["^" power]
      unary          = "-" unary | primary
      primary        = builtin "(" … ")" | "(" or ")" | list | vector
                     | "true" | "false" | number | string | atom | variable [":" type]
      list           = "[" [or {"," or} [","]] "]"
      vector         = "{" [member {"," member} [","]] "}" [":" vector-type]
      vector-type    = "{" [type {"," type}] "}"
      member         = variable [":" type] | or

  The operands of arithmetic must be numbers and those of the list functions lists, as
  far as their types are known.
-/
import CandidateSearch.Grammar.Annotation

namespace CandidateSearch.Grammar

open Source Syntax

/-! ### Levels and their operators -/

inductive Level where
  | or | and | not | equality | relational | additive | multiplicative | power | unary
deriving DecidableEq, Repr

/-- The next tighter level. -/
def Level.tighter : Level → Level
  | .or => .and
  | .and => .not
  | .not => .equality
  | .equality => .relational
  | .relational => .additive
  | .additive => .multiplicative
  | .multiplicative => .power
  | .power => .unary
  | .unary => .unary

/-- The operator of a level that a word or symbol stands for, and whether its operands are
    exchanged. -/
def Level.operator? : Level → Reserved → Option (BinaryOp × Bool)
  | .or, .or => some (.or, false)
  | .and, .and => some (.and, false)
  | .equality, .equals => some (.eq, false)
  | .equality, .doubleEquals => some (.eq, false)
  | .equality, .notEquals => some (.ne, false)
  | .relational, .less => some (.lt, false)
  | .relational, .atMost => some (.le, false)
  | .relational, .greater => some (.lt, true)
  | .relational, .atLeast => some (.le, true)
  | .additive, .plus => some (.add, false)
  | .additive, .minus => some (.sub, false)
  | .multiplicative, .times => some (.mul, false)
  | .multiplicative, .divide => some (.div, false)
  | .multiplicative, .mod => some (.mod, false)
  | _, _ => none

/-! ### Checks of types -/

/-- Complains unless the expression is a number, as far as is known. -/
def checkNumeric (e : Expr) : Parse Unit :=
  unless e.ty = .unknown || e.ty.isNumeric do
    complain (.expectedType "integer or real" e.ty) e.span

def isList : Ty → Bool
  | .list _ => true
  | _ => false

/-- Complains unless the expression is a list, as far as is known. -/
def checkList (e : Expr) : Parse Unit :=
  unless e.ty = .unknown || isList e.ty do
    complain (.expectedType "list" e.ty) e.span

/-- An operator with its operands, which are checked where it is arithmetic. -/
def operation (op : BinaryOp) (lhs rhs : Expr) (span : Span) : Parse Expr := do
  unless op.isLogical do
    checkNumeric lhs
    checkNumeric rhs
  return .binary op lhs rhs span

/-- Operators of one level from left to right, after a first operand. -/
def chain (level : Level) (operand : Parse Expr) : Nat → Expr → Parse Expr
  | 0, lhs => return lhs
  | fuel + 1, lhs => do
      let token ← peek
      match token.kind with
      | .reserved w =>
          match level.operator? w with
          | some (op, exchanged) =>
              let _ ← advance
              let rhs ← operand
              let (a, b) := if exchanged then (rhs, lhs) else (lhs, rhs)
              chain level operand fuel (← operation op a b token.span)
          | none => return lhs
      | _ => return lhs

/-! ### Primary expressions -/

def builtin? : Reserved → Option Builtin
  | .sqrt => some .sqrt
  | .exp => some .exp
  | .length => some .length
  | .nth => some .nth
  | .sum => some .sum
  | _ => none

/-- A builtin function with its arguments; `inner` reads one of them. -/
def builtinCall (f : Builtin) (inner : Parse Expr) : Parse Expr := do
  let token ← advance
  let _ ← consume .openParen
  let first ← inner
  let args ← match f with
    | .sqrt | .exp => do
        checkNumeric first
        pure [first]
    | .length | .sum => do
        checkList first
        pure [first]
    | .nth => do
        checkNumeric first
        let _ ← consume .comma
        let list ← inner
        checkList list
        pure [first, list]
  let _ ← consume .closeParen
  return .builtin f args token.span

def list (inner : Parse Expr) (fuel : Nat) : Parse Expr := do
  let token ← consume .openBracket
  let elements ← items .closeBracket inner fuel
  let _ ← consume .closeBracket
  return .list elements token.span

/-- A member of a vector before its variable is declared or looked up. -/
inductive Pending where
  | name (name : String) (span : Span) (ty : Option (Ty × Span))
  | value (e : Expr)

def Pending.isName : Pending → Bool
  | .name .. => true
  | .value _ => false

/-- A variable that stands alone as a member, with its type if one is written, or else
    what `other` reads. -/
def member (other : Parse Expr) : Parse Pending := do
  let token ← peek
  let next ← peekNext
  match token.kind with
  | .var name =>
      if next.is .colon then
        let _ ← advance
        let _ ← advance
        let ty ← annotation
        return .name name token.span (some (ty.ty, ty.span))
      if next.is .comma || next.is .closeBrace then
        let _ ← advance
        return .name name token.span none
      return .value (← other)
  | _ => return .value (← other)

/-- The types that an annotation after the closing brace gives to the members. -/
def groupTys (members : List Pending) : Parse (List (Ty × Span)) := do
  if (← at? .colon) && members.all Pending.isName then
    let _ ← advance
    let written ← annotation
    match written.ty with
    | .vector tys =>
        if tys.length = members.length then return written.members
        complain (.memberCount members.length tys.length) written.span
    | .unknown => pure ()
    | _ => complain (.expectedType "vector type" written.ty) written.span
  return []

/-- The members of a vector between braces, and the types of a group annotation. -/
def pendingMembers (other : Parse Expr) (fuel : Nat) :
    Parse (List Pending × List (Ty × Span)) := do
  let _ ← consume .openBrace
  let members ← items .closeBrace (member other) fuel
  let _ ← consume .closeBrace
  return (members, ← groupTys members)

/-- Declares or looks up the variables of a vector in an expression, in order.  A member
    with a type, its own or that of the group, declares its variable. -/
def resolveMembers : List Pending → List (Ty × Span) → Parse (List (Expr × Bool))
  | [], _ => return []
  | pending :: rest, tys => do
      let resolved ← match pending with
        | .value e => pure (e, false)
        | .name name span own =>
            match own <|> tys.head? with
            | some (ty, tySpan) => do
                let v ← declare name span ty tySpan .body false
                pure (.var v, true)
            | none => do
                match ← lookup name span with
                | some v => pure (.var v, false)
                | none => pure (.missing span, false)
      return resolved :: (← resolveMembers rest tys.tail)

def vector (inner : Parse Expr) (fuel : Nat) : Parse Expr := do
  let token ← peek
  let (members, tys) ← pendingMembers inner fuel
  return .vector (← resolveMembers members tys) token.span

/-- A variable, declared here if a type follows it. -/
def variableExpr (name : String) (span : Span) : Parse Expr := do
  let _ ← advance
  if ← at? .colon then
    let _ ← advance
    let ty ← annotation
    return .var (← declare name span ty.ty ty.span .body false)
  match ← lookup name span with
  | some v => return .var v
  | none => return .missing span

/-- Skips a token that starts no expression. -/
def noExpression : Parse Expr := do
  let token ← peek
  complain (.unexpectedToken token.text) token.span
  let _ ← advance
  return .missing token.span

/-- The token at the cursor as an expression of its own. -/
def single (e : Expr) : Parse Expr := do
  let _ ← advance
  return e

/-- A primary expression; `inner` reads an expression inside brackets. -/
def primaryWith (inner : Parse Expr) (fuel : Nat) : Parse Expr := do
  let token ← peek
  match token.kind with
  | .reserved w =>
      match builtin? w with
      | some f => builtinCall f inner
      | none =>
          match w with
          | .openParen => do
              let _ ← advance
              let e ← inner
              let _ ← consume .closeParen
              return e
          | .openBracket => list inner fuel
          | .openBrace => vector inner fuel
          | .trueWord => single (.bool true token.span)
          | .falseWord => single (.bool false token.span)
          | _ => noExpression
  | .number digits => single (.number digits token.span)
  | .string content => single (.string content token.span)
  | .atom name => single (.atom name token.span)
  | .var name => variableExpr name token.span
  | .function _ | .eof => noExpression

/-! ### All levels -/

/-- An expression of a level.  Every descent by one level and every operator takes one
    from `fuel`. -/
def exprAt : Nat → Level → Parse Expr
  | 0, _ => noExpression
  | fuel + 1, .not => do
      let token ← peek
      if token.is .not then
        let _ ← advance
        let _ ← consume .openParen
        let operand ← exprAt fuel .or
        let _ ← consume .closeParen
        return .unary .not operand token.span
      exprAt fuel .equality
  | fuel + 1, .power => do
      let base ← exprAt fuel .unary
      let token ← peek
      if token.is .power then
        let _ ← advance
        let exponent ← exprAt fuel .power
        operation .pow base exponent token.span
      else return base
  | fuel + 1, .unary => do
      let token ← peek
      if token.is .minus then
        let _ ← advance
        let operand ← exprAt fuel .unary
        checkNumeric operand
        return .unary .neg operand token.span
      primaryWith (exprAt fuel .or) fuel
  | fuel + 1, level => do
      let first ← exprAt fuel level.tighter
      chain level (exprAt fuel level.tighter) fuel first

/-- Enough for the tokens that are left: a token is met after ten levels at most. -/
def enough : Parse Nat := do return 16 * ((← remaining) + 1)

def expression : Parse Expr := do exprAt (← enough) .or

def primary : Parse Expr := do
  let fuel ← enough
  primaryWith (exprAt fuel .or) fuel

end CandidateSearch.Grammar
