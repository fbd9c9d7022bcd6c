/-
  CandidateSearch/Listing/Expr.lean
  =================================
  **Listed expressions.**

  A listed expression has a kind: a decimal, a truth value, a list, or a value whose kind
  only shows when the program runs.  Where one kind is needed, a value is converted, and
  anything else is taken as it is.
-/
import CandidateSearch.Listing.Names
import CandidateSearch.Text.Quoted

namespace CandidateSearch.Listing

open Text (quoted)
open Syntax (BinaryOp)

inductive Kind where
  | decimal
  | bool
  | list
  | value
deriving DecidableEq, Repr

/-- The text of an expression, its kind, and whether it is a bare comparison or
    connective. -/
structure Listed where
  code : String
  kind : Kind
  infixed : Bool := false
deriving DecidableEq, Repr

/-! ### Conversions -/

def Listed.decimal (e : Listed) : String :=
  if e.kind = .value then e.code ++ ".decimal()?" else e.code

def Listed.boolean (e : Listed) : String :=
  if e.kind = .value then e.code ++ ".boolean()?" else e.code

def Listed.list (e : Listed) : String :=
  if e.kind = .value then e.code ++ ".list()?" else e.code

def Listed.value (e : Listed) : String :=
  match e.kind with
  | .decimal => s!"Value::from_decimal(&{e.code})?"
  | .bool => s!"Value::Bool({e.code})"
  | .list => s!"Value::List({e.code})"
  | .value => e.code

/-- An operand, in parentheses if it is a bare comparison or connective. -/
def Listed.operand (e : Listed) (convert : Listed → String) : String :=
  if e.infixed then "(" ++ convert e ++ ")" else convert e

/-! ### Operators -/

/-- A comparison or connective between two operands. -/
def between (symbol : String) (convert : Listed → String) (a b : Listed) : Listed :=
  ⟨s!"{a.operand convert} {symbol} {b.operand convert}", .bool, true⟩

/-- A function of two decimals. -/
def function (name : String) (a b : Listed) (ending : String) : Listed :=
  ⟨s!"decimal::{name}(&{a.decimal}, &{b.decimal}){ending}", .decimal, false⟩

/-- Equality is that of decimals where one side is known to be one, and of values
    otherwise. -/
def equality (symbol : String) (a b : Listed) : Listed :=
  if a.kind = .decimal ∨ b.kind = .decimal then between symbol Listed.decimal a b
  else between symbol Listed.value a b

def binary (op : BinaryOp) (a b : Listed) : Listed :=
  match op with
  | .and => between "&&" Listed.boolean a b
  | .or => between "||" Listed.boolean a b
  | .eq => equality "==" a b
  | .ne => equality "!=" a b
  | .lt => between "<" Listed.decimal a b
  | .le => between "<=" Listed.decimal a b
  | .add => function "add" a b ""
  | .sub => function "sub" a b ""
  | .mul => function "mul" a b ""
  | .div => function "div" a b "?"
  | .mod => function "rem" a b "?"
  | .pow => function "pow" a b "?"

/-! ### Expressions -/

mutual

def expr : Resolved.Expr → Listed
  | .number digits => ⟨s!"decimal::parse({quoted digits})?", .decimal, false⟩
  | .atom name => ⟨s!"Value::Atom({quoted name}.to_string())", .value, false⟩
  | .bool value => ⟨if value then "true" else "false", .bool, false⟩
  | .var v => ⟨access v ++ ".get()?", .value, false⟩
  | .list items => ⟨"vec![" ++ ", ".intercalate (values items) ++ "]", .list, false⟩
  | .vector items =>
      ⟨"Value::Vector(vec![" ++ ", ".intercalate (values items) ++ "])", .value, false⟩
  | .unary .neg e => ⟨"-" ++ (expr e).decimal, .decimal, false⟩
  | .unary .not e => ⟨"!" ++ (expr e).operand Listed.boolean, .bool, false⟩
  | .binary op a b => binary op (expr a) (expr b)
  | .sqrt e => ⟨"decimal::sqrt(&" ++ (expr e).decimal ++ ")?", .decimal, false⟩
  | .exp e => ⟨"decimal::exp(&" ++ (expr e).decimal ++ ")", .decimal, false⟩
  | .length e => ⟨"BigDecimal::from(" ++ (expr e).list ++ ".len() as u64)", .decimal, false⟩
  | .sum e => ⟨"sum(&" ++ (expr e).list ++ ")?", .decimal, false⟩
  | .nth index list =>
      ⟨"nth(&" ++ (expr list).list ++ ", &" ++ (expr index).decimal ++ ")?", .value, false⟩

def values : List Resolved.Expr → List String
  | [] => []
  | e :: rest => (expr e).value :: values rest

end

/-! ### Targets and defaults -/

/-- What binds the variables of a target. -/
def binder : Resolved.Target → String
  | .single v => "Binder::Var(" ++ access v ++ ".clone())"
  | .destructure vs =>
      let parts := vs.map fun v => access v ++ ".clone()"
      "Binder::Destructure(vec![" ++ ", ".intercalate parts ++ "])"

mutual

/-- The value of an output that has not been bound. -/
def defaultLiteral : Ty → String
  | .integer | .real | .unknown => "Value::Number(0.0)"
  | .atom => "Value::Atom(String::new())"
  | .bool => "Value::Bool(false)"
  | .list _ => "Value::List(Vec::new())"
  | .vector members =>
      "Value::Vector(vec![" ++ ", ".intercalate (defaultLiterals members) ++ "])"

def defaultLiterals : List Ty → List String
  | [] => []
  | ty :: rest => defaultLiteral ty :: defaultLiterals rest

end

end CandidateSearch.Listing
