/-
  CandidateSearch/Syntax/Module.lean
  ==================================
  **Modules, methods and statements of a source.**

  A module has parameter groups and one or more methods; the methods are alternatives.
  The first group holds the inputs and the other groups the outputs.  A method may start
  with a guard; its other statements may be written in any order.
-/
import CandidateSearch.Syntax.Expr

namespace CandidateSearch.Syntax

open Source (Span)

/-! ### Constraint names -/

/-- `word` occurs somewhere in the text. -/
def occursIn (word : List Char) : List Char → Bool
  | [] => word.isEmpty
  | c :: cs => word.isPrefixOf (c :: cs) || occursIn word cs

/-- A variable with such a name is a condition: the branch fails where it is false. -/
def isConstraintName (name : String) : Bool := occursIn "constraint".toList name.toList

/-! ### Statements -/

/-- The right-hand side of an assignment. -/
inductive Rhs where
  | expr (e : Expr)
  | range (first last step : Expr) (span : Span)       -- `for(first, last, step)`
  | select (list : Expr) (span : Span)                 -- `select(list)`
  | cases (arms : List (Expr × Expr)) (span : Span)    -- `case(condition -> value, …)`
deriving Repr

namespace Rhs

def span : Rhs → Span
  | .expr e => e.span
  | .range _ _ _ s | .select _ s | .cases _ s => s

/-- It stands for several values in turn. -/
def isGenerator : Rhs → Bool
  | .range .. | .select .. => true
  | .expr _ | .cases .. => false

/-- The type of a variable that is declared by an assignment of it. -/
def ty : Rhs → Ty
  | .expr e => e.ty
  | .range first last step _ =>
      if first.ty = .integer ∧ last.ty = .integer ∧ step.ty = .integer then .integer else .real
  | .select list _ => Expr.elementTy (some list.ty)
  | .cases arms _ => (arms.head?.map fun arm => arm.2.ty).getD .unknown

end Rhs

inductive Action where
  | assign (target : Expr) (value : Rhs)
  | test (condition : Expr)
  | guard (condition : Expr)                           -- `when(condition)`
  | call (callee : String) (inputs outputs : Expr)
  | missing                                            -- no statement could be read
deriving Repr

structure Stmt where
  action : Action
  span : Span
deriving Repr

def Stmt.isMissing (s : Stmt) : Bool :=
  match s.action with
  | .missing => true
  | _ => false

/-- The condition of a `when`. -/
def Stmt.guard? (s : Stmt) : Option Expr :=
  match s.action with
  | .guard condition => some condition
  | _ => none

/-! ### Methods and modules -/

structure Method where
  guard : Option Expr
  body : List Stmt
  locals : List Var            -- the variables that the body declares
  span : Span
deriving Repr

inductive Param where
  | callee (name : String) (span : Span)               -- a module that may be called
  | group (members : List Var) (span : Span)
  | missing (span : Span)
deriving Repr

namespace Param

/-- The variables of a parameter group. -/
def group? : Param → Option (List Var)
  | .group members _ => some members
  | _ => none

/-- The module that a parameter names. -/
def callee? : Param → Option String
  | .callee name _ => some name
  | _ => none

end Param

structure Module where
  name : String
  params : List Param
  methods : List Method
  span : Span
deriving Repr

namespace Module

/-- The parameter groups; the first one holds the inputs. -/
def groups (m : Module) : List (List Var) := m.params.filterMap Param.group?

/-- The modules named as parameters. -/
def callees (m : Module) : List String := m.params.filterMap Param.callee?

end Module

end CandidateSearch.Syntax
