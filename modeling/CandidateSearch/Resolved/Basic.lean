/-
  CandidateSearch/Resolved/Basic.lean
  ===================================
  **Modules whose variables have storage slots.**

  A variable lives in an outer slot, shared by all the methods of its module, or in an
  inner slot of one method.  A statement says which variables it reads and which it
  writes; that is all that scheduling looks at.
-/
import CandidateSearch.Syntax.Module

namespace CandidateSearch

open Source (Span)

/-- Where a variable is kept. -/
inductive Slot where
  | outer (index : Nat)        -- a field of the module
  | inner (index : Nat)        -- a local of the method
deriving DecidableEq, Repr

namespace Resolved

/-! ### Variables and expressions -/

structure Var where
  name : String
  ty : Ty
  slot : Slot
  input : Bool                 -- a member of the first parameter group
deriving DecidableEq, Repr

inductive Expr where
  | number (digits : String)   -- as written
  | atom (name : String)
  | bool (value : Bool)
  | var (v : Var)
  | list (items : List Expr)
  | vector (items : List Expr)
  | unary (op : Syntax.UnaryOp) (operand : Expr)
  | binary (op : Syntax.BinaryOp) (lhs rhs : Expr)
  | sqrt (arg : Expr)
  | exp (arg : Expr)
  | length (arg : Expr)
  | sum (arg : Expr)
  | nth (index list : Expr)
deriving Repr

mutual

/-- The variables of an expression in the order they are read, each as often as it
    occurs. -/
def Expr.reads : Expr → List Var
  | .number _ | .atom _ | .bool _ => []
  | .var v => [v]
  | .list items | .vector items => Expr.readsAll items
  | .unary _ e | .sqrt e | .exp e | .length e | .sum e => e.reads
  | .binary _ a b | .nth a b => a.reads ++ b.reads

def Expr.readsAll : List Expr → List Var
  | [] => []
  | e :: rest => e.reads ++ Expr.readsAll rest

end

/-! ### Statements -/

/-- What a statement binds. -/
inductive Target where
  | single (v : Var)
  | destructure (vs : List Var)    -- the value must be a vector with as many members
deriving Repr

def Target.vars : Target → List Var
  | .single v => [v]
  | .destructure vs => vs

/-- The name that a target goes by: that of its first variable. -/
def Target.name? (t : Target) : Option String := t.vars.head?.map (·.name)

inductive Action where
  | assign (target : Target) (value : Expr)
  | range (target : Var) (first last step : Expr)
  | select (target : Target) (list : Expr)
  | cases (target : Target) (arms : List (Expr × Expr))    -- the first arm that holds
  | test (condition : Expr)
  | guard (condition : Expr)
  | call (callee : String) (inputs : List Expr) (outputs : List Var)
  | malformed
deriving Repr

structure Stmt where
  action : Action
  span : Span := {}
deriving Repr

namespace Stmt

def isMalformed (s : Stmt) : Bool :=
  match s.action with
  | .malformed => true
  | _ => false

def isGuard (s : Stmt) : Bool :=
  match s.action with
  | .guard _ => true
  | _ => false

/-- An assignment to a target with a constraint name. -/
def isConstraint (s : Stmt) : Bool :=
  match s.action with
  | .assign target _ => target.name?.any Syntax.isConstraintName
  | _ => false

/-- The variables that a statement binds. -/
def writes (s : Stmt) : List Var :=
  match s.action with
  | .assign target _ | .select target _ | .cases target _ => target.vars
  | .range target _ _ _ => [target]
  | .call _ _ outputs => outputs
  | .test _ | .guard _ | .malformed => []

/-- The variables that a statement reads, in the order it reads them. -/
def reads (s : Stmt) : List Var :=
  match s.action with
  | .assign _ value => value.reads
  | .range _ first last step => first.reads ++ last.reads ++ step.reads
  | .select _ list => list.reads
  | .cases _ arms => arms.flatMap fun (condition, value) => condition.reads ++ value.reads
  | .test condition | .guard condition => condition.reads
  | .call _ inputs _ => Expr.readsAll inputs
  | .malformed => []

end Stmt

/-! ### Methods and modules -/

structure Method where
  number : Nat                 -- counted from one within its module
  guard : Option Expr
  locals : List Var
  body : List Stmt
  span : Span
deriving Repr

structure Module where
  name : String
  fields : List Var            -- the members of all groups, the inputs first
  inputCount : Nat
  methods : List Method
  span : Span
deriving Repr

namespace Module

def inputs (m : Module) : List Var := m.fields.take m.inputCount

def outputs (m : Module) : List Var := m.fields.drop m.inputCount

end Module

end Resolved

end CandidateSearch
