/-
  CandidateSearch/Plan/Basic.lean
  ===============================
  **Programs in the form in which they run.**

  A plan addresses variables by slots and modules by their numbers; the first module is
  the entry.  A method is a sequence of stages.  A stage runs its operations in a row and
  then transfers control: on to the next stage, once for every value of a range or of a
  list, or into another module.
-/
import CandidateSearch.Decimal.Basic
import CandidateSearch.Resolved.Basic

namespace CandidateSearch.Plan

inductive Expr where
  | number (d : Decimal)
  | atom (name : String)
  | bool (value : Bool)
  | var (slot : Slot)
  | list (items : List Expr)
  | vector (items : List Expr)
  | unary (op : Syntax.UnaryOp) (operand : Expr)
  | binary (op : Syntax.BinaryOp) (lhs rhs : Expr)
  | sqrt (arg : Expr)
  | exp (arg : Expr)
  | length (arg : Expr)
  | sum (arg : Expr)
  | nth (index list : Expr)
deriving Repr

inductive Target where
  | single (slot : Slot)
  | destructure (slots : List Slot)
deriving DecidableEq, Repr

inductive Op where
  | assign (target : Target) (value : Expr)
  | cases (target : Target) (arms : List (Expr × Expr))    -- fails where no arm holds
  | check (condition : Expr)
deriving Repr

inductive Transfer where
  | proceed
  | range (target : Slot) (first last step : Expr)
  | member (target : Target) (list : Expr)
  | call (callee : Nat) (inputs : List Expr) (outputs : List Slot)
deriving Repr

structure Stage where
  ops : List Op
  transfer : Transfer
deriving Repr

structure Method where
  number : Nat
  guard : Option Expr
  locals : List String
  stages : List Stage
deriving Repr

structure Field where
  name : String
  ty : Ty
deriving DecidableEq, Repr

structure Module where
  name : String
  fields : List Field          -- the inputs first
  inputCount : Nat
  methods : List Method
deriving Repr

namespace Module

def inputs (m : Module) : List Field := m.fields.take m.inputCount

def outputs (m : Module) : List Field := m.fields.drop m.inputCount

end Module

structure Program where
  modules : List Module
deriving Repr

/-- The module that a run starts in. -/
def Program.entry? (p : Program) : Option Module := p.modules.head?

end CandidateSearch.Plan
