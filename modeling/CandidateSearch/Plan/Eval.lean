/-
  CandidateSearch/Plan/Eval.lean
  ==============================
  **The value of a planned expression.**

  An expression is evaluated against a function that gives the value of a slot.  While it
  is evaluated numbers are decimals; they become floats when they are stored, be it in a
  variable or in a list.

  Operands are evaluated from left to right.  Of `and` and `or` the right operand is not
  evaluated if the left one decides.  The left operand of an arithmetic operator other
  than `+` has to be a number before the right one is evaluated.
-/
import CandidateSearch.Decimal.Elementary
import CandidateSearch.Plan.Basic
import CandidateSearch.Value

namespace CandidateSearch

/-! ### Operands -/

/-- A value in the course of evaluation. -/
inductive Operand where
  | number (d : Decimal)
  | atom (name : String)
  | bool (b : Bool)
  | list (items : List Value)
  | vector (items : List Value)
deriving Repr

namespace Operand

def ofValue : Value → Except Fault Operand
  | .number x => (Decimal.ofFloat? x).map .number
  | .atom name => .ok (.atom name)
  | .bool b => .ok (.bool b)
  | .list items => .ok (.list items)
  | .vector items => .ok (.vector items)

def toValue : Operand → Except Fault Value
  | .number d => Value.ofDecimal? d
  | .atom name => .ok (.atom name)
  | .bool b => .ok (.bool b)
  | .list items => .ok (.list items)
  | .vector items => .ok (.vector items)

def kind : Operand → String
  | .number _ => "number"
  | .atom _ => "atom"
  | .bool _ => "bool"
  | .list _ => "list"
  | .vector _ => "vector"

def mismatch (a : Operand) (expected : String) : Fault := .typeMismatch expected a.kind

def number? : Operand → Except Fault Decimal
  | .number d => .ok d
  | a => .error (a.mismatch "number")

def bool? : Operand → Except Fault Bool
  | .bool b => .ok b
  | a => .error (a.mismatch "bool")

def list? : Operand → Except Fault (List Value)
  | .list items => .ok items
  | a => .error (a.mismatch "list")

/-- Operands of different kinds are never the same. -/
def same : Operand → Operand → Bool
  | .number a, .number b => a.same b
  | .atom a, .atom b => a == b
  | .bool a, .bool b => a == b
  | .list a, .list b => Value.sameAll a b
  | .vector a, .vector b => Value.sameAll a b
  | _, _ => false

/-- The order of two numbers or of two atoms. -/
def compare? : Operand → Operand → Except Fault Ordering
  | .number a, .number b => .ok (a.compare b)
  | .atom a, .atom b => .ok (compare a b)
  | .number _, b => .error (b.mismatch "number")
  | .atom _, b => .error (b.mismatch "atom")
  | a, _ => .error (a.mismatch "number")

/-- The sum of two numbers, or two atoms joined together. -/
def add : Operand → Operand → Except Fault Operand
  | .atom a, .atom b => .ok (.atom (a ++ b))
  | a, b => do
      let a ← a.number?
      let b ← b.number?
      return .number (a.add b)

end Operand

namespace Plan

/-! ### Operators -/

/-- The operators that take nothing but numbers. -/
def demandsNumbers : Syntax.BinaryOp → Bool
  | .sub | .mul | .div | .mod | .pow => true
  | _ => false

/-- The result of an operator on numbers; all that demand numbers are covered. -/
def arithmetic (op : Syntax.BinaryOp) (a b : Decimal) : Except Fault Decimal :=
  match op with
  | .sub => .ok (a.sub b)
  | .mul => .ok (a.mul b)
  | .div => a.div? b
  | .mod => a.rem? b
  | .pow => a.pow? b
  | _ => .ok (a.add b)

/-- The result of an operator that looks at both of its operands as they are. -/
def relation (op : Syntax.BinaryOp) (a b : Operand) : Except Fault Operand :=
  match op with
  | .eq => .ok (.bool (a.same b))
  | .ne => .ok (.bool !(a.same b))
  | .lt => (a.compare? b).map fun order => .bool (order == .lt)
  | .le => (a.compare? b).map fun order => .bool (order != .gt)
  | _ => a.add b

/-! ### Expressions -/

/-- Gives the value of a slot. -/
abbrev Reader := Slot → Except Fault Value

namespace Expr

mutual

def eval (read : Reader) : Expr → Except Fault Operand
  | .number d => .ok (.number d)
  | .atom name => .ok (.atom name)
  | .bool b => .ok (.bool b)
  | .var slot => do
      let v ← read slot
      Operand.ofValue v
  | .list items => do
      let vs ← evalAll read items
      return .list vs
  | .vector items => do
      let vs ← evalAll read items
      return .vector vs
  | .unary .neg e => do
      let d ← (← eval read e).number?
      return .number d.neg
  | .unary .not e => do
      let b ← (← eval read e).bool?
      return .bool !b
  | .binary .and lhs rhs => do
      let a ← (← eval read lhs).bool?
      if a then
        let b ← (← eval read rhs).bool?
        return .bool b
      else return .bool false
  | .binary .or lhs rhs => do
      let a ← (← eval read lhs).bool?
      if a then return .bool true
      else
        let b ← (← eval read rhs).bool?
        return .bool b
  | .binary op lhs rhs => do
      let a ← eval read lhs
      if demandsNumbers op then
        let a ← a.number?
        let b ← (← eval read rhs).number?
        let c ← arithmetic op a b
        return .number c
      else
        let b ← eval read rhs
        relation op a b
  | .sqrt e => do
      let d ← (← eval read e).number?
      let root ← d.sqrt?
      return .number root
  | .exp e => do
      let d ← (← eval read e).number?
      return .number d.exp
  | .length e => do
      let items ← (← eval read e).list?
      return .number (.ofInt items.length)
  | .sum e => do
      let items ← (← eval read e).list?
      let total ← Value.sum items
      return .number total
  | .nth i l => do
      let index ← (← eval read i).number?
      let items ← (← eval read l).list?
      let v ← Value.nth items index
      Operand.ofValue v

def evalAll (read : Reader) : List Expr → Except Fault (List Value)
  | [] => .ok []
  | e :: rest => do
      let v ← (← eval read e).toValue
      let vs ← evalAll read rest
      return v :: vs

end

def evalValue (read : Reader) (e : Expr) : Except Fault Value := do (← e.eval read).toValue

def evalBool (read : Reader) (e : Expr) : Except Fault Bool := do (← e.eval read).bool?

def evalNumber (read : Reader) (e : Expr) : Except Fault Decimal := do (← e.eval read).number?

end Expr

end Plan

/-! ### Choosing an arm -/

/-- The value of the first arm whose condition holds.  The value of no other arm is
    computed, and no condition behind it. -/
def firstMatch {m : Type → Type} [Monad m] {ι α : Type} (condition : ι → m Bool)
    (value : ι → m α) : List ι → m (Option α)
  | [] => pure none
  | arm :: rest => do
      let holds ← condition arm
      if holds then
        let v ← value arm
        return some v
      else firstMatch condition value rest

end CandidateSearch
