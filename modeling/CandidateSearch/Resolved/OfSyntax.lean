/-
  CandidateSearch/Resolved/OfSyntax.lean
  ======================================
  **Giving slots to the variables of a module.**

  The fields are the members of all parameter groups, numbered in order; the locals of a
  method are numbered in the order of their declarations.  A statement that cannot be
  resolved becomes `malformed` and gives a complaint.
-/
import CandidateSearch.Resolved.Basic
import CandidateSearch.Source.Problem

namespace CandidateSearch.Resolved

open Source Syntax

/-- The variables that can be seen in a method. -/
structure Env where
  fields : List Var
  locals : List Var

/-- A result, or the complaint about it; there is none about a placeholder, which has
    been complained about before. -/
abbrev Resolve := Except (Option Complaint)

def reject {α : Type} (problem : Problem) (span : Span) : Resolve α :=
  .error (some ⟨problem, span⟩)

/-- The slot of an occurrence.  Of two fields of one name the later one counts. -/
def Env.var (env : Env) (v : Syntax.Var) : Resolve Var :=
  let table := match v.scope with
    | .parameter => env.fields
    | .body => env.locals
  match table.reverse.find? fun w => w.name == v.name with
  | some found => .ok found
  | none => reject (.undefinedVariable v.name) v.span

/-! ### Expressions -/

mutual

def Env.expr (env : Env) : Syntax.Expr → Resolve Expr
  | .number digits _ => .ok (.number digits)
  | .string text _ | .atom text _ => .ok (.atom text)
  | .bool value _ => .ok (.bool value)
  | .var v => do return .var (← env.var v)
  | .list items _ => do return .list (← env.exprs items)
  | .vector members _ => do return .vector (← env.members members)
  | .unary op operand _ => do return .unary op (← env.expr operand)
  | .binary op lhs rhs _ => do
      let lhs ← env.expr lhs
      let rhs ← env.expr rhs
      return .binary op lhs rhs
  | .builtin f args _ => do
      let args ← env.exprs args
      match f, args with
      | .sqrt, a :: _ => return .sqrt a
      | .exp, a :: _ => return .exp a
      | .length, a :: _ => return .length a
      | .sum, a :: _ => return .sum a
      | .nth, a :: b :: _ => return .nth a b
      | _, _ => .error none
  | .missing _ => .error none

def Env.exprs (env : Env) : List Syntax.Expr → Resolve (List Expr)
  | [] => .ok []
  | e :: rest => do
      let e ← env.expr e
      let rest ← env.exprs rest
      return e :: rest

def Env.members (env : Env) : List (Syntax.Expr × Bool) → Resolve (List Expr)
  | [] => .ok []
  | (e, _) :: rest => do
      let e ← env.expr e
      let rest ← env.members rest
      return e :: rest

end

/-! ### Statements -/

/-- The variables of a vector on the left of an assignment. -/
def Env.targets (env : Env) : List (Syntax.Expr × Bool) → Resolve (List Var)
  | [] => .ok []
  | (e, _) :: rest => do
      let v ← match e with
        | .var v => env.var v
        | .missing _ => .error none
        | _ => reject (.expectedKind "variable" "expression") e.span
      let rest ← env.targets rest
      return v :: rest

def Env.target (env : Env) : Syntax.Expr → Resolve Target
  | .var v => do return .single (← env.var v)
  | .vector members _ => do return .destructure (← env.targets members)
  | _ => .error none

def Env.arms (env : Env) : List (Syntax.Expr × Syntax.Expr) → Resolve (List (Expr × Expr))
  | [] => .ok []
  | (condition, value) :: rest => do
      let condition ← env.expr condition
      let value ← env.expr value
      let rest ← env.arms rest
      return (condition, value) :: rest

def Env.action (env : Env) : Syntax.Action → Resolve Action
  | .assign target value => do
      let target ← env.target target
      match value with
      | .expr e => return .assign target (← env.expr e)
      | .range first last step span =>
          match target with
          | .single v => do
              let first ← env.expr first
              let last ← env.expr last
              let step ← env.expr step
              return .range v first last step
          | .destructure _ => reject (.expectedKind "variable" "vector") span
      | .select list _ => return .select target (← env.expr list)
      | .cases arms _ => return .cases target (← env.arms arms)
  | .test condition => do return .test (← env.expr condition)
  | .guard condition => do return .guard (← env.expr condition)
  | .call callee inputs outputs => do
      let inputs ← match inputs with
        | .vector members _ => env.members members
        | _ => .error none
      let outputs ← env.target outputs
      return .call callee inputs outputs.vars
  | .missing => .error none

/-! ### Methods and modules -/

/-- What was resolved, and the complaints about what was not. -/
structure Outcome (α : Type) where
  value : α
  complaints : List Complaint

def Env.stmt (env : Env) (s : Syntax.Stmt) : Outcome Stmt :=
  match env.action s.action with
  | .ok action => ⟨⟨action, s.span⟩, []⟩
  | .error complaint => ⟨⟨.malformed, s.span⟩, complaint.toList⟩

def Env.guard (env : Env) : Option Syntax.Expr → Outcome (Option Expr)
  | none => ⟨none, []⟩
  | some condition =>
      match env.expr condition with
      | .ok e => ⟨some e, []⟩
      | .error complaint => ⟨none, complaint.toList⟩

/-- The locals of a method with their slots. -/
def localsOf (vs : List Syntax.Var) : List Var :=
  vs.mapIdx fun slot v => ⟨v.name, v.ty, .inner slot, false⟩

/-- The fields of a module with their slots; the first group holds the inputs. -/
def fieldsOf (groups : List (List Syntax.Var)) : List Var :=
  let tagged := (groups.mapIdx fun group members => members.map fun v => (v, group == 0)).flatten
  tagged.mapIdx fun slot (v, input) => ⟨v.name, v.ty, .outer slot, input⟩

def methodOf (fields : List Var) (number : Nat) (m : Syntax.Method) : Outcome Method :=
  let locals := localsOf m.locals
  let env : Env := ⟨fields, locals⟩
  let guard := env.guard m.guard
  let body := m.body.map env.stmt
  ⟨{ number, guard := guard.value, locals, body := body.map (·.value), span := m.span },
   guard.complaints ++ body.flatMap (·.complaints)⟩

/-- Resolves the variables of a module. -/
def ofSyntax (m : Syntax.Module) : Outcome Module :=
  let fields := fieldsOf m.groups
  let methods := m.methods.mapIdx fun index method => methodOf fields (index + 1) method
  ⟨{ name := m.name, fields, inputCount := (m.groups.head?.map (·.length)).getD 0
     methods := methods.map (·.value), span := m.span },
   methods.flatMap (·.complaints)⟩

end CandidateSearch.Resolved
