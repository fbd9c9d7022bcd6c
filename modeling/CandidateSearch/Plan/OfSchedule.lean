/-
  CandidateSearch/Plan/OfSchedule.lean
  ====================================
  **From scheduled modules to a plan.**

  Every block becomes a stage.  Here numerals are read, and calls are resolved to module
  numbers and checked for the number of their inputs and outputs.  What is wrong gives a
  complaint and is left out of the plan.
-/
import CandidateSearch.Decimal.Text
import CandidateSearch.Plan.Basic
import CandidateSearch.Schedule.Blocks
import CandidateSearch.Source.Document

namespace CandidateSearch

open Source

/-! ### Scheduled modules -/

namespace Schedule

structure Method where
  resolved : Resolved.Method
  blocks : List Block

/-- A module with the schedules of its methods and the document it comes from. -/
structure Module where
  document : Document
  resolved : Resolved.Module
  methods : List Method

end Schedule

namespace Plan

/-! ### Expressions -/

mutual

/-- The planned form of an expression, or the text of a numeral that cannot be read. -/
def Expr.ofResolved : Resolved.Expr → Except String Expr
  | .number digits =>
      match Decimal.ofChars? digits.toList with
      | some d => .ok (.number d)
      | none => .error digits
  | .atom name => .ok (.atom name)
  | .bool value => .ok (.bool value)
  | .var v => .ok (.var v.slot)
  | .list items => do return .list (← Expr.ofResolvedAll items)
  | .vector items => do return .vector (← Expr.ofResolvedAll items)
  | .unary op e => do return .unary op (← Expr.ofResolved e)
  | .binary op a b => do
      let a ← Expr.ofResolved a
      let b ← Expr.ofResolved b
      return .binary op a b
  | .sqrt e => do return .sqrt (← Expr.ofResolved e)
  | .exp e => do return .exp (← Expr.ofResolved e)
  | .length e => do return .length (← Expr.ofResolved e)
  | .sum e => do return .sum (← Expr.ofResolved e)
  | .nth a b => do
      let a ← Expr.ofResolved a
      let b ← Expr.ofResolved b
      return .nth a b

def Expr.ofResolvedAll : List Resolved.Expr → Except String (List Expr)
  | [] => .ok []
  | e :: rest => do
      let e ← Expr.ofResolved e
      let rest ← Expr.ofResolvedAll rest
      return e :: rest

end

def Target.ofResolved : Resolved.Target → Target
  | .single v => .single v.slot
  | .destructure vs => .destructure (vs.map (·.slot))

/-! ### Stages -/

/-- Building a plan collects complaints, the newest last. -/
abbrev Build := StateM (List Complaint)

def complain (problem : Problem) (span : Span) : Build Unit :=
  modify fun complaints => complaints ++ [⟨problem, span⟩]

/-- What is planned, unless it holds a numeral that cannot be read. -/
def planned {α : Type} (span : Span) : Except String α → Build (Option α)
  | .ok a => return some a
  | .error digits => do
      complain (.invalidNumber digits) span
      return none

def expr (span : Span) (e : Resolved.Expr) : Build (Option Expr) :=
  planned span (Expr.ofResolved e)

/-- The arms of a `case`; those that cannot be planned are left out. -/
def arms (span : Span) : List (Resolved.Expr × Resolved.Expr) → Build (List (Expr × Expr))
  | [] => return []
  | (condition, value) :: rest => do
      let arm ← match ← expr span condition with
        | some condition => do pure ((← expr span value).map fun value => (condition, value))
        | none => pure none
      return arm.toList ++ (← arms span rest)

/-- The number of a module and the module. -/
def findModule (modules : List Resolved.Module) (name : String) :
    Option (Nat × Resolved.Module) :=
  match modules.findIdx? fun m => m.name == name with
  | some index => modules[index]?.map fun m => (index, m)
  | none => none

def call (modules : List Resolved.Module) (span : Span) (callee : String)
    (inputs : List Resolved.Expr) (outputs : List Resolved.Var) : Build (Option Transfer) := do
  match findModule modules callee with
  | none =>
      complain (.undefinedModule callee) span
      return none
  | some (index, target) =>
      if inputs.length ≠ target.inputs.length ∨ outputs.length ≠ target.outputs.length then
        complain (.callArity callee target.inputs.length target.outputs.length
          inputs.length outputs.length) span
        return none
      let inputs ← planned span (Expr.ofResolvedAll inputs)
      return inputs.map fun inputs => .call index inputs (outputs.map (·.slot))

/-- A constraint that is assigned to a single variable is checked right away. -/
def constraintCheck (s : Resolved.Stmt) : List Op :=
  match s.action with
  | .assign (.single v) _ => if s.isConstraint then [.check (.var v.slot)] else []
  | _ => []

/-- The operations of a statement, and the transfer if it ends its stage with one. -/
def stmt (modules : List Resolved.Module) (s : Resolved.Stmt) :
    Build (List Op × Option Transfer) := do
  match s.action with
  | .assign target value =>
      let assigned := (← expr s.span value).map fun value => Op.assign (.ofResolved target) value
      return (assigned.toList ++ constraintCheck s, none)
  | .cases target written =>
      return ([.cases (.ofResolved target) (← arms s.span written)], none)
  | .test condition | .guard condition =>
      return (((← expr s.span condition).map Op.check).toList, none)
  | .range target first last step =>
      let first ← expr s.span first
      let last ← expr s.span last
      let step ← expr s.span step
      match first, last, step with
      | some first, some last, some step => return ([], some (.range target.slot first last step))
      | _, _, _ => return ([], none)
  | .select target list =>
      return ([], (← expr s.span list).map fun list => .member (.ofResolved target) list)
  | .call callee inputs outputs => return ([], ← call modules s.span callee inputs outputs)
  | .malformed => return ([], none)

/-- The stage of a block: all its operations, and the last of its transfers. -/
def stage (modules : List Resolved.Module) : List Resolved.Stmt → Build Stage
  | [] => return ⟨[], .proceed⟩
  | s :: rest => do
      let (ops, transfer) ← stmt modules s
      let after ← stage modules rest
      let last := match after.transfer, transfer with
        | .proceed, some transfer => transfer
        | later, _ => later
      return ⟨ops ++ after.ops, last⟩

def stages (modules : List Resolved.Module) : List Schedule.Block → Build (List Stage)
  | [] => return []
  | block :: rest => do
      let first ← stage modules block.stmts
      return first :: (← stages modules rest)

/-! ### Methods, modules and programs -/

def method (modules : List Resolved.Module) (m : Schedule.Method) : Build Method := do
  let guard ← match m.resolved.guard with
    | some condition => expr m.resolved.span condition
    | none => pure none
  let stages ← stages modules m.blocks
  return { number := m.resolved.number, guard, locals := m.resolved.locals.map (·.name), stages }

def methods (modules : List Resolved.Module) : List Schedule.Method → Build (List Method)
  | [] => return []
  | m :: rest => do
      let first ← method modules m
      return first :: (← methods modules rest)

def moduleOf (modules : List Resolved.Module) (m : Schedule.Module) : Build Module := do
  let methods ← methods modules m.methods
  return { name := m.resolved.name, fields := m.resolved.fields.map fun v => ⟨v.name, v.ty⟩
           inputCount := m.resolved.inputs.length, methods }

/-- The plan of scheduled modules, or all that is wrong with them. -/
def Program.ofSchedule (scheduled : List Schedule.Module) : Except (List Diagnostic) Program :=
  let modules := scheduled.map (·.resolved)
  let built := scheduled.map fun m => (m.document, (moduleOf modules m).run [])
  let diagnostics := built.flatMap fun (document, _, complaints) =>
    complaints.map document.diagnose
  if diagnostics.isEmpty then .ok ⟨built.map fun (_, planned, _) => planned⟩
  else .error diagnostics

end Plan

end CandidateSearch
