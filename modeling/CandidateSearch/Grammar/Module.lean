/-
  CandidateSearch/Grammar/Module.lean
  ===================================
  **Modules and whole sources.**

      source = {module}
      module = function-name "(" [param {"," param}] ")" method {method} "end" "module" ";"
      param  = module-name | "{" [member {"," member} [","]] "}" [":" vector-type]
      method = "method" {stmt} "end" "method" ";"

  A module may call itself and the modules that it names as parameters.
-/
import CandidateSearch.Grammar.Statement

namespace CandidateSearch.Grammar

open Source Syntax

/-! ### Parameters -/

/-- In a parameter group only variables may stand. -/
def noMember : Parse Expr := do
  let token ← peek
  complain (.expected "variable" token.text) token.span
  let _ ← advance
  return .missing token.span

/-- Declares the variables of a parameter group, in order; each needs a type. -/
def declareMembers (input : Bool) : List Pending → List (Ty × Span) → Parse (List Var)
  | [], _ => return []
  | pending :: rest, tys => do
      let declared ← match pending with
        | .value _ => pure []
        | .name name span own =>
            match own <|> tys.head? with
            | some (ty, tySpan) => do pure [← declare name span ty tySpan .parameter input]
            | none => do
                complain (.untypedParameter name) span
                pure []
      return declared ++ (← declareMembers input rest tys.tail)

/-- A parameter; `input` says that a group at this place would be the first one. -/
def param (input : Bool) : Parse Param := do
  let token ← peek
  match moduleName? token with
  | some name =>
      let _ ← advance
      return .callee name token.span
  | none =>
      if token.is .openBrace then
        let (members, tys) ← pendingMembers noMember ((← remaining) + 1)
        return .group (← declareMembers input members tys) token.span
      complain (.expected "parameter" token.text) token.span
      let _ ← advance
      return .missing token.span

/-- One parameter or more with commas between them. -/
def paramsFrom (input : Bool) : Nat → Parse (List Param)
  | 0 => return []
  | fuel + 1 => do
      let first ← param input
      if ← at? .comma then
        let _ ← advance
        return first :: (← paramsFrom (input && first.group?.isNone) fuel)
      return [first]

def params : Parse (List Param) := do
  let _ ← consume .openParen
  let read ← if ← at? .closeParen then pure [] else paramsFrom true ((← remaining) + 1)
  let _ ← consume .closeParen
  return read

/-! ### Methods -/

/-- Takes the guard out of a body: a `when` in front of all other statements. -/
def splitGuard : List Stmt → Option Expr × List Stmt
  | [] => (none, [])
  | s :: rest =>
      if s.isMissing then
        let (guard, body) := splitGuard rest
        (guard, s :: body)
      else match s.guard? with
        | some condition => (some condition, rest)
        | none => (none, s :: rest)

/-- Complains about every `when` that is left in a body. -/
def checkBody : List Stmt → Parse Unit
  | [] => return ()
  | s :: rest => do
      if s.guard?.isSome then complain .misplacedWhen s.span
      checkBody rest

def method (callables : List String) : Parse Method := do
  let token ← consume .method
  modify fun s => { s with locals := [] }
  let stmts ← untilEndWord (stmt callables) ((← remaining) + 1)
  let _ ← consume .endWord
  let _ ← consume .method
  let _ ← terminator
  let locals := (← get).locals
  modify fun s => { s with locals := [] }
  let (guard, body) := splitGuard stmts
  checkBody body
  return { guard, body, locals, span := token.span }

/-! ### Modules -/

def moduleHead : Parse (String × Span) := do
  let token ← peek
  let name ← match token.kind with
    | .function name => pure name
    | _ => do
        complain (.expected "module name" token.text) token.span
        pure missingName
  let _ ← advance
  return (name, token.span)

def wholeModule : Parse Module := do
  modify fun s => { s with fields := [], locals := [] }
  let (name, span) ← moduleHead
  let params ← params
  let callables := name :: params.filterMap Param.callee?
  let methods ← untilEndWord (method callables) ((← remaining) + 1)
  if methods.isEmpty then complain (.noMethod name) span
  let _ ← consume .endWord
  if ← expect .moduleWord then
    let _ ← advance
  let _ ← terminator
  return { name, params, methods, span }

/-- What was read from the tokens of a source, and what there is to complain about. -/
structure Parsed where
  modules : List Module
  complaints : List Complaint

/-- Reads all the modules of a source. -/
def parse (tokens : List Token) : Parsed :=
  let (modules, state) := (untilEnd wholeModule (tokens.length + 1)).run { rest := tokens }
  ⟨modules, state.complaints.reverse⟩

end CandidateSearch.Grammar
