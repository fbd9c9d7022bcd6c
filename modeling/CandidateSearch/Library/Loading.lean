/-
  CandidateSearch/Library/Loading.lean
  ====================================
  **All the modules that a program needs.**

  The modules of the entry source come first.  A call of a module that is not defined yet
  is looked up among the sources by its name; all the modules of the text found join the
  program, and their calls are looked up in turn.  Each source is read once at most.
-/
import CandidateSearch.Grammar.Module
import CandidateSearch.Library.Logged
import CandidateSearch.Library.Sources
import CandidateSearch.Token.Scan

namespace CandidateSearch.Library

open Source Syntax

/-! ### Reading one document -/

def scan (document : Document) : Logged (List Token) := do
  Logged.log (.scanning document.name)
  let scanned := Token.scan document.chars
  Logged.log (.scanned scanned.tokens.length)
  Logged.finish .lex document.name (scanned.complaints.map document.diagnose) scanned.tokens

/-- The modules of a document. -/
def read (document : Document) : Logged (List Module) := do
  let tokens ← scan document
  Logged.log (.parsing document.name)
  let parsed := Grammar.parse tokens
  Logged.log (.parsed parsed.modules.length)
  Logged.finish .parse document.name (parsed.complaints.map document.diagnose) parsed.modules

/-! ### Loading -/

/-- A module and the document that it comes from. -/
structure Loaded where
  document : Document
  syntaxTree : Module

structure State where
  units : List Loaded := []                -- the modules found so far
  requested : List String := []            -- the names that have been looked up
  diagnostics : List Diagnostic := []

def State.defines (s : State) (name : String) : Bool :=
  s.units.any fun unit => unit.syntaxTree.name == name

/-- Adds the modules of a document; a second module of one name is refused. -/
def State.add (document : Document) (s : State) (m : Module) : State :=
  if s.defines m.name then
    let diagnostic := document.diagnose ⟨.redefinedModule m.name, m.span⟩
    { s with diagnostics := s.diagnostics ++ [diagnostic] }
  else { s with units := s.units ++ [⟨document, m⟩] }

/-- Reads a text and adds its modules. -/
def State.load (s : State) (name text : String) : Logged State := do
  let document := Document.ofText name text
  let modules ← read document
  return modules.foldl (State.add document) s

/-- The calls of a module and where they stand. -/
def calls (m : Module) : List (String × Span) :=
  (m.methods.flatMap (·.body)).filterMap fun s =>
    match s.action with
    | .call callee _ _ => some (callee, s.span)
    | _ => none

/-- Looks a name up among the sources, unless that has been done before. -/
def State.request (sources : Sources) (s : State) (name : String) : Logged State :=
  if s.requested.contains name then return s
  else
    let s := { s with requested := s.requested ++ [name] }
    match sources.get? name with
    | some text => do
        Logged.log (.loading name)
        s.load name text
    | none => return s

/-- Reports that a module is not defined, once for each name. -/
def State.reportUndefined (caller : Document) (s : State) (name : String) (span : Span) : State :=
  let diagnostic := caller.diagnose ⟨.undefinedModule name, span⟩
  if s.diagnostics.any fun d => d.message == diagnostic.message then s
  else { s with diagnostics := s.diagnostics ++ [diagnostic] }

/-- Sees to it that a module that is called is there. -/
def State.resolve (sources : Sources) (caller : Document) (s : State) (call : String × Span) :
    Logged State :=
  let (name, span) := call
  if s.defines name then return s
  else do
    let s ← s.request sources name
    return if s.defines name then s else s.reportUndefined caller name span

def resolveCalls (sources : Sources) (s : State) (unit : Loaded) : Logged State :=
  (calls unit.syntaxTree).foldlM (State.resolve sources unit.document) s

/-- Resolves the calls of some modules, then those of the modules that came in by that,
    and so on.  Every round but the last one reads a source that was not read before. -/
def close (sources : Sources) : Nat → List Loaded → State → Logged State
  | 0, _, s => return s
  | fuel + 1, units, s => do
      let after ← units.foldlM (resolveCalls sources) s
      let new := after.units.drop s.units.length
      if new.isEmpty then return after else close sources fuel new after

/-- The modules of a source and of all that it calls, directly or not. -/
def load (name text : String) (sources : Sources) : Logged (List Loaded) := do
  let s ← State.load {} name text
  if s.units.isEmpty then
    Logged.fail [{ message := Problem.noModule.message, file := name }]
  else
    let s ← close sources (sources.size + 1) s.units s
    if s.diagnostics.isEmpty then
      Logged.log (.loaded s.units.length)
      return s.units
    else Logged.fail s.diagnostics

end CandidateSearch.Library
