/-
  CandidateSearch/Compile.lean
  ============================
  **From source text to a program that can run.**

  A source is read together with the modules that it calls, its variables get their
  slots, the statements of each method are put in order, and a plan, a listing and a
  manifest are made of that.  Every step reports all that it finds wrong, and nothing is
  made of a source that has a problem.
-/
import CandidateSearch.Library.Loading
import CandidateSearch.Listing.Program
import CandidateSearch.Plan.Manifest
import CandidateSearch.Resolved.OfSyntax

namespace CandidateSearch

open Source Library

structure Options where
  name : String := inlineName          -- the name of the source in reports
  listing : Bool := true               -- whether the listing is wanted
  sources : Sources := {}

structure Compiled where
  listing : String                     -- empty if it is not wanted
  manifest : Manifest
  program : Plan.Program

/-! ### Steps -/

/-- Gives slots to the variables of a module.  The text that is shown with complaints is
    brought to normal form once more. -/
def lower (unit : Loaded) : Logged (Document × Resolved.Module) := do
  let document : Document := ⟨unit.document.name, normalize unit.document.chars⟩
  let outcome := Resolved.ofSyntax unit.syntaxTree
  Logged.log (.lowered outcome.value.name outcome.value.fields.length)
  Logged.finish .lower document.name (outcome.complaints.map document.diagnose)
    (unit.document, outcome.value)

/-- Does this for all modules, also after one of them has failed. -/
def lowerAll : List Loaded → Logged (List (Document × Resolved.Module))
  | [] => pure []
  | unit :: rest =>
      let first := lower unit
      let others := lowerAll rest
      let result := match first.result, others.result with
        | .ok first, .ok others => .ok (first :: others)
        | .ok _, .error diagnostics => .error diagnostics
        | .error diagnostics, .ok _ => .error diagnostics
        | .error diagnostics, .error more => .error (diagnostics ++ more)
      ⟨first.events ++ others.events, result⟩

def scheduleMethod (document : Document) (name : String) (method : Resolved.Method) :
    Logged Schedule.Method :=
  match Schedule.schedule method.body with
  | .ok blocks => do
      Logged.log (.scheduledBody method.body.length blocks.length)
      Logged.log (.scheduledMethod name method.number blocks.length)
      return ⟨method, blocks⟩
  | .error index =>
      let message := Schedule.malformedMessage index
      Logged.fail [.ofSpan message document.name document.chars method.span]

def scheduleModule (lowered : Document × Resolved.Module) : Logged Schedule.Module := do
  let (document, resolved) := lowered
  let methods ← resolved.methods.mapM (scheduleMethod document resolved.name)
  return ⟨document, resolved, methods⟩

/-! ### The whole -/

/-- Compiles a source. -/
def compile (options : Options) (source : String) : Logged Compiled := do
  let units ← load options.name source options.sources
  Logged.log (.lowering units.length)
  let lowered ← lowerAll units
  Logged.log .scheduling
  let scheduled ← lowered.mapM scheduleModule
  Logged.log .generating
  let program ← Logged.ofExcept (Plan.Program.ofSchedule scheduled)
  let listing := if options.listing then Listing.text options.name scheduled else ""
  Logged.log (.compiled options.name scheduled.length)
  return { listing, manifest := .ofProgram program, program }

/-- Compiles one of the sources; the others are there to be called. -/
def compileProject (options : Options) (entry : String) (sources : Sources) : Logged Compiled :=
  match sources.get? entry with
  | some text => compile { options with name := entry, sources } text
  | none => Logged.fail [{ message := (Problem.undefinedModule entry).message }]

end CandidateSearch
