/-
  CandidateSearch/Plan/Manifest.lean
  ==================================
  **What a program takes and what it gives.**

  The inputs and outputs of the entry module with their types, in declaration order, and
  their description as a JSON document.  A variable whose type is unknown is left out.
-/
import CandidateSearch.Plan.Basic
import CandidateSearch.Text.Json

namespace CandidateSearch

structure Manifest where
  inputs : List Plan.Field := []
  outputs : List Plan.Field := []
deriving DecidableEq, Repr

namespace Manifest

def ofModule (m : Plan.Module) : Manifest :=
  let known := fun f : Plan.Field => decide (f.ty ≠ .unknown)
  ⟨m.inputs.filter known, m.outputs.filter known⟩

/-- The manifest of a program: that of its entry module. -/
def ofProgram (p : Plan.Program) : Manifest := (p.entry?.map ofModule).getD {}

def field (f : Plan.Field) : Text.Json :=
  .object [("name", .string f.name), ("type", .string f.ty.text)]

def json (m : Manifest) : Text.Json :=
  .object [("input", .array (m.inputs.map field)), ("output", .array (m.outputs.map field))]

def text (m : Manifest) : String := m.json.pretty

end Manifest

end CandidateSearch
