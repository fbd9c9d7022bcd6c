/-
  CandidateSearch/Source/Problem.lean
  ===================================
  **What can be wrong with a source.**

  A complaint is a problem together with the stretch of text it is about.  The stages
  collect complaints and go on, so that one run reports as many as it can.
-/
import CandidateSearch.Source.Span
import CandidateSearch.Syntax.Ty
import CandidateSearch.Text.Quoted

namespace CandidateSearch.Source

open Text (quoted)

/-- A defect of a source text. -/
inductive Problem where
  | unexpectedCharacter
  | unterminatedString
  | expected (wanted found : String)            -- the text found is quoted
  | unexpectedToken (found : String)
  | expectedKind (wanted found : String)        -- the kind found is named
  | expectedType (wanted : String) (found : Ty)
  | memberCount (wanted found : Nat)
  | untypedParameter (name : String)
  | redefinedVariable (name : String) (ty : Ty)
  | undefinedVariable (name : String)
  | noMethod (name : String)
  | misplacedWhen
  | redefinedModule (name : String)
  | undefinedModule (name : String)
  | noModule
  | callArity (name : String) (inputs outputs givenInputs givenOutputs : Nat)
  | invalidNumber (text : String)
deriving DecidableEq, Repr

/-- The wording of a problem. -/
def Problem.message : Problem → String
  | .unexpectedCharacter => "Unexpected character."
  | .unterminatedString => "Unterminated string."
  | .expected wanted found => s!"Expected {wanted}, but got {quoted found}."
  | .unexpectedToken found => s!"Unexpected token {quoted found}."
  | .expectedKind wanted found => s!"Expected {wanted}, but got {found}."
  | .expectedType wanted found => s!"Expected {wanted}, but got {found.text}."
  | .memberCount wanted found => s!"Expected {wanted} member types, but got {found}."
  | .untypedParameter name => s!"Parameter {quoted name} needs a type."
  | .redefinedVariable name ty => s!"Variable {quoted name} is already defined as {ty.text}."
  | .undefinedVariable name => s!"Variable {quoted name} is not defined."
  | .noMethod name => s!"Module {quoted name} has no method."
  | .misplacedWhen => "\"when\" must be the first statement of a method."
  | .redefinedModule name => s!"Module {quoted name} is already defined."
  | .undefinedModule name => s!"Module {quoted name} is not defined."
  | .noModule => "Source defines no module."
  | .callArity name inputs outputs givenInputs givenOutputs =>
      s!"Module {quoted name} takes {inputs} inputs and {outputs} outputs, "
        ++ s!"but got {givenInputs} and {givenOutputs}."
  | .invalidNumber text => s!"invalid numeric literal '{text}'."

/-- A problem and where it is. -/
structure Complaint where
  problem : Problem
  span : Span
deriving DecidableEq, Repr

end CandidateSearch.Source
