/-
  CandidateSearch/Search/Script.lean
  ==================================
  **Searches written down as lists of commands.**

  A script uses the machine and the generators without a plan.  Its commands are met from
  left to right, and when none is left the search has succeeded.  A generator is started
  anew each time it is reached, and each branch of an alternative is followed by the rest
  of the script.
-/
import CandidateSearch.Search.Generator
import CandidateSearch.Search.Machine

namespace CandidateSearch.Search.Script

/-! ### Commands -/

/-- A number that is written down, or the value of a variable. -/
inductive Amount where
  | written (text : String)
  | var (r : Ref)
deriving DecidableEq, Repr

/-- A command that starts a generator. -/
inductive Source where
  | range (target : Ref) (first last step : Amount)
  | member (target : Binder) (items : List Value)
deriving Repr

inductive Command where
  | generate (source : Source)
  | bind (target : Binder) (value : Value)
  | same (r : Ref) (value : Value)         -- fails unless they are the same
  | different (r : Ref) (value : Value)
  | less (a b : Amount)
  | either (branches : List (List Command))
  | fail
  | succeed                                -- whatever is left
  | fault                                  -- ends the search as broken
deriving Repr

/-- What is left of a script, with a command in front, or a generator that is at work. -/
inductive Job where
  | command (c : Command) (after : List Command)
  | generate (generator : Generator) (after : List Command)
deriving Repr

def Job.label : Job → String
  | .command _ _ => "Native"
  | .generate generator _ => generator.label

/-! ### Running -/

/-- The number that an amount stands for. -/
def Amount.number? (s : Store) : Amount → Except Fault Decimal
  | .written text => Decimal.parse text
  | .var r => do
      let v ← s.read r
      v.number?

/-- The generator that a command starts, if it has anything to offer. -/
def Source.start? (s : Store) : Source → Except Fault (Option Generator)
  | .range target first last step => do
      let first ← first.number? s
      let last ← last.number? s
      let step ← step.number? s
      let range ← Range.start? target first last step
      return range.map .range
  | .member target items => .ok ((Member.start? target items).map .member)

/-- Goes on with a script. -/
def proceed : List Command → Goal Job
  | [] => .success
  | c :: after => .run (.command c after)

/-- Goes on with a script if something holds. -/
def proceedIf (holds : Bool) (after : List Command) : Goal Job :=
  if holds then proceed after else .failure

/-- Starts a generator, behind which the rest of a script comes. -/
def start (source : Source) (after : List Command) : Effect (Goal Job) := do
  let generator ← Effect.reading fun s => source.start? s
  match generator with
  | some g => return .run (.generate g after)
  | none => return .failure

/-- The choice points of scripts; one that has no command is none. -/
def pending (scripts : List (List Command)) : List Job :=
  scripts.filterMap fun
    | [] => none
    | c :: after => some (.command c after)

def exec : Exec Job
  | .command (.generate source) after => do
      let goal ← start source after
      return { goal }
  | .command (.bind target value) after => do
      target.bind value
      return { goal := proceed after }
  | .command (.same r value) after => do
      let v ← Effect.reading (·.read r)
      return { goal := proceedIf (v.same value) after }
  | .command (.different r value) after => do
      let v ← Effect.reading (·.read r)
      return { goal := proceedIf (!v.same value) after }
  | .command (.less a b) after => do
      let x ← Effect.reading fun s => a.number? s
      let y ← Effect.reading fun s => b.number? s
      return { goal := proceedIf (x.less y) after }
  | .command (.either branches) after =>
      match branches with
      | [] => return { goal := .failure }
      | first :: others =>
          return { choices := pending (others.map (· ++ after)), goal := proceed (first ++ after) }
  | .command .fail _ => return { goal := .failure }
  | .command .succeed _ => return { goal := .success }
  | .command .fault _ => throw .noEntry
  | .generate generator after => do
      let rest ← generator.advance
      return { choices := rest.toList.map fun g => .generate g after, goal := proceed after }

end CandidateSearch.Search.Script
