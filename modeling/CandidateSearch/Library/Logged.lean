/-
  CandidateSearch/Library/Logged.lean
  ===================================
  **Results with a log.**

  Compiling gives a result or diagnostics, and in either case the events that led to it.
-/
import CandidateSearch.Log
import CandidateSearch.Source.Document

namespace CandidateSearch

open Source (Diagnostic)

structure Logged (α : Type) where
  events : List Event
  result : Except (List Diagnostic) α

namespace Logged

variable {α β : Type}

def bind (x : Logged α) (f : α → Logged β) : Logged β :=
  match x.result with
  | .ok a =>
      let y := f a
      ⟨x.events ++ y.events, y.result⟩
  | .error diagnostics => ⟨x.events, .error diagnostics⟩

instance : Monad Logged where
  pure a := ⟨[], .ok a⟩
  bind := bind

def log (event : Event) : Logged Unit := ⟨[event], .ok ()⟩

def fail (diagnostics : List Diagnostic) : Logged α := ⟨[], .error diagnostics⟩

def ofExcept (result : Except (List Diagnostic) α) : Logged α := ⟨[], result⟩

/-- Ends a stage for a document: without diagnostics it is complete, with some the whole
    is given up. -/
def finish (stage : Stage) (file : String) (diagnostics : List Diagnostic) (value : α) :
    Logged α :=
  if diagnostics.isEmpty then ⟨[.completed stage file], .ok value⟩
  else ⟨[.aborted stage file diagnostics.length], .error diagnostics⟩

end Logged

end CandidateSearch
