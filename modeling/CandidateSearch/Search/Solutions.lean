/-
  CandidateSearch/Search/Solutions.lean
  =====================================
  **The solutions of a program.**

  The inputs of the entry module are given by name.  The solutions form a stream: each
  pull goes on searching where the last one stopped, until there are no more, a fault
  ends the run, or the limit is reached.  From then on every pull finds the end.
-/
import CandidateSearch.Search.Job

namespace CandidateSearch.Search

/-! ### Inputs -/

/-- Values by name.  The one that was given last counts. -/
structure Bindings where
  entries : List (String × Value) := []
deriving Repr

namespace Bindings

def insert (b : Bindings) (name : String) (v : Value) : Bindings := ⟨(name, v) :: b.entries⟩

def ofList (entries : List (String × Value)) : Bindings :=
  entries.foldl (fun b (name, v) => b.insert name v) {}

def find? (b : Bindings) (name : String) : Option Value :=
  (b.entries.find? fun entry => entry.1 == name).map (·.2)

/-- The value for an input.  A name that is given with an underscore in front of it comes
    before the plain name. -/
def get? (b : Bindings) (name : String) : Option Value :=
  (b.find? ("_" ++ name)).or (b.find? name)

end Bindings

/-! ### Solutions -/

/-- The outputs of the entry module in the order of their declaration. -/
structure Solution where
  values : List (String × Value)
deriving Repr

namespace Solution

def get? (s : Solution) (name : String) : Option Value :=
  (s.values.find? fun entry => entry.1 == name).map (·.2)

def size (s : Solution) : Nat := s.values.length

def json (s : Solution) : Text.Json := .object (s.values.map fun (name, v) => (name, v.json))

end Solution

/-! ### The stream -/

structure Stream where
  program : Plan.Program
  outputs : List (Plan.Field × Ref)
  goal : Goal Job              -- where the next pull starts
  machine : Machine Job := {}
  limit : Option Nat := none   -- how many solutions may still be given
  ended : Bool := false

/-- How a program is run. -/
structure RunOptions where
  maxSolutions : Option Nat := none    -- how many solutions are given at most
  choicePoints : Nat := 100            -- for how many choice points there is room at first
deriving Repr

/-- What a pull gives. -/
inductive Item where
  | solution (s : Solution)
  | fault (f : Fault)
  | done                       -- the end
  | unfinished                 -- the pull ran out of steps
deriving Repr

/-- The cells of the inputs. -/
def bindInputs (b : Bindings) : List Plan.Field → Store → Except Fault (List Ref × Store)
  | [], s => .ok ([], s)
  | field :: rest, s =>
      match b.get? field.name with
      | some v => do
          let (r, s) := s.alloc field.name (some v)
          let (rs, s) ← bindInputs b rest s
          return (r :: rs, s)
      | none => .error (.missingInput field.name)

namespace Stream

/-- The stream of a program's solutions.  Every input has to be given. -/
def start (p : Plan.Program) (b : Bindings) (limit : Option Nat) : Except Fault Stream :=
  match p.entry? with
  | none => .error .noEntry
  | some entry => do
      let (inputs, s) ← bindInputs b entry.inputs {}
      let (outputs, s) := s.allocAll (entry.outputs.map (·.name))
      return { program := p, outputs := entry.outputs.zip outputs, machine := ⟨s, []⟩, limit
               goal := .run (.enter ⟨entry, inputs ++ outputs⟩ []) }

/-- The stream of a program's solutions as the options say. -/
def startWith (p : Plan.Program) (b : Bindings) (options : RunOptions) : Except Fault Stream := do
  let stream ← start p b options.maxSolutions
  return { stream with machine := stream.machine.reserve options.choicePoints }

/-- The outputs as they are in the store; one that is not bound has a default value. -/
def snapshot (stream : Stream) (s : Store) : Solution :=
  ⟨stream.outputs.map fun (field, r) => (field.name, (s.value? r).getD (.default field.ty))⟩

/-- Whether a pull can only find the end. -/
def isClosed (stream : Stream) : Bool := stream.ended || stream.limit == some 0

/-- The stream after its end. -/
def close (stream : Stream) (m : Machine Job) : Stream :=
  { stream with goal := .failure, machine := m, ended := true }

/-- Goes on to the next solution, with at most the given number of steps. -/
def pull (fuel : Nat) (stream : Stream) : Item × Stream :=
  if stream.isClosed then (.done, stream)
  else
    match search (exec stream.program) fuel stream.goal stream.machine with
    | .solved m =>
        (.solution (stream.snapshot m.store),
          { stream with goal := .failure, machine := m, limit := stream.limit.map (· - 1) })
    | .exhausted m => (.done, stream.close m)
    | .faulted fault m => (.fault fault, stream.close m)
    | .unfinished goal m => (.unfinished, { stream with goal, machine := m })

/-- The given number of pulls. -/
def pulls (fuel : Nat) : Nat → Stream → List Item × Stream
  | 0, stream => ([], stream)
  | n + 1, stream =>
      let (item, stream) := stream.pull fuel
      let (items, stream) := stream.pulls fuel n
      (item :: items, stream)

/-- The solutions of a whole run, the newest in front of those found before. -/
def collectOnto (fuel : Nat) : Nat → List Solution → Stream → Except Fault (List Solution)
  | 0, found, _ => .ok found
  | n + 1, found, stream =>
      match stream.pull fuel with
      | (.solution s, stream) => stream.collectOnto fuel n (s :: found)
      | (.fault f, _) => .error f
      | (_, _) => .ok found

/-- All solutions up to the end or the limit, or the fault that ended the run. -/
def collect (fuel : Nat) (stream : Stream) : Except Fault (List Solution) :=
  (stream.collectOnto fuel fuel []).map List.reverse

end Stream

/-- Runs a program. -/
def run (fuel : Nat) (p : Plan.Program) (b : Bindings) (limit : Option Nat) :
    Except Fault (List Solution) := do
  let stream ← Stream.start p b limit
  stream.collect fuel

/-- Runs a program as the options say. -/
def runWith (fuel : Nat) (p : Plan.Program) (b : Bindings) (options : RunOptions) :
    Except Fault (List Solution) := do
  let stream ← Stream.startWith p b options
  stream.collect fuel

end CandidateSearch.Search
