/-
  CandidateSearch/Search/Machine.lean
  ===================================
  **The backtracking machine.**

  The machine works on jobs.  Running a job can change the store, can register jobs as
  choice points and says how to go on: the search has succeeded, this branch of it has
  failed, or there is a job to run next.  On failure the choice point that was registered
  last is taken off and run.

  What the jobs are is left open here.  Looking for a further solution is the same as
  going on after a failure, so a search that has found a solution can be resumed.
-/
import CandidateSearch.Store

namespace CandidateSearch.Search

variable {κ : Type}

/-- How to go on. -/
inductive Goal (κ : Type) where
  | success
  | failure                    -- there is nothing down this branch
  | run (job : κ)
deriving Repr

/-- What comes out of a job besides its effect on the store. -/
structure Outcome (κ : Type) where
  choices : List κ := []       -- the new choice points, the one to try first in front
  goal : Goal κ
deriving Repr

/-- The meaning of jobs. -/
abbrev Exec (κ : Type) := κ → Effect (Outcome κ)

/-- What a machine keeps between two searches. -/
structure Machine (κ : Type) where
  store : Store := {}
  choices : List κ := []       -- the one to try first in front
deriving Repr

namespace Machine

def depth (m : Machine κ) : Nat := m.choices.length

def push (m : Machine κ) (job : κ) : Machine κ := { m with choices := job :: m.choices }

/-- The same machine, with its choice points in a place that has been given room for so
    many.  More of them are taken as they come.  Whether there is so much room is outside the
    program: a capacity that the allocator refuses is not an outcome here. -/
def reserve (m : Machine κ) (capacity : Nat) : Machine κ :=
  { m with choices := (m.choices.foldl Array.push (Array.emptyWithCapacity capacity)).toList }

end Machine

/-! ### One step -/

/-- What a step leads to. -/
inductive Move (κ : Type) where
  | on (goal : Goal κ) (machine : Machine κ)
  | solved (machine : Machine κ)
  | exhausted (machine : Machine κ)
  | faulted (fault : Fault) (machine : Machine κ)

/-- One step toward a goal. -/
def step (exec : Exec κ) : Goal κ → Machine κ → Move κ
  | .success, m => .solved m
  | .failure, ⟨store, []⟩ => .exhausted ⟨store, []⟩
  | .failure, ⟨store, job :: rest⟩ => .on (.run job) ⟨store, rest⟩
  | .run job, ⟨store, choices⟩ =>
      match exec job store with
      | .ok outcome store => .on outcome.goal ⟨store, outcome.choices ++ choices⟩
      | .error fault store => .faulted fault ⟨store, choices⟩

/-! ### The search -/

/-- How a search ends. -/
inductive Stop (κ : Type) where
  | solved (machine : Machine κ)
  | exhausted (machine : Machine κ)
  | faulted (fault : Fault) (machine : Machine κ)
  | unfinished (goal : Goal κ) (machine : Machine κ)    -- no steps were left

/-- Searches for at most the given number of steps. -/
def search (exec : Exec κ) : Nat → Goal κ → Machine κ → Stop κ
  | 0, goal, m => .unfinished goal m
  | fuel + 1, goal, m =>
      match step exec goal m with
      | .on goal m => search exec fuel goal m
      | .solved m => .solved m
      | .exhausted m => .exhausted m
      | .faulted fault m => .faulted fault m

/-- Looks for the next solution. -/
def redo (exec : Exec κ) (fuel : Nat) (m : Machine κ) : Stop κ := search exec fuel .failure m

/-- More steps than any search can take. -/
def manySteps : Nat := 4611686018427387904

/-- A goal in words. -/
def Goal.text (label : κ → String) : Goal κ → String
  | .success => "Success"
  | .failure => "Failure"
  | .run job => "Next(" ++ label job ++ ")"

end CandidateSearch.Search
