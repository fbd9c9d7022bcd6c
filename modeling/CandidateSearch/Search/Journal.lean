/-
  CandidateSearch/Search/Journal.lean
  ===================================
  **The log of a run.**

  What is logged can be read off the steps that a run makes: the choice points that are
  registered and taken off, the calls, and the solutions.  The machine itself keeps no log.
-/
import CandidateSearch.Log
import CandidateSearch.Search.Solutions

namespace CandidateSearch.Search

/-- The events of registering choice points on top of those that are there; the one to be
    tried first is registered last. -/
def pushEvents (depth : Nat) : List Job → List Event
  | [] => []
  | job :: below => pushEvents depth below ++ [.pushed (depth + below.length + 1) job.label]

/-- The event of a call, if a job has ended with one. -/
def callEvents : Goal Job → List Event
  | .run (.enter callee _) => [.called callee.plan.name]
  | _ => []

/-- The events of one step. -/
def stepEvents (p : Plan.Program) : Goal Job → Machine Job → List Event
  | .success, _ => []
  | .failure, m =>
      match m.choices with
      | [] => []
      | job :: rest => [.popped rest.length job.label]
  | .run job, m =>
      match exec p job m.store with
      | .ok outcome _ => pushEvents m.depth outcome.choices ++ callEvents outcome.goal
      | .error _ _ => []

/-- The events of a search, in front of which stand those that came before, the newest
    first. -/
def searchEventsOnto (p : Plan.Program) :
    Nat → List Event → Goal Job → Machine Job → List Event
  | 0, before, _, _ => before
  | fuel + 1, before, goal, m =>
      let before := (stepEvents p goal m).reverse ++ before
      match step (exec p) goal m with
      | .on goal m => searchEventsOnto p fuel before goal m
      | _ => before

def searchEvents (p : Plan.Program) (fuel : Nat) (goal : Goal Job) (m : Machine Job) :
    List Event :=
  (searchEventsOnto p fuel [] goal m).reverse

namespace Stream

/-- The events of a pull. -/
def pullEvents (fuel : Nat) (stream : Stream) : List Event :=
  if stream.isClosed then []
  else
    let events := searchEvents stream.program fuel stream.goal stream.machine
    match stream.pull fuel with
    | (.solution _, after) => events ++ [.solved after.machine.depth]
    | _ => events

/-- The events of the given number of pulls. -/
def pullsEvents (fuel : Nat) : Nat → Stream → List Event
  | 0, _ => []
  | n + 1, stream => stream.pullEvents fuel ++ (stream.pull fuel).2.pullsEvents fuel n

/-- The events of a whole run. -/
def collectEvents (fuel : Nat) : Nat → Stream → List Event
  | 0, _ => []
  | n + 1, stream =>
      match stream.pull fuel with
      | (.solution _, after) => stream.pullEvents fuel ++ after.collectEvents fuel n
      | _ => stream.pullEvents fuel

end Stream

end CandidateSearch.Search
