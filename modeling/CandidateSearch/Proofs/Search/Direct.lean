/-
  CandidateSearch/Proofs/Search/Direct.lean
  =========================================
  **The search without choice points.**

  The same programs are run here by nested loops.  What is still to be done is a function
  of the store, so that

      X = for(1, 3, 1);  test(X > 1);

  is a loop whose body tests `X` and then does what follows.  A round of a loop starts
  from the store that the round before it left behind, and so does an alternative of a
  module.  A call runs the module that is called, with the rest of the caller's method as
  what follows.

  Calls can recur without end and a range can be too long, so an exploration is given a
  depth: it bounds the calls that are open at a time and the rounds of a range.  Where the
  depth does not suffice the exploration is cut, and what it has found so far stays.
-/
import CandidateSearch.Search.Solutions

namespace CandidateSearch.Search

/-! ### Explorations -/

/-- How an exploration ends. -/
inductive Ending where
  | done (s : Store)           -- there is nothing more to be found
  | fault (f : Fault)
  | cut                        -- the depth does not suffice

/-- What an exploration finds, in order. -/
structure Sweep where
  found : List Solution
  ending : Ending

/-- Something to be explored from the store as it is. -/
abbrev Explore := Store → Sweep

namespace Sweep

/-- Goes on from the store that an exploration leaves behind. -/
def andThen (first : Sweep) (second : Explore) : Sweep :=
  match first.ending with
  | .done s => ⟨first.found ++ (second s).found, (second s).ending⟩
  | .fault f => ⟨first.found, .fault f⟩
  | .cut => ⟨first.found, .cut⟩

end Sweep

namespace Explore

def nothing : Explore := fun s => ⟨[], .done s⟩

def giveUp : Explore := fun _ => ⟨[], .cut⟩

def fail (f : Fault) : Explore := fun _ => ⟨[], .fault f⟩

/-- Does something with the store and then explores. -/
def perform {α : Type} (effect : Effect α) (next : α → Explore) : Explore := fun s =>
  match effect s with
  | .ok a s => next a s
  | .error f _ => ⟨[], .fault f⟩

def also (first second : Explore) : Explore := fun s => (first s).andThen second

end Explore

open Explore

/-! ### Loops -/

def assignNumber (target : Ref) (d : Decimal) : Effect Unit := do
  let v ← Effect.ofExcept (Value.ofDecimal? d)
  modify (·.write target v)

/-- Explores the body for the numbers from the current one up to the last one. -/
def countUp (target : Ref) (last step : Decimal) (body : Explore) : Nat → Decimal → Explore
  | 0, _ => giveUp
  | rounds + 1, current =>
      if current.atMost last then
        (perform (assignNumber target current) fun _ => body).also
          (countUp target last step body rounds (current.add step))
      else nothing

def forEach (target : Binder) (body : Explore) : List Value → Explore
  | [] => nothing
  | item :: rest => (perform (target.bind item) fun _ => body).also (forEach target body rest)

/-! ### Methods -/

section Methods

variable (p : Plan.Program) (depth : Nat) (call : Instance → Explore → Explore)

/-- Explores the body as the transfer says: once, in a loop, or after a call. -/
def exploreTransfer (env : Env) (body : Explore) : Plan.Transfer → Explore
  | .proceed => body
  | .range target first last step =>
      perform (Effect.ofExcept (env.ref target)) fun r =>
      perform (env.reading first.evalNumber) fun first =>
      perform (env.reading last.evalNumber) fun last =>
      perform (env.reading step.evalNumber) fun step =>
        if step.atMost (.ofInt 0) then fail (.invalidStep step.text)
        else countUp r last step body depth first
  | .member target list =>
      perform (env.reading list.evalValue) fun v =>
      perform (Effect.ofExcept v.list?) fun items =>
      perform (Effect.ofExcept (env.binder target)) fun binder =>
        forEach binder body items
  | .call callee inputs outputs =>
      match p.modules[callee]? with
      | some plan =>
          perform (passInputs env (inputs.zip plan.fields)) fun inputs =>
          perform (Effect.ofExcept (env.refs outputs)) fun outputs =>
            call ⟨plan, inputs ++ outputs⟩ body
      | none => nothing

/-- Runs the stages of a method and then what follows it. -/
def exploreStages (env : Env) (follow : Explore) : List Plan.Stage → Explore
  | [] => follow
  | stage :: rest =>
      perform (runOps env stage.ops) fun holds =>
        if holds then
          exploreTransfer p depth call env (exploreStages env follow rest) stage.transfer
        else nothing

/-- Opens a method and runs it if its guard holds. -/
def exploreMethod (callee : Instance) (follow : Explore) (method : Plan.Method) : Explore :=
  perform (openMethod callee method) fun env =>
  perform (guardHolds env method) fun holds =>
    if holds then exploreStages p depth call env follow method.stages else nothing

def exploreMethods (callee : Instance) (follow : Explore) : List Plan.Method → Explore
  | [] => nothing
  | method :: later =>
      (exploreMethod p depth call callee follow method).also (exploreMethods callee follow later)

end Methods

/-! ### Modules -/

/-- Runs a module and then what follows.  The guard of an only method is not looked at. -/
def exploreModule (p : Plan.Program) : Nat → Instance → Explore → Explore
  | 0, _, _ => giveUp
  | depth + 1, callee, follow =>
      match callee.plan.methods with
      | [method] =>
          perform (openMethod callee method) fun env =>
            exploreStages p depth (exploreModule p depth) env follow method.stages
      | methods => exploreMethods p depth (exploreModule p depth) callee follow methods

/-- The outputs as they are in the store. -/
def snapshotOf (outputs : List (Plan.Field × Ref)) (s : Store) : Solution :=
  ⟨outputs.map fun (field, r) => (field.name, (s.value? r).getD (.default field.ty))⟩

/-- What follows the entry module: its outputs are a solution. -/
def emit (outputs : List (Plan.Field × Ref)) : Explore := fun s =>
  ⟨[snapshotOf outputs s], .done s⟩

def explore (depth : Nat) (p : Plan.Program) (b : Bindings) : Except Fault Sweep :=
  match p.entry? with
  | none => .error .noEntry
  | some entry => do
      let (inputs, s) ← bindInputs b entry.inputs {}
      let (outputs, s) := s.allocAll (entry.outputs.map (·.name))
      return exploreModule p depth ⟨entry, inputs ++ outputs⟩ (emit (entry.outputs.zip outputs)) s

/-- What a stream has to give: the solutions, and then the fault or the end. -/
def Sweep.items (sweep : Sweep) : List Item :=
  sweep.found.map .solution ++
    match sweep.ending with
    | .done _ => [.done]
    | .fault f => [.fault f]
    | .cut => []

/-! ### Laws -/

namespace Sweep

@[simp] theorem andThen_done (found : List Solution) (s : Store) (second : Explore) :
    (Sweep.mk found (.done s)).andThen second =
      ⟨found ++ (second s).found, (second s).ending⟩ := rfl

@[simp] theorem andThen_fault (found : List Solution) (f : Fault) (second : Explore) :
    (Sweep.mk found (.fault f)).andThen second = ⟨found, .fault f⟩ := rfl

@[simp] theorem andThen_cut (found : List Solution) (second : Explore) :
    (Sweep.mk found .cut).andThen second = ⟨found, .cut⟩ := rfl

end Sweep

namespace Explore

variable {α : Type}

@[simp] theorem nothing_also (second : Explore) : nothing.also second = second := by
  funext s
  simp [also, nothing]

theorem also_nothing (first : Explore) : first.also nothing = first := by
  funext s
  simp only [also]
  rcases h : first s with ⟨found, _ | _ | _⟩ <;> simp [nothing]

/-- What comes after everything comes after each branch. -/
theorem perform_also (effect : Effect α) (next : α → Explore) (second : Explore) :
    (perform effect next).also second = perform effect fun a => (next a).also second := by
  funext s
  simp only [also, perform]
  cases effect s <;> simp

end Explore

end CandidateSearch.Search
