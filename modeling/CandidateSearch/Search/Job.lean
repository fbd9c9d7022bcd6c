/-
  CandidateSearch/Search/Job.lean
  ===============================
  **Running a plan.**

  A module is entered with the cells of its fields and opens one of its methods, whose
  locals get new cells.  The methods are alternatives: the first one whose guard holds is
  taken, and the later ones become choice points, whose guards are looked at when they are
  reached.  The guard of a module's only method is not looked at.

  A method runs stage by stage.  What follows a job is the list of the methods that are
  still open, the innermost one in front, each with the stages that it has left.
-/
import CandidateSearch.Plan.Eval
import CandidateSearch.Search.Generator
import CandidateSearch.Search.Machine

namespace CandidateSearch.Search

open Plan (Expr)

/-! ### Environments -/

/-- The cells that the slots of a method stand for. -/
structure Env where
  fields : List Ref
  locals : List Ref
deriving DecidableEq, Repr

namespace Env

def ref? (env : Env) : Slot → Option Ref
  | .outer i => env.fields[i]?
  | .inner i => env.locals[i]?

/-- A slot in words. -/
def slotName : Slot → String
  | .outer i => s!"field #{i}"
  | .inner i => s!"local #{i}"

def ref (env : Env) (slot : Slot) : Except Fault Ref :=
  match env.ref? slot with
  | some r => .ok r
  | none => .error (.unbound (slotName slot))

def refs (env : Env) : List Slot → Except Fault (List Ref)
  | [] => .ok []
  | slot :: rest => do
      let r ← env.ref slot
      let rs ← env.refs rest
      return r :: rs

def binder (env : Env) : Plan.Target → Except Fault Binder
  | .single slot => (env.ref slot).map .single
  | .destructure slots => (env.refs slots).map .destructure

/-- The values of the slots in a store. -/
def reader (env : Env) (s : Store) : Plan.Reader := fun slot => do
  let r ← env.ref slot
  s.read r

/-- Looks up or evaluates something in the store as it is. -/
def reading {α : Type} (env : Env) (f : Plan.Reader → Except Fault α) : Effect α :=
  Effect.reading fun s => f (env.reader s)

end Env

/-! ### Jobs -/

/-- A module together with the cells of its fields. -/
structure Instance where
  plan : Plan.Module
  fields : List Ref
deriving Repr

/-- An open method and the stages that it has left. -/
structure Activation where
  env : Env
  stages : List Plan.Stage
deriving Repr

inductive Job where
  | enter (callee : Instance) (after : List Activation)
  | alternative (callee : Instance) (method : Plan.Method) (after : List Activation)
  | stage (env : Env) (stage : Plan.Stage) (after : List Activation)
  | generate (generator : Generator) (after : List Activation)
deriving Repr

namespace Job

/-- A job in words. -/
def label : Job → String
  | .enter callee _ => s!"Enter({callee.plan.name})"
  | .alternative callee method _ => s!"Alternative({callee.plan.name}, {method.number})"
  | .stage _ _ _ => "Unit"
  | .generate generator _ => generator.label

end Job

/-- Goes on with the next stage of the innermost method that has one left; if there is
    none, all is done. -/
def proceed : List Activation → Goal Job
  | [] => .success
  | ⟨_, []⟩ :: outer => proceed outer
  | ⟨env, stage :: stages⟩ :: outer => .run (.stage env stage (⟨env, stages⟩ :: outer))

/-! ### Entering a module -/

/-- Opens a method with new cells for its locals. -/
def openMethod (callee : Instance) (method : Plan.Method) : Effect Env := do
  let (locals, s) := (← get).allocAll method.locals
  set s
  return ⟨callee.fields, locals⟩

def guardHolds (env : Env) (method : Plan.Method) : Effect Bool :=
  match method.guard with
  | some guard => env.reading guard.evalBool
  | none => return true

/-- Takes the first method whose guard holds. -/
def choose (callee : Instance) (after : List Activation) :
    List Plan.Method → Effect (Outcome Job)
  | [] => return { goal := .failure }
  | method :: later => do
      let env ← openMethod callee method
      let holds ← guardHolds env method
      if holds then
        return { choices := later.map fun m => .alternative callee m after
                 goal := proceed (⟨env, method.stages⟩ :: after) }
      else choose callee after later

def enter (callee : Instance) (after : List Activation) : Effect (Outcome Job) :=
  match callee.plan.methods with
  | [method] => do
      let env ← openMethod callee method
      return { goal := proceed (⟨env, method.stages⟩ :: after) }
  | methods => choose callee after methods

/-- Takes up a method that was left as a choice point. -/
def retry (callee : Instance) (method : Plan.Method) (after : List Activation) :
    Effect (Outcome Job) :=
  choose callee after [method]

/-! ### Operations -/

/-- Runs an operation, and tells whether it holds. -/
def runOp (env : Env) : Plan.Op → Effect Bool
  | .assign target value => do
      let binder ← Effect.ofExcept (env.binder target)
      let v ← env.reading value.evalValue
      binder.bind v
      return true
  | .cases target arms => do
      let found ← env.reading fun read =>
        firstMatch (·.1.evalBool read) (·.2.evalValue read) arms
      match found with
      | some v =>
          let binder ← Effect.ofExcept (env.binder target)
          binder.bind v
          return true
      | none => return false
  | .check condition => env.reading condition.evalBool

/-- Runs operations in a row until one does not hold. -/
def runOps (env : Env) : List Plan.Op → Effect Bool
  | [] => return true
  | op :: rest => do
      let holds ← runOp env op
      if holds then runOps env rest else return false

/-! ### Transfers -/

/-- The cells for the inputs of a call.  A variable is passed on as it is, bound or not;
    the value of anything else gets a new cell. -/
def passInputs (env : Env) : List (Expr × Plan.Field) → Effect (List Ref)
  | [] => return []
  | (.var slot, _) :: rest => do
      let r ← Effect.ofExcept (env.ref slot)
      let rs ← passInputs env rest
      return r :: rs
  | (input, field) :: rest => do
      let v ← env.reading input.evalValue
      let (r, s) := (← get).alloc field.name (some v)
      set s
      let rs ← passInputs env rest
      return r :: rs

/-- Starts a generator; one that has nothing to offer fails. -/
def startGenerator (generator : Option Generator) (after : List Activation) : Goal Job :=
  match generator with
  | some g => .run (.generate g after)
  | none => .failure

def transfer (p : Plan.Program) (env : Env) (after : List Activation) :
    Plan.Transfer → Effect (Goal Job)
  | .proceed => return proceed after
  | .range target first last step => do
      let r ← Effect.ofExcept (env.ref target)
      let first ← env.reading first.evalNumber
      let last ← env.reading last.evalNumber
      let step ← env.reading step.evalNumber
      let range ← Effect.ofExcept (Range.start? r first last step)
      return startGenerator (range.map .range) after
  | .member target list => do
      let v ← env.reading list.evalValue
      let items ← Effect.ofExcept v.list?
      let binder ← Effect.ofExcept (env.binder target)
      return startGenerator ((Member.start? binder items).map .member) after
  | .call callee inputs outputs =>
      match p.modules[callee]? with
      | some plan => do
          let inputs ← passInputs env (inputs.zip plan.fields)
          let outputs ← Effect.ofExcept (env.refs outputs)
          return .run (.enter ⟨plan, inputs ++ outputs⟩ after)
      | none => return .failure

/-! ### Running a job -/

/-- The meaning of the jobs of a program. -/
def exec (p : Plan.Program) : Exec Job
  | .enter callee after => enter callee after
  | .alternative callee method after => retry callee method after
  | .stage env stage after => do
      let holds ← runOps env stage.ops
      if holds then
        let goal ← transfer p env after stage.transfer
        return { goal }
      else return { goal := .failure }
  | .generate generator after => do
      let rest ← generator.advance
      return { choices := rest.toList.map fun g => .generate g after, goal := proceed after }

end CandidateSearch.Search
