/-
  CandidateSearch/Proofs/Search/Lookups.lean
  ==========================================
  **What a stage looks up.**

  An environment is asked for the slots that stand in the code and for no others.  So two
  environments that have the same cells for those cannot be told apart by running it
  (`exec_stage_congr`), and if all the slots are in range, it makes no difference what
  stands behind the last cell:

      fields 4, 7      code with field 0 and field 1 only
      fields 4, 7, 9   does the same

  A lookup that is out of range in the first environment would find a cell in the second.
-/
import CandidateSearch.Proofs.Compiling.WellFormed
import CandidateSearch.Search.Job

namespace CandidateSearch

/-! ### Expressions -/

namespace Plan

variable {read read' : Reader}

namespace Expr

mutual

/-- Only the slots of an expression matter to its value. -/
theorem eval_congr : ∀ e : Expr, (∀ slot ∈ e.slots, read' slot = read slot) →
    e.eval read' = e.eval read
  | .number _, _ | .atom _, _ | .bool _, _ => rfl
  | .var slot, h => by simp only [eval, h slot (by simp [slots])]
  | .list items, h | .vector items, h => by simp only [eval, evalAll_congr items h]
  | .unary op e, h => by cases op <;> simp only [eval, eval_congr e h]
  | .binary op a b, h => by
    have ha := eval_congr a fun slot hslot => h slot (by simp [slots, hslot])
    have hb := eval_congr b fun slot hslot => h slot (by simp [slots, hslot])
    cases op <;> simp only [eval, ha, hb]
  | .sqrt e, h | .exp e, h | .length e, h | .sum e, h => by simp only [eval, eval_congr e h]
  | .nth i l, h => by
    have hi := eval_congr i fun slot hslot => h slot (by simp [slots, hslot])
    have hl := eval_congr l fun slot hslot => h slot (by simp [slots, hslot])
    simp only [eval, hi, hl]

theorem evalAll_congr : ∀ items : List Expr, (∀ slot ∈ slotsAll items, read' slot = read slot) →
    evalAll read' items = evalAll read items
  | [], _ => rfl
  | e :: rest, h => by
    have he := eval_congr e fun slot hslot => h slot (by simp [slotsAll, hslot])
    have hrest := evalAll_congr rest fun slot hslot => h slot (by simp [slotsAll, hslot])
    simp only [evalAll, he, hrest]

end

end Expr

theorem firstMatch_congr {arms : List (Expr × Expr)}
    (h : ∀ slot ∈ arms.flatMap fun arm => arm.1.slots ++ arm.2.slots, read' slot = read slot) :
    firstMatch (·.1.evalBool read') (·.2.evalValue read') arms =
      firstMatch (·.1.evalBool read) (·.2.evalValue read) arms := by
  induction arms with
  | nil => rfl
  | cons arm rest ih =>
    simp only [List.flatMap_cons, List.forall_mem_append] at h
    obtain ⟨⟨hcondition, hvalue⟩, hrest⟩ := h
    simp only [firstMatch, Expr.evalBool, Expr.evalValue, Expr.eval_congr _ hcondition,
      Expr.eval_congr _ hvalue]
    have hlater := ih hrest
    simp only [Expr.evalBool, Expr.evalValue] at hlater
    rw [hlater]

end Plan

namespace Search

open Plan (Expr)

/-! ### Environments -/

namespace Env

variable {env env' : Env}

/-- Both environments have the same cells for these slots, or none. -/
def SameCells (env env' : Env) (slots : List Slot) : Prop :=
  ∀ slot ∈ slots, env'.ref slot = env.ref slot

theorem sameCells_append {first second : List Slot} :
    SameCells env env' (first ++ second) ↔ SameCells env env' first ∧ SameCells env env' second :=
  List.forall_mem_append

theorem refs_congr {slots : List Slot} (h : SameCells env env' slots) :
    env'.refs slots = env.refs slots := by
  induction slots with
  | nil => rfl
  | cons slot rest ih =>
    obtain ⟨hslot, hrest⟩ := List.forall_mem_cons.mp h
    rw [refs, refs, hslot, ih hrest]

theorem binder_congr {target : Plan.Target} (h : SameCells env env' target.slots) :
    env'.binder target = env.binder target := by
  cases target with
  | single slot =>
    have hslot := h slot (by simp [Plan.Target.slots])
    rw [binder, binder, hslot]
  | destructure slots => exact congrArg (Except.map Binder.destructure) (refs_congr h)

theorem reader_congr {slots : List Slot} (h : SameCells env env' slots) (s : Store) :
    ∀ slot ∈ slots, env'.reader s slot = env.reader s slot := by
  intro slot hslot
  simp only [reader, h slot hslot]

section Reading

variable {e : Expr} (h : SameCells env env' e.slots)

include h

/-- Whatever is made of the value of an expression, both environments give the same. -/
theorem reading_congr {α : Type} (next : Operand → Except Fault α) :
    env'.reading (fun read => e.eval read >>= next) =
      env.reading fun read => e.eval read >>= next := by
  have heval := fun s => e.eval_congr (reader_congr h s)
  simp only [reading, heval]

theorem evalValue_congr : env'.reading e.evalValue = env.reading e.evalValue :=
  reading_congr h Operand.toValue

theorem evalBool_congr : env'.reading e.evalBool = env.reading e.evalBool :=
  reading_congr h Operand.bool?

theorem evalNumber_congr : env'.reading e.evalNumber = env.reading e.evalNumber :=
  reading_congr h Operand.number?

end Reading

end Env

/-! ### Operations and transfers -/

open Env

variable {env env' : Env}

theorem runOp_congr {op : Plan.Op} (h : SameCells env env' op.slots) :
    runOp env' op = runOp env op := by
  cases op with
  | assign target value =>
    obtain ⟨htarget, hvalue⟩ := sameCells_append.mp h
    simp only [runOp, binder_congr htarget, evalValue_congr hvalue]
  | cases target arms =>
    obtain ⟨htarget, harms⟩ := sameCells_append.mp h
    have hmatch := fun s => Plan.firstMatch_congr (reader_congr harms s)
    simp only [runOp, reading, binder_congr htarget, hmatch]
  | check condition => exact evalBool_congr h

theorem runOps_congr {ops : List Plan.Op} (h : SameCells env env' (ops.flatMap Plan.Op.slots)) :
    runOps env' ops = runOps env ops := by
  induction ops with
  | nil => rfl
  | cons op rest ih =>
    rw [List.flatMap_cons] at h
    obtain ⟨hop, hrest⟩ := sameCells_append.mp h
    rw [runOps, runOps, runOp_congr hop, ih hrest]

theorem passInputs_congr {inputs : List Expr} (fields : List Plan.Field)
    (h : SameCells env env' (Expr.slotsAll inputs)) :
    passInputs env' (inputs.zip fields) = passInputs env (inputs.zip fields) := by
  induction inputs generalizing fields with
  | nil => rfl
  | cons input rest ih =>
    obtain ⟨hinput, hrest⟩ := sameCells_append.mp h
    cases fields with
    | nil => rfl
    | cons field others =>
      have hothers := ih others hrest
      have hvalue := evalValue_congr hinput
      -- a variable is passed on as it is, anything else is evaluated
      cases input with
      | var slot =>
        have hslot := hinput slot (by simp [Expr.slots])
        simp only [List.zip_cons_cons, passInputs, hslot, hothers]
      | _ => simp only [List.zip_cons_cons, passInputs, hvalue, hothers]

theorem transfer_congr {t : Plan.Transfer} (p : Plan.Program) (after : List Activation)
    (h : SameCells env env' t.slots) : transfer p env' after t = transfer p env after t := by
  cases t with
  | proceed => rfl
  | range target first last step =>
    obtain ⟨htarget, hbounds⟩ := List.forall_mem_cons.mp h
    obtain ⟨hbounds, hstep⟩ := sameCells_append.mp hbounds
    obtain ⟨hfirst, hlast⟩ := sameCells_append.mp hbounds
    simp only [transfer, htarget, evalNumber_congr hfirst, evalNumber_congr hlast,
      evalNumber_congr hstep]
  | member target list =>
    obtain ⟨htarget, hlist⟩ := sameCells_append.mp h
    simp only [transfer, binder_congr htarget, evalValue_congr hlist]
  | call callee inputs outputs =>
    obtain ⟨hinputs, houtputs⟩ := sameCells_append.mp h
    simp only [transfer, refs_congr houtputs, passInputs_congr _ hinputs]

/-- **A stage looks up its own slots and no others.** -/
theorem exec_stage_congr {st : Plan.Stage} (p : Plan.Program) (after : List Activation)
    (h : SameCells env env' st.slots) :
    exec p (.stage env' st after) = exec p (.stage env st after) := by
  obtain ⟨hops, htransfer⟩ := sameCells_append.mp h
  simp only [exec, runOps_congr hops, transfer_congr p after htransfer]

theorem guardHolds_congr {method : Plan.Method}
    (h : ∀ guard ∈ method.guard, SameCells env env' guard.slots) :
    guardHolds env' method = guardHolds env method := by
  unfold guardHolds
  split
  · rename_i guard hguard
    exact evalBool_congr (h guard hguard)
  · rfl

end Search

end CandidateSearch
