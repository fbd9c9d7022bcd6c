/-
  CandidateSearch/Proofs/Search/Acts.lean
  =======================================
  **What a job does to the cells.**

  A job does one thing after the other: it runs the operations of a stage, up to the first
  one that does not hold, or it binds the candidate that a generator offers.  Each of these
  is an act, and an act may write into cells.

      Y = 5;   test(Y > 7);   X = Y;      two acts, of which the first writes Y

  All else that a job does to the store is to make new cells.  So the store after a job is
  the one before it with the writes of the acts, and new cells behind those that were there
  (`extends_exec`); a job that ends with a fault is no exception.
-/
import CandidateSearch.Proofs.Declarative.Layout

namespace CandidateSearch

/-! ### Stores that grow -/

namespace Store

/-- What the writes put into a cell last. -/
def lastOf (r : Ref) : List (Ref × Value) → Option Value
  | [] => none
  | (q, v) :: rest => (lastOf r rest).or (if q = r then some v else none)

theorem lastOf_append (r : Ref) (first second : List (Ref × Value)) :
    lastOf r (first ++ second) = (lastOf r second).or (lastOf r first) := by
  induction first with
  | nil => simp [lastOf]
  | cons w rest ih => rw [List.cons_append, lastOf, lastOf, ih, Option.or_assoc]

theorem lastOf_eq_none {r : Ref} {writes : List (Ref × Value)} (h : ∀ w ∈ writes, w.1 ≠ r) :
    lastOf r writes = none := by
  induction writes with
  | nil => rfl
  | cons w rest ih =>
    obtain ⟨hfirst, hrest⟩ := List.forall_mem_cons.mp h
    rw [lastOf, ih hrest, if_neg hfirst]
    rfl

theorem value?_writeAll {s : Store} {r : Ref} (writes : List (Ref × Value)) (hr : r < s.size) :
    (s.writeAll writes).value? r = (lastOf r writes).or (s.value? r) := by
  induction writes generalizing s with
  | nil => rfl
  | cons w rest ih =>
    obtain ⟨q, v⟩ := w
    rw [writeAll, ih (by rwa [size_write]), lastOf]
    by_cases hq : q = r
    · subst hq
      rw [value?_write_self v hr, if_pos rfl, Option.or_assoc]
      rfl
    · rw [value?_write_of_ne s v (Ne.symm hq), if_neg hq, Option.or_none]

theorem writeAll_append (s : Store) (first second : List (Ref × Value)) :
    s.writeAll (first ++ second) = (s.writeAll first).writeAll second := by
  induction first generalizing s with
  | nil => rfl
  | cons w rest ih => exact ih (s.write w.1 w.2)

/-- New cells have come behind the old ones, which are as they were. -/
structure Extends (s s' : Store) : Prop where
  size : s.size ≤ s'.size
  values : ∀ r < s.size, s'.value? r = s.value? r

theorem Extends.refl (s : Store) : Extends s s := ⟨Nat.le_refl _, fun _ _ => rfl⟩

theorem Extends.trans {s s' s'' : Store} (h : Extends s s') (h' : Extends s' s'') :
    Extends s s'' := by
  refine ⟨Nat.le_trans h.size h'.size, fun r hr => ?_⟩
  rw [h'.values r (Nat.lt_of_lt_of_le hr h.size), h.values r hr]

theorem extends_alloc (s : Store) (name : String) (x : Option Value) :
    Extends s (s.alloc name x).2 := by
  refine ⟨?_, fun r hr => value?_alloc_of_lt name x hr⟩
  rw [size_alloc]
  omega

theorem extends_allocAll (s : Store) (names : List String) : Extends s (s.allocAll names).2 := by
  obtain ⟨-, hsize, hold, -⟩ := s.allocAll_spec names
  exact ⟨by omega, hold⟩

end Store

/-! ### Effects -/

namespace Effect

variable {α β : Type} {x : Effect α} {f : α → Effect β} {s : Store}

/-- The store that is left behind, whether or not there is a fault. -/
def after (x : Effect α) (s : Store) : Store :=
  match x s with
  | .ok _ s' => s'
  | .error _ s' => s'

theorem after_of_ok {a : α} {s' : Store} (h : x s = .ok a s') : after x s = s' := by
  simp [after, h]

theorem after_of_error {fault : Fault} {s' : Store} (h : x s = .error fault s') :
    after x s = s' := by
  simp [after, h]

theorem after_bind_of_ok {a : α} {s' : Store} (h : x s = .ok a s') :
    after (x >>= f) s = after (f a) s' := by
  unfold after
  rw [bind_of_ok h]

theorem after_bind_of_error {fault : Fault} {s' : Store} (h : x s = .error fault s') :
    after (x >>= f) s = s' := after_of_error (bind_of_error h)

/-- The step in front of one that has a result has a result. -/
theorem exists_of_bind_eq_ok {s' : Store} {b : β} (h : (x >>= f) s = .ok b s') :
    ∃ a s₁, x s = .ok a s₁ ∧ f a s₁ = .ok b s' := by
  cases hx : x s with
  | ok a s₁ =>
    rw [bind_of_ok hx] at h
    exact ⟨a, s₁, rfl, h⟩
  | error fault s₁ =>
    rw [bind_of_error hx] at h
    cases h

theorem eq_of_ofExcept_eq_ok {result : Except Fault α} {s' : Store} {a : α}
    (h : ofExcept result s = .ok a s') : result = .ok a ∧ s' = s := by
  cases result with
  | ok b =>
    cases h
    exact ⟨rfl, rfl⟩
  | error fault => cases h

/-- The cells that are there are left as they are. -/
def Extending (x : Effect α) : Prop := ∀ s, Store.Extends s (after x s)

theorem extending_pure (a : α) : Extending (pure a) := fun s => Store.Extends.refl s

theorem Extending.bind (hx : Extending x) (hf : ∀ a, Extending (f a)) : Extending (x >>= f) := by
  intro s
  have hfirst := hx s
  cases h : x s with
  | ok a s' =>
    rw [after_of_ok h] at hfirst
    rw [after_bind_of_ok h]
    exact hfirst.trans (hf a s')
  | error fault s' =>
    rw [after_of_error h] at hfirst
    rw [after_bind_of_error h]
    exact hfirst

theorem extending_ofExcept (result : Except Fault α) : Extending (ofExcept result) := by
  intro s
  cases result <;> exact Store.Extends.refl s

theorem extending_reading (g : Store → Except Fault α) : Extending (reading g) :=
  fun s => extending_ofExcept (g s) s

end Effect

namespace Search

open Effect
open Plan (Expr)

/-! ### What makes nothing but new cells -/

theorem extending_openMethod (callee : Instance) (method : Plan.Method) :
    Extending (openMethod callee method) := fun s => s.extends_allocAll method.locals

theorem extending_guardHolds (env : Env) (method : Plan.Method) :
    Extending (guardHolds env method) := by
  unfold guardHolds
  split
  · exact extending_reading _
  · exact extending_pure _

theorem extending_choose (callee : Instance) (after : List Activation)
    (methods : List Plan.Method) : Extending (choose callee after methods) := by
  induction methods with
  | nil => exact extending_pure _
  | cons method later ih =>
    refine (extending_openMethod callee method).bind fun env => ?_
    refine (extending_guardHolds env method).bind fun holds => ?_
    split
    · exact extending_pure _
    · exact ih

theorem extending_enter (callee : Instance) (after : List Activation) :
    Extending (enter callee after) := by
  unfold enter
  split
  · exact (extending_openMethod callee _).bind fun _ => extending_pure _
  · exact extending_choose callee after _

theorem extending_passInputs (env : Env) (inputs : List (Expr × Plan.Field)) :
    Extending (passInputs env inputs) := by
  induction inputs with
  | nil => exact extending_pure _
  | cons input rest ih =>
    obtain ⟨e, field⟩ := input
    have hrest : ∀ r : Ref, Extending (passInputs env rest >>= fun rs => pure (r :: rs)) :=
      fun r => ih.bind fun _ => extending_pure _
    -- a variable is passed on as it is, anything else gets a cell
    cases e with
    | var slot => exact (extending_ofExcept _).bind fun r => hrest r
    | _ =>
      refine (extending_reading _).bind fun v => fun s => ?_
      exact (s.extends_alloc field.name (some v)).trans (hrest s.size _)

theorem extending_transfer (p : Plan.Program) (env : Env) (after : List Activation)
    (t : Plan.Transfer) : Extending (transfer p env after t) := by
  cases t with
  | proceed => exact extending_pure _
  | range target first last step =>
    refine (extending_ofExcept _).bind fun _ => (extending_reading _).bind fun _ => ?_
    refine (extending_reading _).bind fun _ => (extending_reading _).bind fun _ => ?_
    exact (extending_ofExcept _).bind fun _ => extending_pure _
  | member target list =>
    refine (extending_reading _).bind fun _ => (extending_ofExcept _).bind fun _ => ?_
    exact (extending_ofExcept _).bind fun _ => extending_pure _
  | call callee inputs outputs =>
    rw [transfer]
    split
    · refine (extending_passInputs env _).bind fun _ => ?_
      exact (extending_ofExcept _).bind fun _ => extending_pure _
    · exact extending_pure _

/-! ### Acts -/

/-- Something that is done in the course of a job. -/
inductive Doing where
  | operate (env : Env) (op : Plan.Op)
  | draw (generator : Generator)       -- the candidate that is offered is bound

/-- Something that is done, and the store in which it is. -/
structure Act where
  doing : Doing
  store : Store

/-- What an operation writes, unless there is a fault. -/
def opWrites (env : Env) (s : Store) : Plan.Op → Except Fault (List (Ref × Value))
  | .assign target value => do
      let binder ← env.binder target
      let v ← value.evalValue (env.reader s)
      binder.writes v
  | .cases target arms => do
      let found ← firstMatch (·.1.evalBool (env.reader s)) (·.2.evalValue (env.reader s)) arms
      match found with
      | some v => do
          let binder ← env.binder target
          binder.writes v
      | none => return []
  | .check _ => .ok []

/-- What a generator writes to bind its candidate, unless there is a fault. -/
def Generator.writes : Generator → Except Fault (List (Ref × Value))
  | .range r => do return [(r.target, ← Value.ofDecimal? r.current)]
  | .member m => m.target.writes m.item

/-- What is written by an act, the earliest first; a fault comes before anything is. -/
def Act.writes (a : Act) : List (Ref × Value) :=
  let result := match a.doing with
    | .operate env op => opWrites env a.store op
    | .draw generator => generator.writes
  result.toOption.getD []

/-- The operations of a row that are run: all up to the first that does not hold. -/
def opActs (env : Env) : List Plan.Op → Store → List Act
  | [], _ => []
  | op :: rest, s =>
      ⟨.operate env op, s⟩ ::
        match runOp env op s with
        | .ok true s' => opActs env rest s'
        | _ => []

/-- What is done in the course of a job. -/
def Job.acts (s : Store) : Job → List Act
  | .enter _ _ | .alternative _ _ _ => []
  | .stage env st _ => opActs env st.ops s
  | .generate generator _ => [⟨.draw generator, s⟩]

/-- What is written in the course of a job, the earliest first. -/
def Job.writes (s : Store) (job : Job) : List (Ref × Value) := (job.acts s).flatMap Act.writes

/-! ### The store after a job -/

section Binds

variable {α β : Type} {s : Store}

theorem after_ofExcept_bind (result : Except Fault α) (f : α → Effect β) :
    after (Effect.ofExcept result >>= f) s =
      match result with
      | .ok a => after (f a) s
      | .error _ => s := by
  cases result <;> rfl

theorem after_reading_bind (env : Env) (g : Plan.Reader → Except Fault α) (f : α → Effect β) :
    after (env.reading g >>= f) s =
      match g (env.reader s) with
      | .ok a => after (f a) s
      | .error _ => s := after_ofExcept_bind (g (env.reader s)) f

theorem after_bind_pure (binder : Binder) (v : Value) (b : β) :
    after (binder.bind v >>= fun _ => pure b) s =
      s.writeAll ((binder.writes v).toOption.getD []) := by
  unfold Binder.bind
  cases binder.writes v <;> rfl

end Binds

theorem after_runOp (env : Env) (op : Plan.Op) (s : Store) :
    after (runOp env op) s = s.writeAll (Act.writes ⟨.operate env op, s⟩) := by
  cases op with
  | assign target value =>
    simp only [runOp, Act.writes, opWrites, after_ofExcept_bind]
    cases env.binder target with
    | error fault => rfl
    | ok binder =>
      simp only [after_reading_bind]
      cases value.evalValue (env.reader s) with
      | error fault => rfl
      | ok v => exact after_bind_pure binder v true
  | cases target arms =>
    simp only [runOp, Act.writes, opWrites, after_reading_bind]
    cases firstMatch (·.1.evalBool (env.reader s)) (·.2.evalValue (env.reader s)) arms with
    | error fault => rfl
    | ok found =>
      cases found with
      | none => rfl
      | some v =>
        simp only [after_ofExcept_bind]
        cases env.binder target with
        | error fault => rfl
        | ok binder => exact after_bind_pure binder v true
  | check condition =>
    show after (Effect.ofExcept (condition.evalBool (env.reader s))) s = s
    cases condition.evalBool (env.reader s) <;> rfl

theorem after_advance (generator : Generator) (s : Store) :
    after generator.advance s = s.writeAll (Act.writes ⟨.draw generator, s⟩) := by
  cases generator with
  | range r =>
    simp only [Act.writes, Generator.writes, Generator.advance, Generator.bind]
    cases Value.ofDecimal? r.current <;> rfl
  | member m => exact after_bind_pure m.target m.item _

theorem after_runOps (env : Env) (ops : List Plan.Op) (s : Store) :
    after (runOps env ops) s = s.writeAll ((opActs env ops s).flatMap Act.writes) := by
  induction ops generalizing s with
  | nil => rfl
  | cons op rest ih =>
    have hop := after_runOp env op s
    rw [runOps, opActs, List.flatMap_cons, Store.writeAll_append, ← hop]
    cases hrun : runOp env op s with
    | error fault s' =>
      rw [after_bind_of_error hrun, after_of_error hrun]
      rfl
    | ok holds s' =>
      rw [after_bind_of_ok hrun, after_of_ok hrun]
      cases holds with
      | false => rfl
      | true => exact ih s'

/-- **One job.**  It writes what its acts write, and makes new cells. -/
theorem extends_exec (p : Plan.Program) (job : Job) (s : Store) :
    Store.Extends (s.writeAll (job.writes s)) (after (exec p job) s) := by
  cases job with
  | enter callee following => exact extending_enter callee following s
  | alternative callee method following => exact extending_choose callee following [method] s
  | stage env st following =>
    show Store.Extends (s.writeAll ((opActs env st.ops s).flatMap Act.writes)) _
    rw [← after_runOps env st.ops s, exec]
    cases hrun : runOps env st.ops s with
    | error fault s' =>
      rw [after_bind_of_error hrun, after_of_error hrun]
      exact .refl s'
    | ok holds s' =>
      rw [after_bind_of_ok hrun, after_of_ok hrun]
      cases holds with
      | false => exact .refl s'
      | true =>
        have htransfer := extending_transfer p env following st.transfer
        exact htransfer.bind (fun goal => extending_pure (Outcome.mk [] goal)) s'
  | generate generator following =>
    have hadvance := after_advance generator s
    show Store.Extends (s.writeAll (Act.writes ⟨.draw generator, s⟩ ++ [])) _
    rw [List.append_nil, ← hadvance, exec]
    cases hrun : generator.advance s with
    | error fault s' =>
      rw [after_bind_of_error hrun, after_of_error hrun]
      exact .refl s'
    | ok left s' =>
      rw [after_bind_of_ok hrun, after_of_ok hrun]
      exact .refl s'

end Search

end CandidateSearch
