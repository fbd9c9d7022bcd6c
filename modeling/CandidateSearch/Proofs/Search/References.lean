/-
  CandidateSearch/Proofs/Search/References.lean
  =============================================
  **What a reference to an input reads.**

  The cells of a module's fields come in the order of the slots, inputs first.  A method
  that names an input reads the cell of the last field of that name: the cell that was
  filled for the input, unless a later parameter has its name.  At the start of a run

      main({A: integer}, {A: integer, B: integer}) method B = A; …

  finds the output `A`, which has no value, whatever was given for the input.
-/
import CandidateSearch.Proofs.Compiling.Names
import CandidateSearch.Proofs.Search.Derivation

namespace CandidateSearch

open Source Library

/-! ### Fields by their names -/

namespace Resolved

/-- A name that something in the second part has stands for something in there. -/
theorem LastOfName.mem_right {first second : List Var} {v w : Var}
    (h : LastOfName (first ++ second) w) (hv : v ∈ second) (hname : v.name = w.name) :
    w ∈ second := by
  rw [lastOfName_iff, List.reverse_append, List.find?_append] at h
  cases hfound : second.reverse.find? fun u => u.name == w.name with
  | none =>
    have hother := List.find?_eq_none.mp hfound v (List.mem_reverse.mpr hv)
    exact absurd (beq_iff_eq.mpr hname) hother
  | some u =>
    rw [hfound] at h
    cases h
    exact List.mem_reverse.mp (List.mem_of_find?_eq_some hfound)

theorem LastOfName.mem {vars : List Var} {w : Var} (h : LastOfName vars w) : w ∈ vars := by
  obtain ⟨before, after, rfl, -⟩ := h
  simp

variable {fields : List Var} {method : Method}

/-- What has the name of a field is a field. -/
theorem Method.Scoped.mem_fields (h : method.Scoped fields) {u w : Var} (hu : u ∈ fields)
    (hw : LastOfName (fields ++ method.locals) w) (hname : w.name = u.name) : w ∈ fields := by
  rcases List.mem_append.mp hw.mem with hfield | hlocal
  · exact hfield
  · exact absurd hname (h.locals_apart w hlocal u hu)

/-- A field stands for its name if no later field has it. -/
theorem Method.Scoped.lastOfName_field (h : method.Scoped fields) {i : Nat} {u : Var}
    (hi : fields[i]? = some u) (hlater : ∀ v ∈ fields.drop (i + 1), v.name ≠ u.name) :
    LastOfName (fields ++ method.locals) u := by
  obtain ⟨hlt, hu⟩ := List.getElem?_eq_some_iff.mp hi
  have hlast : LastOfName fields u := by
    refine ⟨fields.take i, fields.drop (i + 1), ?_, hlater⟩
    rw [← hu, List.getElem_cons_drop, List.take_append_drop]
  exact hlast.append_right fun v hv => h.locals_apart v hv u (List.mem_of_getElem? hi)

/-- The inputs come first among the fields. -/
theorem Module.getElem?_of_inputs {m : Module} {i : Nat} {u : Var} (h : m.inputs[i]? = some u) :
    m.fields[i]? = some u := by
  rw [Module.inputs, List.getElem?_take] at h
  split at h
  · exact h
  · cases h

end Resolved

/-! ### Plans of modules -/

/-- The plan has the fields of the module in their order. -/
structure Plan.Module.Lays (plan : Plan.Module) (m : Resolved.Module) : Prop where
  fields : plan.fields = m.fields.map fun v => ⟨v.name, v.ty⟩
  inputCount : plan.inputCount = m.inputs.length

theorem Plan.Module.Lays.inputs {plan : Plan.Module} {m : Resolved.Module} (h : plan.Lays m) :
    plan.inputs = m.inputs.map fun v => ⟨v.name, v.ty⟩ := by
  unfold Plan.Module.inputs
  rw [h.fields, h.inputCount, ← List.map_take, Resolved.Module.inputs, List.length_take,
    ← List.take_eq_take_min]

/-- **The plans come in the order of the modules** and have their fields. -/
theorem lays_ofSchedule {scheduled : List Schedule.Module}
    {lowered : List (Document × Resolved.Module)} {p : Plan.Program}
    (hscheduled : (lowered.mapM scheduleModule).result = .ok scheduled)
    (hprogram : Plan.Program.ofSchedule scheduled = .ok p) {k : Nat}
    {l : Document × Resolved.Module} (hl : lowered[k]? = some l) :
    ∃ plan, p.modules[k]? = some plan ∧ plan.Lays l.2 := by
  have hresolved : (scheduled.map (·.resolved))[k]? = some l.2 := by
    rw [resolved_of_scheduleAll hscheduled, List.getElem?_map, hl]
    rfl
  rw [List.getElem?_map, Option.map_eq_some_iff] at hresolved
  obtain ⟨origin, horigin, hresolved⟩ := hresolved
  have hbuilds : Plan.Builds (Plan.moduleOf (scheduled.map (·.resolved)) origin)
      fun plan => plan.Lays l.2 := by
    rw [← hresolved]
    exact (Plan.builds_any _).bind fun methods _ => Plan.builds_pure ⟨rfl, rfl⟩
  refine ⟨_, ?_, hbuilds []⟩
  rw [Plan.modules_ofSchedule hprogram, List.getElem?_map, horigin]
  rfl

namespace Search

open Plan (Expr)
open Resolved (LastOfName)

/-! ### The entry of a run -/

theorem isSome_of_bindInputs {b : Bindings} {fields : List Plan.Field} {s : Store}
    {found : List Ref × Store} (h : bindInputs b fields s = .ok found) :
    ∀ field ∈ fields, (b.get? field.name).isSome = true := by
  induction fields generalizing s found with
  | nil => simp
  | cons first rest ih =>
    rw [bindInputs] at h
    split at h
    · rename_i v hv
      simp only [bind_eq_ok] at h
      obtain ⟨_, hrest, -⟩ := h
      exact List.forall_mem_cons.mpr ⟨by rw [hv]; rfl, ih hrest⟩
    · cases h

/-- Every input is given. -/
theorem isSome_of_start {p : Plan.Program} {b : Bindings} {limit : Option Nat} {stream : Stream}
    {entry : Plan.Module} (h : Stream.start p b limit = .ok stream)
    (hentry : p.entry? = some entry) :
    ∀ field ∈ entry.inputs, (b.get? field.name).isSome = true := by
  unfold Stream.start at h
  simp only [hentry, bind_eq_ok] at h
  obtain ⟨_, hinputs, -⟩ := h
  exact isSome_of_bindInputs hinputs

/-- A slot reads the cell that it stands for. -/
theorem toOption_reader {cells : List Ref} {i : Nat} {r : Ref} (h : cells[i]? = some r)
    (locals : List Ref) (s : Store) :
    ((Env.mk cells locals).reader s (.outer i)).toOption = s.value? r := by
  have href : (Env.mk cells locals).ref (.outer i) = .ok r := by
    unfold Env.ref Env.ref?
    simp only [h]
  unfold Env.reader
  rw [href]
  show (s.read r).toOption = _
  unfold Store.read
  cases s.value? r <;> rfl

section Entry

variable {b : Bindings} {entry : Plan.Module} {stream : Stream} {m : Resolved.Module}
  {method : Resolved.Method} {u w : Resolved.Var}

theorem toOption_reader_entry (hlays : entry.Lays m) {i : Nat} (hi : m.fields[i]? = some w)
    (locals : List Ref) :
    ((Env.mk (List.range' 0 entry.fields.length) locals).reader stream.machine.store
      (.outer i)).toOption = stream.machine.store.value? i := by
  apply toOption_reader
  have hlt := (List.getElem?_eq_some_iff.mp hi).1
  simp [hlays.fields, hlt]

/-- **At the start of a run a reference to an input reads what was given for it**, unless
    there is an output of the same name. -/
theorem entry_reads_iff (hopens : stream.Opens b entry) (hlays : entry.Lays m)
    (hgiven : ∀ field ∈ entry.inputs, (b.get? field.name).isSome = true)
    (hscoped : method.Scoped m.fields) (hu : u ∈ m.inputs)
    (hw : LastOfName (m.fields ++ method.locals) w) (hname : w.name = u.name)
    (locals : List Ref) :
    ((Env.mk (List.range' 0 entry.fields.length) locals).reader stream.machine.store
      w.slot).toOption = b.get? u.name ↔ ∀ v ∈ m.outputs, v.name ≠ u.name := by
  have hfield : w ∈ m.fields := hscoped.mem_fields (List.mem_of_mem_take hu) hw hname
  have hparts : m.inputs ++ m.outputs = m.fields := List.take_append_drop ..
  constructor
  · intro hread v hv heq
    have hlast : LastOfName (m.inputs ++ (m.outputs ++ method.locals)) w := by
      rwa [← List.append_assoc, hparts]
    have houtput : w ∈ m.outputs := by
      rcases List.mem_append.mp
        (hlast.mem_right (List.mem_append_left _ hv) (heq.trans hname.symm)) with hw | hw
      · exact hw
      · exact absurd rfl (hscoped.locals_apart w hw w hfield)
    obtain ⟨i, hi⟩ := List.mem_iff_getElem?.mp houtput
    have hplace : m.fields[m.inputCount + i]? = some w := by
      rwa [Resolved.Module.outputs, List.getElem?_drop] at hi
    rw [hscoped.field_slot _ _ hplace, toOption_reader_entry hlays hplace,
      hopens.others] at hread
    · have hmem : (⟨u.name, u.ty⟩ : Plan.Field) ∈ entry.inputs := by
        rw [hlays.inputs]
        exact List.mem_map_of_mem hu
      have hsome := hgiven _ hmem
      rw [← hread] at hsome
      cases hsome
    · rw [hlays.inputs, List.length_map, Resolved.Module.inputs, List.length_take]
      omega
  · intro houtputs
    have hinput : w ∈ m.inputs := by
      rw [← hparts] at hfield
      rcases List.mem_append.mp hfield with hw | hw
      · exact hw
      · exact absurd hname (houtputs w hw)
    obtain ⟨i, hi⟩ := List.mem_iff_getElem?.mp hinput
    have hplace := Resolved.Module.getElem?_of_inputs hi
    have hvalue : entry.inputs[i]? = some ⟨w.name, w.ty⟩ := by
      rw [hlays.inputs, List.getElem?_map, hi]
      rfl
    rw [hscoped.field_slot _ _ hplace, toOption_reader_entry hlays hplace,
      hopens.inputs i _ hvalue, hname]

end Entry

/-! ### Calls -/

/-- How an input of a call gets into the cell for it: a variable shares its cell, and the
    value of anything else is put into a new one. -/
structure Passed (env : Env) (s s' : Store) (input : Expr) (r : Ref) : Prop where
  shared : ∀ slot, input = .var slot → env.ref slot = .ok r
  evaluated : (∀ slot, input ≠ .var slot) → ∃ s₁ v, s.Extends s₁ ∧
    input.evalValue (env.reader s₁) = .ok v ∧ s'.value? r = some v

theorem Passed.mono {env : Env} {s s₁ s' : Store} {input : Expr} {r : Ref}
    (h : Passed env s₁ s' input r) (hextends : s.Extends s₁) : Passed env s s' input r := by
  refine ⟨h.shared, fun hother => ?_⟩
  obtain ⟨s₂, v, h₂, heval, hvalue⟩ := h.evaluated hother
  exact ⟨s₂, v, hextends.trans h₂, heval, hvalue⟩

theorem passInputs_cons_of_ne {env : Env} {input : Expr} (h : ∀ slot, input ≠ .var slot)
    (field : Plan.Field) (rest : List (Expr × Plan.Field)) :
    passInputs env ((input, field) :: rest) = do
      let v ← env.reading input.evalValue
      let (r, s) := (← get).alloc field.name (some v)
      set s
      let rs ← passInputs env rest
      return r :: rs := by
  cases input with
  | var slot => exact absurd rfl (h slot)
  | _ => rfl

/-- **Every input of a call is passed.** -/
theorem passed_passInputs {env : Env} {args : List (Expr × Plan.Field)} {s s' : Store}
    {rs : List Ref} (h : passInputs env args s = .ok rs s') :
    ∀ (i : Nat) (input : Expr) (field : Plan.Field), args[i]? = some (input, field) →
      ∃ r, rs[i]? = some r ∧ Passed env s s' input r := by
  induction args generalizing s rs with
  | nil => simp
  | cons first rest ih =>
    obtain ⟨e, field⟩ := first
    -- the inputs after the first one are passed from the store that it leaves
    have hlater : ∀ (r : Ref) (s₁ : Store), s.Extends s₁ → Passed env s s' e r →
        (passInputs env rest >>= fun rs => pure (r :: rs)) s₁ = .ok rs s' →
        ∀ (i : Nat) (input : Expr) (field' : Plan.Field),
          ((e, field) :: rest)[i]? = some (input, field') →
            ∃ r, rs[i]? = some r ∧ Passed env s s' input r := by
      intro r s₁ hextends hfirst hrun i input field' hi
      obtain ⟨others, s₂, hothers, hpure⟩ := Effect.exists_of_bind_eq_ok hrun
      cases hpure
      cases i with
      | zero =>
        cases hi
        exact ⟨r, rfl, hfirst⟩
      | succ i =>
        obtain ⟨r', hr', hpassed⟩ := ih hothers i input field' hi
        exact ⟨r', hr', hpassed.mono hextends⟩
    by_cases hvar : ∃ slot, e = .var slot
    · obtain ⟨slot, rfl⟩ := hvar
      obtain ⟨r, s₁, href, hrest⟩ := Effect.exists_of_bind_eq_ok h
      obtain ⟨hcell, rfl⟩ := Effect.eq_of_ofExcept_eq_ok href
      refine hlater r s₁ (.refl s₁) ⟨fun slot' heq => ?_, fun hother => ?_⟩ hrest
      · cases heq
        exact hcell
      · exact absurd rfl (hother slot)
    · have hother : ∀ slot, e ≠ .var slot := fun slot heq => hvar ⟨slot, heq⟩
      rw [passInputs_cons_of_ne hother] at h
      obtain ⟨v, s₁, hv, hrest⟩ := Effect.exists_of_bind_eq_ok h
      obtain ⟨heval, rfl⟩ := Effect.eq_of_ofExcept_eq_ok hv
      have hrun : (passInputs env rest >>= fun rs => pure (s₁.size :: rs))
          (s₁.alloc field.name (some v)).2 = .ok rs s' := hrest
      have hkept := ((extending_passInputs env rest).bind fun rs =>
        Effect.extending_pure (s₁.size :: rs)) (s₁.alloc field.name (some v)).2
      rw [Effect.after_of_ok hrun] at hkept
      refine hlater s₁.size _ (s₁.extends_alloc field.name (some v)) ⟨?_, fun _ => ?_⟩ hrun
      · exact fun slot heq => absurd heq (hother slot)
      · refine ⟨s₁, v, .refl s₁, heval, ?_⟩
        rw [hkept.values s₁.size (by simp), Store.value?_alloc_self]

/-- The cells that a module is called with: those of the inputs come first. -/
theorem passed_of_call {p : Plan.Program} {env : Env} {after rest : List Activation} {k : Nat}
    {inputs : List Expr} {outputs : List Slot} {s s' : Store} {callee : Instance}
    {plan : Plan.Module} (hplan : p.modules[k]? = some plan)
    (h : transfer p env after (.call k inputs outputs) s = .ok (.run (.enter callee rest)) s')
    {i : Nat} {input : Expr} {field : Plan.Field} (hinput : inputs[i]? = some input)
    (hfield : plan.fields[i]? = some field) :
    ∃ r, callee.fields[i]? = some r ∧ Passed env s s' input r := by
  simp only [transfer, hplan] at h
  obtain ⟨cells, s₁, hcells, hrest⟩ := Effect.exists_of_bind_eq_ok h
  obtain ⟨outs, s₂, houts, hgoal⟩ := Effect.exists_of_bind_eq_ok hrest
  obtain ⟨-, rfl⟩ := Effect.eq_of_ofExcept_eq_ok houts
  cases hgoal
  have hzip : (inputs.zip plan.fields)[i]? = some (input, field) := by
    rw [List.getElem?_zip_eq_some]
    exact ⟨hinput, hfield⟩
  obtain ⟨r, hr, hpassed⟩ := passed_passInputs hcells i input field hzip
  refine ⟨r, ?_, hpassed⟩
  rw [List.getElem?_append_left (List.getElem?_eq_some_iff.mp hr).1]
  exact hr

/-! ### References in a compiled program -/

/-- At the start of a run, a reference in the methods to the name of an input reads what
    was given for it just if no output has that name. -/
def EntryReads (m : Resolved.Module) (b : Bindings) (stream : Stream) : Prop :=
  ∃ callee, stream.goal = .run (.enter callee []) ∧
    ∀ method ∈ m.methods, ∀ u ∈ m.inputs, ∀ locals, method.Mentions fun w =>
      w.name = u.name →
        (((Env.mk callee.fields locals).reader stream.machine.store w.slot).toOption =
          b.get? u.name ↔ ∀ v ∈ m.outputs, v.name ≠ u.name)

/-- A reference in the methods to the name of an input is to the cell that the input of the
    call was passed in, if no later parameter has that name. -/
def CallReads (m : Resolved.Module) (env : Env) (inputs : List Expr) (s s' : Store)
    (callee : Instance) : Prop :=
  ∀ (i : Nat) (u : Resolved.Var) (input : Expr), m.inputs[i]? = some u →
    inputs[i]? = some input → (∀ v ∈ m.fields.drop (i + 1), v.name ≠ u.name) →
      ∀ method ∈ m.methods, ∀ locals, method.Mentions fun w =>
        w.name = u.name → ∃ r, (Env.mk callee.fields locals).ref? w.slot = some r ∧
          Passed env s s' input r

theorem entryReads_of_start {p : Plan.Program} {b : Bindings} {limit : Option Nat}
    {stream : Stream} {entry : Plan.Module} {m : Resolved.Module} (hentry : p.entry? = some entry)
    (hlays : entry.Lays m) (hscoped : ∀ method ∈ m.methods, method.Scoped m.fields)
    (hstart : Stream.start p b limit = .ok stream) : EntryReads m b stream := by
  obtain ⟨-, entry', hentry', hopens⟩ := Stream.opens_of_start hstart
  rw [hentry] at hentry'
  cases hentry'
  refine ⟨_, hopens.goal, fun method hmethod u hu locals => ?_⟩
  refine (hscoped method hmethod).mentions.mono fun w hw hname => ?_
  exact entry_reads_iff hopens hlays (isSome_of_start hstart hentry) (hscoped method hmethod) hu
    hw hname locals

theorem callReads_of_transfer {p : Plan.Program} {k : Nat} {plan : Plan.Module}
    {m : Resolved.Module} (hplan : p.modules[k]? = some plan) (hlays : plan.Lays m)
    (hscoped : ∀ method ∈ m.methods, method.Scoped m.fields) {env : Env}
    {after rest : List Activation} {inputs : List Expr} {outputs : List Slot} {s s' : Store}
    {callee : Instance}
    (h : transfer p env after (.call k inputs outputs) s = .ok (.run (.enter callee rest)) s') :
    CallReads m env inputs s s' callee := by
  intro i u input hu hinput hlater method hmethod locals
  have hplace := Resolved.Module.getElem?_of_inputs hu
  have hfield : plan.fields[i]? = some ⟨u.name, u.ty⟩ := by
    rw [hlays.fields, List.getElem?_map, hplace]
    rfl
  obtain ⟨r, hr, hpassed⟩ := passed_of_call hplan h hinput hfield
  have hscope := hscoped method hmethod
  refine hscope.mentions.mono fun w hw hname => ⟨r, ?_, hpassed⟩
  -- the input itself is the last of its name, so it is what the reference is to
  rw [hw.eq (hscope.lastOfName_field hplace hlater) hname, hscope.field_slot i u hplace]
  exact hr

/-- **A name stands for the last variable that has it.**  In every module of a source that
    compiles, the locals of a method have names that differ from each other and from those
    of the fields, each field and each local has a slot of its own, and a reference is to
    the last variable of its name.  So each variable is what its name stands for just if
    the fields have different names; two parameters may share one if their types agree.
    A reference to an input then reads what was given for it at the start of a run just if
    no output has its name, and in a call reads what was passed for it if no later
    parameter has its name. -/
theorem references_reach_last_of_name {options : Options} {source : String}
    {compiled : Compiled} (h : (compile options source).result = .ok compiled) :
    ∃ units lowered, (load options.name source options.sources).result = .ok units ∧
      (lowerAll units).result = .ok lowered ∧
      (∀ l ∈ lowered, ∀ method ∈ l.2.methods, method.Scoped l.2.fields) ∧
      (∀ l, lowered.head? = some l → ∀ b limit stream,
        Stream.start compiled.program b limit = .ok stream → EntryReads l.2 b stream) ∧
      ∀ k l, lowered[k]? = some l → ∀ env after inputs outputs s s' callee rest,
        transfer compiled.program env after (.call k inputs outputs) s =
          .ok (.run (.enter callee rest)) s' → CallReads l.2 env inputs s s' callee := by
  obtain ⟨units, lowered, scheduled, hunits, hlowered, hscheduled, hprogram⟩ := compile_eq_ok h
  have hscoped := scoped_of_lowerAll hunits hlowered
  refine ⟨units, lowered, hunits, hlowered, hscoped, ?_, ?_⟩
  · intro l hl b limit stream hstart
    have hfirst : lowered[0]? = some l := by rw [← List.head?_eq_getElem?, hl]
    obtain ⟨entry, hentry, hlays⟩ := lays_ofSchedule hscheduled hprogram hfirst
    have hhead : compiled.program.entry? = some entry := by
      rw [Plan.Program.entry?, List.head?_eq_getElem?, hentry]
    exact entryReads_of_start hhead hlays (hscoped l (List.mem_of_getElem? hfirst)) hstart
  · intro k l hl env after inputs outputs s s' callee rest hcall
    obtain ⟨plan, hplan, hlays⟩ := lays_ofSchedule hscheduled hprogram hl
    exact callReads_of_transfer hplan hlays (hscoped l (List.mem_of_getElem? hl)) hcall

/-- A source in which an input and an output share their name. -/
def doubledSource : String :=
  "main({A: bool}, {A: bool, B: bool})
method
  B = A;
end method;
end module;
"

/-- Whether some statement of the module reads what goes by the name of an input and of an
    output. -/
def readsDoubled (m : Resolved.Module) : Bool :=
  m.inputs.any fun u => m.outputs.any (fun v => v.name == u.name) &&
    m.methods.any fun method => method.body.any fun s => s.reads.any fun w => w.name == u.name

theorem exists_of_readsDoubled {m : Resolved.Module} (h : readsDoubled m = true) :
    ∃ u ∈ m.inputs, (∃ v ∈ m.outputs, v.name = u.name) ∧
      ∃ method ∈ m.methods, ∃ s ∈ method.body, ∃ w ∈ s.reads, w.name = u.name := by
  simpa only [readsDoubled, List.any_eq_true, Bool.and_eq_true, beq_iff_eq] using h

/-- The first module of a source with its slots, if a run of it starts. -/
def started? (source : String) (b : Bindings) : Option (Document × Resolved.Module) :=
  match (load ({} : Options).name source ({} : Options).sources).result with
  | .error _ => none
  | .ok units =>
      match (lowerAll units).result, (compile {} source).result with
      | .ok lowered, .ok compiled =>
          match Stream.start compiled.program b none with
          | .ok _ => lowered.head?
          | .error _ => none
      | _, _ => none

theorem exists_of_started? {source : String} {b : Bindings}
    {check : Document × Resolved.Module → Bool} (h : (started? source b).any check = true) :
    ∃ units lowered l compiled stream,
      (load ({} : Options).name source ({} : Options).sources).result = .ok units ∧
      (lowerAll units).result = .ok lowered ∧ lowered.head? = some l ∧
      (compile {} source).result = .ok compiled ∧
      Stream.start compiled.program b none = .ok stream ∧ check l = true := by
  obtain ⟨l, hl, hcheck⟩ := (Option.any_eq_true _ _).mp h
  unfold started? at hl
  split at hl
  · cases hl
  · rename_i units hunits
    split at hl
    · rename_i lowered compiled hlowered hcompile
      split at hl
      · rename_i stream hstart
        exact ⟨units, lowered, l, compiled, stream, hunits, hlowered, hl, hcompile, hstart, hcheck⟩
      · cases hl
    · cases hl

set_option maxRecDepth 100000 in
theorem references_reach_last_of_name_doubledSource :
    ∃ units lowered l compiled stream callee,
      (load ({} : Options).name doubledSource ({} : Options).sources).result = .ok units ∧
      (lowerAll units).result = .ok lowered ∧ lowered.head? = some l ∧
      (compile {} doubledSource).result = .ok compiled ∧
      Stream.start compiled.program (.ofList [("A", .bool true)]) none = .ok stream ∧
      stream.goal = .run (.enter callee []) ∧
      ∃ u ∈ l.2.inputs, ∃ method ∈ l.2.methods, ∃ s ∈ method.body, ∃ w ∈ s.reads,
        w.name = u.name ∧
        ((Env.mk callee.fields []).reader stream.machine.store w.slot).toOption ≠
          (Bindings.ofList [("A", .bool true)]).get? u.name := by
  have hstarted : (started? doubledSource (.ofList [("A", .bool true)])).any
      (fun l => readsDoubled l.2) = true := by
    rw [started?, compile, Library.load, Library.State.load, Source.Document.ofText,
      show doubledSource.toList = _ from String.toList_ofList]
    decide +kernel
  obtain ⟨units, lowered, l, compiled, stream, hunits, hlowered, hl, hcompile, hstart, hdoubled⟩ :=
    exists_of_started? hstarted
  obtain ⟨u, hu, ⟨v, hv, hshared⟩, method, hmethod, s, hs, w, hw, hname⟩ :=
    exists_of_readsDoubled hdoubled
  obtain ⟨units', lowered', hunits', hlowered', -, hentry, -⟩ :=
    references_reach_last_of_name hcompile
  rw [hunits] at hunits'
  cases hunits'
  rw [hlowered] at hlowered'
  cases hlowered'
  obtain ⟨callee, hgoal, hreads⟩ := hentry l hl _ _ stream hstart
  refine ⟨units, lowered, l, compiled, stream, callee, hunits, hlowered, hl, hcompile, hstart,
    hgoal, u, hu, method, hmethod, s, hs, w, hw, hname, fun hread => ?_⟩
  have hiff := ((hreads method hmethod u hu []).body s hs).1 w hw hname
  exact hiff.mp hread v hv hshared

end Search

end CandidateSearch
