/-
  CandidateSearch/Proofs/Search/Leftovers.lean
  ============================================
  **What a solution shows.**

  Nothing is undone when a branch is given up, so a solution can show what was bound on a
  branch that did not lead to it:

      main({}, {X: bool, Y: bool})
      method  Y = true;  X = true;  test(not(Y));  end method;
      method  X = true;                            end method;

  The first method binds `Y` and fails, and the second one, which does not mention `Y`,
  leads to a solution with `Y` true.  In general an output is shown with the value that was
  bound to it last, on whatever branch that was, and an output that was never bound with
  the default value of its type.
-/
import CandidateSearch.Proofs.Search.Derivation

namespace CandidateSearch.Search

/-- What has been bound to a cell last, on whatever branch. -/
def Situation.bound? (x : Situation Job) (r : Ref) : Option Value :=
  Store.lastOf r (writesOfAll x.deeds)

theorem mem_of_lastOf {r : Ref} {v : Value} {writes : List (Ref × Value)}
    (h : Store.lastOf r writes = some v) : (r, v) ∈ writes := by
  induction writes with
  | nil => cases h
  | cons w rest ih =>
    obtain ⟨q, u⟩ := w
    rw [Store.lastOf, Option.or_eq_some_iff] at h
    rcases h with hlater | ⟨-, hfirst⟩
    · exact List.mem_cons_of_mem _ (ih hlater)
    · by_cases hq : q = r
      · rw [if_pos hq] at hfirst
        cases hfirst
        exact hq ▸ List.mem_cons_self
      · rw [if_neg hq] at hfirst
        cases hfirst

/-- What is not bound on the way here was bound on a branch that was given up. -/
theorem Situation.abandoned_of_bound? {x : Situation Job} {r : Ref} {v : Value}
    (hpath : ∀ d ∈ x.path, ¬ d.Binds r) (h : x.bound? r = some v) :
    ∃ d ∈ x.deeds, d ∉ x.path ∧ (r, v) ∈ d.writes := by
  obtain ⟨d, hd, hwrite⟩ := List.mem_flatMap.mp (mem_of_lastOf h)
  exact ⟨d, hd, fun hmem => hpath d hmem ⟨v, hwrite⟩, hwrite⟩

namespace Stream

variable {b : Bindings} {entry : Plan.Module} {stream : Stream}

theorem Opens.output_cell (h : stream.Opens b entry) {field : Plan.Field} {r : Ref}
    (hmem : (field, r) ∈ stream.outputs) :
    r < stream.machine.store.size ∧ stream.machine.store.value? r = none := by
  rw [h.outputs] at hmem
  have hcells := List.mem_range'_1.mp (List.of_mem_zip hmem).2
  refine ⟨?_, h.others r hcells.1⟩
  rw [h.size, ← length_inputs_add_outputs]
  exact hcells.2

theorem Opens.map_outputs (h : stream.Opens b entry) :
    stream.outputs.map (·.1) = entry.outputs := by
  rw [h.outputs, List.map_fst_zip]
  rw [List.length_range']

/-- At any time an output cell holds what was bound to it last. -/
theorem Opens.value?_output (h : stream.Opens b entry) {x : Situation Job} (hx : stream.Visits x)
    {field : Plan.Field} {r : Ref} (hmem : (field, r) ∈ stream.outputs) :
    x.machine.store.value? r = x.bound? r := by
  obtain ⟨hsize, hnone⟩ := h.output_cell hmem
  rw [hx.recorded.replays.value? hsize, hnone, Option.or_none]
  rfl

theorem Opens.snapshot_eq (h : stream.Opens b entry) {x : Situation Job} (hx : stream.Visits x) :
    (stream.snapshot x.machine.store).values =
      stream.outputs.map fun (field, r) => (field.name, (x.bound? r).getD (.default field.ty)) := by
  apply List.map_congr_left
  rintro ⟨field, r⟩ hmem
  simp only [h.value?_output hx hmem]

end Stream

/-- **Solutions show what was bound last.**  Every solution that a stream gives at any time
    is read off at a success of the run, and there each output is shown with the value that
    was bound to it last by anything that has been done, or else with the default value of
    its type.  So an output that was not bound on the way to the success is shown with its
    default value, unless a branch that was given up has bound it. -/
theorem solutions_show_last_bindings {p : Plan.Program} {b : Bindings} {limit : Option Nat}
    {stream : Stream} (hstart : Stream.start p b limit = .ok stream) :
    (∃ entry, p.entry? = some entry ∧ stream.outputs.map (·.1) = entry.outputs) ∧
      (∀ later fuel solution, stream.Reaches later → (later.pull fuel).1 = .solution solution →
        ∃ x, stream.Solves solution x) ∧
      ∀ solution x, stream.Solves solution x →
        x.path.Sublist x.deeds ∧
        (solution.values = stream.outputs.map fun (field, r) =>
          (field.name, (x.bound? r).getD (.default field.ty))) ∧
        ∀ r, (∀ d ∈ x.path, ¬ d.Binds r) → ∀ v, x.bound? r = some v →
          ∃ d ∈ x.deeds, d ∉ x.path ∧ (r, v) ∈ d.writes := by
  obtain ⟨-, entry, hentry, hopens⟩ := Stream.opens_of_start hstart
  refine ⟨⟨entry, hentry, hopens.map_outputs⟩, ?_, ?_⟩
  · intro later fuel solution hreaches hpull
    exact Stream.solves_of_pull hreaches hpull
  · intro solution x hsolves
    refine ⟨hsolves.visits.recorded.path, ?_, ?_⟩
    · rw [hsolves.solution]
      exact hopens.snapshot_eq hsolves.visits
    · intro r hpath v hbound
      exact Situation.abandoned_of_bound? hpath hbound

/-! ### A branch that was given up -/

/-- The first method binds `Y` and fails, the second one does not mention it. -/
def leftoverSource : String :=
  "main({}, {X: bool, Y: bool})
method
  Y = true;
  X = true;
  test(not(Y));
end method;
method
  X = true;
end method;
end module;
"

set_option maxRecDepth 100000 in
theorem solutions_show_last_bindings_leftoverSource :
    ∃ compiled stream solution x, (compile {} leftoverSource).result = .ok compiled ∧
      Stream.start compiled.program {} none = .ok stream ∧ stream.Solves solution x ∧
      solution.values.map (fun (name, v) => (name, v.text)) = [("X", "true"), ("Y", "true")] ∧
      solution.values = stream.outputs.map fun (field, r) =>
        (field.name, (x.bound? r).getD (.default field.ty)) := by
  have hvisited : (visited? 5 leftoverSource).any (fun (stream, x) => x.isSuccess &&
      (stream.snapshot x.machine.store).values.map (fun (name, v) => (name, v.text)) ==
        [("X", "true"), ("Y", "true")]) = true := by
    rw [visited?, compile, Library.load, Library.State.load, Source.Document.ofText,
      show leftoverSource.toList = _ from String.toList_ofList]
    decide +kernel
  obtain ⟨compiled, stream, x, hcompile, hstart, hvisits, hcheck⟩ := visits_of_visited? hvisited
  rw [Bool.and_eq_true, beq_iff_eq] at hcheck
  have hsolves : stream.Solves (stream.snapshot x.machine.store) x :=
    ⟨hvisits, Situation.goal_of_isSuccess hcheck.1, rfl⟩
  obtain ⟨-, -, hshown⟩ := solutions_show_last_bindings hstart
  exact ⟨compiled, stream, _, x, hcompile, hstart, hsolves, hcheck.2, (hshown _ x hsolves).2.1⟩

/-- The truth value of an output is shown as true, though nothing on the way has bound it. -/
def Situation.showsUnbound (x : Situation Job) (output : Plan.Field × Ref) : Bool :=
  output.1.ty == .bool && x.path.all (fun d => d.writes.all fun w => w.1 != output.2) &&
    match x.machine.store.value? output.2 with
    | some (.bool true) => true
    | _ => false

theorem Situation.of_showsUnbound {x : Situation Job} {output : Plan.Field × Ref}
    (h : x.showsUnbound output = true) :
    output.1.ty = .bool ∧ (∀ d ∈ x.path, ¬ d.Binds output.2) ∧
      x.machine.store.value? output.2 = some (.bool true) := by
  simp only [showsUnbound, Bool.and_eq_true, beq_iff_eq, List.all_eq_true, bne_iff_ne] at h
  obtain ⟨⟨hty, hpath⟩, hvalue⟩ := h
  refine ⟨hty, ?_, ?_⟩
  · rintro d hd ⟨v, hwrite⟩
    exact hpath d hd _ hwrite rfl
  · split at hvalue
    · assumption
    · cases hvalue

set_option maxRecDepth 100000 in
/-- A solution can show a value that no statement on the way to it has bound. -/
theorem abandoned_branches_leave_values :
    ∃ compiled stream solution x, (compile {} leftoverSource).result = .ok compiled ∧
      Stream.start compiled.program {} none = .ok stream ∧ stream.Solves solution x ∧
      ∃ field r, (field, r) ∈ stream.outputs ∧ (∀ d ∈ x.path, ¬ d.Binds r) ∧
        Value.default field.ty = .bool false ∧ (field.name, Value.bool true) ∈ solution.values := by
  have hvisited : (visited? 5 leftoverSource).any (fun (stream, x) =>
      x.isSuccess && stream.outputs.any x.showsUnbound) = true := by
    rw [visited?, compile, Library.load, Library.State.load, Source.Document.ofText,
      show leftoverSource.toList = _ from String.toList_ofList]
    decide +kernel
  obtain ⟨compiled, stream, x, hcompile, hstart, hvisits, hcheck⟩ := visits_of_visited? hvisited
  rw [Bool.and_eq_true, List.any_eq_true] at hcheck
  obtain ⟨hsuccess, ⟨field, r⟩, hmem, houtput⟩ := hcheck
  obtain ⟨hty, hpath, hvalue⟩ := Situation.of_showsUnbound houtput
  refine ⟨compiled, stream, _, x, hcompile, hstart,
    ⟨hvisits, Situation.goal_of_isSuccess hsuccess, rfl⟩, field, r, hmem, hpath, ?_, ?_⟩
  · rw [hty]
    rfl
  · refine List.mem_map.mpr ⟨(field, r), hmem, ?_⟩
    simp only [hvalue]
    rfl

end CandidateSearch.Search
