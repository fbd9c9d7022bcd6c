/-
  CandidateSearch/Proofs/Declarative/Layout.lean
  ==============================================
  **The cells of a run that starts.**

  The inputs of the entry module are in the first cells, in their order, then come its
  outputs and then the locals of its method.

      main({A, B}, {C})  with a local D        A 0    B 1    C 2    D 3

  So every variable has a cell of its own, the inputs have their values and nothing else
  has one, and what is read off at a solution are the values of the outputs.
-/
import CandidateSearch.Proofs.Declarative.Entry
import CandidateSearch.Proofs.Declarative.Placing

namespace CandidateSearch

open Syntax (IsPlain)
open Resolved (envOf)

/-! ### New cells -/

namespace Store

theorem value?_alloc_self (s : Store) (name : String) (x : Option Value) :
    (s.alloc name x).2.value? s.size = x := by
  have hcell := s.cell_alloc_self name x
  simp only [alloc] at hcell
  simp [value?, alloc, hcell]

theorem value?_alloc_of_lt {s : Store} {r : Ref} (name : String) (x : Option Value)
    (h : r < s.size) : (s.alloc name x).2.value? r = s.value? r := by
  rw [value?, cell_alloc_of_lt name x h]
  rfl

theorem value?_of_size_le {s : Store} {r : Ref} (h : s.size ≤ r) : s.value? r = none := by
  have hbound : s.cells.size ≤ r := h
  simp [value?, cell, hbound]

/-- New cells follow those that are there and hold nothing. -/
theorem allocAll_spec (names : List String) (s : Store) :
    (s.allocAll names).1 = List.range' s.size names.length ∧
      (s.allocAll names).2.size = s.size + names.length ∧
      (∀ r < s.size, (s.allocAll names).2.value? r = s.value? r) ∧
      ∀ r, s.size ≤ r → (s.allocAll names).2.value? r = none := by
  induction names generalizing s with
  | nil => exact ⟨rfl, rfl, fun _ _ => rfl, fun _ hr => value?_of_size_le hr⟩
  | cons name rest ih =>
    obtain ⟨hrefs, hsize, hold, hnew⟩ := ih (s.alloc name none).2
    have hone : (s.alloc name none).2.size = s.size + 1 := s.size_alloc name none
    rw [hone] at hrefs hsize hold hnew
    refine ⟨?_, ?_, fun r hr => ?_, fun r hr => ?_⟩
    · simp only [allocAll, List.length_cons, List.range'_succ]
      rw [← hrefs]
      rfl
    · simp only [allocAll, List.length_cons]
      omega
    · simp only [allocAll]
      rw [hold r (by omega), value?_alloc_of_lt name none hr]
    · simp only [allocAll]
      rcases Nat.eq_or_lt_of_le hr with rfl | hlt
      · rw [hold s.size (by omega), value?_alloc_self]
      · exact hnew r hlt

end Store

namespace Search

theorem bindInputs_spec {b : Bindings} {fields : List Plan.Field} {s s' : Store} {rs : List Ref}
    (h : bindInputs b fields s = .ok (rs, s')) :
    rs = List.range' s.size fields.length ∧ s'.size = s.size + fields.length ∧
      (∀ r < s.size, s'.value? r = s.value? r) ∧
      ∀ i field, fields[i]? = some field → s'.value? (s.size + i) = b.get? field.name := by
  induction fields generalizing s rs with
  | nil =>
    cases h
    exact ⟨rfl, rfl, fun _ _ => rfl, by simp⟩
  | cons first rest ih =>
    rw [bindInputs] at h
    split at h
    · rename_i v hv
      simp only [bind_eq_ok, pure_eq_ok] at h
      obtain ⟨⟨rs', s₁⟩, hrest, heq⟩ := h
      cases heq
      obtain ⟨hrefs, hsize, hold, hnew⟩ := ih hrest
      rw [Store.size_alloc] at hrefs hsize hold hnew
      refine ⟨?_, ?_, fun r hr => ?_, fun i field hfield => ?_⟩
      · rw [hrefs, List.length_cons, List.range'_succ]
        rfl
      · rw [hsize, List.length_cons]
        omega
      · rw [hold r (by omega), Store.value?_alloc_of_lt _ _ hr]
      · cases i with
        | zero =>
          obtain rfl : first = field := by simpa using hfield
          rw [Nat.add_zero, hold s.size (by omega), Store.value?_alloc_self, hv]
        | succ i =>
          have hvalue := hnew i field (by simpa using hfield)
          rwa [Nat.add_assoc, Nat.add_comm 1 i] at hvalue
    · cases h

/-! ### Where variables are -/

variable {m : Syntax.Module} {method : Syntax.Method}

/-- The cells of the entry method. -/
def startRefs (m : Syntax.Module) (method : Syntax.Method) : Env :=
  ⟨List.range' 0 (m.inputs.length + m.outputs.length),
    List.range' (m.inputs.length + m.outputs.length) method.locals.length⟩

theorem cell?_startRefs {k : Key} {r : Ref}
    (h : cell? (envOf m method) (startRefs m method) k = some r) :
    (k.1 = .parameter ∧ ∃ v, (m.inputs ++ m.outputs)[r]? = some v ∧ v.name = k.2) ∨
      k.1 = .body ∧ ∃ i v, method.locals[i]? = some v ∧ v.name = k.2 ∧
        r = m.inputs.length + m.outputs.length + i := by
  obtain ⟨w, hw, hr⟩ := Option.bind_eq_some_iff.mp h
  have hname := Resolved.Env.name_of_find? hw
  rcases Resolved.find?_envOf hw with ⟨hscope, i, v, hv, rfl⟩ | ⟨hscope, i, v, hv, rfl⟩
  · simp only [startRefs, Env.ref?, List.getElem?_eq_some_iff, List.getElem_range'] at hr
    obtain ⟨-, rfl⟩ := hr
    exact Or.inl ⟨hscope, v, by simpa using hv, hname⟩
  · simp only [startRefs, Env.ref?, List.getElem?_eq_some_iff, List.getElem_range'] at hr
    obtain ⟨-, rfl⟩ := hr
    exact Or.inr ⟨hscope, i, v, hv, hname, by simp⟩

theorem layout_startRefs (m : Syntax.Module) (method : Syntax.Method) :
    Layout (envOf m method) (startRefs m method)
      (m.inputs.length + m.outputs.length + method.locals.length) := by
  constructor
  · intro k w hw
    rcases Resolved.find?_envOf hw with ⟨-, i, v, hv, rfl⟩ | ⟨-, i, v, hv, rfl⟩
    · have hlt := (List.getElem?_eq_some_iff.mp hv).1
      rw [List.length_append] at hlt
      exact ⟨i, by simp [startRefs, Env.ref?, hlt], Nat.lt_of_lt_of_le hlt (Nat.le_add_right _ _)⟩
    · have hlt := (List.getElem?_eq_some_iff.mp hv).1
      exact ⟨m.inputs.length + m.outputs.length + i, by simp [startRefs, Env.ref?, hlt],
        Nat.add_lt_add_left hlt _⟩
  · intro k k' r hr hr'
    rcases cell?_startRefs hr with ⟨hscope, v, hv, hname⟩ | ⟨hscope, i, v, hv, hname, rfl⟩
    · rcases cell?_startRefs hr' with ⟨hscope', v', hv', hname'⟩ | ⟨-, i', -, -, -, rfl⟩
      · rw [hv] at hv'
        cases hv'
        exact Prod.ext (hscope.trans hscope'.symm) (hname.symm.trans hname')
      · have hlt := (List.getElem?_eq_some_iff.mp hv).1
        rw [List.length_append] at hlt
        omega
    · rcases cell?_startRefs hr' with ⟨-, v', hv', -⟩ | ⟨hscope', i', v', hv', hname', heq⟩
      · have hlt := (List.getElem?_eq_some_iff.mp hv').1
        rw [List.length_append] at hlt
        omega
      · obtain rfl : i = i' := Nat.add_left_cancel heq
        rw [hv] at hv'
        cases hv'
        exact Prod.ext (hscope.trans hscope'.symm) (hname.symm.trans hname')

theorem nodup_parameters (hplain : IsPlain m method) :
    ((m.inputs ++ m.outputs).map (·.name)).Nodup := by
  have hgroups : m.inputs ++ m.outputs = m.groups.flatten := by
    unfold Syntax.Module.inputs Syntax.Module.outputs
    cases m.groups <;> rfl
  rw [hgroups]
  exact hplain.parameters

theorem eq_of_parameter_name (hplain : IsPlain m method) {i j : Nat} {u v : Syntax.Var}
    (hu : (m.inputs ++ m.outputs)[i]? = some u) (hv : (m.inputs ++ m.outputs)[j]? = some v)
    (hname : u.name = v.name) : i = j := by
  have hi := (List.getElem?_eq_some_iff.mp hu).1
  refine (List.getElem?_inj (by simpa using hi) (nodup_parameters hplain)).mp ?_
  rw [List.getElem?_map, List.getElem?_map, hu, hv, Option.map_some, Option.map_some, hname]

theorem cell?_parameter (hplain : IsPlain m method) {i : Nat} {v : Syntax.Var}
    (hv : (m.inputs ++ m.outputs)[i]? = some v) :
    cell? (envOf m method) (startRefs m method) (.parameter, v.name) = some i := by
  have hsome : ((envOf m method).find? (.parameter, v.name)).isSome = true := by
    simp only [Resolved.Env.find?, envOf, Resolved.fieldsOf_groups, List.find?_isSome]
    refine ⟨⟨v.name, v.ty, .outer i, decide (i < m.inputs.length)⟩, ?_, by simp⟩
    rw [List.mem_reverse, List.mem_mapIdx]
    obtain ⟨hi, rfl⟩ := List.getElem?_eq_some_iff.mp hv
    exact ⟨i, hi, rfl⟩
  obtain ⟨w, hw⟩ := Option.isSome_iff_exists.mp hsome
  obtain ⟨r, hcell, -, -⟩ := (layout_startRefs m method).cell?_eq_some hw
  rcases cell?_startRefs hcell with ⟨-, u, hu, hname⟩ | ⟨hscope, -⟩
  · rw [hcell, eq_of_parameter_name hplain hu hv hname]
  · cases hscope

/-! ### What the cells hold -/

def fieldOf (v : Syntax.Var) : Plan.Field := ⟨v.name, v.ty⟩

open Schedule (inputsOf)

/-- The store in which the entry method is opened. -/
structure Opened (m : Syntax.Module) (method : Syntax.Method) (b : Bindings) (s : Store) :
    Prop where
  size : s.size = m.inputs.length + m.outputs.length + method.locals.length
  inputs : ∀ (i : Nat) v, m.inputs[i]? = some v → s.value? i = b.get? v.name
  others : ∀ r : Nat, m.inputs.length ≤ r → s.value? r = none

theorem Opened.agrees {b : Bindings} {s : Store} (hplain : IsPlain m method)
    (h : Opened m method b s) (pending : List Key) :
    Agrees (envOf m method) (startRefs m method) s (inputsOf m b) pending := by
  intro k r hr _
  rcases cell?_startRefs hr with ⟨hscope, v, hv, hname⟩ | ⟨hscope, i, v, -, -, rfl⟩
  · by_cases hlt : r < m.inputs.length
    · rw [List.getElem?_append_left hlt] at hv
      have hmem : k.2 ∈ m.inputs.map (·.name) :=
        hname ▸ List.mem_map_of_mem (List.mem_of_getElem? hv)
      rw [h.inputs r v hv, inputsOf, if_pos ⟨hscope, hmem⟩, hname]
    · rw [h.others r (Nat.le_of_not_lt hlt), inputsOf, if_neg]
      rintro ⟨-, hmem⟩
      obtain ⟨u, hu, huname⟩ := List.mem_map.mp hmem
      obtain ⟨j, hj⟩ := List.getElem?_of_mem hu
      have hjlt := (List.getElem?_eq_some_iff.mp hj).1
      rw [← List.getElem?_append_left hjlt] at hj
      exact hlt (eq_of_parameter_name hplain hj hv (huname.trans hname.symm) ▸ hjlt)
  · rw [h.others _ (by omega), inputsOf, if_neg]
    rintro ⟨hparameter, -⟩
    rw [hscope] at hparameter
    cases hparameter

theorem snapshotOf_eq_solution (hplain : IsPlain m method) {s : Store} {V : Valuation}
    (h : Agrees (envOf m method) (startRefs m method) s V []) :
    snapshotOf ((m.outputs.map fieldOf).zip (List.range' m.inputs.length m.outputs.length)) s =
      m.solution V := by
  unfold snapshotOf Syntax.Module.solution
  congr 1
  refine List.ext_getElem (by simp) fun i hi hi' => ?_
  have hlt : i < m.outputs.length := by simpa using hi'
  have hat : (m.inputs ++ m.outputs)[m.inputs.length + i]? = some m.outputs[i] := by
    rw [List.getElem?_append_right (by omega), Nat.add_sub_cancel_left]
    exact List.getElem?_eq_getElem hlt
  have hvalue := h _ _ (cell?_parameter hplain hat) (by simp)
  simp [fieldOf, hvalue]

/-- What follows the entry method. -/
def emitOutputs (m : Syntax.Module) : Explore :=
  emit ((m.outputs.map fieldOf).zip (List.range' m.inputs.length m.outputs.length))

theorem emitOutputs_eq (hplain : IsPlain m method) (V : Valuation) (s : Store)
    (h : Agrees (envOf m method) (startRefs m method) s V []) :
    emitOutputs m s = ⟨[m.solution V], .done s⟩ := by
  unfold emitOutputs emit
  rw [snapshotOf_eq_solution hplain h]

/-! ### The start of an exploration -/

theorem entryPlan_fields (m : Syntax.Module) (method : Syntax.Method) (stages : List Plan.Stage) :
    (entryPlan m method stages).inputs = m.inputs.map fieldOf ∧
      (entryPlan m method stages).outputs = m.outputs.map fieldOf := by
  have hfields : (entryPlan m method stages).fields = (m.inputs ++ m.outputs).map fieldOf := by
    simp only [entryPlan, Resolved.fieldsOf_groups]
    generalize m.inputs ++ m.outputs = all
    exact List.ext_getElem (by simp) fun i hi hi' => by simp [fieldOf]
  have hcount : (entryPlan m method stages).inputCount = m.inputs.length := by
    have hgiven : (Resolved.ofSyntax m).value.inputCount = m.inputs.length := by
      simp only [Resolved.ofSyntax, Syntax.Module.inputs]
      cases m.groups <;> rfl
    have htake : (Resolved.ofSyntax m).value.inputs.length =
        min m.inputs.length (Resolved.fieldsOf m.groups).length := by
      rw [Resolved.Module.inputs, List.length_take, hgiven]
      rfl
    rw [entryPlan, htake, Resolved.fieldsOf_groups]
    simp
  rw [Plan.Module.inputs, Plan.Module.outputs, hfields, hcount, List.map_append]
  constructor
  · exact List.take_left' (by simp)
  · exact List.drop_left' (by simp)

/-- An exploration opens the method of the entry module and goes through its stages. -/
theorem exploreStages_of_explore {p : Plan.Program} {b : Bindings} {stages : List Plan.Stage}
    (hentry : p.entry? = some (entryPlan m method stages)) {depth : Nat} {found : List Solution}
    {s' : Store} (h : explore depth p b = .ok ⟨found, .done s'⟩) :
    ∃ depth s, Opened m method b s ∧
      exploreStages p depth (exploreModule p depth) (startRefs m method) (emitOutputs m) stages s =
        ⟨found, .done s'⟩ := by
  obtain ⟨hinputs, houtputs⟩ := entryPlan_fields m method stages
  simp only [explore, hentry, bind_eq_ok, pure_eq_ok, hinputs, houtputs] at h
  obtain ⟨⟨inputs, s₀⟩, hbind, h⟩ := h
  obtain ⟨rfl, hsize₀, -, hvalues⟩ := bindInputs_spec hbind
  have hempty : Store.size {} = 0 := rfl
  simp only [List.length_map, List.map_map, hempty, Nat.zero_add] at h hsize₀ hvalues
  -- the cells of the outputs, then those of the locals
  obtain ⟨hrefs₁, hsize₁, hold₁, hnew₁⟩ :=
    Store.allocAll_spec (m.outputs.map ((·.name) ∘ fieldOf)) s₀
  simp only [List.length_map, hsize₀] at hrefs₁ hsize₁ hold₁ hnew₁
  rw [hrefs₁] at h
  generalize (s₀.allocAll (m.outputs.map ((·.name) ∘ fieldOf))).2 = s₁ at h hsize₁ hold₁ hnew₁
  cases depth with
  | zero => cases h
  | succ depth =>
    obtain ⟨hrefs₂, hsize₂, hold₂, hnew₂⟩ :=
      Store.allocAll_spec ((Resolved.localsOf method.locals).map (·.name)) s₁
    have hopen : exploreStages p depth (exploreModule p depth)
        ⟨List.range' 0 m.inputs.length ++ List.range' m.inputs.length m.outputs.length,
          (s₁.allocAll ((Resolved.localsOf method.locals).map (·.name))).1⟩
        (emitOutputs m) stages (s₁.allocAll ((Resolved.localsOf method.locals).map (·.name))).2 =
          ⟨found, .done s'⟩ := h
    have hlength : ((Resolved.localsOf method.locals).map (·.name)).length =
        method.locals.length := by simp [Resolved.localsOf]
    have hfields : List.range' 0 m.inputs.length ++ List.range' m.inputs.length m.outputs.length =
        List.range' 0 (m.inputs.length + m.outputs.length) := by
      have happend := @List.range'_append_1 0 m.inputs.length m.outputs.length
      rwa [Nat.zero_add] at happend
    rw [hrefs₂, hlength, hsize₁, hfields] at hopen
    rw [hlength] at hsize₂
    refine ⟨depth, _, ⟨?_, fun i v hv => ?_, fun r hr => ?_⟩, hopen⟩
    · rw [hsize₂, hsize₁]
    · have hlt : i < m.inputs.length := (List.getElem?_eq_some_iff.mp hv).1
      rw [hold₂ i (by omega), hold₁ i hlt]
      exact hvalues i (fieldOf v) (by simp [hv])
    · by_cases hlt : r < s₁.size
      · rw [hold₂ r hlt, hnew₁ r hr]
      · exact hnew₂ r (Nat.le_of_not_lt hlt)

end Search

end CandidateSearch
