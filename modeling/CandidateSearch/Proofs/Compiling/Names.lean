/-
  CandidateSearch/Proofs/Compiling/Names.lean
  ===========================================
  **What a name stands for in a compiled module.**

  The fields of a module and the locals of a method have slots of their own, and a name
  stands for the last of them that has it.  The locals have names that nothing else has.
  Two members of the parameter groups may share a name if their types agree; then it
  stands for the later one, and the earlier one cannot be reached from the methods:

      f({A: integer}, {A: integer, B: integer}) method B = A; …      reads the output A

  So every variable can be reached just if the members have different names
  (`scoped_ofSyntax`).
-/
import CandidateSearch.Proofs.Compiling.Checks
import CandidateSearch.Proofs.Compiling.Placeholders
import CandidateSearch.Proofs.Grammar.Scopes
import Mathlib.Data.List.Nodup

namespace CandidateSearch

open Source Library

namespace Resolved

/-! ### The last variable of a name -/

/-- The variable is in the list, and none that comes after it has its name. -/
def LastOfName (vars : List Var) (w : Var) : Prop :=
  ∃ before after, vars = before ++ w :: after ∧ ∀ v ∈ after, v.name ≠ w.name

theorem lastOfName_iff {vars : List Var} {w : Var} :
    LastOfName vars w ↔ vars.reverse.find? (fun v => v.name == w.name) = some w := by
  rw [List.find?_eq_some_iff_append]
  constructor
  · rintro ⟨before, after, rfl, hafter⟩
    refine ⟨beq_self_eq_true _, after.reverse, before.reverse, by simp, fun v hv => ?_⟩
    simpa using hafter v (List.mem_reverse.mp hv)
  · rintro ⟨-, after, before, hsplit, hafter⟩
    refine ⟨before.reverse, after.reverse, ?_, fun v hv => ?_⟩
    · rw [← List.reverse_reverse vars, hsplit]
      simp
    · simpa using hafter v (List.mem_reverse.mp hv)

/-- A name stands for one variable. -/
theorem LastOfName.eq {vars : List Var} {v w : Var} (hv : LastOfName vars v)
    (hw : LastOfName vars w) (hname : v.name = w.name) : v = w := by
  rw [lastOfName_iff] at hv hw
  rw [hname, hw] at hv
  exact (Option.some.inj hv).symm

theorem LastOfName.append_left {vars : List Var} {w : Var} (h : LastOfName vars w)
    (others : List Var) : LastOfName (others ++ vars) w := by
  obtain ⟨before, after, rfl, hafter⟩ := h
  exact ⟨others ++ before, after, (List.append_assoc ..).symm, hafter⟩

theorem LastOfName.append_right {vars others : List Var} {w : Var} (h : LastOfName vars w)
    (hothers : ∀ v ∈ others, v.name ≠ w.name) : LastOfName (vars ++ others) w := by
  obtain ⟨before, after, rfl, hafter⟩ := h
  refine ⟨before, after ++ others, by simp, fun v hv => ?_⟩
  rcases List.mem_append.mp hv with hv | hv
  · exact hafter v hv
  · exact hothers v hv

/-- Every variable is the last of its name just if no two have one name. -/
theorem forall_lastOfName_iff {vars : List Var} (h : vars.Nodup) :
    (∀ v ∈ vars, LastOfName vars v) ↔ (vars.map Var.name).Nodup := by
  constructor
  · intro hlast
    refine (List.nodup_map_iff_inj_on h).mpr fun v hv w hw hname => ?_
    exact (hlast v hv).eq (hlast w hw) hname
  · intro hnames v hv
    obtain ⟨before, after, rfl⟩ := List.append_of_mem hv
    refine ⟨before, after, rfl, fun w hw heq => ?_⟩
    rw [List.map_append, List.map_cons] at hnames
    obtain ⟨-, hafter, -⟩ := List.nodup_append.mp hnames
    exact (List.nodup_cons.mp hafter).1 (heq ▸ List.mem_map_of_mem hw)

/-! ### Slots -/

theorem map_slot_eq {ws : List Var} {slot : Nat → Slot}
    (h : ∀ (i : Nat) (w : Var), ws[i]? = some w → w.slot = slot i) :
    ws.map Var.slot = (List.range ws.length).map slot := by
  apply List.ext_getElem?
  intro i
  rw [List.getElem?_map, List.getElem?_map]
  cases hi : ws[i]? with
  | none => simp [List.getElem?_eq_none_iff.mp hi]
  | some w => simp [(List.getElem?_eq_some_iff.mp hi).1, h i w hi]

theorem slots_fieldsOf (groups : List (List Syntax.Var)) :
    (fieldsOf groups).map Var.slot = (List.range (fieldsOf groups).length).map Slot.outer :=
  map_slot_eq fun _ _ => slot_of_fieldsOf

theorem slots_localsOf (vs : List Syntax.Var) :
    (localsOf vs).map Var.slot = (List.range (localsOf vs).length).map Slot.inner :=
  map_slot_eq fun _ _ => slot_of_localsOf

/-- **No slot is given twice.** -/
theorem nodup_slots (groups : List (List Syntax.Var)) (vs : List Syntax.Var) :
    ((fieldsOf groups ++ localsOf vs).map Var.slot).Nodup := by
  rw [List.map_append, slots_fieldsOf, slots_localsOf, List.nodup_append]
  refine ⟨List.nodup_range.map fun _ _ => Slot.outer.inj,
    List.nodup_range.map fun _ _ => Slot.inner.inj, ?_⟩
  intro a ha b hb
  obtain ⟨i, -, rfl⟩ := List.mem_map.mp ha
  obtain ⟨j, -, rfl⟩ := List.mem_map.mp hb
  exact Slot.noConfusion

/-! ### The variables of a method -/

theorem exists_of_mem_fieldsOf {groups : List (List Syntax.Var)} {v : Var}
    (h : v ∈ fieldsOf groups) : ∃ w ∈ groups.flatten, v.name = w.name ∧ v.ty = w.ty := by
  unfold fieldsOf at h
  dsimp only at h
  obtain ⟨i, hi, rfl⟩ := List.mem_mapIdx.mp h
  obtain ⟨members, hmembers, hmem⟩ := List.mem_flatten.mp (List.getElem_mem hi)
  obtain ⟨group, hgroup, rfl⟩ := List.mem_mapIdx.mp hmembers
  obtain ⟨w, hw, hpair⟩ := List.mem_map.mp hmem
  exact ⟨w, List.mem_flatten.mpr ⟨_, List.getElem_mem hgroup, hw⟩, by simp [← hpair]⟩

theorem names_localsOf (vs : List Syntax.Var) :
    (localsOf vs).map Var.name = vs.map Syntax.Var.name := by
  apply List.ext_getElem?
  intro i
  rw [localsOf, List.getElem?_map, List.getElem?_mapIdx, List.getElem?_map, Option.map_map]
  rfl

/-- How the variables that a method sees are named and what its statements refer to. -/
structure Method.Scoped (fields : List Var) (method : Method) : Prop where
  locals_nodup : (method.locals.map Var.name).Nodup
  locals_apart : ∀ v ∈ method.locals, ∀ w ∈ fields, v.name ≠ w.name
  field_slot : ∀ (i : Nat) (v : Var), fields[i]? = some v → v.slot = .outer i
  local_slot : ∀ (i : Nat) (v : Var), method.locals[i]? = some v → v.slot = .inner i
  mentions : method.Mentions (LastOfName (fields ++ method.locals))
  all_last_iff : (∀ v ∈ fields ++ method.locals, LastOfName (fields ++ method.locals) v) ↔
    (fields.map Var.name).Nodup

/-- A look-up in the tables finds the last variable of its name. -/
theorem lastOfName_of_find? {fields locals : List Var}
    (hapart : ∀ v ∈ locals, ∀ w ∈ fields, v.name ≠ w.name) {k : Key} {w : Var}
    (h : Env.find? ⟨fields, locals⟩ k = some w) : LastOfName (fields ++ locals) w := by
  have hname := Env.name_of_find? h
  obtain ⟨scope, name⟩ := k
  dsimp only at hname
  cases scope with
  | parameter =>
    have hlast : LastOfName fields w := lastOfName_iff.mpr (hname ▸ h)
    have hmem : w ∈ fields := List.mem_reverse.mp (List.mem_of_find?_eq_some h)
    exact hlast.append_right fun v hv => hapart v hv w hmem
  | body =>
    have hlast : LastOfName locals w := lastOfName_iff.mpr (hname ▸ h)
    exact hlast.append_left fields

/-- **The names in a resolved module**, if its locals were read with names of their own. -/
theorem scoped_ofSyntax {m : Syntax.Module} (h : m.LocalsApart) :
    ∀ method ∈ (ofSyntax m).value.methods, method.Scoped (ofSyntax m).value.fields := by
  intro method hmethod
  obtain ⟨number, written, hwritten, rfl⟩ := exists_of_mem_ofSyntax hmethod
  obtain ⟨hnodup, hapart⟩ := h written hwritten
  rw [← names_localsOf] at hnodup
  have hothers : ∀ v ∈ localsOf written.locals, ∀ w ∈ fieldsOf m.groups, v.name ≠ w.name := by
    intro v hv w hw heq
    obtain ⟨w', hw', hname', -⟩ := exists_of_mem_fieldsOf hw
    have hv' : v.name ∈ written.locals.map Syntax.Var.name :=
      names_localsOf written.locals ▸ List.mem_map_of_mem hv
    obtain ⟨v', hv', hname⟩ := List.mem_map.mp hv'
    exact hapart v' hv' w' hw' (hname.trans (heq.trans hname'))
  have hslots := nodup_slots m.groups written.locals
  refine ⟨hnodup, hothers, fun _ _ => slot_of_fieldsOf, fun _ _ => slot_of_localsOf, ?_, ?_⟩
  · refine (mentions_methodOf (fieldsOf m.groups) number written).mono ?_
    exact fun w ⟨k, hfound⟩ => lastOfName_of_find? hothers hfound
  · refine (forall_lastOfName_iff (List.Nodup.of_map _ hslots)).trans ?_
    rw [List.map_append, List.nodup_append]
    constructor
    · exact fun hall => hall.1
    · refine fun hfields => ⟨hfields, hnodup, fun a ha b hb heq => ?_⟩
      obtain ⟨w, hw, rfl⟩ := List.mem_map.mp ha
      obtain ⟨v, hv, rfl⟩ := List.mem_map.mp hb
      exact hothers v hv w hw heq.symm

end Resolved

/-! ### Compiling -/

/-- **The names in a compiled module.** -/
theorem scoped_of_lowerAll {name text : String} {sources : Sources} {units : List Loaded}
    {lowered : List (Document × Resolved.Module)}
    (hunits : (load name text sources).result = .ok units)
    (hlowered : (lowerAll units).result = .ok lowered) :
    ∀ l ∈ lowered, ∀ method ∈ l.2.methods, method.Scoped l.2.fields := by
  have hload := ends_load (fun _ => Grammar.localsApart_of_parse) name text sources
  unfold Logged.Ends at hload
  rw [hunits] at hload
  intro l hl
  obtain ⟨unit, hunit, hresolved⟩ := resolved_of_lowerAll hlowered l hl
  rw [hresolved]
  exact Resolved.scoped_ofSyntax (hload unit hunit)

end CandidateSearch
