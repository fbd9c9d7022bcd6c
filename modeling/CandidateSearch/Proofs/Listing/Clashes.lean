/-
  CandidateSearch/Proofs/Listing/Clashes.lean
  ===========================================
  **Which names of a listing clash.**

  Items are named by the module, its methods and their units, and fields by variables.  The
  numbered names of two modules differ once the modules are listed under different names,
  so a clash always has the own name of a module on one side:

      heat_loss, heatLoss      both are HeatLoss, and so are all their items
      f, fMethod1              FMethod1 is the first method of f
      value                    Value is imported

  The names of the modules are distinct and are never empty, and the locals of a method have
  distinct names; but parameters may be declared twice, and of all variables `Self` and
  `Self_` have one identifier.  `compiled_names_apart_iff` says that there are no clashes
  besides these.
-/
import CandidateSearch.Proofs.Listing.Items
import CandidateSearch.Proofs.Library.Closure
import CandidateSearch.Proofs.Compiling.Names
import CandidateSearch.Proofs.Grammar.Sources
import CandidateSearch.Proofs.Token.Lossless

namespace CandidateSearch

open Source Library

namespace Listing

/-! ### The parts of a module -/

/-- The parts of a method. -/
def methodParts (m : Schedule.Method) : List Part :=
  .method m.resolved.number
    :: (List.range m.blocks.length).map fun i => .unit m.resolved.number (i + 1)

/-- The parts of a module. -/
def parts (m : Schedule.Module) : List Part :=
  .whole :: ((List.range m.methods.length).drop 1).map (fun i => .alternative (i + 1))
    ++ m.methods.flatMap methodParts

def itemNames (m : Schedule.Module) : List String := (moduleItemsOf m).map Item.name

theorem itemNames_eq (m : Schedule.Module) :
    itemNames m = (parts m).map (Part.name (typeName m.resolved.name)) := by
  have hmethods : ∀ each : Schedule.Method,
      (methodItems (typeName m.resolved.name) each).map Item.name =
        (methodParts each).map (Part.name (typeName m.resolved.name)) := by
    intro each
    unfold methodItems methodParts
    simp only [List.map_cons, List.map_map]
    rfl
  unfold itemNames moduleItemsOf parts
  simp only [List.map_append, List.map_cons, List.map_map, List.map_flatMap, hmethods]
  rfl

/-- The method that a part belongs to. -/
def Part.method? : Part → Option Nat
  | .method of | .unit of _ => some of
  | .whole | .alternative _ => none

theorem method?_of_mem_methodParts {m : Schedule.Method} {p : Part} (h : p ∈ methodParts m) :
    p.method? = some m.resolved.number := by
  rcases List.mem_cons.mp h with rfl | h
  · rfl
  · obtain ⟨i, -, rfl⟩ := List.mem_map.mp h
    rfl

theorem nodup_methodParts (m : Schedule.Method) : (methodParts m).Nodup := by
  unfold methodParts
  apply List.nodup_cons.mpr
  constructor
  · simp
  · apply List.nodup_range.map
    intro i j h
    cases h
    rfl

theorem nodup_parts {m : Schedule.Module} (h : (m.methods.map (·.resolved.number)).Nodup) :
    (parts m).Nodup := by
  have hlater : (((List.range m.methods.length).drop 1).map fun i =>
      Part.alternative (i + 1)).Nodup := by
    apply (List.nodup_range.sublist (List.drop_sublist _ _)).map
    intro i j hij
    cases hij
    rfl
  have hmethods : (m.methods.flatMap methodParts).Nodup := by
    apply List.nodup_flatMap.mpr
    constructor
    · exact fun each _ => nodup_methodParts each
    · refine (List.pairwise_map.mp h).imp ?_
      intro each each' hne p hp hp'
      apply hne
      apply Option.some.inj
      rw [← method?_of_mem_methodParts hp, ← method?_of_mem_methodParts hp']
  unfold parts
  refine List.nodup_append.mpr ⟨List.nodup_cons.mpr ⟨by simp, hlater⟩, hmethods, ?_⟩
  rintro p hp q hq rfl
  obtain ⟨each, -, hq⟩ := List.mem_flatMap.mp hq
  have hof := method?_of_mem_methodParts hq
  rcases List.mem_cons.mp hp with rfl | hp
  · cases hof
  · obtain ⟨i, -, rfl⟩ := List.mem_map.mp hp
    cases hof

theorem nodup_itemNames {m : Schedule.Module} (h : (m.methods.map (·.resolved.number)).Nodup) :
    (itemNames m).Nodup := by
  rw [itemNames_eq]
  exact (nodup_parts h).map (Part.name_injective _)

/-! ### Clashes -/

/-- Neither module has the name of an item of the other. -/
def Apart (m m' : Schedule.Module) : Prop :=
  typeName m.resolved.name ∉ itemNames m' ∧ typeName m'.resolved.name ∉ itemNames m

/-- Two modules have no item name in common once neither of their own names is the name of
    an item of the other. -/
theorem disjoint_itemNames_iff (m m' : Schedule.Module) :
    (itemNames m).Disjoint (itemNames m') ↔ Apart m m' := by
  have hself : ∀ m : Schedule.Module, typeName m.resolved.name ∈ itemNames m := by
    intro m
    exact List.mem_cons_self
  constructor
  · intro h
    exact ⟨fun hmem => h (hself m) hmem, fun hmem => h hmem (hself m')⟩
  · rintro ⟨hleft, hright⟩ name hm hm'
    rw [itemNames_eq] at hm hm'
    obtain ⟨p, hp, rfl⟩ := List.mem_map.mp hm
    obtain ⟨q, hq, heq⟩ := List.mem_map.mp hm'
    rcases p.eq_whole_or_numbered with rfl | ⟨number, hpn⟩
    · exact hleft (itemNames_eq m' ▸ hm')
    · rcases q.eq_whole_or_numbered with rfl | ⟨number', hqn⟩
      · rw [← heq, ← itemNames_eq] at hm
        exact hright hm
      · obtain ⟨howner, -⟩ := Part.name_inj hqn hpn heq
        exact hleft (howner ▸ hself m')

/-- Of the items of a module only the first can have the name of an import. -/
theorem itemNames_not_imported_iff (m : Schedule.Module) :
    (∀ name ∈ itemNames m, name ∉ imports) ↔ typeName m.resolved.name ∉ imports := by
  constructor
  · exact fun h => h _ List.mem_cons_self
  · intro h name hname
    rw [itemNames_eq] at hname
    obtain ⟨p, -, rfl⟩ := List.mem_map.mp hname
    rcases p.eq_whole_or_numbered with rfl | ⟨number, hp⟩
    · exact h
    · exact name_not_mem_imports _ hp

/-- Two variables that have one identifier. -/
def HoldsBothSelfs (vars : List Resolved.Var) : Prop :=
  "Self" ∈ vars.map Resolved.Var.name ∧ "Self_" ∈ vars.map Resolved.Var.name

theorem nodup_identifiers_iff (vars : List Resolved.Var) :
    (vars.map fun v => ident v.name).Nodup ↔
      (vars.map Resolved.Var.name).Nodup ∧ ¬ HoldsBothSelfs vars := by
  unfold HoldsBothSelfs
  rw [← nodup_ident_iff, List.map_map]
  rfl

/-- When the names in the listing of modules are apart. -/
structure Naming (scheduled : List Schedule.Module) : Prop where
  modules_nodup : (scheduled.map (·.resolved.name)).Nodup
  nonempty : ∀ m ∈ scheduled, ∀ name ∈ itemNames m, name ≠ ""
  items_iff : (scheduled.flatMap itemNames).Nodup ↔ scheduled.Pairwise Apart
  imports_iff : ∀ m ∈ scheduled, (∀ name ∈ itemNames m, name ∉ imports) ↔
    typeName m.resolved.name ∉ imports
  fields_iff : ∀ m ∈ scheduled, (m.resolved.fields.map fun v => ident v.name).Nodup ↔
    (m.resolved.fields.map Resolved.Var.name).Nodup ∧ ¬ HoldsBothSelfs m.resolved.fields
  locals_iff : ∀ m ∈ scheduled, ∀ method ∈ m.methods,
    (method.resolved.locals.map fun v => ident v.name).Nodup ↔
      ¬ HoldsBothSelfs method.resolved.locals

end Listing

/-! ### Programs -/

/-- The methods of a module are numbered from one on. -/
theorem nodup_numbers_of_comesFrom {m : Schedule.Module} {unit : Loaded} (h : m.ComesFrom unit) :
    (m.methods.map (·.resolved.number)).Nodup := by
  have hnumbers : m.methods.map (·.resolved.number) =
      (List.range unit.syntaxTree.methods.length).map (· + 1) := by
    have hresolved : m.methods.map (·.resolved.number) =
        (Resolved.ofSyntax unit.syntaxTree).value.methods.map (·.number) := by
      rw [← h.resolved, ← h.methods, List.map_map]
      rfl
    rw [hresolved]
    apply List.ext_getElem
    · simp [Resolved.ofSyntax]
    · intro i hi hi'
      simp [Resolved.ofSyntax, Resolved.methodOf]
  rw [hnumbers]
  exact List.nodup_range.map Nat.succ_injective

theorem assured_lowerWord : Assured fun m => Token.IsLowerWord m.name := by
  intro text h m hm
  obtain ⟨t, ht, hkind⟩ := Grammar.exists_name_token_of_parse h m hm
  exact Token.isLowerWord_of_scan ht hkind

theorem names_of_comeFrom {scheduled : List Schedule.Module} {units : List Loaded}
    (h : List.Forall₂ Schedule.Module.ComesFrom scheduled units) :
    scheduled.map (·.resolved.name) = names units := by
  induction h with
  | nil => rfl
  | cons hfirst _ ih =>
    have hname := congrArg Resolved.Module.name hfirst.resolved
    rw [List.map_cons, ih, hname]
    rfl

theorem naming_of_comesFrom {scheduled : List Schedule.Module} {units : List Loaded}
    (horigins : List.Forall₂ Schedule.Module.ComesFrom scheduled units)
    (hnames : (names units).Nodup)
    (hunits : ∀ unit ∈ units, Token.IsLowerWord unit.syntaxTree.name)
    (hlocals : ∀ unit ∈ units, unit.syntaxTree.LocalsApart) :
    Listing.Naming scheduled := by
  have hnumbers : ∀ m ∈ scheduled, (m.methods.map (·.resolved.number)).Nodup := by
    intro m hm
    obtain ⟨unit, -, horigin⟩ := exists_origin horigins m hm
    exact nodup_numbers_of_comesFrom horigin
  constructor
  · rw [names_of_comeFrom horigins]
    exact hnames
  · intro m hm name hname
    obtain ⟨unit, hunit, horigin⟩ := exists_origin horigins m hm
    rw [Listing.itemNames_eq] at hname
    obtain ⟨p, -, rfl⟩ := List.mem_map.mp hname
    apply Listing.Part.name_ne_empty
    rw [horigin.resolved]
    exact Listing.typeName_ne_empty (hunits unit hunit)
  · rw [List.nodup_flatMap]
    constructor
    · rintro ⟨-, hpairs⟩
      exact hpairs.imp fun h => (Listing.disjoint_itemNames_iff _ _).mp h
    · intro hpairs
      exact ⟨fun m hm => Listing.nodup_itemNames (hnumbers m hm),
        hpairs.imp fun h => (Listing.disjoint_itemNames_iff _ _).mpr h⟩
  · exact fun m _ => Listing.itemNames_not_imported_iff m
  · exact fun m _ => Listing.nodup_identifiers_iff _
  · intro m hm method hmethod
    obtain ⟨unit, hunit, horigin⟩ := exists_origin horigins m hm
    have hresolved : method.resolved ∈ (Resolved.ofSyntax unit.syntaxTree).value.methods := by
      rw [← horigin.resolved, ← horigin.methods]
      exact List.mem_map_of_mem hmethod
    have hscoped := Resolved.scoped_ofSyntax (hlocals unit hunit) _ hresolved
    rw [Listing.nodup_identifiers_iff]
    exact and_iff_right hscoped.locals_nodup

/-- **Which names clash.**  A program that compiles has a listing of what it was scheduled as,
    which defines an item for each module, method, later alternative and unit.  None of their
    names is empty.  They are distinct exactly if no module has the name of an item of another
    one, and none of them is imported exactly if no module has an imported name.  Identifiers
    of parameters are distinct exactly if their names are and not both `Self` and `Self_` are
    among them; those of locals, exactly if not both are. -/
theorem compiled_names_apart_iff {options : Options} {source : String} {compiled : Compiled}
    (h : (compile options source).result = .ok compiled) :
    ∃ scheduled, (schedulesOf options source).result = .ok scheduled ∧
      Plan.Program.ofSchedule scheduled = .ok compiled.program ∧
      (compiled.listing = if options.listing then Listing.text options.name scheduled else "") ∧
      Listing.items (Listing.lines options.name scheduled) =
        scheduled.flatMap Listing.moduleItemsOf ∧
      Listing.Naming scheduled := by
  obtain ⟨units, scheduled, hunits, hscheduled, horigins, hprogram, hlisting⟩ :=
    origins_of_compile h
  have hwords := ends_load assured_lowerWord options.name source options.sources
  have hlocals := ends_load (fun _ => Grammar.localsApart_of_parse) options.name source
    options.sources
  unfold Logged.Ends at hwords hlocals
  rw [hunits] at hwords hlocals
  have hplain : ∀ m ∈ scheduled, Listing.Plain (Listing.typeName m.resolved.name) := by
    intro m hm
    obtain ⟨unit, hunit, horigin⟩ := exists_origin horigins m hm
    rw [horigin.resolved]
    exact Listing.plain_typeName (hwords unit hunit)
  exact ⟨scheduled, hscheduled, hprogram, hlisting, Listing.items_lines options.name hplain,
    naming_of_comesFrom horigins (closed_of_load hunits).nodup hwords hlocals⟩

/-- Two modules that are listed under one name, which is imported; the second one has two
    parameters with one identifier. -/
def clashSource : String :=
  "value({},{X:i}) method X=1; end method; end module; " ++
  "value_({Self:i},{Self_:i}) method Self_=Self; end method; end module;"

set_option maxRecDepth 100000 in
theorem compiled_names_apart_iff_clashSource :
    ∃ compiled scheduled, (compile {} clashSource).result = .ok compiled ∧
      (schedulesOf {} clashSource).result = .ok scheduled ∧
      scheduled.map (fun m => Listing.typeName m.resolved.name) = ["Value", "Value"] ∧
      "Value" ∈ Listing.imports ∧
      scheduled.map (fun m => m.resolved.fields.map fun v => Listing.ident v.name) =
        [["X"], ["Self_", "Self_"]] ∧
      Listing.Naming scheduled := by
  have hchars : clashSource.toList = _ :=
    toList_append_of_toList String.toList_ofList String.toList_ofList
  have hcompiles : (compile {} clashSource).result.toOption.isSome = true := by
    rw [compile, Library.load, Library.State.load, Source.Document.ofText, hchars]
    decide +kernel
  have hnames : (schedulesOf {} clashSource).result.toOption.any (fun scheduled =>
      scheduled.map (fun m => Listing.typeName m.resolved.name) = ["Value", "Value"] ∧
        scheduled.map (fun m => m.resolved.fields.map fun v => Listing.ident v.name) =
          [["X"], ["Self_", "Self_"]]) = true := by
    rw [schedulesOf, Library.load, Library.State.load, Source.Document.ofText, hchars]
    decide +kernel
  cases hresult : (compile {} clashSource).result with
  | error diagnostics =>
    rw [hresult] at hcompiles
    cases hcompiles
  | ok compiled =>
    obtain ⟨scheduled, hscheduled, -, -, -, hnaming⟩ := compiled_names_apart_iff hresult
    rw [hscheduled] at hnames
    obtain ⟨htypes, hidents⟩ := of_decide_eq_true hnames
    refine ⟨compiled, scheduled, rfl, hscheduled, htypes, ?_, hidents, hnaming⟩
    rw [Listing.imports_eq]
    decide

end CandidateSearch
