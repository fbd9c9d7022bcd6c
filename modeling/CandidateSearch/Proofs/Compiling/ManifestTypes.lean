/-
  CandidateSearch/Proofs/Compiling/ManifestTypes.lean
  ===================================================
  **The types of a manifest can be read back.**

  A manifest gives the types of the inputs and outputs as texts.  Each of them is a type
  that some annotation of the source has written out, so there is nothing unknown in it:

      main({A: [{i, a}], B: []}, {X: {}}) …       gives  [{integer, atom}],  []  and  {}

  An unknown type is what an expression has if its type could not be found out.  A variable
  of a method may get such a type from the right-hand side of an assignment, but a
  parameter is always declared with an annotation, or else there is a complaint.
-/
import CandidateSearch.Proofs.Compiling.Names
import CandidateSearch.Proofs.Grammar.Sources
import CandidateSearch.Proofs.Grammar.WrittenTypes

namespace CandidateSearch

open Source Library

/-! ### Declared types -/

namespace Grammar

open Syntax

variable {Γ Γ' : Names} {ts : List Token}

/-- The type of an annotation is known, and the types of its members are. -/
structure Annotation.Known (a : Annotation) : Prop where
  ty : a.ty.Known
  members : ∀ m ∈ a.members, m.1.Known

theorem TypeWord.known {w : Reserved} {ty : Ty} (h : TypeWord w ty) : ty.Known := by
  cases h <;> constructor

theorem known_map {members : List Annotation} (h : ∀ m ∈ members, m.Known) :
    ∀ ty ∈ members.map (·.ty), ty.Known :=
  List.forall_mem_map.mpr fun m hm => (h m hm).ty

mutual

theorem TypeOf.known : ∀ {Γ Γ' : Names} {ts : List Token} {a : Annotation},
    TypeOf Γ ts a Γ' → a.Known ∧ Γ' = Γ
  | _, _, _, _, .word _ hty => ⟨⟨hty.known, by simp⟩, rfl⟩
  | _, _, _, _, .list _ hmembers _ =>
    have h := known_of_separated hmembers
    ⟨⟨.list (known_map h.1), by simp⟩, h.2⟩
  | _, _, _, _, .vector _ hmembers _ =>
    have h := known_of_separated hmembers
    ⟨⟨.vector (known_map h.1), List.forall_mem_map.mpr fun m hm => (h.1 m hm).ty⟩, h.2⟩

theorem known_of_separated : ∀ {Γ Γ' : Names} {ts : List Token} {members : List Annotation},
    Separated TypeOf Γ ts members Γ' → (∀ m ∈ members, m.Known) ∧ Γ' = Γ
  | _, _, _, _, .none => ⟨by simp, rfl⟩
  | _, _, _, _, .some hmembers => known_of_listed hmembers

theorem known_of_listed : ∀ {Γ Γ' : Names} {ts : List Token} {members : List Annotation},
    Listed TypeOf Γ ts members Γ' → (∀ m ∈ members, m.Known) ∧ Γ' = Γ
  | _, _, _, _, .last ha => ⟨by simpa using ha.known.1, ha.known.2⟩
  | _, _, _, _, .more ha _ has =>
    have hothers := known_of_listed has
    ⟨List.forall_mem_cons.mpr ⟨ha.known.1, hothers.1⟩, hothers.2.trans ha.known.2⟩

end

/-- Every variable that is known has a known type. -/
def Names.Known (Γ : Names) : Prop := ∀ v ∈ Γ.fields ++ Γ.locals, v.ty.Known

theorem Names.Known.add (h : Γ.Known) {v : Var} (hv : v.ty.Known) : (Γ.add v).Known := by
  intro w hw
  have hmem : w ∈ Γ.fields ++ Γ.locals ∨ w = v := by
    unfold Names.add at hw
    split at hw
    · simp only [List.mem_append, List.mem_singleton] at hw ⊢
      tauto
    · simp only [List.mem_append, List.mem_singleton] at hw ⊢
      tauto
  rcases hmem with hmem | rfl
  · exact h w hmem
  · exact hv

/-- Declared again, a variable keeps the type that it has. -/
theorem Names.Declares.known {v w : Var} (h : Γ.Declares v w Γ') (hΓ : Γ.Known)
    (hv : v.ty.Known) : w.ty.Known ∧ Γ'.Known := by
  cases h with
  | new => exact ⟨hv, hΓ.add hv⟩
  | @again found hfound _ =>
    have hmem : found ∈ Γ.fields ++ Γ.locals := List.mem_of_find?_eq_some hfound
    exact ⟨hΓ found hmem, hΓ⟩

/-- The type that a member is written with, if there is one, is known. -/
def Pending.Known : Pending → Prop
  | .name _ _ own => ∀ annotated ∈ own, annotated.1.Known
  | .value _ => True

theorem MemberOf.known {p : Pending} (h : MemberOf (fun _ _ _ _ => False) Γ ts p Γ') :
    p.Known ∧ Γ' = Γ := by
  cases h with
  | typed _ _ ha => exact ⟨by simpa [Pending.Known] using ha.known.1.ty, ha.known.2⟩
  | bare => exact ⟨by simp [Pending.Known], rfl⟩
  | value he => exact he.elim

theorem Bracketed.known {ps : List Pending}
    (h : Bracketed (MemberOf fun _ _ _ _ => False) Γ ts ps Γ') : (∀ p ∈ ps, p.Known) ∧ Γ' = Γ := by
  have hlisted : ∀ {Γ Γ' : Names} {ts : List Token} {ps : List Pending},
      Listed (MemberOf fun _ _ _ _ => False) Γ ts ps Γ' → (∀ p ∈ ps, p.Known) ∧ Γ' = Γ := by
    intro Γ Γ' ts ps h
    induction h with
    | last ha => exact ⟨by simpa using ha.known.1, ha.known.2⟩
    | more ha _ _ ih => exact ⟨List.forall_mem_cons.mpr ⟨ha.known.1, ih.1⟩, ih.2.trans ha.known.2⟩
  cases h with
  | plain has =>
    cases has with
    | none => exact ⟨by simp, rfl⟩
    | some has => exact hlisted has
  | trailing has => exact hlisted has

/-- What stands in the braces of a parameter has known types throughout. -/
theorem GroupOf.known {group : Group} (h : GroupOf (fun _ _ _ _ => False) Γ ts group Γ') :
    (∀ p ∈ group.members, p.Known) ∧ (∀ annotated ∈ group.tys, annotated.1.Known) ∧ Γ' = Γ := by
  cases h with
  | mk _ hmembers _ htys =>
    obtain ⟨hpending, rfl⟩ := hmembers.known
    cases htys with
    | none => exact ⟨hpending, by simp, rfl⟩
    | some _ _ ha _ _ => exact ⟨hpending, ha.known.1.members, ha.known.2⟩

theorem GroupIs.known {input : Bool} {ps : List Pending} {tys : List (Ty × Span)} {vs : List Var}
    (h : GroupIs input Γ ps tys vs Γ') (hΓ : Γ.Known) (hps : ∀ p ∈ ps, p.Known)
    (htys : ∀ annotated ∈ tys, annotated.1.Known) : (∀ v ∈ vs, v.ty.Known) ∧ Γ'.Known := by
  induction h with
  | nil => exact ⟨by simp, hΓ⟩
  | @declared _ _ _ name span tySpan own ty _ _ tys _ hty hv _ ih =>
    obtain ⟨hown, hrest⟩ := List.forall_mem_cons.mp hps
    -- a type of its own goes before the one that the group has for it
    have hknown : ty.Known := by
      cases own with
      | some annotated =>
        obtain rfl : annotated = (ty, tySpan) := by simpa using hty
        exact hown _ rfl
      | none => exact htys _ (List.mem_of_head? hty)
    obtain ⟨hfirst, hΓ₁⟩ := hv.known hΓ hknown
    obtain ⟨hothers, hΓ'⟩ := ih hΓ₁ hrest fun a ha => htys a (List.mem_of_mem_tail ha)
    exact ⟨List.forall_mem_cons.mpr ⟨hfirst, hothers⟩, hΓ'⟩

/-- The members of the groups among these parameters have known types. -/
def KnownParams (params : List Param) : Prop :=
  ∀ v ∈ (params.filterMap Param.group?).flatten, v.ty.Known

theorem knownParams_cons {p : Param} {ps : List Param} :
    KnownParams (p :: ps) ↔ (∀ vs ∈ p.group?, ∀ v ∈ vs, v.ty.Known) ∧ KnownParams ps := by
  unfold KnownParams
  cases hgroup : p.group? <;> simp [hgroup, or_imp, forall_and]

theorem ParamOf.known {input : Bool} {p : Param} (h : ParamOf input Γ ts p Γ') (hΓ : Γ.Known) :
    (∀ vs ∈ p.group?, ∀ v ∈ vs, v.ty.Known) ∧ Γ'.Known := by
  cases h with
  | callee => exact ⟨by simp [Param.group?], hΓ⟩
  | group hgroup hmembers =>
    obtain ⟨hps, htys, rfl⟩ := hgroup.known
    obtain ⟨hvs, hΓ'⟩ := hmembers.known hΓ hps htys
    exact ⟨by simpa [Param.group?] using hvs, hΓ'⟩

theorem ParamsOf.known {input : Bool} {ps : List Param} (h : ParamsOf input Γ ts ps Γ')
    (hΓ : Γ.Known) : KnownParams ps := by
  induction h with
  | last hp => exact knownParams_cons.mpr ⟨(hp.known hΓ).1, by simp [KnownParams]⟩
  | more hp _ _ ih => exact knownParams_cons.mpr ⟨(hp.known hΓ).1, ih (hp.known hΓ).2⟩

/-- **The parameters of a module have known types.** -/
theorem ModuleOf.known {strict : Bool} {m : Module} (h : ModuleOf strict Γ ts m Γ') :
    ∀ v ∈ m.groups.flatten, v.ty.Known := by
  cases h with
  | mk _ _ hparams =>
    cases hparams with
    | none => simp [Module.groups]
    | some hps => exact hps.known (by simp [Names.Known])

theorem known_of_parse {tokens : List Token} (h : (parse tokens).complaints = []) :
    ∀ m ∈ (parse tokens).modules, ∀ v ∈ m.groups.flatten, v.ty.Known := by
  obtain ⟨_, _, -, -, hread⟩ := reads_untilEnd reads_wholeModule (tokens.length + 1)
    { rest := tokens } (List.reverse_eq_nil_iff.mp h)
  have hmodules : ∀ {Γ Γ' : Names} {ts : List Token} {modules : List Module},
      Repeated (ModuleOf false) Γ ts modules Γ' →
      ∀ m ∈ modules, ∀ v ∈ m.groups.flatten, v.ty.Known := by
    intro Γ Γ' ts modules hread
    induction hread with
    | none => simp
    | more hm _ ih => exact List.forall_mem_cons.mpr ⟨hm.known, ih⟩
  exact hmodules hread

end Grammar

/-! ### The manifest -/

/-- **The fields of a compiled program have known types.** -/
theorem known_of_compile {options : Options} {source : String} {compiled : Compiled}
    (h : (compile options source).result = .ok compiled) :
    ∀ m ∈ compiled.program.modules, ∀ field ∈ m.fields, field.ty.Known := by
  obtain ⟨units, scheduled, hunits, -, horigins, hprogram, -⟩ := origins_of_compile h
  have hassured : Assured fun m => ∀ v ∈ m.groups.flatten, v.ty.Known :=
    fun _ => Grammar.known_of_parse
  have hload := ends_load hassured options.name source options.sources
  unfold Logged.Ends at hload
  rw [hunits] at hload
  intro m hm field hfield
  obtain ⟨origin, horigin, hfields, -⟩ := Plan.built_ofSchedule hprogram m hm
  obtain ⟨unit, hunit, hresolved, -, -⟩ := exists_origin horigins origin horigin
  rw [hfields, hresolved] at hfield
  obtain ⟨w, hw, rfl⟩ := List.mem_map.mp hfield
  obtain ⟨v, hv, -, hty⟩ := Resolved.exists_of_mem_fieldsOf hw
  dsimp only
  rw [hty]
  exact hload unit hunit v hv

/-- What a manifest shows are fields of the program. -/
theorem mem_fields_of_mem_manifest {p : Plan.Program} {field : Plan.Field}
    (h : field ∈ (Manifest.ofProgram p).inputs ++ (Manifest.ofProgram p).outputs) :
    ∃ m ∈ p.modules, field ∈ m.fields := by
  unfold Manifest.ofProgram at h
  cases hentry : p.entry? with
  | none => simp [hentry] at h
  | some m =>
    refine ⟨m, List.mem_of_head? hentry, ?_⟩
    rw [hentry] at h
    rcases List.mem_append.mp h with h | h
    · exact List.mem_of_mem_take (List.mem_filter.mp h).1
    · exact List.mem_of_mem_drop (List.mem_filter.mp h).1

/-- **Types are read back from their texts**: any type without an unknown part is, and every
    type of a manifest is one of these. -/
theorem type_texts_read_back :
    (∀ ty : Ty, ty.Known → Grammar.ReadsAs ty.text ty) ∧
    ∀ (options : Options) (source : String) (compiled : Compiled),
      (compile options source).result = .ok compiled →
      ∀ field ∈ compiled.manifest.inputs ++ compiled.manifest.outputs,
        field.ty.Known ∧ Grammar.ReadsAs field.ty.text field.ty := by
  refine ⟨fun _ => Grammar.readsAs_text, fun options source compiled h field hfield => ?_⟩
  obtain ⟨_, _, _, -, -, -, -, -, hmanifest⟩ := compile_inv h
  rw [hmanifest] at hfield
  obtain ⟨m, hm, hfield⟩ := mem_fields_of_mem_manifest hfield
  have hknown := known_of_compile h m hm field hfield
  exact ⟨hknown, Grammar.readsAs_text hknown⟩

/-- A source with a nested type and with empty ones. -/
def nestedSource : String :=
  "f({A:[{i,a}],B:[]},{X:{}}) method X=A; end method; end module;"

theorem type_texts_read_back_nestedSource :
    Grammar.ReadsAs "{[], integer, [{}, atom]}"
      (.vector [.list [], .integer, .list [.vector [], .atom]]) ∧
    ∃ compiled, (compile {} nestedSource).result = .ok compiled ∧
      (compiled.manifest.inputs ++ compiled.manifest.outputs).map (·.ty.text) =
        ["[{integer, atom}]", "[]", "{}"] ∧
      ∀ field ∈ compiled.manifest.inputs ++ compiled.manifest.outputs,
        Grammar.ReadsAs field.ty.text field.ty := by
  have hcompiles : ((compile {} nestedSource).result.toOption.map fun compiled =>
      (compiled.manifest.inputs ++ compiled.manifest.outputs).map (·.ty.text)) =
        some ["[{integer, atom}]", "[]", "{}"] := by
    rw [compile, Library.load, Library.State.load, Source.Document.ofText,
      show nestedSource.toList = _ from String.toList_ofList]
    decide +kernel
  have hnested : (Ty.vector [.list [], .integer, .list [.vector [], .atom]]).Known := by
    refine .vector (List.forall_mem_cons.mpr ⟨.list (by simp), ?_⟩)
    refine List.forall_mem_cons.mpr ⟨.integer, List.forall_mem_singleton.mpr (.list ?_)⟩
    exact List.forall_mem_cons.mpr ⟨.vector (by simp), List.forall_mem_singleton.mpr .atom⟩
  refine ⟨type_texts_read_back.1 _ hnested, ?_⟩
  cases hresult : (compile {} nestedSource).result with
  | error diagnostics =>
    rw [hresult] at hcompiles
    cases hcompiles
  | ok compiled =>
    rw [hresult] at hcompiles
    refine ⟨compiled, rfl, Option.some.inj hcompiles, fun field hfield => ?_⟩
    exact (type_texts_read_back.2 {} nestedSource compiled hresult field hfield).2

end CandidateSearch
