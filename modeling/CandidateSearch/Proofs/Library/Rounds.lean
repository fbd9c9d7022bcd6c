/-
  CandidateSearch/Proofs/Library/Rounds.lean
  ==========================================
  **Loading goes in rounds, and there are enough of them.**

  A round looks at the calls of the modules that came in by the round before.  With the
  sources

      g:  g({}, {X: integer}) … call(h, {}, {X}) …
      h:  h({}, {X: integer}) … call(g, {}, {X}) …

  and an entry that calls `g`, the first round reads `g`, the second one reads `h`, and the
  third one reads nothing: `g` is there.

  `State.Grows` says what resolving calls can do to what has been found so far: modules are
  added behind those that are there, each from a source under a name that is called, and
  no complaint is taken back.  A round that adds a module reads a source that was not read
  before, so one round more than there are sources is enough (`close_eq_of_le`), and then
  every call is settled (`close_spec`).  The log shows which sources have been read, and it
  shows each of them once (`fetches_close`).
-/
import CandidateSearch.Proofs.Declarative.Entry
import Mathlib.Data.List.Count

namespace CandidateSearch

open Source

namespace Library

/-! ### What resolving a call can come to -/

/-- The module stands in the source that is kept under a name. -/
def Loaded.From (sources : Sources) (name : String) (unit : Loaded) : Prop :=
  ∃ text modules, sources.get? name = some text ∧
    (read (Document.ofText name text)).result = .ok modules ∧
    unit.document = Document.ofText name text ∧ unit.syntaxTree ∈ modules

/-- The names of the modules found so far. -/
def names (units : List Loaded) : List String := units.map fun unit => unit.syntaxTree.name

theorem State.defines_iff {s : State} {name : String} :
    s.defines name = true ↔ name ∈ names s.units := by
  simp [State.defines, names]

/-- The module is there, or something is wrong. -/
def State.Settles (s : State) (name : String) : Prop :=
  name ∈ names s.units ∨ s.diagnostics ≠ []

/-- What may happen to the state while calls of `targets` are resolved. -/
structure State.Grows (sources : Sources) (targets : String → Prop) (s s' : State) : Prop where
  units : ∃ new, s'.units = s.units ++ new ∧ ∀ unit ∈ new, ∃ name, targets name ∧
    unit.From sources name
  nodup : (names s.units).Nodup → (names s'.units).Nodup
  requested : s.requested ⊆ s'.requested
  diagnostics : s'.diagnostics = [] → s.diagnostics = []
  fetched : s'.units ≠ s.units → ∃ name ∈ s'.requested, name ∉ s.requested ∧
    sources.contains name = true

namespace State

variable {sources : Sources} {targets : String → Prop} {s s' s'' : State}

theorem Grows.refl : Grows sources targets s s :=
  ⟨⟨[], by simp, by simp⟩, id, List.Subset.refl _, id, fun h => absurd rfl h⟩

theorem Grows.trans (h : Grows sources targets s s') (h' : Grows sources targets s' s'') :
    Grows sources targets s s'' := by
  obtain ⟨new, hunits, hnew⟩ := h.units
  obtain ⟨newer, hunits', hnewer⟩ := h'.units
  refine ⟨⟨new ++ newer, ?_, ?_⟩, h'.nodup ∘ h.nodup, List.Subset.trans h.requested h'.requested,
    h.diagnostics ∘ h'.diagnostics, ?_⟩
  · rw [hunits', hunits, List.append_assoc]
  · exact List.forall_mem_append.mpr ⟨hnew, hnewer⟩
  · intro hne
    by_cases hfirst : s'.units = s.units
    · rw [← hfirst] at hne
      obtain ⟨name, hname, hfresh, hknown⟩ := h'.fetched hne
      exact ⟨name, hname, fun hbefore => hfresh (h.requested hbefore), hknown⟩
    · obtain ⟨name, hname, hfresh, hknown⟩ := h.fetched hfirst
      exact ⟨name, h'.requested hname, hfresh, hknown⟩

theorem Grows.mono {targets' : String → Prop} (h : Grows sources targets s s')
    (himp : ∀ name, targets name → targets' name) : Grows sources targets' s s' := by
  obtain ⟨new, hunits, hnew⟩ := h.units
  refine ⟨⟨new, hunits, fun unit hunit => ?_⟩, h.nodup, h.requested, h.diagnostics, h.fetched⟩
  obtain ⟨name, hname, hfrom⟩ := hnew unit hunit
  exact ⟨name, himp name hname, hfrom⟩

theorem Grows.settles {name : String} (h : Grows sources targets s s') (hs : s.Settles name) :
    s'.Settles name := by
  obtain ⟨new, hunits, -⟩ := h.units
  rcases hs with hs | hs
  · left
    rw [hunits, names, List.map_append]
    exact List.mem_append_left _ hs
  · right
    exact fun hnone => hs (h.diagnostics hnone)

/-! ### Adding modules -/

/-- A module is added behind the others, or it is refused with a diagnostic. -/
theorem add_cases (document : Document) (s : State) (m : Syntax.Module) :
    (m.name ∉ names s.units ∧
      s.add document m = { s with units := s.units ++ [⟨document, m⟩] }) ∨
    ∃ d, s.add document m = { s with diagnostics := s.diagnostics ++ [d] } := by
  unfold State.add
  split
  · exact .inr ⟨_, rfl⟩
  · rename_i hnew
    rw [State.defines_iff] at hnew
    exact .inl ⟨hnew, rfl⟩

/-- Of the modules of a document those are added whose names are new; all of them, unless
    there is something to report. -/
theorem addAll_spec (document : Document) (modules : List Syntax.Module) (s : State) :
    let s' := modules.foldl (State.add document) s
    (∃ new, s'.units = s.units ++ new.map (Loaded.mk document) ∧ (∀ m ∈ new, m ∈ modules) ∧
      (s'.diagnostics = [] → new = modules)) ∧
    ((names s.units).Nodup → (names s'.units).Nodup) ∧
    s'.requested = s.requested ∧ (s'.diagnostics = [] → s.diagnostics = []) := by
  induction modules generalizing s with
  | nil => exact ⟨⟨[], by simp⟩, id, rfl, id⟩
  | cons m rest ih =>
    obtain ⟨⟨new, hunits, hnew, hall⟩, hnodup, hrequested, hquiet⟩ := ih (s.add document m)
    dsimp only at *
    rw [List.foldl_cons]
    rcases add_cases document s m with ⟨hfresh, hadd⟩ | ⟨d, hadd⟩
    · rw [hadd] at hunits hnodup hrequested hquiet hall ⊢
      refine ⟨⟨m :: new, ?_, ?_, ?_⟩, ?_, hrequested, hquiet⟩
      · rw [hunits, List.map_cons, List.append_assoc, List.singleton_append]
      · intro x hx
        rcases List.mem_cons.mp hx with rfl | hx
        · exact List.mem_cons_self
        · exact List.mem_cons_of_mem _ (hnew x hx)
      · intro hnone
        rw [hall hnone]
      · intro hbefore
        apply hnodup
        rw [names, List.map_append, List.map_singleton, ← List.concat_eq_append]
        exact hbefore.concat hfresh
    · rw [hadd] at hunits hnodup hrequested hquiet hall ⊢
      -- after a refusal there is a diagnostic for good
      have hreported : (rest.foldl (State.add document)
          { s with diagnostics := s.diagnostics ++ [d] }).diagnostics ≠ [] :=
        fun hnone => by simpa using hquiet hnone
      refine ⟨⟨new, hunits, ?_, ?_⟩, hnodup, hrequested, ?_⟩
      · exact fun x hx => List.mem_cons_of_mem _ (hnew x hx)
      · exact fun hnone => absurd hnone hreported
      · exact fun hnone => absurd hnone hreported

/-! ### Resolving one call -/

/-- Looking a name up does nothing if that was done before; else it is done, and the
    modules of the source are added if there is one. -/
theorem request_cases {name : String} (h : (s.request sources name).result = .ok s') :
    (name ∈ s.requested ∧ s' = s) ∨
    (name ∉ s.requested ∧ ((sources.get? name = none ∧
        s' = { s with requested := s.requested ++ [name] }) ∨
      ∃ text modules, sources.get? name = some text ∧
        (read (Document.ofText name text)).result = .ok modules ∧
        s' = modules.foldl (State.add (Document.ofText name text))
          { s with requested := s.requested ++ [name] })) := by
  unfold State.request at h
  split at h
  · rename_i hdone
    cases h
    exact .inl ⟨by simpa using hdone, rfl⟩
  · rename_i hnew
    refine .inr ⟨by simpa using hnew, ?_⟩
    dsimp only at h
    split at h
    · rename_i text htext
      obtain ⟨-, -, h⟩ := Logged.result_bind_eq_ok.mp h
      obtain ⟨modules, hmodules, h⟩ := Logged.result_bind_eq_ok.mp h
      cases h
      exact .inr ⟨text, modules, htext, hmodules, rfl⟩
    · rename_i hnone
      cases h
      exact .inl ⟨hnone, rfl⟩

theorem grows_request {name : String} (htarget : targets name)
    (h : (s.request sources name).result = .ok s') : Grows sources targets s s' := by
  rcases request_cases h with ⟨-, rfl⟩ | ⟨hnew, ⟨-, rfl⟩ | ⟨text, modules, htext, hread, rfl⟩⟩
  · exact Grows.refl
  · exact ⟨⟨[], by simp, by simp⟩, id, List.subset_append_left _ _, id, fun h => absurd rfl h⟩
  · obtain ⟨⟨new, hunits, hnew', -⟩, hnodup, hrequested, hquiet⟩ :=
      addAll_spec (Document.ofText name text) modules { s with requested := s.requested ++ [name] }
    refine ⟨⟨_, hunits, ?_⟩, hnodup, ?_, hquiet, fun _ => ⟨name, ?_, hnew, ?_⟩⟩
    · intro unit hunit
      obtain ⟨m, hm, rfl⟩ := List.mem_map.mp hunit
      exact ⟨name, htarget, text, modules, htext, hread, rfl, hnew' m hm⟩
    · rw [hrequested]
      exact List.subset_append_left _ _
    · rw [hrequested]
      exact List.mem_append_right _ (List.mem_singleton.mpr rfl)
    · rw [Sources.contains, htext]
      rfl

theorem reportUndefined_spec (caller : Document) (s : State) (name : String) (span : Span) :
    (s.reportUndefined caller name span).diagnostics ≠ [] ∧
      ∃ diagnostics, s.reportUndefined caller name span = { s with diagnostics } := by
  unfold State.reportUndefined
  dsimp only
  split
  · rename_i hbefore
    refine ⟨fun hnone => ?_, _, rfl⟩
    rw [hnone] at hbefore
    cases hbefore
  · exact ⟨by simp, _, rfl⟩

/-- **Resolving a call settles it.** -/
theorem grows_resolve {caller : Document} {call : String × Span} (targets : String → Prop)
    (htarget : targets call.1) (h : (s.resolve sources caller call).result = .ok s') :
    Grows sources targets s s' ∧ s'.Settles call.1 := by
  unfold State.resolve at h
  dsimp only at h
  split at h
  · rename_i hthere
    cases h
    exact ⟨Grows.refl, .inl (State.defines_iff.mp hthere)⟩
  · obtain ⟨s₁, hs₁, h⟩ := Logged.result_bind_eq_ok.mp h
    have hgrows := grows_request htarget hs₁
    cases h
    split
    · rename_i hthere
      exact ⟨hgrows, .inl (State.defines_iff.mp hthere)⟩
    · obtain ⟨hreported, diagnostics, hreport⟩ := s₁.reportUndefined_spec caller call.1 call.2
      refine ⟨?_, .inr hreported⟩
      rw [hreport] at hreported ⊢
      exact ⟨hgrows.units, hgrows.nodup, hgrows.requested, fun hnone => absurd hnone hreported,
        hgrows.fetched⟩

end State

/-! ### Rounds -/

section Rounds

variable {sources : Sources} {targets : String → Prop} {s s' : State}

/-- What each item brings about lasts until all of them have been dealt with. -/
theorem grows_foldlM {α : Type} {f : State → α → Logged State} {Q : α → String → Prop}
    {items : List α}
    (hf : ∀ a ∈ items, ∀ s s', (f s a).result = .ok s' →
      s.Grows sources targets s' ∧ ∀ name, Q a name → s'.Settles name)
    (h : (items.foldlM f s).result = .ok s') :
    s.Grows sources targets s' ∧ ∀ a ∈ items, ∀ name, Q a name → s'.Settles name := by
  induction items generalizing s with
  | nil =>
    cases h
    exact ⟨State.Grows.refl, by simp⟩
  | cons a rest ih =>
    rw [List.foldlM_cons] at h
    obtain ⟨s₁, hs₁, h⟩ := Logged.result_bind_eq_ok.mp h
    obtain ⟨hfirst, hsettled⟩ := hf a List.mem_cons_self s s₁ hs₁
    obtain ⟨hrest, hothers⟩ := ih (fun b hb => hf b (List.mem_cons_of_mem _ hb)) h
    refine ⟨hfirst.trans hrest, List.forall_mem_cons.mpr ⟨?_, hothers⟩⟩
    exact fun name hname => hrest.settles (hsettled name hname)

/-- The module calls a module of that name. -/
def Calls (unit : Loaded) (name : String) : Prop :=
  ∃ call ∈ calls unit.syntaxTree, call.1 = name

/-- **One round**: the calls of the modules looked at are settled, and what comes in by it
    comes from sources under the names that they call. -/
theorem grows_round {units : List Loaded}
    (h : (units.foldlM (resolveCalls sources) s).result = .ok s') :
    s.Grows sources (fun name => ∃ unit ∈ units, Calls unit name) s' ∧
      ∀ unit ∈ units, ∀ name, Calls unit name → s'.Settles name := by
  refine grows_foldlM (fun unit hunit s₁ s₂ hunits => ?_) h
  have hone : ∀ call ∈ calls unit.syntaxTree, ∀ s s' : State,
      (s.resolve sources unit.document call).result = .ok s' →
      s.Grows sources (fun name => ∃ unit ∈ units, Calls unit name) s' ∧
        ∀ name, call.1 = name → s'.Settles name := by
    intro call hcall s s' hresolve
    obtain ⟨hgrows, hsettles⟩ := State.grows_resolve
      (fun name => ∃ unit ∈ units, Calls unit name) ⟨unit, hunit, call, hcall, rfl⟩ hresolve
    exact ⟨hgrows, fun name hname => hname ▸ hsettles⟩
  obtain ⟨hgrows, hsettled⟩ := grows_foldlM hone hunits
  refine ⟨hgrows, ?_⟩
  rintro name ⟨call, hcall, hname⟩
  exact hsettled call hcall name hname

/-! ### The number of rounds -/

/-- How many of the sources have not been looked up. -/
def unread (sources : Sources) (s : State) : Nat :=
  sources.entries.countP fun entry => !s.requested.contains entry.1

theorem unread_le_size (sources : Sources) (s : State) : unread sources s ≤ sources.size :=
  List.countP_le_length

theorem countP_lt_countP {α : Type} {p q : α → Bool} {items : List α} {a : α} (ha : a ∈ items)
    (himp : ∀ b, q b = true → p b = true) (hp : p a = true) (hq : ¬ q a = true) :
    items.countP q < items.countP p := by
  have hboth : (fun b => q b && p b) = q := by
    funext b
    cases hb : q b with
    | false => rfl
    | true => exact himp b hb
  calc items.countP q
    _ = (items.filter p).countP q := by rw [List.countP_filter, hboth]
    _ < (items.filter p).length :=
        List.countP_lt_length_iff.mpr ⟨a, List.mem_filter.mpr ⟨ha, hp⟩, by simpa using hq⟩
    _ = items.countP p := List.countP_eq_length_filter.symm

/-- A round that adds a module reads a source that was not read before. -/
theorem State.Grows.unread_lt (h : s.Grows sources targets s') (hne : s'.units ≠ s.units) :
    unread sources s' < unread sources s := by
  obtain ⟨name, hafter, hbefore, hknown⟩ := h.fetched hne
  obtain ⟨text, htext⟩ := Option.isSome_iff_exists.mp hknown
  obtain ⟨entry, hentry, -⟩ := Option.map_eq_some_iff.mp htext
  have hname : entry.1 = name := by simpa using List.find?_some hentry
  refine countP_lt_countP (List.mem_of_find?_eq_some hentry) ?_ ?_ ?_
  · intro other hother
    simp only [Bool.not_eq_true', List.contains_eq_mem, decide_eq_false_iff_not] at hother ⊢
    exact fun hmem => hother (h.requested hmem)
  · simpa [hname] using hbefore
  · simpa [hname] using hafter

theorem State.Grows.isEmpty_drop (h : s.Grows sources targets s') :
    (s'.units.drop s.units.length).isEmpty = true ↔ s'.units = s.units := by
  obtain ⟨new, hunits, -⟩ := h.units
  rw [hunits, List.drop_left, List.isEmpty_iff, List.append_right_eq_self]

/-- **More rounds than there are unread sources change nothing.** -/
theorem close_succ {fuel : Nat} {units : List Loaded} (hfuel : unread sources s < fuel) :
    close sources (fuel + 1) units s = close sources fuel units s := by
  induction fuel generalizing units s with
  | zero => exact absurd hfuel (Nat.not_lt_zero _)
  | succ fuel ih =>
    show Logged.bind (units.foldlM (resolveCalls sources) s) _ =
      Logged.bind (units.foldlM (resolveCalls sources) s) _
    unfold Logged.bind
    cases hround : (units.foldlM (resolveCalls sources) s).result with
    | error diagnostics => rfl
    | ok after =>
      dsimp only
      split
      · rfl
      · rename_i hnew
        obtain ⟨hgrows, -⟩ := grows_round hround
        rw [hgrows.isEmpty_drop] at hnew
        rw [ih (Nat.lt_of_lt_of_le (hgrows.unread_lt hnew) (Nat.lt_succ_iff.mp hfuel))]

theorem close_eq_of_le {fuel : Nat} {units : List Loaded} (hfuel : unread sources s < fuel)
    (more : Nat) : close sources (fuel + more) units s = close sources fuel units s := by
  induction more with
  | zero => rfl
  | succ more ih =>
    rw [← ih]
    exact close_succ (Nat.lt_of_lt_of_le hfuel (Nat.le_add_right _ _))

/-- Every module from a place on comes from a source under a name that a module in front of
    it calls. -/
def Sourced (sources : Sources) (start : Nat) (units : List Loaded) : Prop :=
  ∀ i unit, start ≤ i → units[i]? = some unit →
    ∃ caller ∈ units.take i, ∃ name, Calls caller name ∧ unit.From sources name

/-- What is there after the last round: every call of a module that had not been looked at,
    and of one that came in later, is settled. -/
theorem close_spec {fuel : Nat} {units front : List Loaded} (hfuel : unread sources s < fuel)
    (hunits : s.units = front ++ units)
    (hfront : ∀ unit ∈ front, ∀ name, Calls unit name → s.Settles name)
    (h : (close sources fuel units s).result = .ok s') :
    (∃ new, s'.units = s.units ++ new) ∧ ((names s.units).Nodup → (names s'.units).Nodup) ∧
      (s'.diagnostics = [] → s.diagnostics = []) ∧
      (∀ unit ∈ s'.units, ∀ name, Calls unit name → s'.Settles name) ∧
      Sourced sources s.units.length s'.units := by
  induction fuel generalizing units front s with
  | zero => exact absurd hfuel (Nat.not_lt_zero _)
  | succ fuel ih =>
    obtain ⟨after, hafter, h⟩ := Logged.result_bind_eq_ok.mp h
    obtain ⟨hgrows, hround⟩ := grows_round hafter
    have hsettled : ∀ unit ∈ s.units, ∀ name, Calls unit name → after.Settles name := by
      rw [hunits]
      refine List.forall_mem_append.mpr ⟨fun unit hunit name hname => ?_, hround⟩
      exact hgrows.settles (hfront unit hunit name hname)
    obtain ⟨new, hnew, hfrom⟩ := hgrows.units
    have hsourced : Sourced sources s.units.length after.units := by
      intro i unit hi hunit
      rw [hnew, List.getElem?_append_right hi] at hunit
      obtain ⟨name, ⟨caller, hcaller, hcalls⟩, hsource⟩ := hfrom unit (List.mem_of_getElem? hunit)
      refine ⟨caller, ?_, name, hcalls, hsource⟩
      rw [hnew, List.take_append, List.take_of_length_le hi, hunits]
      exact List.mem_append_left _ (List.mem_append_right _ hcaller)
    dsimp only at h
    split at h
    · rename_i hempty
      rw [hgrows.isEmpty_drop] at hempty
      cases h
      refine ⟨⟨[], by simpa using hempty⟩, hgrows.nodup, hgrows.diagnostics, ?_, hsourced⟩
      rw [hempty]
      exact hsettled
    · rename_i hmore
      rw [hgrows.isEmpty_drop] at hmore
      have hless := Nat.lt_of_lt_of_le (hgrows.unread_lt hmore) (Nat.lt_succ_iff.mp hfuel)
      have hsplit : after.units = s.units ++ after.units.drop s.units.length := by
        rw [hnew, List.drop_left]
      obtain ⟨⟨newer, hnewer⟩, hnodup, hquiet, hall, hlater⟩ := ih hless hsplit hsettled h
      refine ⟨⟨new ++ newer, by rw [hnewer, hnew, List.append_assoc]⟩, hnodup ∘ hgrows.nodup,
        hgrows.diagnostics ∘ hquiet, hall, fun i unit hi hunit => ?_⟩
      by_cases hwhere : after.units.length ≤ i
      · exact hlater i unit hwhere hunit
      · have hlt : i < after.units.length := Nat.lt_of_not_le hwhere
        rw [hnewer, List.getElem?_append_left hlt] at hunit
        obtain ⟨caller, hcaller, hrest⟩ := hsourced i unit hi hunit
        refine ⟨caller, ?_, hrest⟩
        rw [hnewer, List.take_append_of_le_length (Nat.le_of_lt hlt)]
        exact hcaller

end Rounds

/-! ### The log -/

/-- The auxiliary source whose reading is announced. -/
def loading? : Event → Option String
  | .loading name => some name
  | _ => none

/-- The document that is cut into tokens. -/
def scanning? : Event → Option String
  | .scanning file => some file
  | _ => none

/-- The document whose tokens are read as modules. -/
def parsing? : Event → Option String
  | .parsing file => some file
  | _ => none

/-- The view of an event shows only where work on a source begins. -/
structure ShowsBeginnings (view : Event → Option String) : Prop where
  scanned : ∀ count, view (.scanned count) = none
  parsed : ∀ count, view (.parsed count) = none
  completed : ∀ stage file, view (.completed stage file) = none
  aborted : ∀ stage file count, view (.aborted stage file count) = none

theorem showsBeginnings_loading? : ShowsBeginnings loading? := by constructor <;> intros <;> rfl

theorem showsBeginnings_scanning? : ShowsBeginnings scanning? := by constructor <;> intros <;> rfl

theorem showsBeginnings_parsing? : ShowsBeginnings parsing? := by constructor <;> intros <;> rfl

theorem events_bind {α β : Type} (x : Logged α) (f : α → Logged β) :
    (x >>= f).events = x.events ++ match x.result with
      | .ok a => (f a).events
      | .error _ => [] := by
  show (Logged.bind x f).events = _
  unfold Logged.bind
  cases x.result <;> simp

theorem log_finish {α : Type} {view : Event → Option String} (hview : ShowsBeginnings view)
    (stage : Stage) (file : String) (diagnostics : List Diagnostic) (value : α) :
    (Logged.finish stage file diagnostics value).events.filterMap view = [] := by
  unfold Logged.finish
  split
  · simp [hview.completed]
  · simp [hview.aborted]

/-- A document is cut into tokens, and these are read if nothing was wrong with them. -/
theorem log_read {view : Event → Option String} (hview : ShowsBeginnings view)
    (document : Document) : ∃ read? : Bool, (read document).events.filterMap view =
      (view (.scanning document.name)).toList ++
        if read? then (view (.parsing document.name)).toList else [] := by
  have hscan : (scan document).events.filterMap view =
      (view (.scanning document.name)).toList := by
    simp only [scan, events_bind, Logged.log, List.filterMap_append, log_finish hview]
    cases hshown : view (.scanning document.name) <;> simp [hview.scanned, hshown]
  unfold read
  rw [events_bind, List.filterMap_append, hscan]
  cases (scan document).result with
  | error diagnostics => exact ⟨false, rfl⟩
  | ok tokens =>
    refine ⟨true, ?_⟩
    simp only [events_bind, Logged.log, List.filterMap_append, log_finish hview]
    cases hshown : view (.parsing document.name) <;> simp [hview.parsed, hshown]

theorem log_load {view : Event → Option String} (hview : ShowsBeginnings view) (s : State)
    (name text : String) : ∃ read? : Bool, (s.load name text).events.filterMap view =
      (view (.scanning name)).toList ++ if read? then (view (.parsing name)).toList else [] := by
  obtain ⟨read?, hread⟩ := log_read hview (Document.ofText name text)
  refine ⟨read?, ?_⟩
  unfold State.load
  rw [events_bind, List.filterMap_append, hread]
  cases (read (Document.ofText name text)).result <;> exact List.append_nil _

/-- What is logged while `x` goes on from a state: these sources are read, one by one, and
    none that was looked up before. -/
structure Fetches (sources : Sources) (s : State) (x : Logged State) (fetched : List String) :
    Prop where
  loading : x.events.filterMap loading? = fetched
  scanning : x.events.filterMap scanning? = fetched
  parsing : (x.events.filterMap parsing?).Sublist fetched
  nodup : fetched.Nodup
  fresh : ∀ name ∈ fetched, name ∉ s.requested
  known : ∀ name ∈ fetched, sources.contains name = true
  requested : ∀ s', x.result = .ok s' → s.requested ++ fetched ⊆ s'.requested

section Log

variable {sources : Sources} {s s' : State}

theorem fetches_pure (h : s.requested ⊆ s'.requested) : Fetches sources s (pure s') [] := by
  refine ⟨rfl, rfl, List.Sublist.refl _, List.nodup_nil, by simp, by simp, ?_⟩
  intro s'' hs''
  cases hs''
  simpa using h

/-- What comes later reads none of the sources that have been read before. -/
theorem Fetches.bind {x : Logged State} {f : State → Logged State} {fetched : List String}
    (hx : Fetches sources s x fetched)
    (hf : ∀ s', x.result = .ok s' → ∃ later, Fetches sources s' (f s') later) :
    ∃ all, Fetches sources s (x >>= f) all := by
  show ∃ all, Fetches sources s (Logged.bind x f) all
  unfold Logged.bind
  cases hresult : x.result with
  | error diagnostics =>
    refine ⟨fetched, hx.loading, hx.scanning, hx.parsing, hx.nodup, hx.fresh, hx.known, ?_⟩
    intro s' hs'
    cases hs'
  | ok s₁ =>
    obtain ⟨later, hlater⟩ := hf s₁ hresult
    have hrequested := hx.requested s₁ hresult
    rw [List.append_subset] at hrequested
    refine ⟨fetched ++ later, ?_, ?_, ?_, ?_, ?_, ?_, ?_⟩
    · rw [List.filterMap_append, hx.loading, hlater.loading]
    · rw [List.filterMap_append, hx.scanning, hlater.scanning]
    · rw [List.filterMap_append]
      exact hx.parsing.append hlater.parsing
    · refine hx.nodup.append hlater.nodup fun name hbefore hafter => ?_
      exact hlater.fresh name hafter (hrequested.2 hbefore)
    · refine List.forall_mem_append.mpr ⟨hx.fresh, fun name hname hbefore => ?_⟩
      exact hlater.fresh name hname (hrequested.1 hbefore)
    · exact List.forall_mem_append.mpr ⟨hx.known, hlater.known⟩
    · intro s' hs'
      have hlast := hlater.requested s' hs'
      rw [List.append_subset] at hlast ⊢
      refine ⟨List.Subset.trans hrequested.1 hlast.1, ?_⟩
      exact List.append_subset.mpr ⟨List.Subset.trans hrequested.2 hlast.1, hlast.2⟩

theorem fetches_foldlM {α : Type} {f : State → α → Logged State}
    (hf : ∀ s a, ∃ fetched, Fetches sources s (f s a) fetched) (items : List α) (s : State) :
    ∃ fetched, Fetches sources s (items.foldlM f s) fetched := by
  induction items generalizing s with
  | nil => exact ⟨[], fetches_pure (List.Subset.refl _)⟩
  | cons a rest ih =>
    rw [List.foldlM_cons]
    obtain ⟨fetched, hfetched⟩ := hf s a
    exact hfetched.bind fun s' _ => ih s'

/-- A source is read only when its name is looked up for the first time. -/
theorem fetches_request (sources : Sources) (s : State) (name : String) :
    ∃ fetched, Fetches sources s (s.request sources name) fetched := by
  unfold State.request
  split
  · exact ⟨[], fetches_pure (List.Subset.refl _)⟩
  · rename_i hnew
    dsimp only
    split
    · rename_i text htext
      obtain ⟨_, hloading⟩ := log_load showsBeginnings_loading?
        { s with requested := s.requested ++ [name] } name text
      obtain ⟨_, hscanning⟩ := log_load showsBeginnings_scanning?
        { s with requested := s.requested ++ [name] } name text
      obtain ⟨parsed?, hparsing⟩ := log_load showsBeginnings_parsing?
        { s with requested := s.requested ++ [name] } name text
      refine ⟨[name], ?_, ?_, ?_, List.nodup_singleton _, ?_, ?_, ?_⟩
      · rw [events_bind, List.filterMap_append]
        simp [Logged.log, hloading, loading?]
      · rw [events_bind, List.filterMap_append]
        simp [Logged.log, hscanning, scanning?]
      · rw [events_bind, List.filterMap_append]
        cases parsed? <;> simp [Logged.log, hparsing, parsing?]
      · simpa using hnew
      · simp [Sources.contains, htext]
      · intro s' hs'
        obtain ⟨-, -, hs'⟩ := Logged.result_bind_eq_ok.mp hs'
        obtain ⟨modules, -, hs'⟩ := Logged.result_bind_eq_ok.mp hs'
        cases hs'
        rw [(State.addAll_spec _ modules _).2.2.1]
        exact List.Subset.refl _
    · exact ⟨[], fetches_pure (List.subset_append_left _ _)⟩

theorem fetches_resolve (s : State) (caller : Document) (call : String × Span) :
    ∃ fetched, Fetches sources s (s.resolve sources caller call) fetched := by
  unfold State.resolve
  dsimp only
  split
  · exact ⟨[], fetches_pure (List.Subset.refl _)⟩
  · obtain ⟨fetched, hfetched⟩ := fetches_request sources s call.1
    refine hfetched.bind fun s' _ => ⟨[], fetches_pure ?_⟩
    split
    · exact List.Subset.refl _
    · obtain ⟨-, diagnostics, hreport⟩ := s'.reportUndefined_spec caller call.1 call.2
      rw [hreport]
      exact List.Subset.refl _

/-- **No source is read twice.** -/
theorem fetches_close (fuel : Nat) (units : List Loaded) (s : State) :
    ∃ fetched, Fetches sources s (close sources fuel units s) fetched := by
  induction fuel generalizing units s with
  | zero => exact ⟨[], fetches_pure (List.Subset.refl _)⟩
  | succ fuel ih =>
    obtain ⟨fetched, hround⟩ := fetches_foldlM
      (fun s unit => fetches_foldlM (fun s call => fetches_resolve s unit.document call)
        (calls unit.syntaxTree) s) units s
    refine hround.bind fun after _ => ?_
    dsimp only
    split
    · exact ⟨[], fetches_pure (List.Subset.refl _)⟩
    · exact ih _ _

end Log

end Library

end CandidateSearch
