/-
  CandidateSearch/Proofs/Schedule/Resolving.lean
  ==============================================
  **What resolving an entry keeps.**

  Resolving marks an entry, resolves the entries that provide what it reads, and places
  it.  While that goes on there is a stack of entries that are marked and not yet placed.
  `Consistent` ties the stack to the rest: what is marked is placed or on the stack, and
  what has been written is what the placed entries write.

  `resolve_keeps` is the one induction over the recursion.  It takes a property of the
  stack and the progress that marking and placing keep, and gives it for the whole of
  `resolve`.  When an entry is placed, each variable that it reads is written by then or
  nothing is left that could provide it; that is where the two passes over the reads are
  looked at, and nowhere else.
-/
import CandidateSearch.Schedule.Order
import Mathlib.Data.List.Basic

namespace CandidateSearch.Schedule

variable {entries stack : List Entry} {p q : Progress} {e w : Entry} {name : String}

/-! ### Marking and placing -/

theorem isDone_begin : (p.begin e).isDone w = true ↔ w.index = e.index ∨ p.isDone w = true := by
  simp [Progress.isDone, Progress.begin]

@[simp] theorem order_begin : (p.begin e).order = p.order := rfl

@[simp] theorem written_begin : (p.begin e).written = p.written := rfl

@[simp] theorem isDone_emit : (p.emit e).isDone w = p.isDone w := rfl

@[simp] theorem order_emit : (p.emit e).order = p.order ++ [e] := rfl

@[simp] theorem written_emit : (p.emit e).written = p.written ++ e.writes := rfl

/-! ### Providers -/

/-- The entries that are taken as providers: all but tests and guards. -/
def Entry.Provides (e : Entry) : Prop :=
  e.phase = .assume ∨ e.phase = .compute ∨ (e.phase = .other ∧ e.guard = false)

theorem writer?_eq_some {accept : Entry → Bool} (h : p.writer? entries name accept = some w) :
    w ∈ entries ∧ p.isDone w = false ∧ accept w = true ∧ name ∈ w.writes := by
  have hholds := List.find?_some h
  simp only [Bool.and_eq_true, Bool.not_eq_true', List.contains_iff_mem] at hholds
  exact ⟨List.mem_of_find?_eq_some h, hholds.1.1, hholds.1.2, hholds.2⟩

theorem isDone_of_writer?_eq_none {accept : Entry → Bool}
    (h : p.writer? entries name accept = none) (hw : w ∈ entries) (haccept : accept w = true)
    (hname : name ∈ w.writes) : p.isDone w = true := by
  have hfails := List.find?_eq_none.mp h w hw
  simpa [haccept, hname] using hfails

theorem provider?_eq_some (h : p.provider? entries name = some w) :
    w ∈ entries ∧ p.isDone w = false ∧ w.Provides ∧ name ∈ w.writes := by
  simp only [Progress.provider?, Option.orElse_eq_orElse, Option.orElse_eq_or,
    Option.or_eq_some_iff] at h
  rcases h with h | ⟨-, h | ⟨-, h⟩⟩
  · obtain ⟨hmem, hdone, hphase, hname⟩ := writer?_eq_some h
    exact ⟨hmem, hdone, Or.inl (by simpa using hphase), hname⟩
  · obtain ⟨hmem, hdone, hphase, hname⟩ := writer?_eq_some h
    exact ⟨hmem, hdone, Or.inr (Or.inl (by simpa using hphase)), hname⟩
  · obtain ⟨hmem, hdone, hphase, hname⟩ := writer?_eq_some h
    exact ⟨hmem, hdone, Or.inr (Or.inr (by simpa using hphase)), hname⟩

theorem provider?_eq_none :
    p.provider? entries name = none ↔
      ∀ w ∈ entries, w.Provides → name ∈ w.writes → p.isDone w = true := by
  constructor
  · intro h w hw hprovides hname
    simp only [Progress.provider?, Option.orElse_eq_orElse, Option.orElse_eq_or,
      Option.or_eq_none_iff] at h
    rcases hprovides with hphase | hphase | ⟨hphase, hguard⟩
    · exact isDone_of_writer?_eq_none h.1 hw (by simp [hphase]) hname
    · exact isDone_of_writer?_eq_none h.2.1 hw (by simp [hphase]) hname
    · exact isDone_of_writer?_eq_none h.2.2 hw (by simp [hphase, hguard]) hname
  · intro h
    by_contra hsome
    obtain ⟨w, hw⟩ := Option.ne_none_iff_exists'.mp hsome
    obtain ⟨hmem, hdone, hprovides, hname⟩ := provider?_eq_some hw
    rw [h w hmem hprovides hname] at hdone
    exact absurd hdone (by decide)

/-- An enumeration that is left comes before all other providers. -/
theorem phase_provider? (h : p.provider? entries name = some w) {a : Entry} (ha : a ∈ entries)
    (hdone : p.isDone a = false) (hphase : a.phase = .assume) (hname : name ∈ a.writes) :
    w.phase = .assume := by
  simp only [Progress.provider?, Option.orElse_eq_orElse, Option.orElse_eq_or,
    Option.or_eq_some_iff] at h
  rcases h with h | ⟨hnone, -⟩
  · simpa using (writer?_eq_some h).2.2.1
  · rw [isDone_of_writer?_eq_none hnone ha (by simp [hphase]) hname] at hdone
    exact absurd hdone (by decide)

/-! ### Consistent progress -/

/-- No two entries stand at one place of the source. -/
def Indexed (entries : List Entry) : Prop :=
  ∀ a ∈ entries, ∀ b ∈ entries, a.index = b.index → a = b

/-- The progress fits the stack of entries that are being placed. -/
structure Consistent (entries stack : List Entry) (p : Progress) : Prop where
  known : ∀ e ∈ p.order ++ stack, e ∈ entries
  marked : ∀ e ∈ entries, p.isDone e = true ↔ e ∈ p.order ++ stack
  distinct : (p.order ++ stack).Nodup
  written : p.written = p.order.flatMap (·.writes)

theorem Consistent.start (entries : List Entry) : Consistent entries [] {} where
  known := by simp
  marked := by simp [Progress.isDone]
  distinct := by simp
  written := rfl

theorem Consistent.begin (h : Consistent entries stack p) (hindexed : Indexed entries)
    (he : e ∈ entries) (hdone : p.isDone e = false) :
    Consistent entries (e :: stack) (p.begin e) := by
  have hnew : e ∉ p.order ++ stack := fun hmem => by
    rw [(h.marked e he).mpr hmem] at hdone
    exact absurd hdone (by decide)
  have hperm : (p.order ++ e :: stack).Perm (e :: (p.order ++ stack)) := List.perm_middle
  refine ⟨?_, ?_, ?_, h.written⟩
  · intro x hx
    rcases List.mem_cons.mp (hperm.mem_iff.mp hx) with rfl | hx
    · exact he
    · exact h.known x hx
  · intro x hx
    rw [isDone_begin, h.marked x hx, order_begin, hperm.mem_iff, List.mem_cons]
    exact or_congr_left ⟨hindexed x hx e he, fun heq => heq ▸ rfl⟩
  · rw [order_begin, hperm.nodup_iff]
    exact List.nodup_cons.mpr ⟨hnew, h.distinct⟩

theorem Consistent.emit (h : Consistent entries (e :: stack) p) :
    Consistent entries stack (p.emit e) := by
  have hsame : (p.emit e).order ++ stack = p.order ++ e :: stack := by simp
  refine ⟨?_, ?_, ?_, ?_⟩
  · rw [hsame]
    exact h.known
  · rw [hsame]
    exact h.marked
  · rw [hsame]
    exact h.distinct
  · simp [h.written]

theorem Consistent.place (h : Consistent entries stack p) (hindexed : Indexed entries)
    (he : e ∈ entries) (hdone : p.isDone e = false) : Consistent entries stack (p.place e) :=
  (h.begin hindexed he hdone).emit

theorem Consistent.mem_written (h : Consistent entries stack p) :
    name ∈ p.written ↔ ∃ w ∈ p.order, name ∈ w.writes := by
  rw [h.written, List.mem_flatMap]

/-- What is marked between two moments with one stack has been placed. -/
theorem Consistent.mem_order (hp : Consistent entries stack p) (hq : Consistent entries stack q)
    (he : e ∈ entries) (hbefore : p.isDone e = false) (hafter : q.isDone e = true) :
    e ∈ q.order := by
  rcases List.mem_append.mp ((hq.marked e he).mp hafter) with hmem | hmem
  · exact hmem
  · rw [(hp.marked e he).mpr (List.mem_append_right _ hmem)] at hbefore
    exact absurd hbefore (by decide)

/-! ### Growth -/

/-- The progress has grown: nothing is unmarked, and entries are added at the end. -/
structure Grown (p q : Progress) : Prop where
  done : ∀ e, p.isDone e = true → q.isDone e = true
  order : p.order <+: q.order

theorem Grown.refl (p : Progress) : Grown p p := ⟨fun _ h => h, List.prefix_rfl⟩

theorem Grown.trans {r : Progress} (h : Grown p q) (h' : Grown q r) : Grown p r :=
  ⟨fun e he => h'.done e (h.done e he), h.order.trans h'.order⟩

theorem Grown.begin (p : Progress) (e : Entry) : Grown p (p.begin e) :=
  ⟨fun _ h => isDone_begin.mpr (Or.inr h), List.prefix_rfl⟩

theorem Grown.emit (p : Progress) (e : Entry) : Grown p (p.emit e) :=
  ⟨fun _ h => h, List.prefix_append _ _⟩

theorem Grown.mem_written (h : Grown p q) (hp : Consistent entries stack p)
    (hq : Consistent entries stack q) (hname : name ∈ p.written) : name ∈ q.written := by
  obtain ⟨w, hw, hwrites⟩ := hp.mem_written.mp hname
  exact hq.mem_written.mpr ⟨w, h.order.subset hw, hwrites⟩

/-- The number of entries that are not marked: how often marking can still happen. -/
def undone (entries : List Entry) (p : Progress) : Nat := entries.countP fun e => !p.isDone e

theorem Grown.undone_le (h : Grown p q) (entries : List Entry) :
    undone entries q ≤ undone entries p := by
  apply List.countP_mono_left
  intro e _ hq
  cases hp : p.isDone e with
  | false => rfl
  | true => simp [h.done e hp] at hq

theorem undone_begin_lt (he : e ∈ entries) (hdone : p.isDone e = false) :
    undone entries (p.begin e) < undone entries p := by
  obtain ⟨before, after, rfl⟩ := List.append_of_mem he
  have hbefore := (Grown.begin p e).undone_le before
  have hafter := (Grown.begin p e).undone_le after
  have hself : (p.begin e).isDone e = true := isDone_begin.mpr (Or.inl rfl)
  simp only [undone, List.countP_append, List.countP_cons, hdone, hself, Bool.not_false,
    Bool.not_true, if_true] at hbefore hafter ⊢
  simp only [Bool.false_eq_true, if_false]
  omega

/-! ### The passes over the reads -/

/-- Looks after one variable: the local function of `resolve`, under a name. -/
def pull (entries : List Entry) (fuel : Nat) (enumerated : Bool) (p : Progress)
    (name : String) : Progress :=
  if p.written.contains name then p
  else match p.provider? entries name with
    | some writer =>
        if (writer.phase == .assume) == enumerated then resolve entries fuel p writer else p
    | none => p

theorem resolve_succ (entries : List Entry) (fuel : Nat) (p : Progress) (e : Entry) :
    resolve entries (fuel + 1) p e =
      if p.isDone e then p
      else
        (e.reads.foldl (pull entries fuel true)
          (e.reads.foldl (pull entries fuel false) (p.begin e))).emit e :=
  rfl

/-- Nothing more can be done for the variable: it is written, or nothing is left that
    could provide it. -/
def Sought (entries : List Entry) (p : Progress) (name : String) : Prop :=
  name ∈ p.written ∨ p.provider? entries name = none

/-- After the first pass only an enumeration can still be wanted for the variable. -/
def OnlyEnumerated (entries : List Entry) (p : Progress) (name : String) : Prop :=
  name ∈ p.written ∨ ∀ w, p.provider? entries name = some w → w.phase = .assume

theorem Sought.grown (h : Sought entries p name) (hgrown : Grown p q)
    (hp : Consistent entries stack p) (hq : Consistent entries stack q) :
    Sought entries q name := by
  rcases h with hwritten | hnone
  · exact Or.inl (hgrown.mem_written hp hq hwritten)
  · refine Or.inr (provider?_eq_none.mpr fun w hw hprovides hname => ?_)
    exact hgrown.done w (provider?_eq_none.mp hnone w hw hprovides hname)

/-- An enumeration that was wanted is still wanted later on, or it has been placed. -/
theorem OnlyEnumerated.grown (h : OnlyEnumerated entries p name) (hgrown : Grown p q)
    (hp : Consistent entries stack p) (hq : Consistent entries stack q) :
    OnlyEnumerated entries q name := by
  rcases h with hwritten | honly
  · exact Or.inl (hgrown.mem_written hp hq hwritten)
  · cases hprovider : p.provider? entries name with
    | none =>
      rcases Sought.grown (Or.inr hprovider) hgrown hp hq with hwritten | hnone
      · exact Or.inl hwritten
      · exact Or.inr fun w hw => by rw [hnone] at hw; cases hw
    | some a =>
      obtain ⟨ha, hundone, -, hname⟩ := provider?_eq_some hprovider
      cases hlater : q.isDone a with
      | true => exact Or.inl (hq.mem_written.mpr ⟨a, hp.mem_order hq ha hundone hlater, hname⟩)
      | false =>
        exact Or.inr fun w hw => phase_provider? hw ha hlater (honly a hprovider) hname

/-- Why an entry is resolved: a loop asks for it, or it provides a variable that the entry
    on top of the stack reads. -/
def Wanted (asked : Entry → Prop) : List Entry → Entry → Prop
  | [], e => asked e
  | top :: _, e => e.Provides ∧ ∃ name ∈ top.reads, name ∈ e.writes

/-- A property of the stack and the progress that marking and placing keep. -/
structure Keeps (entries : List Entry) (asked : Entry → Prop)
    (M : List Entry → Progress → Prop) : Prop where
  begin : ∀ {stack p e}, Consistent entries stack p → M stack p → e ∈ entries →
    p.isDone e = false → Wanted asked stack e → M (e :: stack) (p.begin e)
  emit : ∀ {stack p e}, Consistent entries (e :: stack) p → M (e :: stack) p →
    (∀ name ∈ e.reads, Sought entries p name) → M stack (p.emit e)

/-- How the progress stands after something has been done that kept a property. -/
structure After (entries stack : List Entry) (M : List Entry → Progress → Prop)
    (p q : Progress) : Prop where
  consistent : Consistent entries stack q
  kept : M stack q
  grown : Grown p q

section Passes

variable {asked : Entry → Prop} {M : List Entry → Progress → Prop} {fuel : Nat}

/-- Resolving with a given number of rounds keeps the property and marks the entry. -/
def ResolvesWith (entries : List Entry) (asked : Entry → Prop)
    (M : List Entry → Progress → Prop) (fuel : Nat) : Prop :=
  ∀ {stack p e}, undone entries p ≤ fuel → Consistent entries stack p → M stack p →
    e ∈ entries → Wanted asked stack e →
    After entries stack M p (resolve entries fuel p e) ∧
      (resolve entries fuel p e).isDone e = true

/-- One variable in a pass: the property is kept, and in the first pass only an
    enumeration can be wanted afterwards; in the second pass, if that was so, nothing is. -/
theorem pull_keeps (hresolve : ResolvesWith entries asked M fuel) (enumerated : Bool)
    (hfuel : undone entries p ≤ fuel) (hp : Consistent entries (e :: stack) p)
    (hM : M (e :: stack) p) (hread : name ∈ e.reads) :
    After entries (e :: stack) M p (pull entries fuel enumerated p name) ∧
      (enumerated = false → OnlyEnumerated entries (pull entries fuel enumerated p name) name) ∧
      (enumerated = true → OnlyEnumerated entries p name →
        Sought entries (pull entries fuel enumerated p name) name) := by
  have hsame : After entries (e :: stack) M p p := ⟨hp, hM, Grown.refl p⟩
  unfold pull
  split
  · rename_i hwritten
    have hwritten : name ∈ p.written := by simpa using hwritten
    exact ⟨hsame, fun _ => Or.inl hwritten, fun _ _ => Or.inl hwritten⟩
  · split
    · rename_i w hw
      obtain ⟨hmem, hundone, hprovides, hname⟩ := provider?_eq_some hw
      split
      · obtain ⟨hafter, hdone⟩ := hresolve hfuel hp hM hmem ⟨hprovides, name, hread, hname⟩
        have hwritten : name ∈ (resolve entries fuel p w).written :=
          hafter.consistent.mem_written.mpr
            ⟨w, hp.mem_order hafter.consistent hmem hundone hdone, hname⟩
        exact ⟨hafter, fun _ => Or.inl hwritten, fun _ _ => Or.inl hwritten⟩
      · rename_i hother
        refine ⟨hsame, fun hfirst => Or.inr fun a ha => ?_, fun hsecond honly => ?_⟩
        · rw [hw] at ha
          obtain rfl := Option.some.inj ha
          simpa [hfirst] using hother
        · rcases honly with hwritten | honly
          · exact Or.inl hwritten
          · simp [hsecond, honly w hw] at hother
    · rename_i hnone
      refine ⟨hsame, fun _ => Or.inr fun w hw => ?_, fun _ _ => Or.inr hnone⟩
      rw [hnone] at hw
      cases hw

theorem first_pass (hresolve : ResolvesWith entries asked M fuel) :
    ∀ (names : List String) {p : Progress}, undone entries p ≤ fuel →
      Consistent entries (e :: stack) p → M (e :: stack) p → (∀ name ∈ names, name ∈ e.reads) →
      After entries (e :: stack) M p (names.foldl (pull entries fuel false) p) ∧
        ∀ name ∈ names,
          OnlyEnumerated entries (names.foldl (pull entries fuel false) p) name := by
  intro names
  induction names with
  | nil => exact fun _ hp hM _ => ⟨⟨hp, hM, Grown.refl _⟩, by simp⟩
  | cons name rest ih =>
    intro p hfuel hp hM hreads
    obtain ⟨hone, honly, -⟩ := pull_keeps hresolve false hfuel hp hM
      (hreads name (by simp))
    obtain ⟨hrest, hothers⟩ := ih (Nat.le_trans (hone.grown.undone_le entries) hfuel)
      hone.consistent hone.kept fun n hn => hreads n (by simp [hn])
    refine ⟨⟨hrest.consistent, hrest.kept, hone.grown.trans hrest.grown⟩, fun n hn => ?_⟩
    rcases List.mem_cons.mp hn with rfl | hn
    · exact (honly rfl).grown hrest.grown hone.consistent hrest.consistent
    · exact hothers n hn

theorem second_pass (hresolve : ResolvesWith entries asked M fuel) :
    ∀ (names : List String) {p : Progress}, undone entries p ≤ fuel →
      Consistent entries (e :: stack) p → M (e :: stack) p →
      (∀ name ∈ names, name ∈ e.reads ∧ OnlyEnumerated entries p name) →
      After entries (e :: stack) M p (names.foldl (pull entries fuel true) p) ∧
        ∀ name ∈ names, Sought entries (names.foldl (pull entries fuel true) p) name := by
  intro names
  induction names with
  | nil => exact fun _ hp hM _ => ⟨⟨hp, hM, Grown.refl _⟩, by simp⟩
  | cons name rest ih =>
    intro p hfuel hp hM hreads
    obtain ⟨hread, honly⟩ := hreads name (by simp)
    obtain ⟨hone, -, hsought⟩ := pull_keeps hresolve true hfuel hp hM hread
    obtain ⟨hrest, hothers⟩ := ih (Nat.le_trans (hone.grown.undone_le entries) hfuel)
      hone.consistent hone.kept fun n hn =>
        ⟨(hreads n (by simp [hn])).1,
          (hreads n (by simp [hn])).2.grown hone.grown hp hone.consistent⟩
    refine ⟨⟨hrest.consistent, hrest.kept, hone.grown.trans hrest.grown⟩, fun n hn => ?_⟩
    rcases List.mem_cons.mp hn with rfl | hn
    · exact (hsought rfl honly).grown hrest.grown hone.consistent hrest.consistent
    · exact hothers n hn

/-- **Resolving keeps what marking and placing keep.**  There are enough rounds as long as
    there is one for each entry that is not marked. -/
theorem resolve_keeps (hindexed : Indexed entries) (hkeeps : Keeps entries asked M) :
    ∀ fuel, ResolvesWith entries asked M fuel := by
  intro fuel
  -- each round marks its entry first, which pays for the rounds inside it
  induction fuel with
  | zero =>
    intro stack p e hfuel hp hM he _
    have hdone : p.isDone e = true := by
      have hnone := List.countP_eq_zero.mp (Nat.le_zero.mp hfuel) e he
      simpa using hnone
    exact ⟨⟨hp, hM, Grown.refl p⟩, hdone⟩
  | succ fuel ih =>
    intro stack p e hfuel hp hM he hwanted
    rw [resolve_succ]
    split
    · rename_i hdone
      exact ⟨⟨hp, hM, Grown.refl p⟩, hdone⟩
    · rename_i hdone
      have hdone : p.isDone e = false := by simpa using hdone
      have hless := undone_begin_lt he hdone
      obtain ⟨hfirst, honly⟩ := first_pass ih e.reads (by omega)
        (hp.begin hindexed he hdone) (hkeeps.begin hp hM he hdone hwanted) (fun _ h => h)
      obtain ⟨hsecond, hsought⟩ := second_pass ih e.reads
        (Nat.le_trans (hfirst.grown.undone_le entries) (by omega)) hfirst.consistent hfirst.kept
        fun name hname => ⟨hname, honly name hname⟩
      have hgrown := (Grown.begin p e).trans (hfirst.grown.trans hsecond.grown)
      refine ⟨⟨hsecond.consistent.emit, hkeeps.emit hsecond.consistent hsecond.kept hsought,
        hgrown.trans (Grown.emit _ e)⟩, ?_⟩
      rw [isDone_emit]
      exact (hfirst.grown.trans hsecond.grown).done e (isDone_begin.mpr (Or.inl rfl))

end Passes

end CandidateSearch.Schedule
