/-
  CandidateSearch/Proofs/Schedule/Ordering.lean
  =============================================
  **The loops of the ordering.**

  The ordering goes through the entries five times: guards, tests, calculations,
  enumerations, and what is left.  `order_keeps` carries a property that marking and
  placing keep through all of them, and `order_perm` says that every entry is placed
  exactly once, however the entries depend on each other.
-/
import CandidateSearch.Proofs.Schedule.Resolving
import Mathlib.Data.List.Nodup

namespace CandidateSearch.Schedule

variable {entries : List Entry} {p q : Progress} {e : Entry}

/-! ### Entries of a statement list -/

theorem mem_distinct {name : String} {names : List String} :
    name ∈ distinct names ↔ name ∈ names := by
  have hfold : ∀ (names seen : List String),
      name ∈ names.foldl (fun seen n => if seen.contains n then seen else seen ++ [n]) seen ↔
        name ∈ seen ∨ name ∈ names := by
    intro names
    induction names with
    | nil => simp
    | cons n rest ih =>
      intro seen
      rw [List.foldl_cons, ih, List.mem_cons]
      split
      · rename_i hseen
        have hseen : n ∈ seen := by simpa using hseen
        constructor
        · rintro (h | h)
          · exact Or.inl h
          · exact Or.inr (Or.inr h)
        · rintro (h | rfl | h)
          · exact Or.inl h
          · exact Or.inl hseen
          · exact Or.inr h
      · rw [List.mem_append, List.mem_singleton, or_assoc]
  rw [distinct, hfold names []]
  simp

theorem map_stmt_mapIdx (place : Nat → Nat) (stmts : List Resolved.Stmt) :
    (stmts.mapIdx fun i s => classify (place i) s).map (·.stmt) = stmts := by
  apply List.ext_getElem
  · simp
  · intro i _ _
    simp [classify]

theorem map_stmt_classifyAll (stmts : List Resolved.Stmt) :
    (classifyAll stmts).map (·.stmt) = stmts :=
  map_stmt_mapIdx id stmts

theorem classifyAll_eq_append (before after : List Resolved.Stmt) (s : Resolved.Stmt) :
    ∃ first last, classifyAll (before ++ s :: after) =
      first ++ classify before.length s :: last ∧
        first.map (·.stmt) = before ∧ last.map (·.stmt) = after ∧
        (∀ e ∈ first, e.index < before.length) ∧ ∀ e ∈ last, before.length < e.index := by
  refine ⟨classifyAll before, after.mapIdx fun i s => classify (i + 1 + before.length) s,
    ?_, ?_, ?_, ?_, ?_⟩
  · simp [classifyAll, List.mapIdx_append, List.mapIdx_cons]
  · exact map_stmt_classifyAll before
  · exact map_stmt_mapIdx (fun i => i + 1 + before.length) after
  · intro e he
    obtain ⟨i, hi, rfl⟩ := List.mem_mapIdx.mp he
    exact hi
  · intro e he
    obtain ⟨i, hi, rfl⟩ := List.mem_mapIdx.mp he
    show before.length < i + 1 + before.length
    omega

theorem mem_classifyAll {stmts : List Resolved.Stmt} :
    e ∈ classifyAll stmts ↔ ∃ i s, stmts[i]? = some s ∧ classify i s = e := by
  simp only [classifyAll, List.mem_mapIdx, List.getElem?_eq_some_iff]
  constructor
  · rintro ⟨i, hi, rfl⟩
    exact ⟨i, _, ⟨hi, rfl⟩, rfl⟩
  · rintro ⟨i, s, ⟨hi, rfl⟩, rfl⟩
    exact ⟨i, hi, rfl⟩

theorem map_index_classifyAll (stmts : List Resolved.Stmt) :
    (classifyAll stmts).map (·.index) = List.range stmts.length := by
  apply List.ext_getElem
  · simp [classifyAll]
  · intro i _ _
    simp [classifyAll, classify]

theorem nodup_index_classifyAll (stmts : List Resolved.Stmt) :
    ((classifyAll stmts).map (·.index)).Nodup := by
  rw [map_index_classifyAll]
  exact List.nodup_range

theorem indexed_of_nodup (hnodup : (entries.map (·.index)).Nodup) : Indexed entries :=
  fun _ ha _ hb heq => List.inj_on_of_nodup_map hnodup ha hb heq

/-! ### One loop -/

section Loops

variable {asked : Entry → Prop} {M : List Entry → Progress → Prop}

theorem keeps_trivial (entries : List Entry) :
    Keeps entries (fun _ => True) (fun _ _ => True) :=
  ⟨fun _ _ _ _ _ => trivial, fun _ _ _ => trivial⟩

theorem settle_keeps (hindexed : Indexed entries) (hkeeps : Keeps entries asked M)
    (hp : Consistent entries [] p) (hM : M [] p) (he : e ∈ entries) (hasked : asked e) :
    After entries [] M p (p.settle entries e) ∧ (p.settle entries e).isDone e = true :=
  resolve_keeps hindexed hkeeps entries.length List.countP_le_length hp hM he hasked

/-- The calculation that a test takes along: of the variable that it is about. -/
def Entry.Feeds (w t : Entry) : Prop :=
  w.phase = .compute ∧ ∃ name, t.target = some name ∧ name ∈ w.writes

def Progress.settleFeeding (entries : List Entry) (p : Progress) (e : Entry) : Progress :=
  match e.target.bind fun name => p.writer? entries name (fun e => e.phase = .compute) with
  | some writer => p.settle entries writer
  | none => p

theorem settleTest_eq (entries : List Entry) (p : Progress) (e : Entry) :
    p.settleTest entries e = (p.settleFeeding entries e).settle entries e := by
  unfold Progress.settleTest Progress.settleFeeding
  split <;> rename_i h <;> simp [h]

theorem settleFeeding_keeps (hindexed : Indexed entries) (hkeeps : Keeps entries asked M)
    (hp : Consistent entries [] p) (hM : M [] p)
    (hasked : ∀ w ∈ entries, w.Feeds e → asked w) :
    After entries [] M p (p.settleFeeding entries e) := by
  unfold Progress.settleFeeding
  split
  · rename_i w hw
    obtain ⟨name, htarget, hw⟩ := Option.bind_eq_some_iff.mp hw
    obtain ⟨hmem, -, hphase, hname⟩ := writer?_eq_some hw
    have hfeeds : w.Feeds e := ⟨by simpa using hphase, name, htarget, hname⟩
    exact (settle_keeps hindexed hkeeps hp hM hmem (hasked w hmem hfeeds)).1
  · exact ⟨hp, hM, Grown.refl p⟩

theorem settleTest_keeps (hindexed : Indexed entries) (hkeeps : Keeps entries asked M)
    (hp : Consistent entries [] p) (hM : M [] p) (he : e ∈ entries) (hself : asked e)
    (hasked : ∀ w ∈ entries, w.Feeds e → asked w) :
    After entries [] M p (p.settleTest entries e) ∧
      (p.settleTest entries e).isDone e = true := by
  rw [settleTest_eq]
  have hfed := settleFeeding_keeps hindexed hkeeps hp hM hasked
  obtain ⟨hafter, hdone⟩ := settle_keeps hindexed hkeeps hfed.consistent hfed.kept he hself
  exact ⟨⟨hafter.consistent, hafter.kept, hfed.grown.trans hafter.grown⟩, hdone⟩

/-- A loop over entries keeps what each of its rounds keeps, and what a round has reached
    holds at the end if growth cannot undo it. -/
theorem foldl_keeps {settle : Progress → Entry → Progress} (Reached : Entry → Progress → Prop)
    (wanted : List Entry)
    (hround : ∀ e ∈ wanted, ∀ {p}, Consistent entries [] p → M [] p →
      After entries [] M p (settle p e) ∧ Reached e (settle p e))
    (hstays : ∀ {e p q}, Grown p q → Reached e p → Reached e q)
    (hp : Consistent entries [] p) (hM : M [] p) :
    After entries [] M p (wanted.foldl settle p) ∧
      ∀ e ∈ wanted, Reached e (wanted.foldl settle p) := by
  induction wanted generalizing p with
  | nil => exact ⟨⟨hp, hM, Grown.refl p⟩, by simp⟩
  | cons first rest ih =>
    obtain ⟨hone, hreached⟩ := hround first (by simp) hp hM
    obtain ⟨hrest, hothers⟩ :=
      ih (fun e he => hround e (by simp [he])) hone.consistent hone.kept
    refine ⟨⟨hrest.consistent, hrest.kept, hone.grown.trans hrest.grown⟩, fun e he => ?_⟩
    rcases List.mem_cons.mp he with rfl | he
    · exact hstays hrest.grown hreached
    · exact hothers e he

/-! ### All loops -/

def afterGuards (entries : List Entry) : Progress :=
  (entries.filter (·.guard)).foldl Progress.place {}

def afterTests (entries : List Entry) : Progress :=
  (entries.filter (·.phase = .test)).foldl (Progress.settleTest entries) (afterGuards entries)

def afterComputing (entries : List Entry) : Progress :=
  (entries.filter (computes entries)).foldl (Progress.settle entries) (afterTests entries)

def afterEnumerating (entries : List Entry) : Progress :=
  (entries.filter (·.phase = .assume)).foldl (Progress.settle entries) (afterComputing entries)

def afterAll (entries : List Entry) : Progress :=
  (entries.filter (·.phase = .other)).foldl (Progress.settle entries) (afterEnumerating entries)

theorem order_eq (entries : List Entry) : order entries = (afterAll entries).order := rfl

theorem afterGuards_keeps (hnodup : (entries.map (·.index)).Nodup) (hstart : M [] {})
    (hguard : ∀ {p e}, e ∈ entries → e.guard = true → Consistent entries [] p → M [] p →
      p.isDone e = false → M [] (p.place e)) :
    Consistent entries [] (afterGuards entries) ∧ M [] (afterGuards entries) := by
  have hindexed := indexed_of_nodup hnodup
  have hfold : ∀ {guards : List Entry} {p : Progress}, guards.Nodup →
      (∀ e ∈ guards, e ∈ entries ∧ e.guard = true ∧ p.isDone e = false) →
      Consistent entries [] p → M [] p →
      Consistent entries [] (guards.foldl Progress.place p) ∧
        M [] (guards.foldl Progress.place p) := by
    intro guards
    induction guards with
    | nil => exact fun _ _ hp hM => ⟨hp, hM⟩
    | cons first rest ih =>
      intro p hdistinct hguards hp hM
      obtain ⟨hnew, hdistinct⟩ := List.nodup_cons.mp hdistinct
      obtain ⟨hfirst, hisGuard, hdone⟩ := hguards first (by simp)
      refine ih hdistinct (fun e he => ?_) (hp.place hindexed hfirst hdone)
        (hguard hfirst hisGuard hp hM hdone)
      obtain ⟨hmem, heGuard, heDone⟩ := hguards e (by simp [he])
      refine ⟨hmem, heGuard, ?_⟩
      have hne : ¬ e.index = first.index := fun heq =>
        hnew (hindexed e hmem first hfirst heq ▸ he)
      have hnot : ¬ (p.place first).isDone e = true := by
        rw [Progress.place, isDone_emit, isDone_begin]
        simp [hne, heDone]
      simpa using hnot
  refine hfold (hnodup.of_map _ |>.filter _) ?_ (Consistent.start entries) hstart
  intro e he
  obtain ⟨hmem, hisGuard⟩ := List.mem_filter.mp he
  exact ⟨hmem, hisGuard, rfl⟩

theorem settleTests_keeps (hindexed : Indexed entries) (hkeeps : Keeps entries asked M)
    (tests : List Entry)
    (htests : ∀ t ∈ tests, t ∈ entries ∧ asked t ∧ ∀ w ∈ entries, w.Feeds t → asked w)
    (hp : Consistent entries [] p) (hM : M [] p) :
    After entries [] M p (tests.foldl (Progress.settleTest entries) p) ∧
      ∀ t ∈ tests, (tests.foldl (Progress.settleTest entries) p).isDone t = true :=
  foldl_keeps (fun t p => p.isDone t = true) tests
    (fun t ht _ hp hM => settleTest_keeps hindexed hkeeps hp hM (htests t ht).1 (htests t ht).2.1
      (htests t ht).2.2)
    (fun hgrown hdone => hgrown.done _ hdone) hp hM

theorem afterTests_keeps (hindexed : Indexed entries)
    (hkeeps : Keeps entries (fun _ => True) M)
    (hp : Consistent entries [] (afterGuards entries)) (hM : M [] (afterGuards entries)) :
    After entries [] M (afterGuards entries) (afterTests entries) ∧
      ∀ e ∈ entries, e.phase = .test → (afterTests entries).isDone e = true := by
  obtain ⟨hafter, hdone⟩ := settleTests_keeps hindexed hkeeps (entries.filter (·.phase = .test))
    (fun t ht => ⟨List.mem_of_mem_filter ht, trivial, fun _ _ _ => trivial⟩) hp hM
  exact ⟨hafter, fun e he hphase => hdone e (List.mem_filter.mpr ⟨he, by simp [hphase]⟩)⟩

theorem settleAll_keeps (hindexed : Indexed entries) (hkeeps : Keeps entries asked M)
    (which : Entry → Bool) (hasked : ∀ e ∈ entries, which e = true → asked e)
    (hp : Consistent entries [] p) (hM : M [] p) :
    After entries [] M p ((entries.filter which).foldl (Progress.settle entries) p) ∧
      ∀ e ∈ entries, which e = true →
        ((entries.filter which).foldl (Progress.settle entries) p).isDone e = true := by
  obtain ⟨hafter, hdone⟩ := foldl_keeps (fun e p => p.isDone e = true)
    (entries.filter which)
    (fun e he _ hp hM => settle_keeps hindexed hkeeps hp hM (List.mem_of_mem_filter he)
      (hasked e (List.mem_of_mem_filter he) (List.mem_filter.mp he).2))
    (fun hgrown hdone => hgrown.done _ hdone) hp hM
  exact ⟨hafter, fun e he hwhich => hdone e (List.mem_filter.mpr ⟨he, hwhich⟩)⟩

/-- From the tests on, the loops together mark every entry. -/
theorem afterAll_of_afterTests (hindexed : Indexed entries)
    (hkeeps : Keeps entries (fun _ => True) M)
    (hp : Consistent entries [] (afterTests entries)) (hM : M [] (afterTests entries))
    (htests : ∀ e ∈ entries, e.phase = .test → (afterTests entries).isDone e = true) :
    After entries [] M (afterTests entries) (afterAll entries) ∧
      ∀ e ∈ entries, (afterAll entries).isDone e = true := by
  obtain ⟨hcomputing, hcomputed⟩ := settleAll_keeps hindexed hkeeps (computes entries)
    (fun _ _ _ => trivial) hp hM
  obtain ⟨henumerating, henumerated⟩ := settleAll_keeps hindexed hkeeps
    (fun e => decide (e.phase = .assume)) (fun _ _ _ => trivial) hcomputing.consistent
    hcomputing.kept
  obtain ⟨hrest, hothers⟩ := settleAll_keeps hindexed hkeeps
    (fun e => decide (e.phase = .other)) (fun _ _ _ => trivial) henumerating.consistent
    henumerating.kept
  refine ⟨⟨hrest.consistent, hrest.kept,
    hcomputing.grown.trans (henumerating.grown.trans hrest.grown)⟩, fun e he => ?_⟩
  cases hphase : e.phase with
  | assume => exact hrest.grown.done e (henumerated e he (by simp [hphase]))
  | compute =>
    exact hrest.grown.done e
      (henumerating.grown.done e (hcomputed e he (by simp [computes, hphase])))
  | test =>
    exact hrest.grown.done e (henumerating.grown.done e (hcomputing.grown.done e
      (htests e he hphase)))
  | other => exact hothers e he (by simp [hphase])

/-- **The ordering keeps what marking and placing keep**, and marks every entry. -/
theorem order_keeps (hnodup : (entries.map (·.index)).Nodup) (hstart : M [] {})
    (hguard : ∀ {p e}, e ∈ entries → e.guard = true → Consistent entries [] p → M [] p →
      p.isDone e = false → M [] (p.place e))
    (hkeeps : Keeps entries (fun _ => True) M) :
    Consistent entries [] (afterAll entries) ∧ M [] (afterAll entries) ∧
      ∀ e ∈ entries, (afterAll entries).isDone e = true := by
  have hindexed := indexed_of_nodup hnodup
  obtain ⟨hp, hM⟩ := afterGuards_keeps hnodup hstart hguard
  obtain ⟨htests, htested⟩ := afterTests_keeps hindexed hkeeps hp hM
  obtain ⟨hall, hdone⟩ :=
    afterAll_of_afterTests hindexed hkeeps htests.consistent htests.kept htested
  exact ⟨hall.consistent, hall.kept, hdone⟩

end Loops

/-- **Every entry is placed exactly once.** -/
theorem order_perm (hnodup : (entries.map (·.index)).Nodup) : (order entries).Perm entries := by
  obtain ⟨hp, -, hdone⟩ := order_keeps hnodup trivial (fun _ _ _ _ _ => trivial)
    (keeps_trivial entries)
  have hdistinct : (order entries).Nodup := by simpa [order_eq] using hp.distinct
  refine (List.perm_ext_iff_of_nodup hdistinct (hnodup.of_map _)).mpr fun e => ?_
  constructor
  · intro he
    exact hp.known e (List.mem_append_left _ he)
  · intro he
    simpa [order_eq] using (hp.marked e he).mp (hdone e he)

end CandidateSearch.Schedule
