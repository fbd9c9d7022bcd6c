/-
  CandidateSearch/Proofs/Schedule/BeforeTests.lean
  ================================================
  **What stands in front of a test.**

  Tests are placed in the order of the source, each with what it brings along: the
  statements that provide what it reads, what these read, and so on.  A constraint is a
  test and at the same time a writer, but it is never brought along by its readers.  So

      test(Fits_constraint);   Fits_constraint = X < 3;

  keeps its order although the test reads what the constraint writes.

  Where every variable has one writer and nothing depends on itself, exactly that much
  stands in front of a test: what the tests up to it in the source bring along
  (`mem_before_test_iff`).  Hence a constraint comes before all its readers if and only if
  no test up to it brings one of them along.
-/
import CandidateSearch.Proofs.Schedule.WriteBeforeRead

namespace CandidateSearch.Schedule

open Relation (TransGen ReflTransGen)
open Resolved (Stmt)

variable {entries : List Entry} {p q : Progress} {c e t w x : Entry}

/-! ### What an entry brings along -/

/-- Placing `e` brings `w` along: `w` provides a variable that `e` reads, or `e` is a test
    and `w` calculates the variable that it is about. -/
def Entry.Brings (e w : Entry) : Prop :=
  (w.Provides ∧ e.DependsOn w) ∨ (e.phase = .test ∧ w.Feeds e)

def BringsAmong (entries : List Entry) (e w : Entry) : Prop :=
  e ∈ entries ∧ w ∈ entries ∧ e.Brings w

/-- All that placing an entry brings along, itself included. -/
abbrev Needs (entries : List Entry) : Entry → Entry → Prop := ReflTransGen (BringsAmong entries)

theorem not_brings_test (hw : w.phase = .test) : ¬ e.Brings w := by
  rintro (⟨hprovides | hprovides | hprovides, -⟩ | ⟨-, hcompute, -⟩)
  · simp [hw] at hprovides
  · simp [hw] at hprovides
  · simp [hw] at hprovides
  · simp [hw] at hcompute

theorem eq_of_needs_test (h : Needs entries e w) (hw : w.phase = .test) : e = w := by
  cases h with
  | refl => rfl
  | tail _ hlast => exact absurd hlast.2.2 (not_brings_test hw)

/-- Only what the given entries need is placed or on the stack. -/
def Needed (entries : List Entry) (asked : Entry → Prop) (stack : List Entry)
    (p : Progress) : Prop :=
  ∀ x ∈ p.order ++ stack, ∃ t, asked t ∧ Needs entries t x

theorem Needed.mono {asked asked' : Entry → Prop} {stack : List Entry}
    (h : Needed entries asked stack p) (hle : ∀ t, asked t → asked' t) :
    Needed entries asked' stack p := by
  intro x hx
  obtain ⟨t, ht, hneeds⟩ := h x hx
  exact ⟨t, hle t ht, hneeds⟩

theorem keeps_needed (entries : List Entry) (asked : Entry → Prop) :
    Keeps entries (fun e => ∃ t, asked t ∧ Needs entries t e) (Needed entries asked) where
  begin := by
    intro stack p e hp h he _ hwanted x hx
    rcases List.mem_cons.mp (List.perm_middle.mem_iff.mp hx) with rfl | hx
    · cases stack with
      | nil => exact hwanted
      | cons top rest =>
        obtain ⟨t, ht, hneeds⟩ := h top (by simp)
        have hbrings : BringsAmong entries top x :=
          ⟨hp.known top (by simp), he, Or.inl hwanted⟩
        exact ⟨t, ht, hneeds.tail hbrings⟩
    · exact h x hx
  emit := by
    intro stack p e _ h _ x hx
    exact h x (by simpa using hx)

/-! ### One test -/

def Single (entries : List Entry) : Prop :=
  ∀ a ∈ entries, ∀ b ∈ entries, ∀ name ∈ a.writes, name ∈ b.writes → a = b

/-- After the calculation that feeds a test nothing more can feed it. -/
theorem isDone_of_feeds (hindexed : Indexed entries) (hsingle : Single entries)
    (hp : Consistent entries [] p) (hw : w ∈ entries) (hfeeds : w.Feeds e) :
    (p.settleFeeding entries e).isDone w = true := by
  obtain ⟨hphase, name, htarget, hname⟩ := hfeeds
  unfold Progress.settleFeeding
  rw [htarget, Option.bind_some]
  split
  · rename_i a ha
    obtain ⟨hmem, -, -, hwrites⟩ := writer?_eq_some ha
    obtain rfl := hsingle a hmem w hw name hwrites hname
    exact (settle_keeps hindexed (keeps_trivial entries) hp trivial hmem trivial).2
  · rename_i hnone
    exact isDone_of_writer?_eq_none hnone hw (by simp [hphase]) hname

/-- An entry that is not marked is placed last of all that it brings along. -/
theorem order_settle_eq_concat (he : e ∈ entries) (hdone : p.isDone e = false) :
    ∃ before, (p.settle entries e).order = before ++ [e] := by
  obtain ⟨n, hn⟩ : ∃ n, entries.length = n + 1 :=
    Nat.exists_eq_succ_of_ne_zero (List.length_pos_of_mem he).ne'
  rw [Progress.settle, hn, resolve_succ]
  simp only [hdone, Bool.false_eq_true, if_false, order_emit]
  exact ⟨_, rfl⟩

theorem isDone_eq_false (hp : Consistent entries [] p) (he : e ∈ entries) (hnot : e ∉ p.order) :
    p.isDone e = false := by
  have hnotDone : ¬ p.isDone e = true := fun hdone =>
    hnot (by simpa using (hp.marked e he).mp hdone)
  simpa using hnotDone

/-! ### The loop over the tests -/

theorem afterGuards_eq (hguards : ∀ e ∈ entries, e.guard = false) : afterGuards entries = {} := by
  have hnone : entries.filter (·.guard) = [] :=
    List.filter_eq_nil_iff.mpr fun e he => by simp [hguards e he]
  simp [afterGuards, hnone]

/-- The progress after some tests: they are placed, with what feeds them, and nothing but
    what they need is. -/
theorem foldl_settleTest (hindexed : Indexed entries) (hsingle : Single entries)
    {tests : List Entry} (htests : ∀ t ∈ tests, t ∈ entries ∧ t.phase = .test) :
    After entries [] (Needed entries (· ∈ tests)) {}
        (tests.foldl (Progress.settleTest entries) {}) ∧
      ∀ t ∈ tests, (tests.foldl (Progress.settleTest entries) {}).isDone t = true ∧
        ∀ w ∈ entries, w.Feeds t →
          (tests.foldl (Progress.settleTest entries) {}).isDone w = true := by
  refine foldl_keeps
    (fun t p => p.isDone t = true ∧ ∀ w ∈ entries, w.Feeds t → p.isDone w = true)
    tests (fun t ht p hp hM => ?_) ?_ (Consistent.start entries) (by intro x hx; simp at hx)
  · obtain ⟨hmem, hphase⟩ := htests t ht
    have hkeeps := keeps_needed entries (· ∈ tests)
    have hfeeding : ∀ w ∈ entries, w.Feeds t → ∃ s, s ∈ tests ∧ Needs entries s w :=
      fun w hw hfeeds => ⟨t, ht, ReflTransGen.single ⟨hmem, hw, Or.inr ⟨hphase, hfeeds⟩⟩⟩
    obtain ⟨hafter, hdone⟩ := settleTest_keeps hindexed hkeeps hp hM hmem
      ⟨t, ht, ReflTransGen.refl⟩ hfeeding
    refine ⟨hafter, hdone, fun w hw hfeeds => ?_⟩
    have hfed := settleFeeding_keeps hindexed hkeeps hp hM hfeeding
    have hsettled := settle_keeps hindexed hkeeps hfed.consistent hfed.kept hmem
      ⟨t, ht, ReflTransGen.refl⟩
    rw [settleTest_eq]
    exact hsettled.1.grown.done w (isDone_of_feeds hindexed hsingle hp hw hfeeds)
  · rintro t p q hgrown ⟨hdone, hfed⟩
    exact ⟨hgrown.done t hdone, fun w hw hfeeds => hgrown.done w (hfed w hw hfeeds)⟩

/-- A test is not marked before its turn, nor by what feeds it. -/
theorem isDone_test_eq_false (hindexed : Indexed entries) {tests : List Entry}
    (hp : Consistent entries [] p) (hneeded : Needed entries (· ∈ tests) [] p)
    (hc : c ∈ entries) (hphase : c.phase = .test) (hnew : c ∉ tests) :
    (p.settleFeeding entries c).isDone c = false := by
  have hfed := settleFeeding_keeps (e := c) hindexed
    (keeps_needed entries fun t => t ∈ tests ∨ t.Feeds c) hp
    (hneeded.mono fun _ => Or.inl) fun w _ hfeeds => ⟨w, Or.inr hfeeds, ReflTransGen.refl⟩
  refine isDone_eq_false hfed.consistent hc fun hplaced => ?_
  obtain ⟨t, ht, hneeds⟩ := hfed.kept c (List.mem_append_left _ hplaced)
  obtain rfl := eq_of_needs_test hneeds hphase
  rcases ht with ht | ⟨hcompute, -⟩
  · exact hnew ht
  · simp [hphase] at hcompute

/-- What follows the round of a test only adds to the order. -/
theorem grown_afterAll (hindexed : Indexed entries) (hguards : ∀ e ∈ entries, e.guard = false)
    {tests later : List Entry} (hsplit : entries.filter (·.phase = .test) = tests ++ later)
    (hp : Consistent entries [] (tests.foldl (Progress.settleTest entries) {})) :
    Grown (tests.foldl (Progress.settleTest entries) {}) (afterAll entries) := by
  have htrivial := keeps_trivial entries
  have hstart : Consistent entries [] (afterGuards entries) := by
    rw [afterGuards_eq hguards]
    exact Consistent.start entries
  obtain ⟨htests, hdone⟩ := afterTests_keeps hindexed htrivial hstart trivial
  have hall := (afterAll_of_afterTests hindexed htrivial htests.consistent trivial hdone).1
  have heq : afterTests entries =
      later.foldl (Progress.settleTest entries)
        (tests.foldl (Progress.settleTest entries) {}) := by
    rw [afterTests, hsplit, List.foldl_append, afterGuards_eq hguards]
  have hlater : ∀ t ∈ later, t ∈ entries := fun t ht =>
    List.mem_of_mem_filter (hsplit ▸ List.mem_append_right tests ht)
  have hrest := (foldl_keeps (fun _ _ => True) later
    (fun t ht _ hp hM => ⟨(settleTest_keeps hindexed htrivial hp hM (hlater t ht) trivial
      fun _ _ _ => trivial).1, trivial⟩) (fun _ _ => trivial) hp trivial).1.grown
  rw [← heq] at hrest
  exact hrest.trans hall.grown

/-- The order around a test, told by the tests up to it. -/
theorem order_eq_append_test (hnodup : (entries.map (·.index)).Nodup)
    (hguards : ∀ e ∈ entries, e.guard = false) (hsingle : Single entries)
    {first last : List Entry} (hentries : entries = first ++ c :: last)
    (hphase : c.phase = .test) :
    ∃ before after, order entries = before ++ c :: after ∧
      (∀ x ∈ before, ∃ t ∈ first.filter (·.phase = .test) ++ [c], Needs entries t x) ∧
      ∀ t ∈ first.filter (·.phase = .test) ++ [c], t ∈ before ++ [c] ∧
        ∀ w ∈ entries, w.Feeds t → w ∈ before ++ [c] := by
  have hindexed := indexed_of_nodup hnodup
  have hc : c ∈ entries := by simp [hentries]
  have hsplit : entries.filter (·.phase = .test) =
      (first.filter (·.phase = .test) ++ [c]) ++ last.filter (·.phase = .test) := by
    rw [hentries]
    simp [hphase]
  have htests : ∀ t ∈ first.filter (·.phase = .test) ++ [c], t ∈ entries ∧ t.phase = .test := by
    intro t ht
    have hmem : t ∈ entries.filter (·.phase = .test) := by
      rw [hsplit]
      exact List.mem_append_left _ ht
    simpa using hmem
  have hnew : c ∉ first.filter (·.phase = .test) := by
    intro hmem
    have hdistinct : (first ++ c :: last).Nodup := hentries ▸ hnodup.of_map _
    exact (List.nodup_append.mp hdistinct).2.2 c (List.mem_of_mem_filter hmem) c (by simp) rfl
  -- the tests before `c`, then `c` itself
  obtain ⟨hprevious, -⟩ := foldl_settleTest hindexed hsingle fun t ht =>
    htests t (List.mem_append_left _ ht)
  obtain ⟨hround, hreached⟩ := foldl_settleTest hindexed hsingle htests
  have hnotYet := isDone_test_eq_false hindexed hprevious.consistent hprevious.kept hc hphase hnew
  obtain ⟨before, hbefore⟩ := order_settle_eq_concat hc hnotYet
  rw [← settleTest_eq] at hbefore
  have hfold : (first.filter (·.phase = .test) ++ [c]).foldl (Progress.settleTest entries) {} =
      ((first.filter (·.phase = .test)).foldl (Progress.settleTest entries) {}).settleTest
        entries c := by
    rw [List.foldl_append]
    rfl
  rw [← hfold] at hbefore
  obtain ⟨after, hafter⟩ := (grown_afterAll hindexed hguards hsplit hround.consistent).order
  have hplaced : ∀ x ∈ entries,
      ((first.filter (·.phase = .test) ++ [c]).foldl (Progress.settleTest entries) {}).isDone x
        = true → x ∈ before ++ [c] := by
    intro x hx hdone
    have hmem := (hround.consistent.marked x hx).mp hdone
    rwa [List.append_nil, hbefore] at hmem
  refine ⟨before, after, ?_, fun x hx => ?_, fun t ht => ?_⟩
  · rw [order_eq, ← hafter, hbefore]
    simp
  · refine hround.kept x ?_
    rw [List.append_nil, hbefore]
    exact List.mem_append_left _ hx
  · exact ⟨hplaced t (htests t ht).1 (hreached t ht).1,
      fun w hw hfeeds => hplaced w hw ((hreached t ht).2 w hw hfeeds)⟩

/-- **What stands in front of a test** is what the tests up to it bring along. -/
theorem mem_before_test_iff (hnodup : (entries.map (·.index)).Nodup)
    (hguards : ∀ e ∈ entries, e.guard = false) (hsingle : Single entries)
    (hacyclic : ∀ e, ¬ TransGen (DependsAmong entries) e e)
    {first last : List Entry} (hentries : entries = first ++ c :: last)
    (hphase : c.phase = .test) :
    ∃ before after, order entries = before ++ c :: after ∧
      ∀ x, x ∈ before ↔
        x ≠ c ∧ ∃ t ∈ first.filter (·.phase = .test) ++ [c], Needs entries t x := by
  obtain ⟨before, after, horder, hsound, hreached⟩ :=
    order_eq_append_test hnodup hguards hsingle hentries hphase
  have hperm := order_perm hnodup
  have hdistinct : (before ++ c :: after).Nodup :=
    horder ▸ hperm.nodup_iff.mpr (hnodup.of_map _)
  have hprovided := provided_order hnodup hguards hacyclic
  -- what is in front of the test, with the test, is closed under bringing along
  have hclosed : ∀ y ∈ before ++ [c], ∀ x, BringsAmong entries y x → x ∈ before ++ [c] := by
    rintro y hy x ⟨-, hx, ⟨hprovides, name, hread, hwrite⟩ | ⟨htest, hfeeds⟩⟩
    · obtain ⟨front, rest, hsplit⟩ := List.append_of_mem hy
      have hat : order entries = front ++ y :: (rest ++ after) := by
        calc order entries = (before ++ [c]) ++ after := by simp [horder]
          _ = front ++ y :: (rest ++ after) := by simp [hsplit]
      obtain ⟨w, hw, hwrites⟩ := hprovided front y _ hat name hread ⟨x, hx, hprovides, hwrite⟩
      have hwmem : w ∈ entries := hperm.mem_iff.mp (by simp [hat, hw])
      obtain rfl := hsingle w hwmem x hx name hwrites hwrite
      rw [hsplit]
      exact List.mem_append_left _ hw
    · refine (hreached y ?_).2 x hx hfeeds
      rcases List.mem_append.mp hy with hy | hy
      · obtain ⟨t, ht, hneeds⟩ := hsound y hy
        rwa [eq_of_needs_test hneeds htest] at ht
      · exact List.mem_append_right _ hy
  refine ⟨before, after, horder, fun x => ⟨fun hx => ⟨?_, hsound x hx⟩, ?_⟩⟩
  · rintro rfl
    exact (List.nodup_append.mp hdistinct).2.2 x hx x (by simp) rfl
  · rintro ⟨hne, t, ht, hneeds⟩
    have hmem : x ∈ before ++ [c] := by
      clear hne
      induction hneeds with
      | refl => exact (hreached t ht).1
      | tail _ hlast ih => exact hclosed _ ih _ hlast
    simpa [hne] using hmem

/-! ### Statements -/

/-- The statement reads a variable that the other one writes, be it an input. -/
def ReadsFrom (s t : Stmt) : Prop := ∃ v ∈ s.reads, t.Binds v.name

def SingleWriters (stmts : List Stmt) : Prop :=
  stmts.Pairwise fun s t => ∀ name, s.Binds name → ¬ t.Binds name

/-- Placing a statement brings another one along: one that is no test and writes what it
    reads, or, if it is a test, a calculation of the variable that it is about. -/
def BringsIn (stmts : List Stmt) (s t : Stmt) : Prop :=
  s ∈ stmts ∧ t ∈ stmts ∧
    ((phaseOf t ≠ .test ∧ s.DependsOn t) ∨
      (phaseOf s = .test ∧ phaseOf t = .compute ∧ ∃ name, targetOf s = some name ∧ t.Binds name))

/-- The binding that a statement produces or checks is one that it reads or writes. -/
theorem reads_or_binds_of_targetOf {s : Stmt} {name : String}
    (h : targetOf s = some name) : (∃ v ∈ s.reads, v.name = name) ∨ s.Binds name := by
  have htarget : ∀ target : Resolved.Target, target.name? = some name →
      ∃ v ∈ target.vars, v.name = name := by
    intro target hname
    obtain ⟨v, hv, rfl⟩ := Option.map_eq_some_iff.mp hname
    exact ⟨v, List.mem_of_head? hv, rfl⟩
  obtain ⟨action, span⟩ := s
  cases action with
  | range target first last step => exact Or.inr ⟨target, by simp [Stmt.writes], by
      simpa [targetOf] using h⟩
  | assign target value => exact Or.inr (htarget target h)
  | select target list => exact Or.inr (htarget target h)
  | cases target arms => exact Or.inr (htarget target h)
  | test condition =>
    left
    simp only [targetOf] at h
    cases hread : (readNames ⟨.test condition, span⟩).head? with
    | some first =>
      rw [hread] at h
      obtain rfl : first = name := Option.some.inj h
      obtain ⟨v, hv, -, hname⟩ := mem_readNames.mp (List.mem_of_head? hread)
      exact ⟨v, hv, hname⟩
    | none =>
      rw [hread] at h
      obtain ⟨v, hv, rfl⟩ := Option.map_eq_some_iff.mp h
      exact ⟨v, List.mem_of_head? hv, rfl⟩
  | guard condition => cases h
  | call callee inputs outputs => cases h
  | malformed => cases h

theorem provides_classify {s : Stmt} (hguard : s.isGuard = false) (i : Nat) :
    (classify i s).Provides ↔ phaseOf s ≠ .test := by
  show (phaseOf s = .assume ∨ phaseOf s = .compute ∨ (phaseOf s = .other ∧ s.isGuard = false)) ↔ _
  cases hphase : phaseOf s <;> simp [hguard]

theorem brings_classify {stmts : List Stmt} (hguards : ∀ s ∈ stmts, s.isGuard = false)
    {e w : Entry} (he : e ∈ classifyAll stmts) (hw : w ∈ classifyAll stmts) :
    BringsAmong (classifyAll stmts) e w ↔ BringsIn stmts e.stmt w.stmt := by
  obtain ⟨hestmt, hecls⟩ := eq_classify he
  obtain ⟨hwstmt, hwcls⟩ := eq_classify hw
  have hprovides : w.Provides ↔ phaseOf w.stmt ≠ .test := by
    rw [hwcls]
    exact provides_classify (hguards _ hwstmt) _
  have hdepends : e.DependsOn w ↔ e.stmt.DependsOn w.stmt := by
    rw [hecls, hwcls]
    exact dependsOn_classify
  have hfeeds : e.phase = .test ∧ w.Feeds e ↔ phaseOf e.stmt = .test ∧
      phaseOf w.stmt = .compute ∧ ∃ name, targetOf e.stmt = some name ∧ w.stmt.Binds name := by
    rw [hecls, hwcls]
    simp only [Entry.Feeds, classify, mem_writeNames]
  simp only [BringsAmong, BringsIn, Entry.Brings, he, hw, hestmt, hwstmt, true_and, hprovides,
    hdepends, hfeeds]

theorem needs_iff {stmts : List Stmt} (hguards : ∀ s ∈ stmts, s.isGuard = false)
    {e : Entry} (he : e ∈ classifyAll stmts) (r : Stmt) :
    ReflTransGen (BringsIn stmts) e.stmt r ↔
      ∃ x, x ∈ classifyAll stmts ∧ x.stmt = r ∧ Needs (classifyAll stmts) e x := by
  constructor
  · intro h
    induction h with
    | refl => exact ⟨e, he, rfl, ReflTransGen.refl⟩
    | tail _ hlast ih =>
      obtain ⟨x, hx, rfl, hneeds⟩ := ih
      obtain ⟨i, hi⟩ := List.getElem?_of_mem hlast.2.1
      have hnext : classify i _ ∈ classifyAll stmts := mem_classifyAll.mpr ⟨i, _, hi, rfl⟩
      exact ⟨_, hnext, rfl, hneeds.tail ((brings_classify hguards hx hnext).mpr hlast)⟩
  · rintro ⟨x, -, rfl, hneeds⟩
    exact hneeds.lift (·.stmt) fun a b hab =>
      (brings_classify hguards hab.1 hab.2.1).mp hab

theorem single_classifyAll {stmts : List Stmt} (h : SingleWriters stmts) :
    Single (classifyAll stmts) := by
  intro a ha b hb name hna hnb
  obtain ⟨i, s, hi, rfl⟩ := mem_classifyAll.mp ha
  obtain ⟨j, t, hj, rfl⟩ := mem_classifyAll.mp hb
  obtain ⟨hilt, rfl⟩ := List.getElem?_eq_some_iff.mp hi
  obtain ⟨hjlt, rfl⟩ := List.getElem?_eq_some_iff.mp hj
  have hs := mem_writeNames.mp hna
  have ht := mem_writeNames.mp hnb
  rcases Nat.lt_trichotomy i j with hlt | rfl | hlt
  · exact absurd ht (List.pairwise_iff_getElem.mp h i j hilt hjlt hlt name hs)
  · rfl
  · exact absurd hs (List.pairwise_iff_getElem.mp h j i hjlt hilt hlt name ht)

theorem exists_binds_of_isConstraint {s : Stmt} (h : s.isConstraint = true) :
    ∃ name, s.Binds name := by
  unfold Stmt.isConstraint at h
  split at h
  · rename_i target value haction
    cases hname : target.name? with
    | none => simp [hname] at h
    | some name =>
      obtain ⟨v, hv, rfl⟩ := Option.map_eq_some_iff.mp hname
      exact ⟨v.name, v, by simpa [Stmt.writes, haction] using List.mem_of_head? hv, rfl⟩
  · cases h

theorem phaseOf_of_isConstraint {s : Stmt} (h : s.isConstraint = true) : phaseOf s = .test := by
  unfold phaseOf
  cases haction : s.action <;> simp_all [Stmt.isConstraint]

/-- Only a constraint's own entry has its statement, as it binds a variable. -/
theorem eq_of_stmt_eq_constraint {stmts : List Stmt} (hsingle : SingleWriters stmts) {c : Stmt}
    (hconstraint : c.isConstraint = true) {i : Nat} (hc : classify i c ∈ classifyAll stmts)
    {x : Entry} (hx : x ∈ classifyAll stmts) (heq : x.stmt = c) : x = classify i c := by
  obtain ⟨name, hbinds⟩ := exists_binds_of_isConstraint hconstraint
  have hname : ∀ i, name ∈ (classify i c).writes := fun _ => mem_writeNames.mpr hbinds
  refine single_classifyAll hsingle x hx _ hc name ?_ (hname _)
  rw [(eq_classify hx).2, heq]
  exact hname _

/-- **When a constraint comes before its readers.**  In a list without guards and malformed
    statements in which each variable has one writer at most and nothing depends on
    itself, a constraint stands in the schedule before every other statement that reads a
    variable it writes if and only if no such reader is brought along by the constraint
    or by a test that stands before it in the source. -/
theorem constraint_before_readers_iff {before after : List Stmt} {c : Stmt}
    (hguards : ∀ s ∈ before ++ c :: after, s.isGuard = false)
    (hformed : ∀ s ∈ before ++ c :: after, s.isMalformed = false)
    (hsingle : SingleWriters (before ++ c :: after)) (hacyclic : Acyclic (before ++ c :: after))
    (hconstraint : c.isConstraint = true) :
    ∃ blocks front rest, schedule (before ++ c :: after) = .ok blocks ∧
      flatten blocks = front ++ c :: rest ∧
      (front ++ c :: rest).Perm (before ++ c :: after) ∧
      ((∀ r ∈ front, ¬ ReadsFrom r c) ↔
        ∀ t ∈ before ++ [c], phaseOf t = .test → ∀ r, r ≠ c →
          ReflTransGen (BringsIn (before ++ c :: after)) t r → ¬ ReadsFrom r c) := by
  obtain ⟨first, last, hentries, hfirst, -, -, -⟩ := classifyAll_eq_append before after c
  have hphase : (classify before.length c).phase = .test := phaseOf_of_isConstraint hconstraint
  have hcmem : classify before.length c ∈ classifyAll (before ++ c :: after) := by simp [hentries]
  obtain ⟨front, rest, horder, hfront⟩ :=
    mem_before_test_iff (nodup_index_classifyAll _)
      (fun e he => by rw [(eq_classify he).2]; exact hguards _ (eq_classify he).1)
      (single_classifyAll hsingle) (not_transGen_of_acyclic hacyclic) hentries hphase
  have hschedule := schedule_eq_ok hformed
  have hflatten : flatten ((groups (order (classifyAll (before ++ c :: after)))).map Group.block) =
      front.map (·.stmt) ++ c :: rest.map (·.stmt) := by
    rw [flatten_blocks, horder]
    simp [classify]
  have htests : ∀ t, t ∈ first.filter (·.phase = .test) ++ [classify before.length c] ↔
      t ∈ first ++ [classify before.length c] ∧ t.phase = .test := by
    have hfilter : first.filter (·.phase = .test) ++ [classify before.length c] =
        (first ++ [classify before.length c]).filter (·.phase = .test) := by
      simp [hphase]
    intro t
    rw [hfilter, List.mem_filter, decide_eq_true_eq]
  have hupTo : ∀ t ∈ first ++ [classify before.length c],
      t ∈ classifyAll (before ++ c :: after) := by
    intro t ht
    rw [hentries]
    rcases List.mem_append.mp ht with ht | ht
    · exact List.mem_append_left _ ht
    · simp [List.mem_singleton.mp ht]
  have hstmts : (first ++ [classify before.length c]).map (·.stmt) = before ++ [c] := by
    simp [hfirst, classify]
  refine ⟨_, front.map (·.stmt), rest.map (·.stmt), hschedule, hflatten,
    hflatten ▸ flatten_perm hschedule, ?_⟩
  constructor
  · intro h t ht htest r hne hneeds
    rw [← hstmts] at ht
    obtain ⟨e, he, rfl⟩ := List.mem_map.mp ht
    obtain ⟨x, hx, rfl, hx'⟩ := (needs_iff hguards (hupTo e he) r).mp hneeds
    refine h x.stmt (List.mem_map_of_mem ((hfront x).mpr ⟨fun heq => hne (heq ▸ rfl), e, ?_, hx'⟩))
    refine (htests e).mpr ⟨he, ?_⟩
    rw [(eq_classify (hupTo e he)).2]
    exact htest
  · intro h r hr
    obtain ⟨x, hx, rfl⟩ := List.mem_map.mp hr
    obtain ⟨hne, e, he, hneeds⟩ := (hfront x).mp hx
    obtain ⟨he, htest⟩ := (htests e).mp he
    have hxmem : x ∈ classifyAll (before ++ c :: after) :=
      (order_perm (nodup_index_classifyAll _)).mem_iff.mp (by simp [horder, hx])
    have hother : x.stmt ≠ c := fun heq =>
      hne (eq_of_stmt_eq_constraint hsingle hconstraint hcmem hxmem heq)
    refine h e.stmt ?_ ?_ x.stmt hother ?_
    · rw [← hstmts]
      exact List.mem_map_of_mem he
    · rw [(eq_classify (hupTo e he)).2] at htest
      exact htest
    · exact (needs_iff hguards (hupTo e he) x.stmt).mpr ⟨x, hxmem, rfl, hneeds⟩

/-- `test(Fits_constraint);` -/
def fitsTest : Stmt := { action := .test (.var ⟨"Fits_constraint", .bool, .outer 0, false⟩) }

/-- `Fits_constraint = true;` -/
def fitsConstraint : Stmt :=
  { action := .assign (.single ⟨"Fits_constraint", .bool, .outer 0, false⟩) (.bool true) }

/-- A test in front of the constraint that it reads stays there. -/
theorem constraint_before_readers_iff_fitsTest :
    ((∀ s ∈ [fitsTest] ++ fitsConstraint :: [], s.isGuard = false) ∧
      (∀ s ∈ [fitsTest] ++ fitsConstraint :: [], s.isMalformed = false) ∧
      SingleWriters ([fitsTest] ++ fitsConstraint :: []) ∧
      Acyclic ([fitsTest] ++ fitsConstraint :: []) ∧ fitsConstraint.isConstraint = true) ∧
    ∃ blocks front rest, schedule ([fitsTest] ++ fitsConstraint :: []) = .ok blocks ∧
      flatten blocks = front ++ fitsConstraint :: rest ∧
      (front ++ fitsConstraint :: rest).Perm ([fitsTest] ++ fitsConstraint :: []) ∧
      ∃ r ∈ front, ReadsFrom r fitsConstraint := by
  have hguards : ∀ s ∈ [fitsTest] ++ fitsConstraint :: [], s.isGuard = false := by decide
  have hformed : ∀ s ∈ [fitsTest] ++ fitsConstraint :: [], s.isMalformed = false := by decide
  have hsingle : SingleWriters ([fitsTest] ++ fitsConstraint :: []) := by
    simp [SingleWriters, fitsTest, fitsConstraint, Stmt.Binds, Stmt.writes]
  have hacyclic : Acyclic ([fitsTest] ++ fitsConstraint :: []) :=
    acyclic_of_rank (fun s => s.reads.length) (by
      simp [fitsTest, fitsConstraint, Stmt.DependsOn, Stmt.Binds, Stmt.reads, Stmt.writes,
        Resolved.Expr.reads, Resolved.Target.vars])
  have hconstraint : fitsConstraint.isConstraint = true := by decide
  have hreads : ReadsFrom fitsTest fitsConstraint := by
    simp [ReadsFrom, fitsTest, fitsConstraint, Stmt.Binds, Stmt.reads, Stmt.writes,
      Resolved.Expr.reads, Resolved.Target.vars]
  obtain ⟨blocks, front, rest, hschedule, hflatten, hperm, hiff⟩ :=
    constraint_before_readers_iff hguards hformed hsingle hacyclic hconstraint
  refine ⟨⟨hguards, hformed, hsingle, hacyclic, hconstraint⟩, blocks, front, rest, hschedule,
    hflatten, hperm, ?_⟩
  by_contra hnone
  refine hiff.mp (fun r hr hread => hnone ⟨r, hr, hread⟩) fitsTest (by simp) rfl fitsTest ?_
    ReflTransGen.refl hreads
  intro heq
  have hsame := congrArg Stmt.isConstraint heq
  exact absurd hsame (by decide)

end CandidateSearch.Schedule
