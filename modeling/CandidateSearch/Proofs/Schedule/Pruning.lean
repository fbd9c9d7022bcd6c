/-
  CandidateSearch/Proofs/Schedule/Pruning.lean
  ============================================
  **Tests come as early as they can, idle calls last.**

  A test rejects candidates, so each statement that stands in front of it without need
  makes work that the test could have saved.  An idle call is one whose results nobody
  reads:

      note(X);   X = for(0, 3, 1);   Y = for(0, 3, 1);   test(X < 2);   show(Y);

  is scheduled as `X`, the test, `Y`, `note(X)`, `show(Y)`.

  Two statements of a schedule stand in their order for a reason.  Tests keep the order of
  the source.  A statement stands before a test only if that test, or one that is earlier
  in the source, depends on it.  An idle call stands before nothing but later idle calls.

  All three are told by what the loops place.  The loop over the tests places what the
  tests need and nothing else (`Explained`), and up to the last loop no idle call is placed
  (`Busy`); the last loop then finds nothing missing for the calls that are left.
-/
import CandidateSearch.Proofs.Schedule.Loops

namespace CandidateSearch.Schedule

open Relation (TransGen ReflTransGen)
open Resolved (Stmt)

variable {entries : List Entry} {p q : Progress} {c e t w x : Entry}

/-! ### What the tests explain -/

/-- What is on the stack is needed by one of the given entries, and so is what has been
    placed, apart from guards, which are placed unasked. -/
def Explained (entries : List Entry) (asked : Entry → Prop) (stack : List Entry)
    (p : Progress) : Prop :=
  (∀ x ∈ stack, ∃ t, asked t ∧ Needs entries t x) ∧
    ∀ x ∈ p.order, x.guard = true ∨ ∃ t, asked t ∧ Needs entries t x

theorem keeps_explained (entries : List Entry) (asked : Entry → Prop) :
    Keeps entries (fun e => ∃ t, asked t ∧ Needs entries t e) (Explained entries asked) where
  begin := by
    intro stack p e hp h he _ hwanted
    constructor
    · intro x hx
      rcases List.mem_cons.mp hx with rfl | hx
      · cases stack with
        | nil => exact hwanted
        | cons top rest =>
          obtain ⟨t, ht, hneeds⟩ := h.1 top (by simp)
          have hbrings : BringsAmong entries top x :=
            ⟨hp.known top (by simp), he, Or.inl hwanted⟩
          exact ⟨t, ht, hneeds.tail hbrings⟩
      · exact h.1 x hx
    · exact h.2
  emit := by
    intro stack p e _ h _
    constructor
    · intro x hx
      exact h.1 x (List.mem_cons_of_mem e hx)
    · intro x hx
      rcases List.mem_append.mp hx with hx | hx
      · exact h.2 x hx
      · rw [List.mem_singleton.mp hx]
        exact Or.inr (h.1 e (by simp))

/-- To compare each entry of an order with those in front of it, it is enough to have a
    first part that holds the entry and can be compared with it as a whole. -/
theorem pairwise_of_prefix {ordered : List Entry} {R : Entry → Entry → Prop}
    (hnodup : ordered.Nodup)
    (h : ∀ c ∈ ordered, ∃ front, front <+: ordered ∧ c ∈ front ∧ ∀ x ∈ front, R x c) :
    ordered.Pairwise R := by
  rw [List.pairwise_iff_getElem]
  intro i j hi hj hlt
  obtain ⟨front, hfront, hmem, hall⟩ := h ordered[j] (List.getElem_mem hj)
  obtain ⟨k, hk, hget⟩ := List.getElem_of_mem hmem
  have hlength : j < front.length := by
    have hle : front.length ≤ ordered.length := hfront.length_le
    have hsame : ordered[k] = ordered[j] := by rw [← hfront.getElem hk, hget]
    rwa [← (List.Nodup.getElem_inj_iff hnodup).mp hsame]
  have hlength : i < front.length := hlt.trans hlength
  rw [← hfront.getElem hlength]
  exact hall _ (List.getElem_mem hlength)

/-- **What stands before a test** is a guard, or one of the tests up to it in the source
    needs it. -/
theorem pairwise_explained (hnodup : (entries.map (·.index)).Nodup)
    (hsorted : entries.Pairwise fun a b => a.index < b.index) :
    (order entries).Pairwise fun x c => c.phase = .test → x.guard = false →
      ∃ t ∈ entries, t.phase = .test ∧ t.index ≤ c.index ∧ Needs entries t x := by
  have hindexed := indexed_of_nodup hnodup
  apply pairwise_of_prefix (nodup_order hnodup)
  intro c hc
  by_cases hphase : c.phase = .test
  · -- the progress after the round of this test
    have hmem : c ∈ entries.filter (·.phase = .test) :=
      List.mem_filter.mpr ⟨(order_perm hnodup).mem_iff.mp hc, by simp [hphase]⟩
    obtain ⟨first, last, hsplit⟩ := List.append_of_mem hmem
    have hupTo : ∀ t ∈ first ++ [c], t ∈ entries ∧ t.phase = .test ∧ t.index ≤ c.index := by
      intro t ht
      have htest : t ∈ entries.filter (·.phase = .test) := by
        rw [hsplit]
        rcases List.mem_append.mp ht with ht | ht
        · exact List.mem_append_left _ ht
        · simp [List.mem_singleton.mp ht]
      have hle : t.index ≤ c.index := by
        rcases List.mem_append.mp ht with ht | ht
        · have hlt := hsorted.filter fun e => decide (e.phase = .test)
          rw [hsplit] at hlt
          exact ((List.pairwise_append.mp hlt).2.2 t ht c (by simp)).le
        · rw [List.mem_singleton.mp ht]
      exact ⟨(List.mem_filter.mp htest).1, by simpa using (List.mem_filter.mp htest).2, hle⟩
    have hstart : Explained entries (· ∈ first ++ [c]) [] (afterGuards entries) := by
      constructor
      · intro x hx
        cases hx
      · intro x hx
        rw [afterGuards, order_foldl_place] at hx
        exact Or.inl (by simpa using (List.mem_filter.mp hx).2)
    obtain ⟨hafter, hdone⟩ := settleTests_keeps hindexed
      (keeps_explained entries (· ∈ first ++ [c])) (first ++ [c])
      (fun t ht => ⟨(hupTo t ht).1, ⟨t, ht, ReflTransGen.refl⟩, fun w hw hfeeds =>
        ⟨t, ht, ReflTransGen.single ⟨(hupTo t ht).1, hw, Or.inr ⟨(hupTo t ht).2.1, hfeeds⟩⟩⟩⟩)
      (consistent_afterGuards hnodup) hstart
    refine ⟨_, ?_, mem_order_of_isDone hafter.consistent (hupTo c (by simp)).1
      (hdone c (by simp)), fun x hx _ hguard => ?_⟩
    · have hrest := (settleTests_keeps hindexed (keeps_trivial entries) last
        (fun t ht => ⟨List.mem_of_mem_filter (hsplit ▸ List.mem_append_right first
          (List.mem_cons_of_mem c ht)), trivial, fun _ _ _ => trivial⟩)
        hafter.consistent trivial).1.grown.order
      have htests : last.foldl (Progress.settleTest entries)
          ((first ++ [c]).foldl (Progress.settleTest entries) (afterGuards entries)) =
            afterTests entries := by
        rw [afterTests, hsplit, ← List.foldl_append, List.append_assoc, List.singleton_append]
      rw [htests] at hrest
      exact hrest.trans (prefix_afterTests hnodup)
    · rcases hafter.kept.2 x hx with hisGuard | ⟨t, ht, hneeds⟩
      · rw [hguard] at hisGuard
        cases hisGuard
      · obtain ⟨hentry, htest, hle⟩ := hupTo t ht
        exact ⟨t, hentry, htest, hle, hneeds⟩
  · exact ⟨order entries, List.prefix_rfl, hc, fun x _ htest => absurd htest hphase⟩

/-! ### Idle calls -/

/-- The entry is a call and nothing reads what it writes. -/
def idles (entries : List Entry) (e : Entry) : Bool :=
  e.phase == .other && !e.guard && !computes entries e

theorem idles_iff : idles entries e = true ↔
    e.phase = .other ∧ e.guard = false ∧ ∀ name ∈ e.writes, ∀ r ∈ entries, name ∉ r.reads := by
  unfold idles computes
  grind

/-- No idle call is placed or on the stack. -/
def Busy (entries stack : List Entry) (p : Progress) : Prop :=
  ∀ x ∈ p.order ++ stack, idles entries x = false

theorem keeps_busy (entries : List Entry) :
    Keeps entries (fun e => idles entries e = false) (Busy entries) where
  begin := by
    intro stack p e hp h he _ hwanted x hx
    rcases List.mem_cons.mp (List.perm_middle.mem_iff.mp hx) with rfl | hx
    · cases stack with
      | nil => exact hwanted
      | cons top rest =>
        obtain ⟨-, name, hread, hwrite⟩ := hwanted
        rw [Bool.eq_false_iff]
        intro hidle
        exact (idles_iff.mp hidle).2.2 name hwrite top (hp.known top (by simp)) hread
    · exact h x hx
  emit := by
    intro stack p e _ h _ x hx
    exact h x (by simpa using hx)

theorem idles_of_phase (hphase : e.phase ≠ .other) : idles entries e = false := by
  rw [Bool.eq_false_iff]
  exact fun hidle => hphase (idles_iff.mp hidle).1

theorem idles_of_computes (hcomputes : computes entries e = true) : idles entries e = false := by
  simp [idles, hcomputes]

/-- Up to the last loop no idle call is placed. -/
theorem busy_afterEnumerating (hnodup : (entries.map (·.index)).Nodup) :
    Busy entries [] (afterEnumerating entries) := by
  have hindexed := indexed_of_nodup hnodup
  have hkeeps := keeps_busy entries
  have hstart : Busy entries [] (afterGuards entries) := by
    intro x hx
    rw [afterGuards, List.append_nil, order_foldl_place] at hx
    have hguard : x.guard = true := by simpa using (List.mem_filter.mp hx).2
    simp [idles, hguard]
  have htests := (settleTests_keeps hindexed hkeeps (entries.filter (·.phase = .test))
    (fun t ht => ⟨List.mem_of_mem_filter ht,
      idles_of_phase (by simp [show t.phase = .test by simpa using (List.mem_filter.mp ht).2]),
      fun w _ hfeeds => idles_of_phase (by simp [hfeeds.1])⟩)
    (consistent_afterGuards hnodup) hstart).1
  have hcomputing := (settleAll_keeps hindexed hkeeps (computes entries)
    (fun e _ hcomputes => idles_of_computes hcomputes) htests.consistent htests.kept).1
  exact (settleAll_keeps hindexed hkeeps (fun e => decide (e.phase = .assume))
    (fun e _ hphase => idles_of_phase (by simp [of_decide_eq_true hphase]))
    hcomputing.consistent hcomputing.kept).1.kept

/-- Up to the last loop everything else is placed. -/
theorem isDone_afterEnumerating (hnodup : (entries.map (·.index)).Nodup) (he : e ∈ entries)
    (hbusy : idles entries e = false) : (afterEnumerating entries).isDone e = true := by
  obtain ⟨henumerating, henumerated⟩ := after_afterEnumerating hnodup
  obtain ⟨hcomputing, hcomputed⟩ := after_afterComputing hnodup
  obtain ⟨htesting, htested⟩ := after_afterTests hnodup
  have hlater : ∀ x, (afterTests entries).isDone x = true →
      (afterEnumerating entries).isDone x = true := fun x hx =>
    henumerating.grown.done x (hcomputing.grown.done x hx)
  by_cases hguard : e.guard = true
  · have hplaced : e ∈ (afterGuards entries).order := by
      rw [afterGuards, order_foldl_place]
      simp [he, hguard]
    exact hlater e (htesting.grown.done e
      (((consistent_afterGuards hnodup).marked e he).mpr (by simpa using hplaced)))
  · by_cases hcomputes : computes entries e = true
    · exact henumerating.grown.done e (hcomputed e he hcomputes)
    · cases hphase : e.phase with
      | assume => exact henumerated e he (by simp [hphase])
      | compute => exact absurd (by simp [computes, hphase]) hcomputes
      | test => exact hlater e (htested e he hphase)
      | other => simp [idles, hphase, hguard, hcomputes] at hbusy

/-- **Idle calls come last, in the order of the source.** -/
theorem order_eq_append_idle (hnodup : (entries.map (·.index)).Nodup) :
    order entries = (afterEnumerating entries).order ++ entries.filter (idles entries) := by
  have hconsistent := (after_afterEnumerating hnodup).1.consistent
  have hmarked : ∀ e ∈ entries, (afterEnumerating entries).isDone e = !idles entries e := by
    intro e he
    cases hidle : idles entries e with
    | false => exact isDone_afterEnumerating hnodup he hidle
    | true =>
      refine isDone_eq_false hconsistent he fun hplaced => ?_
      rw [busy_afterEnumerating hnodup e (by simpa using hplaced)] at hidle
      cases hidle
  -- nothing that an entry reads is left to be provided, as a reader makes a call busy
  have hready : ∀ e ∈ entries.filter (·.phase = .other), e ∈ entries ∧
      ∀ w ∈ entries, w.Provides → e.DependsOn w → (afterEnumerating entries).isDone w = true := by
    intro e he
    refine ⟨List.mem_of_mem_filter he, fun w hw _ hdepends => ?_⟩
    obtain ⟨name, hread, hwrite⟩ := hdepends
    apply isDone_afterEnumerating hnodup hw
    rw [Bool.eq_false_iff]
    intro hidle
    exact (idles_iff.mp hidle).2.2 name hwrite e (List.mem_of_mem_filter he) hread
  rw [order_eq, afterAll, order_foldl_settle_ready (indexed_of_nodup hnodup) _
    ((hnodup.of_map _).filter _) hconsistent hready, List.filter_filter]
  congr 1
  apply List.filter_congr
  intro e he
  rw [hmarked e he, Bool.not_not]
  cases hidle : idles entries e with
  | false => rfl
  | true => simp [(idles_iff.mp hidle).1]

theorem pairwise_idle (hnodup : (entries.map (·.index)).Nodup)
    (hsorted : entries.Pairwise fun a b => a.index < b.index) :
    (order entries).Pairwise fun x c => idles entries x = true →
      idles entries c = true ∧ x.index < c.index := by
  have hbusy : ∀ x ∈ (afterEnumerating entries).order, ¬ idles entries x = true := fun x hx =>
    Bool.eq_false_iff.mp (busy_afterEnumerating hnodup x (by simpa using hx))
  rw [order_eq_append_idle hnodup, List.pairwise_append]
  refine ⟨?_, ?_, fun x hx _ _ hidle => absurd hidle (hbusy x hx)⟩
  · exact List.pairwise_of_forall_mem_list fun x hx _ _ hidle => absurd hidle (hbusy x hx)
  · rw [List.pairwise_filter]
    exact hsorted.imp fun hlt _ hidle _ => ⟨hidle, hlt⟩

/-! ### Statements -/

/-- A test, or an assignment to a constraint. -/
def IsTest (s : Stmt) : Prop := (∃ condition, s.action = .test condition) ∨ s.isConstraint = true

theorem isTest_iff {s : Stmt} : IsTest s ↔ phaseOf s = .test := by
  constructor
  · rintro (⟨condition, haction⟩ | hconstraint)
    · simp [phaseOf, haction]
    · exact phaseOf_of_isConstraint hconstraint
  · intro hphase
    cases haction : s.action with
    | test condition => exact Or.inl ⟨condition, haction⟩
    | assign target value =>
      right
      by_contra hnot
      simp [phaseOf, haction, hnot] at hphase
    | _ => simp [phaseOf, haction] at hphase

/-- A call none of whose outputs is read by a statement of the list. -/
def IsIdle (stmts : List Stmt) (s : Stmt) : Prop :=
  (∃ callee inputs outputs, s.action = .call callee inputs outputs) ∧
    ∀ r ∈ stmts, ∀ v ∈ r.reads, ¬ s.Binds v.name

/-- No statement writes a variable that one of them reads as an input. -/
def KeepsInputs (stmts : List Stmt) : Prop :=
  ∀ s ∈ stmts, ∀ v ∈ s.reads, v.input = true → ∀ t ∈ stmts, ¬ t.Binds v.name

/-- The statement at a place of the source has a property. -/
def At (stmts : List Stmt) (property : Stmt → Prop) (place : Nat) : Prop :=
  ∃ s, stmts[place]? = some s ∧ property s

/-- The statement at the first place reads a variable that the one at the second writes. -/
def DependsAt (stmts : List Stmt) (i j : Nat) : Prop :=
  At stmts (fun s => At stmts s.DependsOn j) i

/-- Why the statement at place `i` of the source may be executed before that at `j`. -/
structure MayPrecede (stmts : List Stmt) (i j : Nat) : Prop where
  tests : At stmts IsTest i → At stmts IsTest j → i < j
  needed : At stmts (fun s => ¬ IsTest s ∧ s.isGuard = false) i → At stmts IsTest j →
    ∃ k ≤ j, At stmts IsTest k ∧ TransGen (DependsAt stmts) k i
  idle : At stmts (IsIdle stmts) i → At stmts (IsIdle stmts) j ∧ i < j

section Places

variable {stmts : List Stmt}

theorem at_index {property : Stmt → Prop} (he : e ∈ classifyAll stmts) :
    At stmts property e.index ↔ property e.stmt := by
  simp [At, getElem?_index he]

theorem phase_eq (he : e ∈ classifyAll stmts) : e.phase = phaseOf e.stmt := by
  rw [(eq_classify he).2]
  rfl

theorem guard_eq (he : e ∈ classifyAll stmts) : e.guard = e.stmt.isGuard := by
  rw [(eq_classify he).2]
  rfl

theorem sorted_classifyAll (stmts : List Stmt) :
    (classifyAll stmts).Pairwise fun a b => a.index < b.index := by
  have hsorted : ((classifyAll stmts).map (·.index)).Pairwise (· < ·) := by
    rw [map_index_classifyAll]
    exact List.pairwise_lt_range
  exact List.pairwise_map.mp hsorted

/-- With one writer for each variable and none for the inputs, the calculation that a test
    takes along is one that it depends on. -/
theorem dependsAmong_of_brings (hsingle : SingleWriters stmts) (hinputs : KeepsInputs stmts)
    (h : BringsAmong (classifyAll stmts) e w) : DependsAmong (classifyAll stmts) e w := by
  obtain ⟨he, hw, ⟨-, hdepends⟩ | ⟨htest, hcompute, name, htarget, hwrite⟩⟩ := h
  · exact ⟨he, hw, hdepends⟩
  · obtain ⟨hestmt, hecls⟩ := eq_classify he
    obtain ⟨hwstmt, hwcls⟩ := eq_classify hw
    have hbinds : w.stmt.Binds name := by
      rw [hwcls] at hwrite
      exact mem_writeNames.mp hwrite
    have htarget : targetOf e.stmt = some name := by
      rw [hecls] at htarget
      exact htarget
    rcases reads_or_binds_of_targetOf htarget with ⟨v, hv, rfl⟩ | hown
    · refine ⟨he, hw, v.name, ?_, hwrite⟩
      cases hinput : v.input with
      | true => exact absurd hbinds (hinputs _ hestmt v hv hinput _ hwstmt)
      | false =>
        rw [hecls]
        exact mem_readNames.mpr ⟨v, hv, hinput, rfl⟩
    · -- a constraint binds the variable itself
      have hsame : e = w := by
        refine single_classifyAll hsingle e he w hw name ?_ hwrite
        rw [hecls]
        exact mem_writeNames.mpr hown
      rw [hsame, hcompute] at htest
      cases htest

theorem dependsAt_of_dependsAmong (h : DependsAmong (classifyAll stmts) e w) :
    DependsAt stmts e.index w.index := by
  have hdepends := (dependsIn_of_dependsAmong h).2.2
  exact (at_index h.1).mpr ((at_index h.2.1).mpr hdepends)

theorem phase_eq_other_iff {s : Stmt} (hformed : s.isMalformed = false) :
    phaseOf s = .other ∧ s.isGuard = false ↔
      ∃ callee inputs outputs, s.action = .call callee inputs outputs := by
  unfold phaseOf Stmt.isGuard
  unfold Stmt.isMalformed at hformed
  cases haction : s.action with
  | assign target value => by_cases hconstraint : s.isConstraint = true <;> simp [hconstraint]
  | malformed => simp [haction] at hformed
  | _ => simp

theorem idles_iff_isIdle (hformed : ∀ s ∈ stmts, s.isMalformed = false)
    (hinputs : KeepsInputs stmts) (he : e ∈ classifyAll stmts) :
    idles (classifyAll stmts) e = true ↔ IsIdle stmts e.stmt := by
  obtain ⟨hestmt, hecls⟩ := eq_classify he
  rw [idles_iff, ← and_assoc, phase_eq he, guard_eq he, phase_eq_other_iff (hformed _ hestmt)]
  refine and_congr_right fun _ => ?_
  constructor
  · intro h r hr v hv hbinds
    have hinput : v.input = false := by
      rw [Bool.eq_false_iff]
      exact fun hinput => hinputs r hr v hv hinput _ hestmt hbinds
    obtain ⟨i, hi⟩ := List.getElem?_of_mem hr
    refine h v.name ?_ (classify i r) (mem_classifyAll.mpr ⟨i, r, hi, rfl⟩) ?_
    · rw [hecls]
      exact mem_writeNames.mpr hbinds
    · exact mem_readNames.mpr ⟨v, hv, hinput, rfl⟩
  · intro h name hwrite r hr hread
    rw [hecls] at hwrite
    rw [(eq_classify hr).2] at hread
    obtain ⟨v, hv, -, rfl⟩ := mem_readNames.mp hread
    exact h r.stmt (eq_classify hr).1 v hv (mem_writeNames.mp hwrite)

end Places

/-- **Tests prune as early as they can, and idle calls come last.**  A list without
    malformed statements in which each variable has one writer at most and no input is
    written has a schedule.  It runs the statements of all places of the source, each once,
    and whenever one place is run before another, tests stand in the order of the source, a
    statement in front of a test is there because that test or an earlier one depends on
    it, and an idle call is followed by later idle calls only.  Circles and guards make no
    difference. -/
theorem tests_prune_early {stmts : List Stmt} (hformed : ∀ s ∈ stmts, s.isMalformed = false)
    (hsingle : SingleWriters stmts) (hinputs : KeepsInputs stmts) :
    ∃ (blocks : List Block) (places : List Nat), schedule stmts = .ok blocks ∧
      places.Perm (List.range stmts.length) ∧
      (flatten blocks).map some = places.map (fun place => stmts[place]?) ∧
      places.Pairwise (MayPrecede stmts) := by
  have hnodup := nodup_index_classifyAll stmts
  have hsorted := sorted_classifyAll stmts
  have hmem : ∀ {e}, e ∈ order (classifyAll stmts) → e ∈ classifyAll stmts :=
    (order_perm hnodup).mem_iff.mp
  have hisTest : ∀ {e}, e ∈ classifyAll stmts → (At stmts IsTest e.index ↔ e.phase = .test) := by
    intro e he
    rw [at_index he, isTest_iff, phase_eq he]
  have hisIdle : ∀ {e}, e ∈ classifyAll stmts →
      (At stmts (IsIdle stmts) e.index ↔ idles (classifyAll stmts) e = true) := by
    intro e he
    rw [at_index he, idles_iff_isIdle hformed hinputs he]
  have htests : (order (classifyAll stmts)).Pairwise fun x c =>
      x.phase = .test → c.phase = .test → x.index < c.index := by
    have hfilter := hsorted.filter fun e => decide (e.phase = .test)
    rw [← filter_test_order hnodup (phase_of_guard_classifyAll stmts), List.pairwise_filter]
      at hfilter
    simpa using hfilter
  refine ⟨_, (order (classifyAll stmts)).map (·.index), schedule_eq_ok hformed,
    map_index_order_perm stmts, ?_, ?_⟩
  · rw [flatten_blocks, List.map_map, List.map_map]
    exact List.map_congr_left fun e he => (getElem?_index (hmem he)).symm
  · rw [List.pairwise_map]
    refine (htests.and ((pairwise_explained hnodup hsorted).and
      (pairwise_idle hnodup hsorted))).imp_of_mem ?_
    rintro x c hx hc ⟨hordered, hexplained, hlast⟩
    have hx := hmem hx
    have hc := hmem hc
    constructor
    · intro hxtest hctest
      exact hordered ((hisTest hx).mp hxtest) ((hisTest hc).mp hctest)
    · intro hplain hctest
      obtain ⟨hnot, hguard⟩ := (at_index hx).mp hplain
      obtain ⟨t, ht, hphase, hle, hneeds⟩ :=
        hexplained ((hisTest hc).mp hctest) (by rw [guard_eq hx]; exact hguard)
      refine ⟨t.index, hle, (hisTest ht).mpr hphase, ?_⟩
      rcases Relation.reflTransGen_iff_eq_or_transGen.mp hneeds with rfl | hneeds
      · exact absurd (isTest_iff.mpr (phase_eq ht ▸ hphase)) hnot
      · exact hneeds.lift (·.index) fun a b hab =>
          dependsAt_of_dependsAmong (dependsAmong_of_brings hsingle hinputs hab)
    · intro hidle
      obtain ⟨hcidle, hlt⟩ := hlast ((hisIdle hx).mp hidle)
      exact ⟨(hisIdle hc).mpr hcidle, hlt⟩

/-- The body `note(X); when(F < 1); X = for(F, 3, 1); Y = for(0, 3, 1); A = B; B = A;
    test(X < 2); Y_constraint = Y < A; show(Y);` with the input `F`: idle calls at both ends,
    a guard, and a circle that only the second test needs. -/
def idleBody : List Stmt :=
  let f : Resolved.Var := ⟨"F", .integer, .outer 0, true⟩
  let x : Resolved.Var := ⟨"X", .integer, .inner 0, false⟩
  let y : Resolved.Var := ⟨"Y", .integer, .inner 1, false⟩
  let a : Resolved.Var := ⟨"A", .integer, .inner 2, false⟩
  let b : Resolved.Var := ⟨"B", .integer, .inner 3, false⟩
  [{ action := .call "note" [.var x] [] },
   { action := .guard (.binary .lt (.var f) (.number "1")) },
   { action := .range x (.var f) (.number "3") (.number "1") },
   { action := .range y (.number "0") (.number "3") (.number "1") },
   { action := .assign (.single a) (.var b) },
   { action := .assign (.single b) (.var a) },
   { action := .test (.binary .lt (.var x) (.number "2")) },
   { action := .assign (.single ⟨"Y_constraint", .bool, .outer 1, false⟩)
       (.binary .lt (.var y) (.var a)) },
   { action := .call "show" [.var y] [] }]

theorem tests_prune_early_idleBody :
    ((∀ s ∈ idleBody, s.isMalformed = false) ∧ SingleWriters idleBody ∧ KeepsInputs idleBody) ∧
    ∃ (blocks : List Block) (places : List Nat), schedule idleBody = .ok blocks ∧
      places.Perm (List.range idleBody.length) ∧
      (flatten blocks).map some = places.map (fun place => idleBody[place]?) ∧
      places.Pairwise (MayPrecede idleBody) := by
  have hformed : ∀ s ∈ idleBody, s.isMalformed = false := by decide
  have hsingle : SingleWriters idleBody := by
    simp [SingleWriters, idleBody, Stmt.Binds, Stmt.writes, Resolved.Target.vars]
  have hinputs : KeepsInputs idleBody := by
    simp [KeepsInputs, idleBody, Stmt.Binds, Stmt.writes, Stmt.reads, Resolved.Expr.reads,
      Resolved.Expr.readsAll, Resolved.Target.vars]
  exact ⟨⟨hformed, hsingle, hinputs⟩, tests_prune_early hformed hsingle hinputs⟩

/-- The guard, the first test with what it needs, the second one, and then the calls. -/
example : (order (classifyAll idleBody)).map (·.index) = [1, 2, 6, 5, 4, 3, 7, 0, 8] := by
  decide

end CandidateSearch.Schedule
