/-
  CandidateSearch/Proofs/Schedule/Rescheduling.lean
  =================================================
  **Scheduling a schedule changes nothing.**

  The second time the loops meet the entries in another order: what was brought along
  the first time stands now in front of what brought it.

      test(Y < 3);  Y = X + 1;  X = for(0, 3, 1);     first the test, which brings the others
      X = for(0, 3, 1);  Y = X + 1;  test(Y < 3);     the second time the same order

  Guards and tests keep their order among themselves, so their loops do the same again.
  The calculations are met in the order in which they were finished, and what is left
  after them lacks nothing.  This needs that every variable has one writer, that nothing
  depends on itself, and that an enumeration depends on nothing.
-/
import CandidateSearch.Proofs.Schedule.Finishing

namespace CandidateSearch.Schedule

open Resolved (Stmt)

variable {entries : List Entry} {p q : Progress} {e t w : Entry}

/-! ### Loops that meet the order -/

theorem computes_cases (h : Tidy entries) (he : e ∈ entries)
    (hcomputes : computes entries e = true) : e.phase ≠ .assume ∧ e.guard = false := by
  simp only [computes, Bool.or_eq_true, Bool.and_eq_true, beq_iff_eq, Bool.not_eq_true']
    at hcomputes
  rcases hcomputes with hphase | ⟨⟨hphase, hguard⟩, -⟩
  · refine ⟨by simp [hphase], ?_⟩
    cases hguard : e.guard with
    | false => rfl
    | true => rw [h.guards e he hguard] at hphase; exact absurd hphase (by decide)
  · exact ⟨by simp [hphase], hguard⟩

theorem computes_of_brought (h : Brought entries e) : computes entries e = true := by
  obtain ⟨-, hphase, hprovides, r, hr, name, hread, hwrite⟩ := h
  rcases hprovides with hassume | hcompute | ⟨hother, hguard⟩
  · exact absurd hassume hphase
  · simp [computes, hcompute]
  · have hreads : ∃ n ∈ e.writes, ∃ x ∈ entries, n ∈ x.reads := ⟨name, hwrite, r, hr, hread⟩
    simpa [computes, hother, hguard] using hreads

/-- Going through the calculations in their final order places the same as before. -/
theorem order_computing_again (h : Tidy entries) :
    (((order entries).filter (computes entries)).foldl (Progress.settle entries)
      (afterTests entries)).order = (afterComputing entries).order := by
  have htests := (after_afterTests h.nodup).1.consistent
  obtain ⟨hafter, hcomputed⟩ := after_afterComputing h.nodup
  obtain ⟨cs, halike, hcs⟩ := foldl_settle_alike h htests (entries.filter (computes entries))
    fun e he => ⟨List.mem_of_mem_filter he,
      (computes_cases h (List.mem_of_mem_filter he) (List.mem_filter.mp he).2).1⟩
  have hcalcs : ∀ c ∈ cs, c ∈ entries ∧ computes entries c = true := by
    intro c hc
    rcases hcs c hc with hmem | hbrought
    · exact List.mem_filter.mp hmem
    · exact ⟨hbrought.1, computes_of_brought hbrought⟩
  obtain ⟨placed, horder, hplaced⟩ := order_foldl_finish entries
    (fun a hassume => by simp [computes, hassume]) cs (fun c hc => (hcalcs c hc).2)
    (afterTests entries)
  have hsame : (afterComputing entries).order =
      (cs.foldl (finish entries) (afterTests entries)).order := halike.order
  have hmet : (order entries).filter (computes entries) =
      (afterTests entries).order.filter (computes entries) ++ cs := by
    rw [filter_of_initial (prefix_afterComputing h.nodup) (nodup_order h.nodup) fun e he hcomputes => ?_,
      hsame, horder, List.filter_append, hplaced]
    have hmem := (order_perm h.nodup).mem_iff.mp he
    exact mem_order_of_isDone hafter.consistent hmem (hcomputed e hmem hcomputes)
  have hold : ∀ e ∈ (afterTests entries).order.filter (computes entries),
      (afterTests entries).isDone e = true := by
    intro e he
    have hmem : e ∈ (afterTests entries).order ++ [] := by simpa using List.mem_of_mem_filter he
    exact (htests.marked e (htests.known e hmem)).mpr hmem
  have hinitial : (cs.foldl (finish entries) (afterTests entries)).order <+: order entries := by
    rw [← hsame]
    exact prefix_afterComputing h.nodup
  rw [hmet, List.foldl_append, foldl_settle_of_isDone hold,
    foldl_settle_eq_finish h (follows_order h) (nodup_order h.nodup) cs
      (fun c hc => ⟨(hcalcs c hc).1, (computes_cases h (hcalcs c hc).1 (hcalcs c hc).2).2⟩)
      htests hinitial, hsame]

theorem mem_filter_perm {met : List Entry} {which : Entry → Bool} (hperm : met.Perm entries)
    (he : e ∈ met.filter which) : e ∈ entries ∧ which e = true :=
  ⟨hperm.mem_iff.mp (List.mem_filter.mp he).1, (List.mem_filter.mp he).2⟩

/-- The entries of a phase that are not placed with the calculations. -/
def leftOver (entries met : List Entry) (phase : Phase) : List Entry :=
  (met.filter (·.phase = phase)).filter fun e => !(afterComputing entries).isDone e

/-- What is left after the calculations lacks nothing, and is placed as it is met. -/
theorem order_left_over (h : Tidy entries) {met : List Entry} (hperm : met.Perm entries)
    (hp : Consistent entries [] p) (horder : p.order = (afterComputing entries).order) :
    ((met.filter (·.phase = .other)).foldl (Progress.settle entries)
      ((met.filter (·.phase = .assume)).foldl (Progress.settle entries) p)).order =
    (afterComputing entries).order ++ leftOver entries met .assume ++
      leftOver entries met .other := by
  obtain ⟨hcomputing, hcomputed⟩ := after_afterComputing h.nodup
  have hmarks : ∀ e ∈ entries, p.isDone e = (afterComputing entries).isDone e :=
    fun e he => isDone_congr hp hcomputing.consistent horder he
  have hnodup : met.Nodup := hperm.nodup_iff.mpr (h.nodup.of_map _)
  have hassumed := order_foldl_settle_ready h.indexed (met.filter (·.phase = .assume))
    (hnodup.filter _) hp fun e he =>
      ⟨(mem_filter_perm hperm he).1, fun w hw _ hdepends =>
        absurd hdepends (h.leaves e (mem_filter_perm hperm he).1
          (by simpa using (mem_filter_perm hperm he).2) w hw)⟩
  obtain ⟨hafter, hdone⟩ := foldl_settle_keeps h.indexed hp (met.filter (·.phase = .assume))
    fun e he => (mem_filter_perm hperm he).1
  -- a call that something reads from counts as a calculation, so it is there as well
  have hready : ∀ e ∈ met.filter (·.phase = .other), e ∈ entries ∧
      ∀ w ∈ entries, w.Provides → e.DependsOn w →
        ((met.filter (·.phase = .assume)).foldl (Progress.settle entries) p).isDone w = true := by
    intro e he
    refine ⟨(mem_filter_perm hperm he).1, fun w hw hprovides hdepends => ?_⟩
    by_cases hphase : w.phase = .assume
    · exact hdone w (List.mem_filter.mpr ⟨hperm.mem_iff.mpr hw, by simp [hphase]⟩)
    · apply hafter.grown.done
      rw [hmarks w hw]
      exact hcomputed w hw (computes_of_brought
        ⟨hw, hphase, hprovides, e, (mem_filter_perm hperm he).1, hdepends⟩)
  have hothers : ∀ e ∈ met.filter (·.phase = .other),
      ((met.filter (·.phase = .assume)).foldl (Progress.settle entries) p).isDone e =
        (afterComputing entries).isDone e := by
    intro e he
    obtain ⟨hmem, hphase⟩ := mem_filter_perm hperm he
    rw [Bool.eq_iff_iff, hafter.consistent.marked e hmem, hcomputing.consistent.marked e hmem,
      hassumed, horder]
    have hphase : e.phase = .other := by simpa using hphase
    simp [hphase]
  have hfirst : (met.filter (·.phase = .assume)).filter (fun e => !p.isDone e) =
      leftOver entries met .assume :=
    List.filter_congr fun e he => by rw [hmarks e (mem_filter_perm hperm he).1]
  rw [order_foldl_settle_ready h.indexed _ (hnodup.filter _) hafter.consistent hready, hassumed,
    horder, hfirst, List.filter_congr fun e he => by rw [hothers e he], leftOver, leftOver]

theorem order_eq_append (h : Tidy entries) :
    order entries = (afterComputing entries).order ++ leftOver entries entries .assume ++
      leftOver entries entries .other :=
  order_left_over h (List.Perm.refl entries) (after_afterComputing h.nodup).1.consistent rfl

theorem leftOver_leftOver (entries met : List Entry) (phase again : Phase) :
    leftOver entries (leftOver entries met phase) again =
      if again = phase then leftOver entries met phase else [] := by
  unfold leftOver
  split
  · rename_i hsame
    subst hsame
    simp only [List.filter_filter]
    apply List.filter_congr
    intro e _
    cases (afterComputing entries).isDone e <;> simp
  · rename_i hother
    apply List.filter_eq_nil_iff.mpr
    intro e he
    simp only [List.mem_filter, decide_eq_true_eq] at he
    exact absurd (he.2.symm.trans he.1.1.2) hother

/-- What is left over stands in the order as it stood before. -/
theorem leftOver_order (h : Tidy entries) {phase : Phase}
    (hphase : phase = .assume ∨ phase = .other) :
    leftOver entries (order entries) phase = leftOver entries entries phase := by
  have happend : ∀ l l', leftOver entries (l ++ l') phase =
      leftOver entries l phase ++ leftOver entries l' phase := by
    intro l l'
    simp [leftOver]
  have hplaced : leftOver entries (afterComputing entries).order phase = [] := by
    have hcomputing := (after_afterComputing h.nodup).1.consistent
    apply List.filter_eq_nil_iff.mpr
    intro e he
    have hmem : e ∈ (afterComputing entries).order ++ [] := by
      simpa using List.mem_of_mem_filter he
    simp [(hcomputing.marked e (hcomputing.known e hmem)).mpr hmem]
  rw [order_eq_append h, happend, happend, hplaced, leftOver_leftOver, leftOver_leftOver]
  rcases hphase with rfl | rfl <;> simp

/-- **The order of an order is that order.** -/
theorem order_order (h : Tidy entries) : order (order entries) = order entries := by
  have hperm := order_perm h.nodup
  have hsettle : Progress.settle (order entries) = Progress.settle entries :=
    (settle_perm hperm.symm h.single).symm
  have htests : afterTests (order entries) = afterTests entries := by
    unfold afterTests afterGuards
    rw [filter_test_order h.nodup h.guards, filter_guard_order h.nodup, ← settleTest_perm hperm.symm h.single]
  have hcomputing : afterComputing (order entries) =
      ((order entries).filter (computes entries)).foldl (Progress.settle entries)
        (afterTests entries) := by
    unfold afterComputing
    rw [htests, hsettle, computes_perm hperm]
  obtain ⟨hafter, -⟩ := foldl_settle_keeps h.indexed (after_afterTests h.nodup).1.consistent
    ((order entries).filter (computes entries)) fun e he => (mem_filter_perm hperm he).1
  have hrest := order_left_over h hperm hafter.consistent (order_computing_again h)
  rw [leftOver_order h (Or.inl rfl), leftOver_order h (Or.inr rfl), ← order_eq_append h] at hrest
  rw [order_eq (order entries), afterAll, afterEnumerating, hcomputing, hsettle]
  exact hrest

/-! ### Statements -/

theorem tidy_classifyAll {stmts : List Stmt} (hsingle : SingleWriters stmts)
    (hacyclic : Acyclic stmts)
    (hleaves : ∀ s ∈ stmts, phaseOf s = .assume → ∀ v ∈ s.reads,
      v.input = true ∨ ∀ t ∈ stmts, ¬ t.Binds v.name) :
    Tidy (classifyAll stmts) where
  nodup := nodup_index_classifyAll stmts
  single := single_classifyAll hsingle
  acyclic := not_transGen_of_acyclic hacyclic
  guards := phase_of_guard_classifyAll stmts
  leaves := by
    intro a ha hphase w hw hdepends
    obtain ⟨hastmt, hacls⟩ := eq_classify ha
    obtain ⟨hwstmt, hwcls⟩ := eq_classify hw
    rw [hacls] at hphase
    rw [hacls, hwcls] at hdepends
    obtain ⟨v, hv, hinput, hbinds⟩ := dependsOn_classify.mp hdepends
    rcases hleaves a.stmt hastmt hphase v hv with htrue | hunwritten
    · rw [hinput] at htrue
      exact absurd htrue (by decide)
    · exact hunwritten w.stmt hwstmt hbinds

/-- The places that entries get when they are put into a list in their order. -/
def placeIn (ordered : List Entry) (i : Nat) : Nat :=
  if i < ordered.length then (ordered.map (·.index)).idxOf i else i

theorem placeIn_injective {ordered : List Entry}
    (hplaces : (ordered.map (·.index)).Perm (List.range ordered.length)) :
    Function.Injective (placeIn ordered) := by
  have hmem : ∀ {i}, i < ordered.length → i ∈ ordered.map (·.index) :=
    fun hi => hplaces.mem_iff.mpr (List.mem_range.mpr hi)
  have hbound : ∀ {i}, i < ordered.length →
      (ordered.map (·.index)).idxOf i < ordered.length := by
    intro i hi
    simpa using List.idxOf_lt_length_of_mem (hmem hi)
  intro i j heq
  unfold placeIn at heq
  by_cases hi : i < ordered.length
  · rw [if_pos hi] at heq
    by_cases hj : j < ordered.length
    · rw [if_pos hj] at heq
      exact (List.idxOf_inj (hmem hi)).mp heq
    · rw [if_neg hj] at heq
      exact absurd (heq ▸ hbound hi) hj
  · rw [if_neg hi] at heq
    by_cases hj : j < ordered.length
    · rw [if_pos hj] at heq
      exact absurd (heq ▸ hbound hj) hi
    · rwa [if_neg hj] at heq

/-- Classified anew, the statements of an order are its entries with new places. -/
theorem classifyAll_map_stmt {stmts : List Stmt} {ordered : List Entry}
    (hperm : ordered.Perm (classifyAll stmts)) :
    classifyAll (ordered.map (·.stmt)) = ordered.map (Entry.renumber (placeIn ordered)) := by
  have hnodup : (ordered.map (·.index)).Nodup :=
    (hperm.map (·.index)).nodup_iff.mpr (nodup_index_classifyAll stmts)
  apply List.ext_getElem
  · simp [classifyAll]
  · intro i _ hi
    have hi : i < ordered.length := by simpa using hi
    have hmem : ordered[i] ∈ classifyAll stmts := hperm.mem_iff.mp (List.getElem_mem hi)
    have hlength : ordered.length = stmts.length := by simpa [classifyAll] using hperm.length_eq
    have hindex : ordered[i].index < ordered.length := by
      rw [hlength]
      exact (List.getElem?_eq_some_iff.mp (getElem?_index hmem)).1
    have hplace : placeIn ordered ordered[i].index = i := by
      have hplaced := hnodup.idxOf_getElem i (by simpa using hi)
      rw [List.getElem_map] at hplaced
      rw [placeIn, if_pos hindex, hplaced]
    have hentry := (eq_classify hmem).2
    simp only [classifyAll, List.getElem_mapIdx, List.getElem_map, Entry.renumber, hplace]
    rw [hentry]
    rfl

/-- **Scheduling is idempotent.**  Take a list without malformed statements in which every
    variable has at most one writer, nothing depends on itself, and what an enumeration
    reads is an input or written by nothing.  It has a schedule, and the statements of that
    schedule, one block after the other, have the very same schedule. -/
theorem schedule_flatten_schedule {stmts : List Stmt}
    (hformed : ∀ s ∈ stmts, s.isMalformed = false) (hsingle : SingleWriters stmts)
    (hacyclic : Acyclic stmts)
    (hleaves : ∀ s ∈ stmts, phaseOf s = .assume → ∀ v ∈ s.reads,
      v.input = true ∨ ∀ t ∈ stmts, ¬ t.Binds v.name) :
    ∃ blocks, schedule stmts = .ok blocks ∧ schedule (flatten blocks) = .ok blocks := by
  have hok := schedule_eq_ok hformed
  refine ⟨_, hok, ?_⟩
  have hperm := order_perm (nodup_index_classifyAll stmts)
  have hplaces : ((order (classifyAll stmts)).map (·.index)).Perm
      (List.range (order (classifyAll stmts)).length) := by
    have hlength : (order (classifyAll stmts)).length = stmts.length := by
      simpa [classifyAll] using hperm.length_eq
    rw [hlength]
    exact map_index_order_perm stmts
  have hagain : ∀ s ∈ flatten ((groups (order (classifyAll stmts))).map Group.block),
      s.isMalformed = false :=
    fun s hs => hformed s ((flatten_perm hok).mem_iff.mp hs)
  rw [schedule_eq_ok hagain, flatten_blocks, classifyAll_map_stmt hperm,
    order_renumber (placeIn_injective hplaces),
    order_order (tidy_classifyAll hsingle hacyclic hleaves), blocks_renumber]

/-- The body `test(Y < N); Y = X + 1; when(Y < 9); X = for(0, N, 1);` with an input `N`:
    its schedule turns the list around and puts the guard in front. -/
def guardedBody : List Stmt :=
  let n : Resolved.Var := ⟨"N", .integer, .outer 0, true⟩
  let x : Resolved.Var := ⟨"X", .integer, .inner 0, false⟩
  let y : Resolved.Var := ⟨"Y", .integer, .inner 1, false⟩
  [{ action := .test (.binary .lt (.var y) (.var n)) },
   { action := .assign (.single y) (.binary .add (.var x) (.number "1")) },
   { action := .guard (.binary .lt (.var y) (.number "9")) },
   { action := .range x (.number "0") (.var n) (.number "1") }]

theorem schedule_flatten_schedule_guardedBody :
    ((∀ s ∈ guardedBody, s.isMalformed = false) ∧ SingleWriters guardedBody ∧
      Acyclic guardedBody ∧
      ∀ s ∈ guardedBody, phaseOf s = .assume → ∀ v ∈ s.reads,
        v.input = true ∨ ∀ t ∈ guardedBody, ¬ t.Binds v.name) ∧
    ∃ blocks, schedule guardedBody = .ok blocks ∧ schedule (flatten blocks) = .ok blocks := by
  have hformed : ∀ s ∈ guardedBody, s.isMalformed = false := by decide
  have hsingle : SingleWriters guardedBody := by
    simp [guardedBody, SingleWriters, Stmt.Binds, Stmt.writes, Resolved.Target.vars]
  have hacyclic : Acyclic guardedBody :=
    acyclic_of_rank (fun s => 3 - 2 * s.writes.length + (s.reads.filter (!·.input)).length) (by
      simp [guardedBody, Stmt.DependsOn, Stmt.Binds, Stmt.reads, Stmt.writes,
        Resolved.Expr.reads, Resolved.Target.vars])
  have hleaves : ∀ s ∈ guardedBody, phaseOf s = .assume → ∀ v ∈ s.reads,
      v.input = true ∨ ∀ t ∈ guardedBody, ¬ t.Binds v.name := by
    have hinputs : ∀ s ∈ guardedBody, phaseOf s = .assume → ∀ v ∈ s.reads, v.input = true := by
      decide
    exact fun s hs hphase v hv => Or.inl (hinputs s hs hphase v hv)
  exact ⟨⟨hformed, hsingle, hacyclic, hleaves⟩,
    schedule_flatten_schedule hformed hsingle hacyclic hleaves⟩

end CandidateSearch.Schedule
