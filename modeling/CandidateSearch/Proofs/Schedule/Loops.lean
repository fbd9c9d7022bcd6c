/-
  CandidateSearch/Proofs/Schedule/Loops.lean
  ==========================================
  **From one loop of the ordering to the next.**

  What a loop has placed stays in front of what the later ones place, so the order is told
  by the progress between the loops.  Guards and tests keep their order among themselves
  (`filter_guard_order`, `filter_test_order`): a loop meets them in the order of the
  source, and no other entry brings one of them along.  An entry for which nothing is
  missing is placed at its turn (`order_foldl_settle_ready`).

  All this holds whatever depends on what, circles included.
-/
import CandidateSearch.Proofs.Schedule.BeforeTests

namespace CandidateSearch.Schedule

open Resolved (Stmt)

variable {entries : List Entry} {p q : Progress} {e t w : Entry}

/-! ### Passes that find nothing to do -/

theorem foldl_pull_eq_self {fuel : Nat} {enumerated : Bool} {names : List String}
    (h : ∀ name ∈ names, ∀ w, p.provider? entries name = some w →
      ((w.phase == .assume) == enumerated) = false) :
    names.foldl (pull entries fuel enumerated) p = p := by
  induction names with
  | nil => rfl
  | cons name rest ih =>
    have hfirst : pull entries fuel enumerated p name = p := by
      unfold pull
      split
      · rfl
      · cases hprovider : p.provider? entries name with
        | none => rfl
        | some w => simp [h name (by simp) w hprovider]
    rw [List.foldl_cons, hfirst]
    exact ih fun n hn => h n (by simp [hn])

theorem settle_of_isDone (hdone : p.isDone e = true) : p.settle entries e = p := by
  unfold Progress.settle
  cases entries.length with
  | zero => rfl
  | succ n => rw [resolve_succ, if_pos hdone]

theorem foldl_settle_of_isDone {l : List Entry} (h : ∀ e ∈ l, p.isDone e = true) :
    l.foldl (Progress.settle entries) p = p := by
  induction l with
  | nil => rfl
  | cons e rest ih =>
    rw [List.foldl_cons, settle_of_isDone (h e (by simp))]
    exact ih fun x hx => h x (by simp [hx])

/-- An entry for which all providers are marked is placed at once. -/
theorem resolve_eq_place {fuel : Nat} (hdone : p.isDone e = false)
    (hready : ∀ w ∈ entries, w.Provides → e.DependsOn w → p.isDone w = true) :
    resolve entries (fuel + 1) p e = p.place e := by
  have hnone : ∀ name ∈ e.reads, ∀ w, (p.begin e).provider? entries name = some w → False := by
    intro name hread w hw
    obtain ⟨hmem, hundone, hprovides, hwrite⟩ := provider?_eq_some hw
    have hmarked : (p.begin e).isDone w = true :=
      isDone_begin.mpr (Or.inr (hready w hmem hprovides ⟨name, hread, hwrite⟩))
    rw [hmarked] at hundone
    exact absurd hundone (by decide)
  rw [resolve_succ, if_neg (by simp [hdone]),
    foldl_pull_eq_self fun name hread w hw => (hnone name hread w hw).elim,
    foldl_pull_eq_self fun name hread w hw => (hnone name hread w hw).elim]
  rfl

/-- Entries for which nothing is missing are placed as they are met. -/
theorem order_foldl_settle_ready (hindexed : Indexed entries) (l : List Entry) (hnodup : l.Nodup)
    (hp : Consistent entries [] p)
    (hl : ∀ e ∈ l, e ∈ entries ∧
      ∀ w ∈ entries, w.Provides → e.DependsOn w → p.isDone w = true) :
    (l.foldl (Progress.settle entries) p).order = p.order ++ l.filter fun e => !p.isDone e := by
  induction l generalizing p with
  | nil => simp
  | cons e rest ih =>
    obtain ⟨he, hready⟩ := hl e (by simp)
    obtain ⟨hnew, hnodup⟩ := List.nodup_cons.mp hnodup
    rw [List.foldl_cons]
    cases hdone : p.isDone e with
    | true =>
      rw [settle_of_isDone hdone, ih hnodup hp fun x hx => hl x (by simp [hx])]
      simp [hdone]
    | false =>
      obtain ⟨n, hn⟩ : ∃ n, entries.length = n + 1 :=
        Nat.exists_eq_succ_of_ne_zero (List.length_pos_of_mem he).ne'
      have hplace : p.settle entries e = p.place e := by
        rw [Progress.settle, hn]
        exact resolve_eq_place hdone hready
      have hmarks : ∀ x ∈ rest, (p.place e).isDone x = p.isDone x := by
        intro x hx
        have hne : x.index ≠ e.index := by
          intro heq
          rw [hindexed x (hl x (by simp [hx])).1 e he heq] at hx
          exact hnew hx
        rw [Bool.eq_iff_iff, Progress.place, isDone_emit, isDone_begin]
        simp [hne]
      have hrest := ih hnodup (hp.place hindexed he hdone) fun x hx => by
        refine ⟨(hl x (by simp [hx])).1, fun w hw hprovides hdepends => ?_⟩
        rw [Progress.place, isDone_emit, isDone_begin]
        exact Or.inr ((hl x (by simp [hx])).2 w hw hprovides hdepends)
      rw [hplace, hrest, List.filter_congr fun x hx => by rw [hmarks x hx]]
      simp [hdone, Progress.place]

/-! ### Entries that are picked from an order -/

theorem filter_of_initial {placed ordered : List Entry} {which : Entry → Bool}
    (hinitial : placed <+: ordered) (hnodup : ordered.Nodup)
    (hall : ∀ e ∈ ordered, which e = true → e ∈ placed) :
    ordered.filter which = placed.filter which := by
  rcases hinitial with ⟨rest, rfl⟩
  have hnone : rest.filter which = [] := by
    apply List.filter_eq_nil_iff.mpr
    intro e he hwhich
    have hplaced := hall e (List.mem_append_right _ he) hwhich
    exact (List.nodup_append.mp hnodup).2.2 e hplaced e he rfl
  rw [List.filter_append, hnone, List.append_nil]

theorem isDone_congr (hp : Consistent entries [] p) (hq : Consistent entries [] q)
    (horder : p.order = q.order) (he : e ∈ entries) : p.isDone e = q.isDone e := by
  rw [Bool.eq_iff_iff, hp.marked e he, hq.marked e he, horder]

theorem mem_order_of_isDone (hp : Consistent entries [] p) (he : e ∈ entries)
    (hdone : p.isDone e = true) : e ∈ p.order := by
  simpa using (hp.marked e he).mp hdone

theorem foldl_settle_keeps (hindexed : Indexed entries) (hp : Consistent entries [] p)
    (l : List Entry) (hl : ∀ e ∈ l, e ∈ entries) :
    After entries [] (fun _ _ => True) p (l.foldl (Progress.settle entries) p) ∧
      ∀ e ∈ l, (l.foldl (Progress.settle entries) p).isDone e = true :=
  foldl_keeps (fun e p => p.isDone e = true) l
    (fun e he _ hp hM => settle_keeps hindexed (keeps_trivial entries) hp hM (hl e he) trivial)
    (fun hgrown hdone => hgrown.done _ hdone) hp trivial

/-! ### Guards and tests -/

theorem order_foldl_place (l : List Entry) (p : Progress) :
    (l.foldl Progress.place p).order = p.order ++ l := by
  induction l generalizing p with
  | nil => simp
  | cons e rest ih =>
    rw [List.foldl_cons, ih]
    simp [Progress.place]

/-- The tests that are placed or on the stack are some given ones, and then the test that
    is being placed. -/
def TestsUpTo (before : List Entry) (t : Entry) (stack : List Entry) (p : Progress) : Prop :=
  (p.order ++ stack).filter (·.phase = .test) = before ++ if p.isDone t then [t] else []

theorem keeps_testsUpTo (hindexed : Indexed entries) (before : List Entry) (ht : t ∈ entries)
    (hphase : t.phase = .test) :
    Keeps entries (fun e => e = t ∨ e.phase ≠ .test) (TestsUpTo before t) := by
  constructor
  · intro stack p e hp hM he hdone hwanted
    unfold TestsUpTo at hM ⊢
    by_cases hsame : e = t
    · -- a test is never wanted by an entry of the stack
      subst hsame
      have hempty : stack = [] := by
        cases stack with
        | nil => rfl
        | cons top rest =>
          have hprovides := hwanted.1
          simp [Entry.Provides, hphase] at hprovides
      have hself : (p.begin e).isDone e = true := isDone_begin.mpr (Or.inl rfl)
      rw [hempty, hdone] at hM
      rw [hempty, hself]
      simpa [hphase] using hM
    · have hother : e.phase ≠ .test := by
        cases stack with
        | nil => exact hwanted.resolve_left hsame
        | cons top rest =>
          intro htest
          have hprovides := hwanted.1
          simp [Entry.Provides, htest] at hprovides
      have hmark : (p.begin e).isDone t = p.isDone t := by
        have hne : t.index ≠ e.index := fun heq => hsame (hindexed t ht e he heq).symm
        rw [Bool.eq_iff_iff, isDone_begin]
        simp [hne]
      rw [hmark, ← hM]
      simp [hother]
  · intro stack p e _ hM _
    unfold TestsUpTo at hM ⊢
    rw [isDone_emit, ← hM]
    simp

theorem filter_settleTest (hindexed : Indexed entries) (hp : Consistent entries [] p)
    (ht : t ∈ entries) (hphase : t.phase = .test) (hdone : p.isDone t = false) :
    (p.settleTest entries t).order.filter (·.phase = .test) =
      p.order.filter (·.phase = .test) ++ [t] := by
  have hstart : TestsUpTo (p.order.filter (·.phase = .test)) t [] p := by
    simp [TestsUpTo, hdone]
  obtain ⟨hafter, hmarked⟩ := settleTest_keeps hindexed
    (keeps_testsUpTo hindexed _ ht hphase) hp hstart ht (Or.inl rfl)
    fun w _ hfeeds => Or.inr (by simp [hfeeds.1])
  have hkept := hafter.kept
  unfold TestsUpTo at hkept
  simpa [hmarked] using hkept

theorem filter_foldl_settleTest (hindexed : Indexed entries) (l : List Entry) (hnodup : l.Nodup)
    (hp : Consistent entries [] p)
    (hl : ∀ t ∈ l, t ∈ entries ∧ t.phase = .test ∧ p.isDone t = false) :
    (l.foldl (Progress.settleTest entries) p).order.filter (·.phase = .test) =
      p.order.filter (·.phase = .test) ++ l := by
  induction l generalizing p with
  | nil => simp
  | cons t rest ih =>
    obtain ⟨ht, hphase, hdone⟩ := hl t (by simp)
    obtain ⟨hnew, hnodup⟩ := List.nodup_cons.mp hnodup
    have hone := filter_settleTest hindexed hp ht hphase hdone
    obtain ⟨hafter, -⟩ := settleTest_keeps hindexed (keeps_trivial entries) hp trivial ht trivial
      fun _ _ _ => trivial
    rw [List.foldl_cons, ih hnodup hafter.consistent, hone]
    · simp
    · intro x hx
      obtain ⟨hmem, hxphase, hxdone⟩ := hl x (by simp [hx])
      refine ⟨hmem, hxphase, isDone_eq_false hafter.consistent hmem fun hplaced => ?_⟩
      have hfound : x ∈ p.order.filter (·.phase = .test) ++ [t] := by
        rw [← hone]
        simp [hplaced, hxphase]
      rcases List.mem_append.mp hfound with hold | hold
      · rw [(hp.marked x hmem).mpr (by simpa using List.mem_of_mem_filter hold)] at hxdone
        exact absurd hxdone (by decide)
      · rw [List.mem_singleton.mp hold] at hx
        exact hnew hx

/-! ### The progress between the loops -/

theorem consistent_afterGuards (hnodup : (entries.map (·.index)).Nodup) :
    Consistent entries [] (afterGuards entries) :=
  (afterGuards_keeps (M := fun _ _ => True) hnodup trivial fun _ _ _ _ _ => trivial).1

theorem after_afterTests (hnodup : (entries.map (·.index)).Nodup) :
    After entries [] (fun _ _ => True) (afterGuards entries) (afterTests entries) ∧
      ∀ e ∈ entries, e.phase = .test → (afterTests entries).isDone e = true :=
  afterTests_keeps (indexed_of_nodup hnodup) (keeps_trivial entries)
    (consistent_afterGuards hnodup) trivial

theorem after_afterComputing (hnodup : (entries.map (·.index)).Nodup) :
    After entries [] (fun _ _ => True) (afterTests entries) (afterComputing entries) ∧
      ∀ e ∈ entries, computes entries e = true → (afterComputing entries).isDone e = true :=
  settleAll_keeps (indexed_of_nodup hnodup) (keeps_trivial entries) (computes entries)
    (fun _ _ _ => trivial) (after_afterTests hnodup).1.consistent trivial

theorem after_afterEnumerating (hnodup : (entries.map (·.index)).Nodup) :
    After entries [] (fun _ _ => True) (afterComputing entries) (afterEnumerating entries) ∧
      ∀ e ∈ entries, decide (e.phase = .assume) = true →
        (afterEnumerating entries).isDone e = true :=
  settleAll_keeps (indexed_of_nodup hnodup) (keeps_trivial entries)
    (fun e => decide (e.phase = .assume)) (fun _ _ _ => trivial)
    (after_afterComputing hnodup).1.consistent trivial

theorem prefix_afterEnumerating (hnodup : (entries.map (·.index)).Nodup) :
    (afterEnumerating entries).order <+: order entries :=
  (settleAll_keeps (indexed_of_nodup hnodup) (keeps_trivial entries)
    (fun e => decide (e.phase = .other)) (fun _ _ _ => trivial)
    (after_afterEnumerating hnodup).1.consistent trivial).1.grown.order

theorem prefix_afterComputing (hnodup : (entries.map (·.index)).Nodup) :
    (afterComputing entries).order <+: order entries :=
  (after_afterEnumerating hnodup).1.grown.order.trans (prefix_afterEnumerating hnodup)

theorem prefix_afterTests (hnodup : (entries.map (·.index)).Nodup) :
    (afterTests entries).order <+: order entries :=
  (after_afterComputing hnodup).1.grown.order.trans (prefix_afterComputing hnodup)

theorem prefix_afterGuards (hnodup : (entries.map (·.index)).Nodup) :
    (afterGuards entries).order <+: order entries :=
  (after_afterTests hnodup).1.grown.order.trans (prefix_afterTests hnodup)

theorem nodup_order (hnodup : (entries.map (·.index)).Nodup) : (order entries).Nodup :=
  (order_perm hnodup).nodup_iff.mpr (hnodup.of_map _)

/-! ### Guards and tests in the order -/

theorem filter_guard_order (hnodup : (entries.map (·.index)).Nodup) :
    (order entries).filter (·.guard) = entries.filter (·.guard) := by
  have hguards : (afterGuards entries).order = entries.filter (·.guard) := order_foldl_place _ _
  rw [filter_of_initial (prefix_afterGuards hnodup) (nodup_order hnodup) fun e he hguard => ?_,
    hguards]
  · exact List.filter_eq_self.mpr fun e he => (List.mem_filter.mp he).2
  · rw [hguards]
    exact List.mem_filter.mpr ⟨(order_perm hnodup).mem_iff.mp he, hguard⟩

theorem filter_test_order (hnodup : (entries.map (·.index)).Nodup)
    (hother : ∀ e ∈ entries, e.guard = true → e.phase = .other) :
    (order entries).filter (·.phase = .test) = entries.filter (·.phase = .test) := by
  have hguards : (afterGuards entries).order = entries.filter (·.guard) := order_foldl_place _ _
  obtain ⟨hafter, htested⟩ := after_afterTests hnodup
  rw [filter_of_initial (prefix_afterTests hnodup) (nodup_order hnodup) fun e he htest => ?_]
  · rw [afterTests, filter_foldl_settleTest (indexed_of_nodup hnodup) _
      ((hnodup.of_map _).filter _) (consistent_afterGuards hnodup), hguards, List.filter_filter]
    · have hnone : entries.filter (fun e => decide (e.phase = .test) && e.guard) = [] := by
        apply List.filter_eq_nil_iff.mpr
        intro e he hboth
        simp only [Bool.and_eq_true, decide_eq_true_eq] at hboth
        rw [hother e he hboth.2] at hboth
        exact absurd hboth.1 (by decide)
      rw [hnone, List.nil_append]
    · intro t ht
      obtain ⟨hmem, hphase⟩ := List.mem_filter.mp ht
      have hphase : t.phase = .test := by simpa using hphase
      refine ⟨hmem, hphase, isDone_eq_false (consistent_afterGuards hnodup) hmem fun hplaced => ?_⟩
      rw [hguards] at hplaced
      have hguard := hother t hmem (List.mem_filter.mp hplaced).2
      rw [hphase] at hguard
      exact absurd hguard (by decide)
  · have hmem := (order_perm hnodup).mem_iff.mp he
    exact mem_order_of_isDone hafter.consistent hmem (htested e hmem (by simpa using htest))

theorem phase_of_guard_classifyAll (stmts : List Stmt) :
    ∀ e ∈ classifyAll stmts, e.guard = true → e.phase = .other := by
  intro e he hguard
  rw [(eq_classify he).2] at hguard ⊢
  have hguard : e.stmt.isGuard = true := hguard
  show phaseOf e.stmt = .other
  cases haction : e.stmt.action <;> simp_all [Stmt.isGuard, phaseOf]

end CandidateSearch.Schedule
