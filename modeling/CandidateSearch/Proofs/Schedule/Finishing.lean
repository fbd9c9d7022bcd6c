/-
  CandidateSearch/Proofs/Schedule/Finishing.lean
  ==============================================
  **Resolving as finishing one calculation after the other.**

  The calculated operands of an entry are placed before the enumerated ones:

      Z = X + Y;  X = for(0, 3, 1);  Y = W * 2;  W = for(0, 5, 1);
      W, Y, X, Z                             where `Z` is resolved first

  So an enumeration that depends on nothing stands right in front of its first reader, and
  resolving comes down to finishing calculations, each with the enumerations that it still
  needs (`resolve_alike`).  Entries that are met in the order in which they were finished
  are ready at their turn, and are finished again (`foldl_settle_eq_finish`).
-/
import CandidateSearch.Proofs.Schedule.Loops
import CandidateSearch.Proofs.Schedule.Renumbering

namespace CandidateSearch.Schedule

open Relation (TransGen)
open Resolved (Stmt)

variable {entries stack : List Entry} {p q : Progress} {c e w : Entry} {name : String}

/-- Entries for which the order is settled by what they read and write. -/
structure Tidy (entries : List Entry) : Prop where
  nodup : (entries.map (·.index)).Nodup
  single : Single entries
  acyclic : ∀ e, ¬ TransGen (DependsAmong entries) e e
  guards : ∀ e ∈ entries, e.guard = true → e.phase = .other
  leaves : ∀ a ∈ entries, a.phase = .assume → ∀ w ∈ entries, ¬ a.DependsOn w

theorem Tidy.indexed (h : Tidy entries) : Indexed entries := indexed_of_nodup h.nodup

/-! ### Finishing an entry -/

/-- Places the enumeration of a variable if it has not been written. -/
def enumerate (entries : List Entry) (p : Progress) (name : String) : Progress :=
  if p.written.contains name then p
  else match p.writer? entries name (fun e => e.phase = .assume) with
    | some a => p.place a
    | none => p

/-- Places an entry after the enumerations that it still needs. -/
def finish (entries : List Entry) (p : Progress) (e : Entry) : Progress :=
  (e.reads.foldl (enumerate entries) (p.begin e)).emit e

theorem grown_enumerate (p : Progress) (name : String) : Grown p (enumerate entries p name) := by
  unfold enumerate
  split
  · exact Grown.refl p
  · split
    · exact (Grown.begin p _).trans (Grown.emit _ _)
    · exact Grown.refl p

/-- In the second pass an enumeration depends on nothing, so it is placed at once. -/
theorem pull_eq_enumerate (h : Tidy entries) {fuel : Nat} (hfuel : undone entries p ≤ fuel) :
    pull entries fuel true p name = enumerate entries p name := by
  unfold pull enumerate
  by_cases hwritten : p.written.contains name = true
  · rw [if_pos hwritten, if_pos hwritten]
  · rw [if_neg hwritten, if_neg hwritten]
    cases hassume : p.writer? entries name (fun e => e.phase = .assume) with
    | some a =>
      obtain ⟨hmem, hundone, hphase, -⟩ := writer?_eq_some hassume
      have hphase : a.phase = .assume := by simpa using hphase
      have hprovider : p.provider? entries name = some a := by
        simp [Progress.provider?, hassume]
      obtain ⟨n, rfl⟩ : ∃ n, fuel = n + 1 := by
        have hless := undone_begin_lt hmem hundone
        exact ⟨fuel - 1, by omega⟩
      have hplace : resolve entries (n + 1) p a = p.place a :=
        resolve_eq_place hundone fun w hw _ hdepends =>
          absurd hdepends (h.leaves a hmem hphase w hw)
      simp [hprovider, hphase, hplace]
    | none =>
      cases hprovider : p.provider? entries name with
      | none => rfl
      | some w =>
        obtain ⟨hmem, hundone, -, hwrite⟩ := provider?_eq_some hprovider
        have hphase : w.phase ≠ .assume := by
          intro hphase
          rw [isDone_of_writer?_eq_none hassume hmem (by simp [hphase]) hwrite] at hundone
          exact absurd hundone (by decide)
        simp [hphase]

theorem foldl_pull_eq_enumerate (h : Tidy entries) {fuel : Nat} {names : List String}
    (hfuel : undone entries p ≤ fuel) :
    names.foldl (pull entries fuel true) p = names.foldl (enumerate entries) p := by
  induction names generalizing p with
  | nil => rfl
  | cons name rest ih =>
    rw [List.foldl_cons, List.foldl_cons, pull_eq_enumerate h hfuel]
    exact ih (Nat.le_trans ((grown_enumerate p name).undone_le entries) hfuel)

/-- Settling an entry finishes it, if the calculations that it needs are there. -/
theorem settle_eq_finish (h : Tidy entries) (hc : c ∈ entries) (hdone : p.isDone c = false)
    (hready : ∀ w ∈ entries, w.Provides → w.phase ≠ .assume → c.DependsOn w → p.isDone w = true) :
    p.settle entries c = finish entries p c := by
  obtain ⟨n, hn⟩ : ∃ n, entries.length = n + 1 :=
    Nat.exists_eq_succ_of_ne_zero (List.length_pos_of_mem hc).ne'
  have hfirst : c.reads.foldl (pull entries n false) (p.begin c) = p.begin c := by
    apply foldl_pull_eq_self
    intro name hread w hw
    obtain ⟨hmem, hundone, hprovides, hwrite⟩ := provider?_eq_some hw
    by_cases hphase : w.phase = .assume
    · simp [hphase]
    · have hmarked : (p.begin c).isDone w = true :=
        isDone_begin.mpr (Or.inr (hready w hmem hprovides hphase ⟨name, hread, hwrite⟩))
      rw [hmarked] at hundone
      exact absurd hundone (by decide)
  have hfuel : undone entries (p.begin c) ≤ n := by
    have hless := undone_begin_lt hc hdone
    have hle : undone entries p ≤ entries.length := List.countP_le_length
    omega
  rw [Progress.settle, hn, resolve_succ, if_neg (by simp [hdone]), hfirst,
    foldl_pull_eq_enumerate h hfuel]
  rfl

/-! ### What finishing looks at -/

/-- The progress is the same up to the marks of entries that are no enumerations. -/
structure Alike (entries : List Entry) (p q : Progress) : Prop where
  order : p.order = q.order
  written : p.written = q.written
  marks : ∀ a ∈ entries, a.phase = .assume → p.isDone a = q.isDone a

theorem Alike.refl (entries : List Entry) (p : Progress) : Alike entries p p :=
  ⟨rfl, rfl, fun _ _ _ => rfl⟩

theorem Alike.symm (h : Alike entries p q) : Alike entries q p :=
  ⟨h.order.symm, h.written.symm, fun a ha hphase => (h.marks a ha hphase).symm⟩

theorem Alike.trans {r : Progress} (h : Alike entries p q) (h' : Alike entries q r) :
    Alike entries p r :=
  ⟨h.order.trans h'.order, h.written.trans h'.written,
    fun a ha hphase => (h.marks a ha hphase).trans (h'.marks a ha hphase)⟩

theorem Alike.begin (h : Alike entries p q) (e : Entry) :
    Alike entries (p.begin e) (q.begin e) := by
  refine ⟨h.order, h.written, fun a ha hphase => ?_⟩
  rw [Bool.eq_iff_iff, isDone_begin, isDone_begin, h.marks a ha hphase]

theorem Alike.emit (h : Alike entries p q) (e : Entry) : Alike entries (p.emit e) (q.emit e) :=
  ⟨by simp [h.order], by simp [h.written], h.marks⟩

/-- A mark on a calculation is not looked at. -/
theorem alike_begin (hindexed : Indexed entries) (he : e ∈ entries) (hphase : e.phase ≠ .assume)
    (p : Progress) : Alike entries (p.begin e) p := by
  refine ⟨rfl, rfl, fun a ha ha' => ?_⟩
  have hne : a.index ≠ e.index := by
    intro heq
    rw [hindexed a ha e he heq] at ha'
    exact hphase ha'
  rw [Bool.eq_iff_iff, isDone_begin]
  simp [hne]

theorem Alike.enumerate (h : Alike entries p q) (name : String) :
    Alike entries (enumerate entries p name) (enumerate entries q name) := by
  have hwriter : p.writer? entries name (fun e => e.phase = .assume) =
      q.writer? entries name (fun e => e.phase = .assume) := by
    apply List.find?_congr
    intro a ha
    by_cases hphase : a.phase = .assume
    · rw [h.marks a ha hphase]
    · simp [hphase]
  unfold Schedule.enumerate
  rw [h.written, hwriter]
  split
  · exact h
  · split
    · exact (h.begin _).emit _
    · exact h

theorem Alike.foldl_enumerate (h : Alike entries p q) (names : List String) :
    Alike entries (names.foldl (Schedule.enumerate entries) p)
      (names.foldl (Schedule.enumerate entries) q) := by
  induction names generalizing p q with
  | nil => exact h
  | cons name rest ih => exact ih (h.enumerate name)

theorem Alike.finish (h : Alike entries p q) (e : Entry) :
    Alike entries (finish entries p e) (finish entries q e) :=
  ((h.begin e).foldl_enumerate e.reads).emit e

theorem Alike.foldl_finish (h : Alike entries p q) (cs : List Entry) :
    Alike entries (cs.foldl (Schedule.finish entries) p)
      (cs.foldl (Schedule.finish entries) q) := by
  induction cs generalizing p q with
  | nil => exact h
  | cons c rest ih => exact ih (h.finish c)

/-! ### Resolving as finishing one entry after the other -/

/-- A calculation, or a call, that something reads from. -/
def Brought (entries : List Entry) (c : Entry) : Prop :=
  c ∈ entries ∧ c.phase ≠ .assume ∧ c.Provides ∧ ∃ r ∈ entries, r.DependsOn c

/-- Resolving an entry, with so many rounds, is finishing entries that are brought along
    and then the entry itself. -/
def Retraces (entries : List Entry) (fuel : Nat) : Prop :=
  ∀ {stack : List Entry} {p : Progress} {e : Entry}, undone entries p ≤ fuel →
    Consistent entries stack p → e ∈ entries → e.phase ≠ .assume →
    Wanted (fun _ => True) stack e →
    ∃ cs : List Entry, Alike entries (resolve entries fuel p e) (cs.foldl (finish entries) p) ∧
      ∀ c ∈ cs, c = e ∨ Brought entries c

theorem pull_alike {fuel : Nat} (hretraces : Retraces entries fuel)
    (hfuel : undone entries p ≤ fuel) (hp : Consistent entries (e :: stack) p)
    (hread : name ∈ e.reads) :
    ∃ cs : List Entry,
      Alike entries (pull entries fuel false p name) (cs.foldl (finish entries) p) ∧
      ∀ c ∈ cs, Brought entries c := by
  have hnothing : ∃ cs : List Entry, Alike entries p (cs.foldl (finish entries) p) ∧
      ∀ c ∈ cs, Brought entries c := ⟨[], Alike.refl _ _, by simp⟩
  unfold pull
  split
  · exact hnothing
  · split
    · rename_i w hw
      obtain ⟨hmem, -, hprovides, hwrite⟩ := provider?_eq_some hw
      split
      · rename_i hphase
        have hphase : w.phase ≠ .assume := by simpa using hphase
        obtain ⟨cs, halike, hcs⟩ :=
          hretraces hfuel hp hmem hphase ⟨hprovides, name, hread, hwrite⟩
        refine ⟨cs, halike, fun c hc => ?_⟩
        rcases hcs c hc with rfl | hbrought
        · exact ⟨hmem, hphase, hprovides, e, hp.known e (by simp), name, hread, hwrite⟩
        · exact hbrought
      · exact hnothing
    · exact hnothing

theorem foldl_pull_alike (hindexed : Indexed entries) {fuel : Nat}
    (hretraces : Retraces entries fuel) (names : List String)
    (hfuel : undone entries p ≤ fuel) (hp : Consistent entries (e :: stack) p)
    (hreads : ∀ name ∈ names, name ∈ e.reads) :
    ∃ cs : List Entry,
      Alike entries (names.foldl (pull entries fuel false) p) (cs.foldl (finish entries) p) ∧
      ∀ c ∈ cs, Brought entries c := by
  induction names generalizing p with
  | nil => exact ⟨[], Alike.refl _ _, by simp⟩
  | cons name rest ih =>
    have hread := hreads name (by simp)
    obtain ⟨first, halike, hfirst⟩ := pull_alike hretraces hfuel hp hread
    obtain ⟨hafter, -⟩ := pull_keeps (resolve_keeps hindexed (keeps_trivial entries) fuel) false
      hfuel hp trivial hread
    obtain ⟨others, halike', hothers⟩ :=
      ih (Nat.le_trans (hafter.grown.undone_le entries) hfuel) hafter.consistent
        fun n hn => hreads n (by simp [hn])
    refine ⟨first ++ others, ?_, fun c hc => ?_⟩
    · rw [List.foldl_append]
      exact halike'.trans (halike.foldl_finish others)
    · rcases List.mem_append.mp hc with hc | hc
      · exact hfirst c hc
      · exact hothers c hc

theorem resolve_alike (h : Tidy entries) (fuel : Nat) : Retraces entries fuel := by
  induction fuel with
  | zero => exact fun _ _ _ _ _ => ⟨[], Alike.refl _ _, by simp⟩
  | succ fuel ih =>
    intro stack p e hfuel hp he hphase hwanted
    rw [resolve_succ]
    split
    · exact ⟨[], Alike.refl _ _, by simp⟩
    · rename_i hdone
      have hdone : p.isDone e = false := by simpa using hdone
      have hless := undone_begin_lt he hdone
      have hbegun := hp.begin h.indexed he hdone
      obtain ⟨cs, halike, hcs⟩ := foldl_pull_alike h.indexed ih e.reads (by omega) hbegun
        fun _ hread => hread
      obtain ⟨hfirst, -⟩ := first_pass (resolve_keeps h.indexed (keeps_trivial entries) fuel)
        e.reads (by omega) hbegun trivial fun _ hread => hread
      have hfuel' := Nat.le_trans (hfirst.grown.undone_le entries) (Nat.le_of_lt_succ
        (Nat.lt_of_lt_of_le hless hfuel))
      refine ⟨cs ++ [e], ?_, fun c hc => ?_⟩
      · rw [foldl_pull_eq_enumerate h hfuel', List.foldl_append]
        -- the mark on the entry itself is set before, and not after, the first pass
        have hmark : Alike entries (e.reads.foldl (pull entries fuel false) (p.begin e))
            ((cs.foldl (finish entries) p).begin e) :=
          (halike.trans ((alike_begin h.indexed he hphase p).foldl_finish cs)).trans
            (alike_begin h.indexed he hphase _).symm
        exact (hmark.foldl_enumerate e.reads).emit e
      · rcases List.mem_append.mp hc with hc | hc
        · exact Or.inr (hcs c hc)
        · exact Or.inl (List.mem_singleton.mp hc)

theorem foldl_settle_alike (h : Tidy entries) (hp : Consistent entries [] p) (l : List Entry)
    (hl : ∀ e ∈ l, e ∈ entries ∧ e.phase ≠ .assume) :
    ∃ cs : List Entry,
      Alike entries (l.foldl (Progress.settle entries) p) (cs.foldl (finish entries) p) ∧
      ∀ c ∈ cs, c ∈ l ∨ Brought entries c := by
  induction l generalizing p with
  | nil => exact ⟨[], Alike.refl _ _, by simp⟩
  | cons e rest ih =>
    obtain ⟨he, hphase⟩ := hl e (by simp)
    obtain ⟨first, halike, hfirst⟩ :=
      resolve_alike h entries.length List.countP_le_length hp he hphase trivial
    obtain ⟨hafter, -⟩ := settle_keeps h.indexed (keeps_trivial entries) hp trivial he trivial
    obtain ⟨others, halike', hothers⟩ := ih hafter.consistent fun x hx => hl x (by simp [hx])
    refine ⟨first ++ others, ?_, fun c hc => ?_⟩
    · rw [List.foldl_append]
      exact halike'.trans (halike.foldl_finish others)
    · rcases List.mem_append.mp hc with hc | hc
      · rcases hfirst c hc with rfl | hbrought
        · exact Or.inl (by simp)
        · exact Or.inr hbrought
      · rcases hothers c hc with hc | hbrought
        · exact Or.inl (by simp [hc])
        · exact Or.inr hbrought

/-! ### What finishing places -/

theorem order_enumerate (entries : List Entry) (p : Progress) (name : String) :
    ∃ needed, (enumerate entries p name).order = p.order ++ needed ∧
      ∀ a ∈ needed, a.phase = .assume := by
  unfold enumerate
  split
  · exact ⟨[], by simp, by simp⟩
  · split
    · rename_i a ha
      have hphase : a.phase = .assume := by simpa using (writer?_eq_some ha).2.2.1
      exact ⟨[a], rfl, by simp [hphase]⟩
    · exact ⟨[], by simp, by simp⟩

theorem order_foldl_enumerate (entries : List Entry) (p : Progress) (names : List String) :
    ∃ needed, (names.foldl (enumerate entries) p).order = p.order ++ needed ∧
      ∀ a ∈ needed, a.phase = .assume := by
  induction names generalizing p with
  | nil => exact ⟨[], by simp, by simp⟩
  | cons name rest ih =>
    obtain ⟨first, horder, hfirst⟩ := order_enumerate entries p name
    obtain ⟨others, horder', hothers⟩ := ih (enumerate entries p name)
    refine ⟨first ++ others, ?_, List.forall_mem_append.mpr ⟨hfirst, hothers⟩⟩
    rw [List.foldl_cons, horder', horder, List.append_assoc]

theorem order_finish (entries : List Entry) (p : Progress) (c : Entry) :
    ∃ needed, (finish entries p c).order = p.order ++ needed ++ [c] ∧
      ∀ a ∈ needed, a.phase = .assume := by
  obtain ⟨needed, horder, hneeded⟩ := order_foldl_enumerate entries (p.begin c) c.reads
  exact ⟨needed, by simp [finish, horder], hneeded⟩

theorem order_grows_finishing (entries : List Entry) (cs : List Entry) (p : Progress) :
    p.order <+: (cs.foldl (finish entries) p).order := by
  induction cs generalizing p with
  | nil => exact List.prefix_rfl
  | cons c rest ih =>
    obtain ⟨needed, horder, -⟩ := order_finish entries p c
    refine List.IsPrefix.trans ?_ (ih _)
    rw [horder, List.append_assoc]
    exact List.prefix_append _ _

/-- Leaving the enumerations aside, what is placed are the entries that are finished. -/
theorem order_foldl_finish (entries : List Entry) {which : Entry → Bool}
    (hassume : ∀ a : Entry, a.phase = .assume → which a = false) (cs : List Entry)
    (hcs : ∀ c ∈ cs, which c = true) (p : Progress) :
    ∃ placed, (cs.foldl (finish entries) p).order = p.order ++ placed ∧
      placed.filter which = cs := by
  induction cs generalizing p with
  | nil => exact ⟨[], by simp, rfl⟩
  | cons c rest ih =>
    obtain ⟨needed, horder, hneeded⟩ := order_finish entries p c
    obtain ⟨placed, horder', hplaced⟩ := ih (fun x hx => hcs x (by simp [hx])) (finish entries p c)
    refine ⟨needed ++ c :: placed, ?_, ?_⟩
    · rw [List.foldl_cons, horder', horder]
      simp
    · have hnone : needed.filter which = [] :=
        List.filter_eq_nil_iff.mpr fun a ha => by simp [hassume a (hneeded a ha)]
      rw [List.filter_append, hnone, List.nil_append, List.filter_cons_of_pos (hcs c (by simp)),
        hplaced]

/-! ### Meeting entries in the order in which they were placed -/

/-- Everything stands behind what it depends on, guards aside. -/
def Follows (entries ordered : List Entry) : Prop :=
  ∀ before e after, ordered = before ++ e :: after → e.guard = false →
    ∀ w ∈ entries, w.Provides → e.DependsOn w → w ∈ before

theorem Follows.concat {ordered : List Entry} (h : Follows entries ordered)
    (he : e.guard = false → ∀ w ∈ entries, w.Provides → e.DependsOn w → w ∈ ordered) :
    Follows entries (ordered ++ [e]) := by
  intro before x after hsplit hguard
  rcases append_singleton_eq_append_cons hsplit with ⟨rfl, rfl⟩ | ⟨rest, hrest⟩
  · exact he hguard
  · exact h before x rest hrest hguard

theorem follows_order (h : Tidy entries) : Follows entries (order entries) := by
  let M : List Entry → Progress → Prop := fun stack p =>
    stack.Pairwise (fun upper lower => TransGen (DependsAmong entries) lower upper) ∧
      Follows entries p.order
  have hkeeps : Keeps entries (fun _ => True) M := by
    constructor
    · intro stack p e hp hM he _ hwanted
      exact ⟨pairwise_begin hp hM.1 he hwanted, hM.2⟩
    · intro stack p e hp hM hsought
      obtain ⟨htop, hstack⟩ := List.pairwise_cons.mp hM.1
      refine ⟨hstack, hM.2.concat fun _ w hw hprovides hdepends => ?_⟩
      obtain ⟨name, hread, hwrite⟩ := hdepends
      obtain ⟨u, hu, hwrites⟩ := exists_writer_of_sought h.acyclic hp htop (hsought name hread)
        hread hw hprovides hwrite
      rwa [h.single u (hp.known u (List.mem_append_left _ hu)) w hw name hwrites hwrite] at hu
  obtain ⟨-, hkept, -⟩ := order_keeps (M := M) h.nodup
    ⟨List.Pairwise.nil, by intro before e after hsplit; simp at hsplit⟩
    (fun _ hguard _ hM _ => ⟨List.Pairwise.nil, hM.2.concat fun hnot => by simp [hguard] at hnot⟩)
    hkeeps
  exact hkept.2

/-- Entries that are met in the order in which they were finished are finished again. -/
theorem foldl_settle_eq_finish (h : Tidy entries) {ordered : List Entry}
    (hfollows : Follows entries ordered) (hnodup : ordered.Nodup) (cs : List Entry)
    (hcs : ∀ c ∈ cs, c ∈ entries ∧ c.guard = false) (hp : Consistent entries [] p)
    (hplaced : (cs.foldl (finish entries) p).order <+: ordered) :
    cs.foldl (Progress.settle entries) p = cs.foldl (finish entries) p := by
  induction cs generalizing p with
  | nil => rfl
  | cons c rest ih =>
    obtain ⟨hc, hguard⟩ := hcs c (by simp)
    obtain ⟨needed, horder, hneeded⟩ := order_finish entries p c
    obtain ⟨after, hsplit⟩ : ∃ after, ordered = (p.order ++ needed) ++ c :: after := by
      obtain ⟨after, hafter⟩ :=
        (order_grows_finishing entries rest (finish entries p c)).trans hplaced
      refine ⟨after, ?_⟩
      rw [← hafter, horder]
      simp
    have hdone : p.isDone c = false := by
      apply isDone_eq_false hp hc
      intro hmem
      rw [hsplit] at hnodup
      exact (List.nodup_append.mp hnodup).2.2 c (List.mem_append_left _ hmem) c (by simp) rfl
    have hsettle : p.settle entries c = finish entries p c := by
      apply settle_eq_finish h hc hdone
      intro w hw hprovides hphase hdepends
      have hbefore := hfollows _ c after hsplit hguard w hw hprovides hdepends
      rcases List.mem_append.mp hbefore with hmem | hmem
      · exact (hp.marked w hw).mpr (by simpa using hmem)
      · exact absurd (hneeded w hmem) hphase
    have hafter := (settle_keeps h.indexed (keeps_trivial entries) hp trivial hc trivial).1
    rw [List.foldl_cons, List.foldl_cons, hsettle]
    rw [hsettle] at hafter
    exact ih (fun x hx => hcs x (by simp [hx])) hafter.consistent hplaced

end CandidateSearch.Schedule
