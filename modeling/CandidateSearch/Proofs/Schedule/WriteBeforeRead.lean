/-
  CandidateSearch/Proofs/Schedule/WriteBeforeRead.lean
  ====================================================
  **What a statement reads has been written before.**

  A statement depends on the statements that write what it reads, inputs aside:

      Y = X + 1;   X = for(0, 3, 1);   test(Y < 3);

  Here the test depends on the first statement and that one on the second.  If no
  statement depends on itself, directly or through others, then in a schedule a writer of
  each variable stands in front of its readers.  The exception is a variable that only
  constraints write: a constraint is never brought forward for its readers.

  The invariant joins what is placed to the stack: each entry on the stack depends on all
  entries above it.  So none of them can be the missing writer of what the top reads.
-/
import CandidateSearch.Proofs.Schedule.Joining
import Mathlib.Logic.Relation

namespace CandidateSearch

open Relation (TransGen)

namespace Resolved.Stmt

def Binds (s : Stmt) (name : String) : Prop := ∃ v ∈ s.writes, v.name = name

/-- The statement reads a variable that the other one writes; inputs do not count. -/
def DependsOn (s t : Stmt) : Prop := ∃ v ∈ s.reads, v.input = false ∧ t.Binds v.name

end Resolved.Stmt

namespace Schedule

open Resolved (Stmt)

def DependsIn (stmts : List Stmt) (s t : Stmt) : Prop :=
  s ∈ stmts ∧ t ∈ stmts ∧ s.DependsOn t

/-- No statement of the list depends on itself, be it through others. -/
def Acyclic (stmts : List Stmt) : Prop := ∀ s, ¬ TransGen (DependsIn stmts) s s

/-- Statements that can be ranked, each above those that it depends on, have no circle. -/
theorem acyclic_of_rank {stmts : List Stmt} (rank : Stmt → Nat)
    (h : ∀ s ∈ stmts, ∀ t ∈ stmts, s.DependsOn t → rank t < rank s) : Acyclic stmts := by
  intro s hcircle
  have hdescends : ∀ t, TransGen (DependsIn stmts) s t → rank t < rank s := by
    intro t ht
    induction ht with
    | single hstep => exact h _ hstep.1 _ hstep.2.1 hstep.2.2
    | tail _ hlast ih => exact (h _ hlast.1 _ hlast.2.1 hlast.2.2).trans ih
  exact (hdescends s hcircle).false

/-! ### Dependence between entries -/

def Entry.DependsOn (e w : Entry) : Prop := ∃ name ∈ e.reads, name ∈ w.writes

def DependsAmong (entries : List Entry) (e w : Entry) : Prop :=
  e ∈ entries ∧ w ∈ entries ∧ e.DependsOn w

theorem mem_writeNames {s : Stmt} {name : String} : name ∈ writeNames s ↔ s.Binds name := by
  rw [writeNames, mem_distinct, List.mem_map]
  rfl

theorem mem_readNames {s : Stmt} {name : String} :
    name ∈ readNames s ↔ ∃ v ∈ s.reads, v.input = false ∧ v.name = name := by
  simp [readNames, mem_distinct, and_assoc]

theorem dependsOn_classify {i j : Nat} {s t : Stmt} :
    (classify i s).DependsOn (classify j t) ↔ s.DependsOn t := by
  constructor
  · rintro ⟨name, hread, hwrite⟩
    obtain ⟨v, hv, hinput, rfl⟩ := mem_readNames.mp hread
    exact ⟨v, hv, hinput, mem_writeNames.mp hwrite⟩
  · rintro ⟨v, hv, hinput, hbinds⟩
    exact ⟨v.name, mem_readNames.mpr ⟨v, hv, hinput, rfl⟩, mem_writeNames.mpr hbinds⟩

theorem eq_classify {stmts : List Stmt} {e : Entry} (he : e ∈ classifyAll stmts) :
    e.stmt ∈ stmts ∧ e = classify e.index e.stmt := by
  obtain ⟨i, s, hs, rfl⟩ := mem_classifyAll.mp he
  exact ⟨List.mem_of_getElem? hs, rfl⟩

theorem dependsIn_of_dependsAmong {stmts : List Stmt} {e w : Entry}
    (h : DependsAmong (classifyAll stmts) e w) : DependsIn stmts e.stmt w.stmt := by
  obtain ⟨he, hw, hdepends⟩ := h
  obtain ⟨hestmt, hecls⟩ := eq_classify he
  obtain ⟨hwstmt, hwcls⟩ := eq_classify hw
  rw [hecls, hwcls] at hdepends
  exact ⟨hestmt, hwstmt, dependsOn_classify.mp hdepends⟩

theorem not_transGen_of_acyclic {stmts : List Stmt} (h : Acyclic stmts) (e : Entry) :
    ¬ TransGen (DependsAmong (classifyAll stmts)) e e := fun hcircle =>
  h e.stmt (hcircle.lift (·.stmt) fun _ _ => dependsIn_of_dependsAmong)

/-! ### The invariant -/

/-- Each entry of an order has, for every variable that it reads and that something could
    provide, a writer in front of it. -/
def Provided (entries ordered : List Entry) : Prop :=
  ∀ before e after, ordered = before ++ e :: after → ∀ name ∈ e.reads,
    (∃ w ∈ entries, w.Provides ∧ name ∈ w.writes) → ∃ w ∈ before, name ∈ w.writes

theorem append_singleton_eq_append_cons {α : Type} {l before after : List α} {a b : α}
    (h : l ++ [a] = before ++ b :: after) :
    (before = l ∧ b = a) ∨ ∃ rest, l = before ++ b :: rest := by
  rcases List.eq_nil_or_concat after with rfl | ⟨rest, c, rfl⟩
  · obtain ⟨hl, ha⟩ := List.append_inj' h rfl
    exact Or.inl ⟨hl.symm, (List.cons.inj ha).1.symm⟩
  · have hassoc : before ++ b :: (rest.concat c) = (before ++ b :: rest) ++ [c] := by simp
    rw [hassoc] at h
    exact Or.inr ⟨rest, (List.append_inj' h rfl).1⟩

theorem Provided.concat {entries ordered : List Entry} {e : Entry}
    (h : Provided entries ordered)
    (he : ∀ name ∈ e.reads, (∃ w ∈ entries, w.Provides ∧ name ∈ w.writes) →
      ∃ w ∈ ordered, name ∈ w.writes) :
    Provided entries (ordered ++ [e]) := by
  intro before x after hsplit name hread hprovider
  rcases append_singleton_eq_append_cons hsplit with ⟨rfl, rfl⟩ | ⟨rest, hrest⟩
  · exact he name hread hprovider
  · exact h before x rest hrest name hread hprovider

/-- Each entry on the stack depends on those above it, and what is placed is provided. -/
def Descending (entries stack : List Entry) (p : Progress) : Prop :=
  stack.Pairwise (fun upper lower => TransGen (DependsAmong entries) lower upper) ∧
    Provided entries p.order

theorem pairwise_begin {entries stack : List Entry} {p : Progress} {e : Entry}
    {asked : Entry → Prop} (hp : Consistent entries stack p)
    (h : stack.Pairwise fun upper lower => TransGen (DependsAmong entries) lower upper)
    (he : e ∈ entries) (hwanted : Wanted asked stack e) :
    (e :: stack).Pairwise fun upper lower => TransGen (DependsAmong entries) lower upper := by
  refine List.pairwise_cons.mpr ⟨fun lower hlower => ?_, h⟩
  cases stack with
  | nil => cases hlower
  | cons top rest =>
    obtain ⟨-, name, hread, hwrite⟩ := hwanted
    have htop : DependsAmong entries top e :=
      ⟨hp.known top (by simp), he, name, hread, hwrite⟩
    rcases List.mem_cons.mp hlower with rfl | hlower
    · exact TransGen.single htop
    · exact ((List.pairwise_cons.mp h).1 lower hlower).tail htop

theorem descending_begin {entries stack : List Entry} {p : Progress} {e : Entry}
    {asked : Entry → Prop} (hp : Consistent entries stack p) (h : Descending entries stack p)
    (he : e ∈ entries) (hwanted : Wanted asked stack e) :
    Descending entries (e :: stack) (p.begin e) :=
  ⟨pairwise_begin hp h.1 he hwanted, h.2⟩

/-- When nothing more can be done for a variable that the top of the stack reads and that
    something could provide, a writer of it has been placed. -/
theorem exists_writer_of_sought {entries stack : List Entry} {p : Progress} {e w : Entry}
    {name : String} (hacyclic : ∀ e, ¬ TransGen (DependsAmong entries) e e)
    (hp : Consistent entries (e :: stack) p)
    (htop : ∀ lower ∈ stack, TransGen (DependsAmong entries) lower e)
    (hsought : Sought entries p name) (hread : name ∈ e.reads) (hw : w ∈ entries)
    (hprovides : w.Provides) (hwrite : name ∈ w.writes) : ∃ w ∈ p.order, name ∈ w.writes := by
  rcases hsought with hwritten | hnone
  · exact hp.mem_written.mp hwritten
  · -- all that could provide the variable is marked; a circle would be needed for it to
    -- be on the stack
    have hdone := provider?_eq_none.mp hnone w hw hprovides hwrite
    have hdepends : DependsAmong entries e w :=
      ⟨hp.known e (by simp), hw, name, hread, hwrite⟩
    rcases List.mem_append.mp ((hp.marked w hw).mp hdone) with hplaced | hopen
    · exact ⟨w, hplaced, hwrite⟩
    · rcases List.mem_cons.mp hopen with rfl | hbelow
      · exact absurd (TransGen.single hdepends) (hacyclic w)
      · exact absurd (TransGen.head hdepends (htop w hbelow)) (hacyclic e)

theorem descending_emit {entries stack : List Entry} {p : Progress} {e : Entry}
    (hacyclic : ∀ e, ¬ TransGen (DependsAmong entries) e e)
    (hp : Consistent entries (e :: stack) p) (h : Descending entries (e :: stack) p)
    (hsought : ∀ name ∈ e.reads, Sought entries p name) :
    Descending entries stack (p.emit e) := by
  obtain ⟨hstack, hprovided⟩ := h
  obtain ⟨htop, hstack⟩ := List.pairwise_cons.mp hstack
  refine ⟨hstack, hprovided.concat fun name hread ⟨w, hw, hprovides, hwrite⟩ => ?_⟩
  exact exists_writer_of_sought hacyclic hp htop (hsought name hread) hread hw hprovides hwrite

theorem keeps_descending {entries : List Entry} {asked : Entry → Prop}
    (hacyclic : ∀ e, ¬ TransGen (DependsAmong entries) e e) :
    Keeps entries asked (Descending entries) where
  begin hp h he _ hwanted := descending_begin hp h he hwanted
  emit hp h hsought := descending_emit hacyclic hp h hsought

theorem descending_start (entries : List Entry) : Descending entries [] {} :=
  ⟨List.Pairwise.nil, by
    intro before e after h
    simp at h⟩

/-- Without guards, the order has a writer in front of each reader. -/
theorem provided_order {entries : List Entry} (hnodup : (entries.map (·.index)).Nodup)
    (hguards : ∀ e ∈ entries, e.guard = false)
    (hacyclic : ∀ e, ¬ TransGen (DependsAmong entries) e e) :
    Provided entries (order entries) := by
  obtain ⟨-, hkept, -⟩ := order_keeps hnodup (descending_start entries)
    (fun he hguard _ _ _ => absurd (hguards _ he) (by simp [hguard]))
    (keeps_descending hacyclic)
  exact hkept.2

/-! ### Statements -/

theorem provides_of_binds {s : Stmt} {name : String} (hbinds : s.Binds name)
    (hconstraint : s.isConstraint = false) (i : Nat) : (classify i s).Provides := by
  obtain ⟨v, hv, -⟩ := hbinds
  show phaseOf s = .assume ∨ phaseOf s = .compute ∨ (phaseOf s = .other ∧ s.isGuard = false)
  cases haction : s.action <;>
    simp_all [phaseOf, Stmt.isGuard, Stmt.writes]

theorem order_eq_append_of_map {stmts before after : List Stmt} {s : Stmt}
    (h : (order (classifyAll stmts)).map (·.stmt) = before ++ s :: after) :
    ∃ first e last, order (classifyAll stmts) = first ++ e :: last ∧
      first.map (·.stmt) = before ∧ e.stmt = s ∧ last.map (·.stmt) = after := by
  obtain ⟨first, rest, horder, hfirst, hrest⟩ := List.map_eq_append_iff.mp h
  obtain ⟨e, last, rfl, he, hlast⟩ := List.map_eq_cons_iff.mp hrest
  exact ⟨first, e, last, horder, hfirst, he, hlast⟩

theorem flatten_perm {stmts : List Stmt} {blocks : List Block}
    (h : schedule stmts = .ok blocks) : (flatten blocks).Perm stmts := by
  rw [flatten_schedule h]
  have hperm := (order_perm (nodup_index_classifyAll stmts)).map (·.stmt)
  rwa [map_stmt_classifyAll] at hperm

/-- **Write before read.**  A list without guards and malformed statements in which
    nothing depends on itself has a schedule, which holds the same statements, and in it a
    writer of each variable that a statement reads stands in front of that statement, for
    every variable that is no input and has a writer other than a constraint. -/
theorem written_before_read {stmts : List Stmt} (hguards : ∀ s ∈ stmts, s.isGuard = false)
    (hformed : ∀ s ∈ stmts, s.isMalformed = false) (hacyclic : Acyclic stmts) :
    ∃ blocks, schedule stmts = .ok blocks ∧ (flatten blocks).Perm stmts ∧
      ∀ before s after, flatten blocks = before ++ s :: after →
        ∀ v ∈ s.reads, v.input = false →
          (∃ t ∈ stmts, t.Binds v.name ∧ t.isConstraint = false) →
          ∃ t ∈ before, t.Binds v.name := by
  refine ⟨_, schedule_eq_ok hformed, flatten_perm (schedule_eq_ok hformed), ?_⟩
  rintro before s after hsplit v hv hinput ⟨t, ht, hbinds, hconstraint⟩
  rw [flatten_blocks] at hsplit
  obtain ⟨first, e, last, horder, rfl, rfl, -⟩ := order_eq_append_of_map hsplit
  have hmem : e ∈ classifyAll stmts :=
    (order_perm (nodup_index_classifyAll stmts)).mem_iff.mp (by simp [horder])
  obtain ⟨i, hi⟩ := List.getElem?_of_mem ht
  have hprovided := provided_order (nodup_index_classifyAll stmts)
    (fun e he => by rw [(eq_classify he).2]; exact hguards _ (eq_classify he).1)
    (not_transGen_of_acyclic hacyclic) first e last horder v.name
    (by rw [(eq_classify hmem).2]; exact mem_readNames.mpr ⟨v, hv, hinput, rfl⟩)
    ⟨classify i t, mem_classifyAll.mpr ⟨i, t, hi, rfl⟩, provides_of_binds hbinds hconstraint i,
      mem_writeNames.mpr hbinds⟩
  obtain ⟨w, hw, hwrites⟩ := hprovided
  have hwmem : w ∈ classifyAll stmts :=
    (order_perm (nodup_index_classifyAll stmts)).mem_iff.mp (by simp [horder, hw])
  rw [(eq_classify hwmem).2] at hwrites
  exact ⟨w.stmt, List.mem_map_of_mem hw, mem_writeNames.mp hwrites⟩

/-- The body `test(Y < 3); Y = X + 1; X = for(0, 3, 1);`, which has to be turned around. -/
def turnedBody : List Stmt :=
  let x : Resolved.Var := ⟨"X", .integer, .inner 0, false⟩
  let y : Resolved.Var := ⟨"Y", .integer, .inner 1, false⟩
  [{ action := .test (.binary .lt (.var y) (.number "3")) },
   { action := .assign (.single y) (.binary .add (.var x) (.number "1")) },
   { action := .range x (.number "0") (.number "3") (.number "1") }]

theorem written_before_read_turnedBody :
    ((∀ s ∈ turnedBody, s.isGuard = false) ∧ (∀ s ∈ turnedBody, s.isMalformed = false) ∧
      Acyclic turnedBody) ∧
    ∃ blocks, schedule turnedBody = .ok blocks ∧ (flatten blocks).Perm turnedBody ∧
      ∀ before s after, flatten blocks = before ++ s :: after →
        ∀ v ∈ s.reads, v.input = false →
          (∃ t ∈ turnedBody, t.Binds v.name ∧ t.isConstraint = false) →
          ∃ t ∈ before, t.Binds v.name := by
  have hguards : ∀ s ∈ turnedBody, s.isGuard = false := by decide
  have hformed : ∀ s ∈ turnedBody, s.isMalformed = false := by decide
  have hacyclic : Acyclic turnedBody :=
    acyclic_of_rank (fun s => 2 * s.reads.length - s.writes.length) (by
      simp [turnedBody, Stmt.DependsOn, Stmt.Binds, Stmt.reads, Stmt.writes,
        Resolved.Expr.reads, Resolved.Target.vars])
  exact ⟨⟨hguards, hformed, hacyclic⟩, written_before_read hguards hformed hacyclic⟩

end Schedule

end CandidateSearch
