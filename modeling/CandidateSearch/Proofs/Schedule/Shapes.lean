/-
  CandidateSearch/Proofs/Schedule/Shapes.lean
  ===========================================
  **What a block can look like.**

      phase      statements
      test       calculations, and then one test
      calc       calculations, one at least
      assume     one statement
      other      one statement

  A block of calculations is followed neither by another one nor by a test
  (`shaped_schedule`): a test takes the calculations in front of it, and what is left of
  them is joined afterwards.  The operands of a block are the variables that it needs from
  outside (`mem_operands`).

  Both passes of the joining look at phases only, so all this holds for every order of the
  statements.
-/
import CandidateSearch.Proofs.Schedule.WriteBeforeRead
import Mathlib.Data.List.Chain

namespace CandidateSearch.Schedule

open Resolved (Stmt)

/-! ### Groups with one member -/

/-- The group has one member, unless calculations can be joined to it. -/
def Group.Alone (g : Group) : Prop :=
  g.phase ≠ .test → g.phase ≠ .compute → ∃ e, g.members = [e]

theorem alone_absorb {gs : List Group} (h : ∀ g ∈ gs, g.Alone) (e : Entry) :
    ∀ g ∈ absorb gs e, g.Alone := by
  intro g hg
  unfold absorb at hg
  split at hg
  · rename_i htest
    rcases List.mem_cons.mp hg with rfl | hg
    · intro hphase
      exact absurd htest hphase
    · exact h g (List.dropWhile_subset _ hg)
  · rcases List.mem_cons.mp hg with rfl | hg
    · intro _ _
      exact ⟨e, rfl⟩
    · exact h g hg

theorem alone_foldl_absorb (ordered : List Entry) {gs : List Group} (h : ∀ g ∈ gs, g.Alone) :
    ∀ g ∈ ordered.foldl absorb gs, g.Alone := by
  induction ordered generalizing gs with
  | nil => exact h
  | cons e rest ih => exact ih (alone_absorb h e)

theorem alone_joinCalcs {gs : List Group} (h : ∀ g ∈ gs, g.Alone) :
    ∀ g ∈ joinCalcs gs, g.Alone := by
  induction gs with
  | nil => simp [joinCalcs]
  | cons g rest ih =>
    obtain ⟨hg, hrest⟩ := List.forall_mem_cons.mp h
    have hjoined := ih hrest
    rw [joinCalcs]
    split
    · exact List.forall_mem_singleton.mpr hg
    · rename_i next others hcons
      rw [hcons] at hjoined
      split
      · rename_i hcalcs
        refine List.forall_mem_cons.mpr ⟨?_, (List.forall_mem_cons.mp hjoined).2⟩
        intro _ hphase
        exact absurd hcalcs.1 hphase
      · exact List.forall_mem_cons.mpr ⟨hg, hjoined⟩

theorem alone_groups (ordered : List Entry) : ∀ g ∈ groups ordered, g.Alone := by
  apply alone_joinCalcs
  intro g hg
  exact alone_foldl_absorb ordered (by simp) g (List.mem_reverse.mp hg)

/-! ### Groups that stand next to each other -/

/-- The first pass leaves no calculation in front of a test. -/
def Untaken (g next : Group) : Prop := next.phase = .test → g.phase ≠ .compute

/-- Nothing of the second group could have been joined to the first. -/
def Apart (phase next : Phase) : Prop := phase = .compute → next ≠ .compute ∧ next ≠ .test

theorem isChain_absorb {gs : List Group} (h : gs.IsChain (flip Untaken)) (e : Entry) :
    (absorb gs e).IsChain (flip Untaken) := by
  unfold absorb
  split
  · refine List.isChain_cons.mpr ⟨fun next hnext _ => ?_, h.suffix (List.dropWhile_suffix _)⟩
    -- what is left begins with a group that is not taken
    have hkept := List.head?_dropWhile_not (fun g : Group => decide (g.phase = .compute)) gs
    rw [Option.mem_def.mp hnext] at hkept
    simpa using hkept
  · rename_i htest
    exact List.isChain_cons.mpr ⟨fun next _ hphase => absurd hphase htest, h⟩

theorem isChain_foldl_absorb (ordered : List Entry) {gs : List Group}
    (h : gs.IsChain (flip Untaken)) : (ordered.foldl absorb gs).IsChain (flip Untaken) := by
  induction ordered generalizing gs with
  | nil => exact h
  | cons e rest ih => exact ih (isChain_absorb h e)

theorem phase_head_joinCalcs (g : Group) (rest : List Group) :
    ((joinCalcs (g :: rest)).head?.map (·.phase)) = some g.phase := by
  rw [joinCalcs]
  split
  · rfl
  · split <;> rfl

theorem isChain_joinCalcs {gs : List Group} (h : gs.IsChain Untaken) :
    (joinCalcs gs).IsChain fun g next => Apart g.phase next.phase := by
  induction gs with
  | nil => exact List.isChain_nil
  | cons g rest ih =>
    obtain ⟨hnext, hrest⟩ := List.isChain_cons.mp h
    have hjoined := ih hrest
    rw [joinCalcs]
    split
    · exact List.isChain_singleton _
    · rename_i next others hcons
      rw [hcons] at hjoined
      -- joining keeps the phase of the group in front
      obtain ⟨second, hsecond, hphase⟩ : ∃ second ∈ rest.head?, second.phase = next.phase := by
        cases rest with
        | nil => cases hcons
        | cons second later =>
          have hhead := phase_head_joinCalcs second later
          rw [hcons] at hhead
          exact ⟨second, rfl, (Option.some.inj hhead).symm⟩
      have huntaken := hnext second hsecond
      split
      · rename_i hcalcs
        obtain ⟨hafter, hlater⟩ := List.isChain_cons.mp hjoined
        refine List.isChain_cons.mpr ⟨fun after hmem _ => ?_, hlater⟩
        exact hafter after hmem hcalcs.2
      · rename_i hsplit
        refine List.isChain_cons_cons.mpr ⟨fun hcompute => ⟨?_, ?_⟩, hjoined⟩
        · exact fun hboth => hsplit ⟨hcompute, hboth⟩
        · intro htest
          exact huntaken (hphase.trans htest) hcompute

theorem isChain_groups (ordered : List Entry) :
    (groups ordered).IsChain fun g next => Apart g.phase next.phase := by
  apply isChain_joinCalcs
  rw [List.isChain_reverse]
  exact isChain_foldl_absorb ordered List.isChain_nil

/-! ### Blocks -/

/-- The statements of a block, by its phase. -/
def Block.Shaped (b : Block) : Prop :=
  match b.phase with
  | .test => ∃ calcs last, b.stmts = calcs ++ [last] ∧
      (∀ s ∈ calcs, phaseOf s = .compute) ∧ phaseOf last = .test
  | .compute => b.stmts ≠ [] ∧ ∀ s ∈ b.stmts, phaseOf s = .compute
  | .assume | .other => ∃ s, b.stmts = [s] ∧ phaseOf s = b.phase

/-- The statement reads a variable of the name that is not an input. -/
def Reads (s : Stmt) (name : String) : Prop := ∃ v ∈ s.reads, v.input = false ∧ v.name = name

/-- A variable is an operand if it is read inside and written nowhere inside. -/
def Block.NeedsOperands (b : Block) : Prop :=
  ∀ name, name ∈ b.operands ↔ (∃ s ∈ b.stmts, Reads s name) ∧ ∀ s ∈ b.stmts, ¬ s.Binds name

theorem shaped_block {g : Group} (hjoined : g.Joined) (halone : g.Alone)
    (hphases : ∀ e ∈ g.members, e.phase = phaseOf e.stmt) : g.block.Shaped := by
  obtain ⟨calcs, last, hmembers, hcalcs, hlast⟩ := id hjoined
  unfold Block.Shaped
  cases hphase : g.block.phase with
  | test =>
    refine ⟨calcs.map (·.stmt), last.stmt, by simp [Group.block, hmembers], ?_, ?_⟩
    · intro s hs
      obtain ⟨e, he, rfl⟩ := List.mem_map.mp hs
      rw [← hphases e (by simp [hmembers, he])]
      exact hcalcs e he
    · rw [← hphases last (by simp [hmembers]), hlast]
      exact hphase
  | compute =>
    refine ⟨by simp [Group.block, hmembers], fun s hs => ?_⟩
    obtain ⟨e, he, rfl⟩ := List.mem_map.mp hs
    rw [← hphases e he]
    exact hjoined.compute hphase e he
  | assume | other =>
    have hphase : g.phase = _ := hphase
    obtain ⟨e, he⟩ := halone (by simp [hphase]) (by simp [hphase])
    have hsame : [last] = [e] := by
      rw [he] at hmembers
      exact (List.append_eq_singleton_iff.mp hmembers.symm).resolve_right (by simp) |>.2
    cases hsame
    refine ⟨last.stmt, by simp [Group.block, he], ?_⟩
    rw [← hphases last (by simp [he]), hlast, hphase]

theorem mem_operands {g : Group} (hentries : ∀ e ∈ g.members, e = classify e.index e.stmt) :
    g.block.NeedsOperands := by
  intro name
  have hreads : ∀ e ∈ g.members, (name ∈ e.reads ↔ Reads e.stmt name) := by
    intro e he
    rw [hentries e he]
    exact mem_readNames
  have hwrites : ∀ e ∈ g.members, (name ∈ e.writes ↔ e.stmt.Binds name) := by
    intro e he
    rw [hentries e he]
    exact mem_writeNames
  simp only [Group.block, List.mem_filter, mem_distinct, List.mem_flatMap, List.contains_eq_mem,
    Bool.not_eq_eq_eq_not, Bool.not_true, decide_eq_false_iff_not, not_exists, not_and,
    List.mem_map, exists_exists_and_eq_and, forall_exists_index, and_imp,
    forall_apply_eq_imp_iff₂]
  refine and_congr ⟨?_, ?_⟩ (forall₂_congr fun e he => not_congr (hwrites e he))
  · rintro ⟨e, he, hread⟩
    exact ⟨e, he, (hreads e he).mp hread⟩
  · rintro ⟨e, he, hread⟩
    exact ⟨e, he, (hreads e he).mpr hread⟩

theorem classified_of_mem_groups {stmts : List Stmt} {g : Group}
    (hg : g ∈ groups (order (classifyAll stmts))) : ∀ e ∈ g.members, e = classify e.index e.stmt := by
  intro e he
  have hordered : e ∈ order (classifyAll stmts) := by
    rw [← members_groups (order (classifyAll stmts))]
    exact List.mem_flatMap.mpr ⟨g, hg, he⟩
  exact (eq_classify ((order_perm (nodup_index_classifyAll stmts)).mem_iff.mp hordered)).2

/-- **The blocks of a schedule.**  Each has the shape of its phase and names what it needs
    from outside, and no two neighbours could have been joined. -/
theorem shaped_schedule {stmts : List Stmt} {blocks : List Block}
    (h : schedule stmts = .ok blocks) :
    (∀ b ∈ blocks, b.Shaped ∧ b.NeedsOperands) ∧
      blocks.IsChain fun b next => Apart b.phase next.phase := by
  obtain ⟨-, rfl⟩ := schedule_eq_ok_iff.mp h
  refine ⟨fun b hb => ?_, ?_⟩
  · obtain ⟨g, hg, rfl⟩ := List.mem_map.mp hb
    have hentries := classified_of_mem_groups hg
    refine ⟨shaped_block (joined_groups _ g hg) (alone_groups _ g hg) ?_, mem_operands hentries⟩
    intro e he
    rw [hentries e he]
    rfl
  · rw [List.isChain_map]
    exact isChain_groups _

end CandidateSearch.Schedule
