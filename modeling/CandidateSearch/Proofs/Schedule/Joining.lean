/-
  CandidateSearch/Proofs/Schedule/Joining.lean
  ============================================
  **Joining entries into blocks changes nothing in their order.**

  The members of the groups, one group after the other, are the ordered entries
  (`members_groups`), so the statements of a schedule are those of the order
  (`flatten_schedule`).  With `order_perm` this says that a schedule holds every statement
  exactly once, whatever depends on what (`schedule_holds_each_once`).  In a group only
  the last member can be anything but a calculation (`joined_groups`).
-/
import CandidateSearch.Proofs.Schedule.Ordering
import CandidateSearch.Schedule.Blocks
import Mathlib.Data.List.TakeWhile

namespace CandidateSearch.Schedule

open Resolved (Stmt)

/-! ### The order is kept -/

/-- The members of groups that are given with the newest first. -/
def membersOf (newestFirst : List Group) : List Entry := newestFirst.reverse.flatMap (·.members)

theorem membersOf_absorb (gs : List Group) (e : Entry) :
    membersOf (absorb gs e) = membersOf gs ++ [e] := by
  unfold absorb
  split
  · have hsplit : membersOf gs =
        membersOf (gs.takeWhile (·.phase = .compute) ++ gs.dropWhile (·.phase = .compute)) := by
      rw [List.takeWhile_append_dropWhile]
    rw [hsplit]
    simp only [membersOf, List.reverse_cons, List.reverse_append, List.flatMap_append,
      List.flatMap_cons, List.flatMap_nil, List.append_nil, List.append_assoc]
  · simp [membersOf]

theorem membersOf_foldl_absorb (ordered : List Entry) (gs : List Group) :
    membersOf (ordered.foldl absorb gs) = membersOf gs ++ ordered := by
  induction ordered generalizing gs with
  | nil => simp
  | cons e rest ih => simp [ih, membersOf_absorb]

theorem flatMap_joinCalcs (gs : List Group) :
    (joinCalcs gs).flatMap (·.members) = gs.flatMap (·.members) := by
  induction gs with
  | nil => rfl
  | cons g rest ih =>
    rw [List.flatMap_cons, ← ih, joinCalcs]
    split
    · rename_i hnil
      simp [hnil]
    · rename_i next others hcons
      split <;> simp [hcons]

theorem members_groups (ordered : List Entry) :
    (groups ordered).flatMap (·.members) = ordered := by
  rw [groups, flatMap_joinCalcs]
  simpa [membersOf] using membersOf_foldl_absorb ordered []

theorem schedule_eq_ok {stmts : List Stmt} (h : ∀ s ∈ stmts, s.isMalformed = false) :
    schedule stmts = .ok ((groups (order (classifyAll stmts))).map Group.block) := by
  have hnone : stmts.findIdx? Stmt.isMalformed = none :=
    List.findIdx?_eq_none_iff.mpr fun s hs => by simp [h s hs]
  simp [schedule, hnone]

theorem schedule_eq_ok_iff {stmts : List Stmt} {blocks : List Block} :
    schedule stmts = .ok blocks ↔
      (∀ s ∈ stmts, s.isMalformed = false) ∧
        blocks = (groups (order (classifyAll stmts))).map Group.block := by
  constructor
  · intro h
    unfold schedule at h
    split at h
    · cases h
    · rename_i hnone
      refine ⟨fun s hs => ?_, (Except.ok.inj h).symm⟩
      simpa using List.findIdx?_eq_none_iff.mp hnone s hs
  · rintro ⟨hformed, rfl⟩
    exact schedule_eq_ok hformed

theorem flatten_blocks (ordered : List Entry) :
    flatten ((groups ordered).map Group.block) = ordered.map (·.stmt) := by
  conv_rhs => rw [← members_groups ordered]
  rw [flatten, List.flatMap_map, List.map_flatMap]
  rfl

/-- **The statements of a schedule are those of the order.** -/
theorem flatten_schedule {stmts : List Stmt} {blocks : List Block}
    (h : schedule stmts = .ok blocks) :
    flatten blocks = (order (classifyAll stmts)).map (·.stmt) := by
  obtain ⟨-, rfl⟩ := schedule_eq_ok_iff.mp h
  exact flatten_blocks _

/-! ### Every statement once -/

theorem getElem?_index {stmts : List Stmt} {e : Entry} (he : e ∈ classifyAll stmts) :
    stmts[e.index]? = some e.stmt := by
  rcases mem_classifyAll.mp he with ⟨i, s, hs, rfl⟩
  exact hs

theorem map_index_order_perm (stmts : List Stmt) :
    ((order (classifyAll stmts)).map (·.index)).Perm (List.range stmts.length) := by
  rw [← map_index_classifyAll]
  exact (order_perm (nodup_index_classifyAll stmts)).map _

/-- **A schedule loses nothing and doubles nothing.**  A list without malformed statements
    has a schedule.  The places of its entries in the order are all the places of the
    list, each once, and the statements of the blocks, one block after the other, are
    those that stand at these places.  Circles, several writers of a variable and guards
    make no difference. -/
theorem schedule_holds_each_once {stmts : List Stmt}
    (hformed : ∀ s ∈ stmts, s.isMalformed = false) :
    ∃ blocks, schedule stmts = .ok blocks ∧
      ((order (classifyAll stmts)).map (·.index)).Perm (List.range stmts.length) ∧
      (flatten blocks).map some =
        ((order (classifyAll stmts)).map (·.index)).map fun place => stmts[place]? := by
  refine ⟨_, schedule_eq_ok hformed, map_index_order_perm stmts, ?_⟩
  rw [flatten_blocks, List.map_map, List.map_map]
  apply List.map_congr_left
  intro e he
  have hmem : e ∈ classifyAll stmts := (order_perm (nodup_index_classifyAll stmts)).mem_iff.mp he
  exact (getElem?_index hmem).symm

/-- The body `A = B; B = A; A = A + B; when(A < 3);`: a circle of two statements, a second
    writer of `A` that also reads it, and a guard behind them. -/
def tangledBody : List Stmt :=
  let a : Resolved.Var := ⟨"A", .integer, .inner 0, false⟩
  let b : Resolved.Var := ⟨"B", .integer, .inner 1, false⟩
  [{ action := .assign (.single a) (.var b) },
   { action := .assign (.single b) (.var a) },
   { action := .assign (.single a) (.binary .add (.var a) (.var b)) },
   { action := .guard (.binary .lt (.var a) (.number "3")) }]

theorem schedule_holds_each_once_tangledBody :
    (∀ s ∈ tangledBody, s.isMalformed = false) ∧
    ∃ blocks, schedule tangledBody = .ok blocks ∧
      ((order (classifyAll tangledBody)).map (·.index)).Perm (List.range tangledBody.length) ∧
      (flatten blocks).map some =
        ((order (classifyAll tangledBody)).map (·.index)).map fun place => tangledBody[place]? := by
  have hformed : ∀ s ∈ tangledBody, s.isMalformed = false := by decide
  exact ⟨hformed, schedule_holds_each_once hformed⟩

/-! ### The shape of groups -/

/-- Calculations and then an entry that gives the group its phase. -/
def Group.Joined (g : Group) : Prop :=
  ∃ calcs last, g.members = calcs ++ [last] ∧ (∀ e ∈ calcs, e.phase = .compute) ∧
    last.phase = g.phase

theorem Group.Joined.compute {g : Group} (h : g.Joined) (hphase : g.phase = .compute) :
    ∀ e ∈ g.members, e.phase = .compute := by
  obtain ⟨calcs, last, hmembers, hcalcs, hlast⟩ := h
  intro e he
  rw [hmembers, List.mem_append, List.mem_singleton] at he
  rcases he with he | rfl
  · exact hcalcs e he
  · rw [hlast, hphase]

theorem joined_absorb {gs : List Group} (h : ∀ g ∈ gs, g.Joined) (e : Entry) :
    ∀ g ∈ absorb gs e, g.Joined := by
  intro g hg
  unfold absorb at hg
  split at hg
  · rcases List.mem_cons.mp hg with rfl | hg
    · refine ⟨_, e, rfl, fun x hx => ?_, rfl⟩
      obtain ⟨group, hgroup, hx⟩ := List.mem_flatMap.mp hx
      have hgroup := List.mem_reverse.mp hgroup
      have hphase : group.phase = .compute := by simpa using List.mem_takeWhile_imp hgroup
      exact (h group (List.takeWhile_subset _ hgroup)).compute hphase x hx
    · exact h g (List.dropWhile_subset _ hg)
  · rcases List.mem_cons.mp hg with rfl | hg
    · exact ⟨[], e, rfl, by simp, rfl⟩
    · exact h g hg

theorem joined_foldl_absorb (ordered : List Entry) {gs : List Group} (h : ∀ g ∈ gs, g.Joined) :
    ∀ g ∈ ordered.foldl absorb gs, g.Joined := by
  induction ordered generalizing gs with
  | nil => exact h
  | cons e rest ih => exact ih (joined_absorb h e)

theorem joined_joinCalcs {gs : List Group} (h : ∀ g ∈ gs, g.Joined) :
    ∀ g ∈ joinCalcs gs, g.Joined := by
  induction gs with
  | nil => simp [joinCalcs]
  | cons g rest ih =>
    have hrest := ih fun x hx => h x (by simp [hx])
    have hg := h g (by simp)
    intro x hx
    rw [joinCalcs] at hx
    split at hx
    · rw [List.mem_singleton.mp hx]
      exact hg
    · rename_i next others hcons
      rw [hcons] at hrest
      split at hx
      · rename_i hcalcs
        rcases List.mem_cons.mp hx with rfl | hx
        · obtain ⟨calcs, last, hmembers, hall, hlast⟩ := hrest next (by simp)
          refine ⟨g.members ++ calcs, last, by simp [hmembers], fun e he => ?_, ?_⟩
          · rcases List.mem_append.mp he with he | he
            · exact hg.compute hcalcs.1 e he
            · exact hall e he
          · rw [hlast, hcalcs.2]
            exact hcalcs.1.symm
        · exact hrest x (by simp [hx])
      · rcases List.mem_cons.mp hx with rfl | hx
        · exact hg
        · exact hrest x hx

/-- **In a group only the last member can be anything but a calculation.** -/
theorem joined_groups (ordered : List Entry) : ∀ g ∈ groups ordered, g.Joined := by
  apply joined_joinCalcs
  intro g hg
  exact joined_foldl_absorb ordered (by simp) g (List.mem_reverse.mp hg)

end CandidateSearch.Schedule
