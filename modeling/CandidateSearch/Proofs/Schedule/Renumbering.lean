/-
  CandidateSearch/Proofs/Schedule/Renumbering.lean
  ================================================
  **What the order of execution does not depend on.**

  The places of the entries serve to tell them apart and for nothing else.  If they are
  given other numbers, each entry its own, the order is the same with the new numbers in
  it (`order_renumber`), and the blocks do not change at all (`blocks_renumber`).

  Where no variable has two writers it does not matter either in which order the entries
  are searched for a provider: `resolve` is the same function for a permutation of them
  (`resolve_perm`).  The loops of the ordering do go through the entries from front to
  back, so the order as a whole can change.
-/
import CandidateSearch.Proofs.Schedule.BeforeTests
import Mathlib.Data.List.Find

namespace CandidateSearch.Schedule

/-! ### Renumbering -/

def Entry.renumber (number : Nat → Nat) (e : Entry) : Entry := { e with index := number e.index }

def Progress.renumber (number : Nat → Nat) (p : Progress) : Progress where
  done := p.done.map number
  written := p.written
  order := p.order.map (Entry.renumber number)

section Renumbering

variable {number : Nat → Nat} {entries : List Entry} {p : Progress} {e : Entry}

theorem isDone_renumber (hnumber : Function.Injective number) (p : Progress) (e : Entry) :
    (p.renumber number).isDone (e.renumber number) = p.isDone e := by
  simp [Progress.isDone, Progress.renumber, Entry.renumber, hnumber.eq_iff]

theorem begin_renumber (p : Progress) (e : Entry) :
    (p.renumber number).begin (e.renumber number) = (p.begin e).renumber number := rfl

theorem emit_renumber (p : Progress) (e : Entry) :
    (p.renumber number).emit (e.renumber number) = (p.emit e).renumber number := by
  simp [Progress.emit, Progress.renumber, Entry.renumber]

theorem place_renumber (p : Progress) (e : Entry) :
    (p.renumber number).place (e.renumber number) = (p.place e).renumber number := by
  rw [Progress.place, begin_renumber, emit_renumber]
  rfl

theorem writer?_renumber (hnumber : Function.Injective number) {accept : Entry → Bool}
    (haccept : ∀ e : Entry, accept (e.renumber number) = accept e) (name : String) :
    (p.renumber number).writer? (entries.map (Entry.renumber number)) name accept =
      (p.writer? entries name accept).map (Entry.renumber number) := by
  unfold Progress.writer?
  rw [List.find?_map]
  congr 2
  funext e
  simp only [Function.comp_apply, isDone_renumber hnumber, haccept]
  rfl

theorem provider?_renumber (hnumber : Function.Injective number) (name : String) :
    (p.renumber number).provider? (entries.map (Entry.renumber number)) name =
      (p.provider? entries name).map (Entry.renumber number) := by
  simp only [Progress.provider?, Option.orElse_eq_orElse, Option.orElse_eq_or, Option.map_or]
  rw [writer?_renumber hnumber fun _ => rfl, writer?_renumber hnumber fun _ => rfl,
    writer?_renumber hnumber fun _ => rfl]

theorem resolve_renumber (hnumber : Function.Injective number) (fuel : Nat) (p : Progress)
    (e : Entry) :
    resolve (entries.map (Entry.renumber number)) fuel (p.renumber number) (e.renumber number) =
      (resolve entries fuel p e).renumber number := by
  induction fuel generalizing p e with
  | zero => rfl
  | succ fuel ih =>
    have hpull : ∀ (enumerated : Bool) (p : Progress) (name : String),
        pull (entries.map (Entry.renumber number)) fuel enumerated (p.renumber number) name =
          (pull entries fuel enumerated p name).renumber number := by
      intro enumerated p name
      unfold pull
      rw [provider?_renumber hnumber]
      by_cases hwritten : p.written.contains name = true
      · rw [if_pos hwritten]
        exact if_pos hwritten
      · rw [if_neg hwritten]
        refine (if_neg hwritten).trans ?_
        cases p.provider? entries name with
        | none => rfl
        | some w =>
          simp only [Option.map_some, ih]
          by_cases hphase : ((w.phase == .assume) == enumerated) = true
          · rw [if_pos hphase]
            exact if_pos hphase
          · rw [if_neg hphase]
            exact if_neg hphase
    have hpass : ∀ (enumerated : Bool) (names : List String) (p : Progress),
        names.foldl (pull (entries.map (Entry.renumber number)) fuel enumerated)
            (p.renumber number) =
          (names.foldl (pull entries fuel enumerated) p).renumber number :=
      fun enumerated _ _ => List.foldl_hom _ (hpull enumerated)
    rw [resolve_succ, resolve_succ, isDone_renumber hnumber]
    by_cases hdone : p.isDone e = true
    · rw [if_pos hdone, if_pos hdone]
    · rw [if_neg hdone, if_neg hdone, begin_renumber]
      show Progress.emit (e.reads.foldl _ (e.reads.foldl _ ((p.begin e).renumber number))) _ = _
      rw [hpass, hpass, emit_renumber]

theorem settle_renumber (hnumber : Function.Injective number) (p : Progress) (e : Entry) :
    (p.renumber number).settle (entries.map (Entry.renumber number)) (e.renumber number) =
      (p.settle entries e).renumber number := by
  unfold Progress.settle
  rw [List.length_map, resolve_renumber hnumber]

theorem settleTest_renumber (hnumber : Function.Injective number) (p : Progress) (e : Entry) :
    (p.renumber number).settleTest (entries.map (Entry.renumber number)) (e.renumber number) =
      (p.settleTest entries e).renumber number := by
  have hfeeding : (p.renumber number).settleFeeding (entries.map (Entry.renumber number))
      (e.renumber number) = (p.settleFeeding entries e).renumber number := by
    have htarget : (e.renumber number).target = e.target := rfl
    unfold Progress.settleFeeding
    rw [htarget]
    cases e.target with
    | none => rfl
    | some name =>
      rw [Option.bind_some, Option.bind_some, writer?_renumber hnumber fun _ => rfl]
      cases p.writer? entries name fun e => decide (e.phase = .compute) with
      | none => rfl
      | some w => exact settle_renumber hnumber p w
  rw [settleTest_eq, settleTest_eq, hfeeding, settle_renumber hnumber]

theorem computes_renumber (e : Entry) :
    computes (entries.map (Entry.renumber number)) (e.renumber number) = computes entries e := by
  simp only [computes, List.any_map]
  rfl

/-- A loop over the entries that satisfy a condition. -/
theorem foldl_filter_renumber {which which' : Entry → Bool}
    {settle settle' : Progress → Entry → Progress}
    (hwhich : ∀ e : Entry, which' (e.renumber number) = which e)
    (hsettle : ∀ p (e : Entry),
      settle' (p.renumber number) (e.renumber number) = (settle p e).renumber number) :
    ((entries.map (Entry.renumber number)).filter which').foldl settle' (p.renumber number) =
      ((entries.filter which).foldl settle p).renumber number := by
  have hfilter : (entries.map (Entry.renumber number)).filter which' =
      (entries.filter which).map (Entry.renumber number) := by
    rw [List.filter_map]
    congr 2
    funext e
    exact hwhich e
  rw [hfilter, List.foldl_map]
  exact List.foldl_hom _ hsettle

/-- **New numbers for the places do not change the order.** -/
theorem order_renumber (hnumber : Function.Injective number) (entries : List Entry) :
    order (entries.map (Entry.renumber number)) =
      (order entries).map (Entry.renumber number) := by
  have hstart : ({} : Progress) = Progress.renumber number {} := rfl
  have hall : afterAll (entries.map (Entry.renumber number)) =
      (afterAll entries).renumber number := by
    unfold afterAll afterEnumerating afterComputing afterTests afterGuards
    rw [hstart, foldl_filter_renumber (fun _ => rfl) place_renumber,
      foldl_filter_renumber (fun _ => rfl) (settleTest_renumber hnumber),
      foldl_filter_renumber computes_renumber (settle_renumber hnumber),
      foldl_filter_renumber (fun _ => rfl) (settle_renumber hnumber),
      foldl_filter_renumber (fun _ => rfl) (settle_renumber hnumber)]
    rfl
  rw [order_eq, hall]
  rfl

/-! ### Blocks -/

def Group.renumber (number : Nat → Nat) (g : Group) : Group :=
  { g with members := g.members.map (Entry.renumber number) }

theorem absorb_renumber (gs : List Group) (e : Entry) :
    absorb (gs.map (Group.renumber number)) (e.renumber number) =
      (absorb gs e).map (Group.renumber number) := by
  unfold absorb
  rw [List.takeWhile_map, List.dropWhile_map]
  by_cases htest : e.phase = .test
  · rw [if_pos htest]
    refine (if_pos htest).trans ?_
    simp [Group.renumber, Entry.renumber, Function.comp_def, List.map_flatMap, List.flatMap_map,
      ← List.map_reverse]
    exact ⟨rfl, rfl⟩
  · rw [if_neg htest]
    refine (if_neg htest).trans ?_
    rfl

theorem joinCalcs_renumber (gs : List Group) :
    joinCalcs (gs.map (Group.renumber number)) = (joinCalcs gs).map (Group.renumber number) := by
  induction gs with
  | nil => rfl
  | cons g rest ih =>
    rw [List.map_cons, joinCalcs, joinCalcs, ih]
    cases joinCalcs rest with
    | nil => rfl
    | cons next others =>
      rw [List.map_cons]
      by_cases hcalcs : g.phase = .compute ∧ next.phase = .compute
      · simp only [if_pos hcalcs]
        refine (if_pos hcalcs).trans ?_
        simp [Group.renumber]
      · simp only [if_neg hcalcs]
        exact if_neg hcalcs

theorem groups_renumber (ordered : List Entry) :
    groups (ordered.map (Entry.renumber number)) =
      (groups ordered).map (Group.renumber number) := by
  have hfold : (ordered.map (Entry.renumber number)).foldl absorb [] =
      (ordered.foldl absorb []).map (Group.renumber number) := by
    rw [List.foldl_map]
    exact @List.foldl_hom _ _ _ (List.map (Group.renumber number)) absorb
      (fun gs e => absorb gs (e.renumber number)) ordered [] absorb_renumber
  rw [groups, hfold, ← List.map_reverse, joinCalcs_renumber]
  rfl

/-- **The blocks do not show the places of their statements.** -/
theorem blocks_renumber (ordered : List Entry) :
    (groups (ordered.map (Entry.renumber number))).map Group.block =
      (groups ordered).map Group.block := by
  rw [groups_renumber, List.map_map]
  apply List.map_congr_left
  intro g _
  simp only [Function.comp_apply, Group.block, Group.renumber, List.flatMap_map, List.map_map]
  rfl

end Renumbering

/-! ### The order of the search -/

section Permuting

variable {entries entries' : List Entry}

theorem writer?_perm (hperm : entries.Perm entries') (hsingle : Single entries) (p : Progress)
    (name : String) (accept : Entry → Bool) :
    p.writer? entries name accept = p.writer? entries' name accept := by
  apply List.find?_eq_find?_of_perm hperm
  rintro a ⟨ha, hfound⟩ b ⟨hb, hfound'⟩
  simp only [Bool.and_eq_true, List.contains_iff_mem] at hfound hfound'
  exact hsingle a ha b hb name hfound.2 hfound'.2

theorem resolve_perm (hperm : entries.Perm entries') (hsingle : Single entries) :
    resolve entries = resolve entries' := by
  funext fuel
  induction fuel with
  | zero => rfl
  | succ fuel ih =>
    have hprovider : ∀ p name, Progress.provider? p entries name = p.provider? entries' name := by
      intro p name
      simp only [Progress.provider?, writer?_perm hperm hsingle]
    have hpull : pull entries fuel = pull entries' fuel := by
      funext enumerated p name
      simp only [pull, hprovider, ih]
    funext p e
    rw [resolve_succ, resolve_succ, hpull]

theorem settle_perm (hperm : entries.Perm entries') (hsingle : Single entries) :
    Progress.settle entries = Progress.settle entries' := by
  funext p e
  rw [Progress.settle, Progress.settle, resolve_perm hperm hsingle, hperm.length_eq]

theorem settleTest_perm (hperm : entries.Perm entries') (hsingle : Single entries) :
    Progress.settleTest entries = Progress.settleTest entries' := by
  funext p e
  simp only [Progress.settleTest, settle_perm hperm hsingle, writer?_perm hperm hsingle]

theorem computes_perm (hperm : entries.Perm entries') : computes entries = computes entries' := by
  funext e
  simp only [computes, hperm.any_eq]

end Permuting

end CandidateSearch.Schedule
