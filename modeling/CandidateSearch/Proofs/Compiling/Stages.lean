/-
  CandidateSearch/Proofs/Compiling/Stages.lean
  ============================================
  **What a block becomes in a plan.**

  A stage has one transfer, and the transfer of a later statement takes the place of an
  earlier one's.  So it matters that a range, a list or a call is never joined to anything:

      block                              stage
      A = X + 1; B = A * 2; test(B < 9)  assign, assign, check; proceed
      X = for(0, 9, 1)                   range
      call(g, {X}, {Y})                  call

  By the shapes of blocks such a statement has a stage of its own, without operations, and
  its transfer is the one that the plan keeps (`follows_block`).  The stages of a compiled
  program are those of its blocks, one by one (`follow_ofSchedule`).
-/
import CandidateSearch.Proofs.Compiling.WellFormed
import CandidateSearch.Proofs.Schedule.Shapes
import Mathlib.Data.List.Forall2

namespace CandidateSearch

open Source Library

/-- The statement hands control over to something that can come back with more. -/
def Resolved.Stmt.handsOver (s : Resolved.Stmt) : Bool :=
  match s.action with
  | .range .. | .select .. | .call .. => true
  | _ => false

namespace Plan

variable {modules : List Resolved.Module}

/-! ### Statements -/

theorem Yields.call_inv {span : Span} {callee : String} {inputs : List Resolved.Expr}
    {outputs : List Resolved.Var} {transfer : Option Transfer}
    (h : Yields (call modules span callee inputs outputs) transfer) :
    ∃ index qs, transfer = some (.call index qs (outputs.map (·.slot))) := by
  unfold call at h
  cases hfound : findModule modules callee with
  | none =>
    rw [hfound] at h
    obtain ⟨_, hcomplain, -⟩ := h.bind_inv (settled_complain _ _) fun _ => settled_pure _
    cases congrArg Prod.snd hcomplain
  | some found =>
    rw [hfound] at h
    dsimp only at h
    split at h
    · obtain ⟨_, hcomplain, -⟩ := h.bind_inv (settled_complain _ _) fun _ => settled_pure _
      cases congrArg Prod.snd hcomplain
    · obtain ⟨planning, hplanning, h⟩ := h.bind_inv (settled_planned _ _) fun _ => settled_pure _
      obtain ⟨qs, rfl, -⟩ := hplanning.planned_inv
      cases h.pure_inv
      exact ⟨found.1, qs, rfl⟩

/-- A statement that hands over is planned as a transfer and nothing else. -/
theorem Yields.item_of_handsOver {s : Resolved.Stmt} {item : List Op × Option Transfer}
    (h : Yields (stmt modules s) item) (hhands : s.handsOver = true) :
    ∃ t, item = ([], some t) ∧ t ≠ .proceed := by
  obtain ⟨action, span⟩ := s
  cases action with
  | range target first last step =>
    rw [stmt_range] at h
    obtain ⟨first', hfirst, h⟩ := h.bind_inv (settled_expr _ _) fun _ =>
      (settled_expr _ _).bind fun _ => (settled_expr _ _).bind fun _ => settled_pure _
    obtain ⟨last', hlast, h⟩ := h.bind_inv (settled_expr _ _) fun _ =>
      (settled_expr _ _).bind fun _ => settled_pure _
    obtain ⟨step', hstep, h⟩ := h.bind_inv (settled_expr _ _) fun _ => settled_pure _
    obtain ⟨qfirst, rfl, -⟩ := hfirst.planned_inv
    obtain ⟨qlast, rfl, -⟩ := hlast.planned_inv
    obtain ⟨qstep, rfl, -⟩ := hstep.planned_inv
    cases h.pure_inv
    exact ⟨_, rfl, by simp⟩
  | select target list =>
    obtain ⟨planning, hplanning, h⟩ := h.bind_inv (settled_expr _ _) fun _ => settled_pure _
    obtain ⟨q, rfl, -⟩ := hplanning.planned_inv
    cases h.pure_inv
    exact ⟨_, rfl, by simp⟩
  | call callee inputs outputs =>
    obtain ⟨transfer, htransfer, h⟩ := h.bind_inv (settled_call _ _ _ _ _) fun _ => settled_pure _
    obtain ⟨index, qs, rfl⟩ := htransfer.call_inv
    cases h.pure_inv
    exact ⟨_, rfl, by simp⟩
  | _ => cases hhands

/-- Any other statement has no transfer. -/
theorem Yields.transfer_of_plain {s : Resolved.Stmt} {item : List Op × Option Transfer}
    (h : Yields (stmt modules s) item) (hplain : s.handsOver = false) : item.2 = none := by
  obtain ⟨action, span⟩ := s
  cases action with
  | assign target value =>
    obtain ⟨_, -, h⟩ := h.bind_inv (settled_expr _ _) fun _ => settled_pure _
    cases h.pure_inv
    rfl
  | cases target arms =>
    obtain ⟨_, -, h⟩ := h.bind_inv (settled_arms _ _) fun _ => settled_pure _
    cases h.pure_inv
    rfl
  | test condition | guard condition =>
    obtain ⟨_, -, h⟩ := h.bind_inv (settled_expr _ _) fun _ => settled_pure _
    cases h.pure_inv
    rfl
  | malformed =>
    cases h.pure_inv
    rfl
  | _ => cases hplain

/-! ### Blocks -/

theorem phaseOf_of_handsOver {s : Resolved.Stmt} (h : s.handsOver = true) :
    Schedule.phaseOf s = .assume ∨ Schedule.phaseOf s = .other := by
  obtain ⟨action, span⟩ := s
  cases action with
  | range | select => exact Or.inl rfl
  | call => exact Or.inr rfl
  | _ => cases h

/-- A statement that hands over is the whole of its block. -/
theorem eq_singleton_of_handsOver {b : Schedule.Block} (hshaped : b.Shaped) {s : Resolved.Stmt}
    (hs : s ∈ b.stmts) (hhands : s.handsOver = true) : b.stmts = [s] := by
  have hphase := phaseOf_of_handsOver hhands
  unfold Schedule.Block.Shaped at hshaped
  cases hblock : b.phase with
  | test =>
    rw [hblock] at hshaped
    obtain ⟨calcs, last, hstmts, hcalcs, hlast⟩ := hshaped
    rw [hstmts, List.mem_append, List.mem_singleton] at hs
    rcases hs with hs | rfl
    · simp [hcalcs s hs] at hphase
    · simp [hlast] at hphase
  | compute =>
    rw [hblock] at hshaped
    simp [hshaped.2 s hs] at hphase
  | assume | other =>
    rw [hblock] at hshaped
    obtain ⟨only, hstmts, -⟩ := hshaped
    rw [hstmts, List.mem_singleton] at hs
    rw [hstmts, hs]

theorem transfer_stageOf {items : List (List Op × Option Transfer)}
    (h : ∀ item ∈ items, item.2 = none) : (stageOf items).transfer = .proceed := by
  induction items with
  | nil => rfl
  | cons item rest ih =>
    obtain ⟨ops, transfer⟩ := item
    obtain ⟨hfirst, hrest⟩ := List.forall_mem_cons.mp h
    obtain rfl : transfer = none := hfirst
    show laterOf (stageOf rest).transfer none = .proceed
    rw [laterOf_none, ih hrest]

/-- How a stage stands to the block that it is made of. -/
structure Stage.Follows (modules : List Resolved.Module) (b : Schedule.Block) (st : Stage) :
    Prop where
  /-- A stage that hands over comes from one statement and has no operations. -/
  single : st.transfer ≠ .proceed → st.ops = [] ∧ ∃ s, b.stmts = [s] ∧ s.handsOver = true
  /-- The transfer of a statement is that of its stage. -/
  kept : ∀ s ∈ b.stmts, s.handsOver = true →
    st.transfer ≠ .proceed ∧ (itemOf modules s).2 = some st.transfer
  /-- No other statement has a transfer. -/
  plain : ∀ s ∈ b.stmts, s.handsOver = false → (itemOf modules s).2 = none

theorem follows_block {b : Schedule.Block} (hshaped : b.Shaped) {st : Stage}
    (h : Yields (stage modules b.stmts) st) : st.Follows modules b := by
  obtain ⟨hyields, rfl⟩ := h.stage_inv
  have hplain : ∀ s ∈ b.stmts, s.handsOver = false → (itemOf modules s).2 = none :=
    fun s hs => (hyields s hs).transfer_of_plain
  by_cases hany : ∃ s ∈ b.stmts, s.handsOver = true
  · obtain ⟨s, hs, hhands⟩ := hany
    obtain ⟨t, hitem, ht⟩ := (hyields s hs).item_of_handsOver hhands
    have hstmts := eq_singleton_of_handsOver hshaped hs hhands
    have hstage : stageOf (b.stmts.map (itemOf modules)) = ⟨[], t⟩ := by
      simp [hstmts, hitem, stageOf, laterOf]
    rw [hstage]
    refine ⟨fun _ => ⟨rfl, s, hstmts, hhands⟩, fun other hother _ => ⟨ht, ?_⟩, hplain⟩
    rw [hstmts, List.mem_singleton] at hother
    rw [hother, hitem]
  · have hnone : ∀ s ∈ b.stmts, s.handsOver = false := by simpa using hany
    have htransfer : (stageOf (b.stmts.map (itemOf modules))).transfer = .proceed := by
      apply transfer_stageOf
      intro item hitem
      obtain ⟨s, hs, rfl⟩ := List.mem_map.mp hitem
      exact hplain s hs (hnone s hs)
    refine ⟨fun hne => absurd htransfer hne, fun s hs hhands => ?_, hplain⟩
    rw [hnone s hs] at hhands
    cases hhands

/-! ### Programs -/

theorem Yields.stages_inv {blocks : List Schedule.Block} {sts : List Stage}
    (h : Yields (stages modules blocks) sts) :
    List.Forall₂ (fun b st => Yields (stage modules b.stmts) st) blocks sts := by
  induction blocks generalizing sts with
  | nil =>
    cases h.pure_inv
    exact .nil
  | cons b rest ih =>
    obtain ⟨first, hfirst, h⟩ := h.bind_inv (settled_stage _ _) fun _ =>
      (settled_stages _ _).bind fun _ => settled_pure _
    obtain ⟨later, hlater, h⟩ := h.bind_inv (settled_stages _ _) fun _ => settled_pure _
    cases h.pure_inv
    exact .cons hfirst (ih hlater)

theorem Yields.method_inv {m : Schedule.Method} {planned : Method}
    (h : Yields (method modules m) planned) : Yields (stages modules m.blocks) planned.stages := by
  unfold method at h
  have hlater : ∀ guard : Option Expr, Yields (do
      let stages ← stages modules m.blocks
      return { number := m.resolved.number, guard
               locals := m.resolved.locals.map (·.name), stages }) planned →
      Yields (stages modules m.blocks) planned.stages := by
    intro guard h
    obtain ⟨sts, hsts, h⟩ := h.bind_inv (settled_stages _ _) fun _ => settled_pure _
    cases h.pure_inv
    exact hsts
  cases hguard : m.resolved.guard with
  | none =>
    rw [hguard] at h
    obtain ⟨guard, -, h⟩ := h.bind_inv (settled_pure _) fun _ =>
      (settled_stages _ _).bind fun _ => settled_pure _
    exact hlater guard h
  | some condition =>
    rw [hguard] at h
    obtain ⟨guard, -, h⟩ := h.bind_inv (settled_expr _ _) fun _ =>
      (settled_stages _ _).bind fun _ => settled_pure _
    exact hlater guard h

theorem Yields.methods_inv {ms : List Schedule.Method} {planned : List Method}
    (h : Yields (methods modules ms) planned) :
    List.Forall₂ (fun m planned => Yields (method modules m) planned) ms planned := by
  induction ms generalizing planned with
  | nil =>
    cases h.pure_inv
    exact .nil
  | cons m rest ih =>
    obtain ⟨first, hfirst, h⟩ := h.bind_inv (settled_method _ _) fun _ =>
      (settled_methods _ _).bind fun _ => settled_pure _
    obtain ⟨later, hlater, h⟩ := h.bind_inv (settled_methods _ _) fun _ => settled_pure _
    cases h.pure_inv
    exact .cons hfirst (ih hlater)

/-- The methods of a module are planned without complaints. -/
theorem methods_ofSchedule {scheduled : List Schedule.Module} {p : Program}
    (h : Program.ofSchedule scheduled = .ok p) :
    List.Forall₂ (fun m planned =>
      Yields (methods (scheduled.map (·.resolved)) m.methods) planned.methods)
      scheduled p.modules := by
  rw [modules_ofSchedule h]
  unfold Program.ofSchedule at h
  dsimp only at h
  split at h
  · rename_i hempty
    rw [List.isEmpty_iff, List.flatMap_eq_nil_iff] at hempty
    rw [List.forall₂_map_right_iff]
    refine List.forall₂_same.mpr fun m hm => ?_
    have hquiet : ((moduleOf (scheduled.map (·.resolved)) m).run []).2 = [] :=
      List.map_eq_nil_iff.mp (hempty _ (List.mem_map_of_mem hm))
    have hyields : Yields (moduleOf (scheduled.map (·.resolved)) m)
        ((moduleOf (scheduled.map (·.resolved)) m).run []).1 := Prod.ext rfl hquiet
    obtain ⟨planned, hplanned, hmodule⟩ := hyields.bind_inv (settled_methods _ _) fun _ =>
      settled_pure _
    rw [← hmodule.pure_inv]
    exact hplanned
  · cases h

/-- The stages of a method follow its blocks, one by one. -/
def Method.Follows (modules : List Resolved.Module) (m : Schedule.Method) (planned : Method) :
    Prop :=
  List.Forall₂ (Stage.Follows modules) m.blocks planned.stages

theorem follow_ofSchedule {scheduled : List Schedule.Module} {p : Program}
    (hshaped : ∀ m ∈ scheduled, ∀ method ∈ m.methods, ∀ b ∈ method.blocks, b.Shaped)
    (h : Program.ofSchedule scheduled = .ok p) :
    List.Forall₂ (fun m planned =>
      List.Forall₂ (Method.Follows (scheduled.map (·.resolved))) m.methods planned.methods)
      scheduled p.modules := by
  have hmodules := (List.forall₂_and_left _ _).mpr ⟨hshaped, methods_ofSchedule h⟩
  refine hmodules.imp fun m planned ⟨hmethods, hyields⟩ => ?_
  refine ((List.forall₂_and_left _ _).mpr ⟨hmethods, hyields.methods_inv⟩).imp ?_
  intro method _ ⟨hblocks, hmethod⟩
  refine ((List.forall₂_and_left _ _).mpr ⟨hblocks, hmethod.method_inv.stages_inv⟩).imp ?_
  intro b st ⟨hb, hst⟩
  exact follows_block hb hst

end Plan

/-! ### Sources -/

theorem shaped_of_schedulesOf {options : Options} {source : String}
    {scheduled : List Schedule.Module} (h : (schedulesOf options source).result = .ok scheduled) :
    ∀ m ∈ scheduled, ∀ method ∈ m.methods, ∀ b ∈ method.blocks, b.Shaped := by
  obtain ⟨units, -, h⟩ := Logged.result_bind_eq_ok.mp h
  obtain ⟨lowered, -, h⟩ := Logged.result_bind_eq_ok.mp h
  intro m hm method hmethod b hb
  obtain ⟨l, -, hscheduled⟩ := Logged.exists_of_mem_mapM h m hm
  obtain ⟨methods, hmethods, hscheduled⟩ := Logged.result_bind_eq_ok.mp hscheduled
  cases hscheduled
  obtain ⟨resolved, -, hblocks⟩ := Logged.exists_of_mem_mapM hmethods method hmethod
  obtain ⟨blocks, hschedule, rfl⟩ := scheduleMethod_eq_ok hblocks
  exact ((Schedule.shaped_schedule hschedule).1 b hb).1

/-- **Blocks and stages have the shapes that running relies on.**  In the schedule of any
    statements the blocks are shaped by their phases, name their operands, and no block of
    calculations stands in front of another one or of a test.  So in the plan of a source
    each stage with a transfer comes from one statement and has no operations, and no
    transfer takes the place of another. -/
theorem blocks_and_stages_shaped :
    (∀ stmts : List Resolved.Stmt, (∀ s ∈ stmts, s.isMalformed = false) →
      ∃ blocks, Schedule.schedule stmts = .ok blocks ∧
        (∀ b ∈ blocks, b.Shaped ∧ b.NeedsOperands) ∧
        blocks.IsChain fun b next => Schedule.Apart b.phase next.phase) ∧
    ∀ (options : Options) (source : String) (compiled : Compiled),
      (compile options source).result = .ok compiled →
      ∃ scheduled, (schedulesOf options source).result = .ok scheduled ∧
        List.Forall₂ (fun m planned =>
          List.Forall₂ (Plan.Method.Follows (scheduled.map (·.resolved))) m.methods planned.methods)
          scheduled compiled.program.modules := by
  constructor
  · intro stmts hformed
    have hschedule := Schedule.schedule_eq_ok hformed
    exact ⟨_, hschedule, Schedule.shaped_schedule hschedule⟩
  · intro options source compiled hcompiled
    obtain ⟨units, scheduled, -, hscheduled, -, hprogram, -⟩ := origins_of_compile hcompiled
    exact ⟨scheduled, hscheduled,
      Plan.follow_ofSchedule (shaped_of_schedulesOf hscheduled) hprogram⟩

/-- A range, calculations for a test, a call, calculations for nothing and a list. -/
def mixedSource : String :=
  "f(g,{},{X:i,Z:i,V:i}) method A=X*2; X=for(1,3,1); B=A+1; test(B>3); call(g,{B},{Z}); " ++
  "C=Z+1; D=C*C; V=select([D,C]); end method; end module; " ++
  "g({P:i},{Q:i}) method Q=P*2; end method; end module;"

/-- The body `A = X * 2; X = for(1, 3, 1); B = A + 1; test(B > 3); V = select([B, A]);`. -/
def mixedBody : List Resolved.Stmt :=
  let var := fun (name : String) (i : Nat) => (⟨name, .integer, .inner i, false⟩ : Resolved.Var)
  let x := var "X" 0
  let a := var "A" 1
  let b := var "B" 2
  [{ action := .assign (.single a) (.binary .mul (.var x) (.number "2")) },
   { action := .range x (.number "1") (.number "3") (.number "1") },
   { action := .assign (.single b) (.binary .add (.var a) (.number "1")) },
   { action := .test (.binary .lt (.number "3") (.var b)) },
   { action := .select (.single (var "V" 3)) (.list [.var b, .var a]) }]

/-- The kinds of transfers in a plan. -/
def transferKinds (p : Plan.Program) : List String :=
  p.modules.flatMap fun m => m.methods.flatMap fun method => method.stages.map fun st =>
    match st.transfer with
    | .proceed => "proceed"
    | .range .. => "range"
    | .member .. => "member"
    | .call .. => "call"

set_option maxRecDepth 100000 in
theorem blocks_and_stages_shaped_mixedSource :
    ((∀ s ∈ mixedBody, s.isMalformed = false) ∧
      ∃ blocks, Schedule.schedule mixedBody = .ok blocks ∧
        blocks.map (·.phase) = [.assume, .test, .assume] ∧
        (∀ b ∈ blocks, b.Shaped ∧ b.NeedsOperands) ∧
        blocks.IsChain fun b next => Schedule.Apart b.phase next.phase) ∧
    ∃ compiled, (compile {} mixedSource).result = .ok compiled ∧
      transferKinds compiled.program = ["range", "proceed", "call", "proceed", "member", "proceed"] ∧
      ∃ scheduled, (schedulesOf {} mixedSource).result = .ok scheduled ∧
        List.Forall₂ (fun m planned =>
          List.Forall₂ (Plan.Method.Follows (scheduled.map (·.resolved))) m.methods planned.methods)
          scheduled compiled.program.modules := by
  constructor
  · have hformed : ∀ s ∈ mixedBody, s.isMalformed = false := by decide
    have hphases : (Schedule.schedule mixedBody).toOption.map (·.map (·.phase)) =
        some [.assume, .test, .assume] := by decide +kernel
    obtain ⟨blocks, hschedule, hshaped⟩ := blocks_and_stages_shaped.1 mixedBody hformed
    rw [hschedule] at hphases
    exact ⟨hformed, blocks, hschedule, Option.some.inj hphases, hshaped⟩
  · have hchars : mixedSource.toList = _ := toList_append_of_toList
      (toList_append_of_toList String.toList_ofList String.toList_ofList) String.toList_ofList
    have hkinds : (compile {} mixedSource).result.toOption.map
        (fun compiled => transferKinds compiled.program) =
        some ["range", "proceed", "call", "proceed", "member", "proceed"] := by
      rw [compile, Library.load, Library.State.load, Source.Document.ofText, hchars]
      decide +kernel
    cases hresult : (compile {} mixedSource).result with
    | error diagnostics =>
      rw [hresult] at hkinds
      cases hkinds
    | ok compiled =>
      rw [hresult] at hkinds
      exact ⟨compiled, rfl, Option.some.inj hkinds,
        blocks_and_stages_shaped.2 {} mixedSource compiled hresult⟩

end CandidateSearch
