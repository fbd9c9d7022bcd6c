/-
  CandidateSearch/Proofs/Declarative/Planning.lean
  ================================================
  **From statements to stages.**

  Building a plan collects complaints, and a plan is made only if there are none.  Then
  every expression has been planned (`Yields`), and a statement has become the operations
  and the transfer that its kind asks for (`StmtPlan`).

  The statements of a block run as one stage.  Only the last one can have a transfer, so
  exploring the stage is the same as exploring the statements one after the other, each of
  them with the later ones as what follows (`exploreStages_eq`).
-/
import CandidateSearch.Proofs.Declarative.Lowering
import CandidateSearch.Proofs.Schedule.Joining
import CandidateSearch.Proofs.Search.Direct

namespace CandidateSearch

open Source (Complaint Problem Span)

namespace Plan

/-! ### Building -/

section Building

variable {α β : Type} {x : Build α} {f : α → Build β}

/-- The complaints of a step do not depend on those before it, nor does its result. -/
def Settled (x : Build α) : Prop :=
  ∃ a more, ∀ complaints : List Complaint, x.run complaints = (a, complaints ++ more)

/-- A step gives a result and has no complaints. -/
def Yields (x : Build α) (a : α) : Prop := x.run [] = (a, [])

theorem settled_pure (a : α) : Settled (pure a : Build α) := ⟨a, [], fun _ => by simp; rfl⟩

theorem Settled.bind (hx : Settled x) (hf : ∀ a, Settled (f a)) : Settled (x >>= f) := by
  obtain ⟨a, first, hfirst⟩ := hx
  obtain ⟨b, second, hsecond⟩ := hf a
  refine ⟨b, first ++ second, fun complaints => ?_⟩
  show (let (a, complaints) := x.run complaints; (f a).run complaints) = _
  rw [hfirst]
  simp only [hsecond, List.append_assoc]

/-- Without complaints in the end there were none on the way. -/
theorem Yields.bind_inv {b : β} (h : Yields (x >>= f) b) (hx : Settled x)
    (hf : ∀ a, Settled (f a)) : ∃ a, Yields x a ∧ Yields (f a) b := by
  obtain ⟨a, first, hfirst⟩ := hx
  obtain ⟨b', second, hsecond⟩ := hf a
  have hrun : (let (a, complaints) := x.run []; (f a).run complaints) = (b, []) := h
  rw [hfirst] at hrun
  simp only [hsecond, List.nil_append, Prod.mk.injEq, List.append_eq_nil_iff] at hrun
  obtain ⟨rfl, rfl, rfl⟩ := hrun
  exact ⟨a, hfirst [], hsecond []⟩

theorem Yields.pure_inv {a b : α} (h : Yields (pure a) b) : a = b := congrArg Prod.fst h

theorem settled_complain (problem : Problem) (span : Span) : Settled (complain problem span) :=
  ⟨(), [⟨problem, span⟩], fun _ => rfl⟩

theorem settled_planned (span : Span) (result : Except String α) :
    Settled (planned span result) := by
  cases result with
  | ok a => exact settled_pure _
  | error digits => exact (settled_complain _ _).bind fun _ => settled_pure _

theorem Yields.planned_inv {span : Span} {result : Except String α} {planning : Option α}
    (h : Yields (planned span result) planning) : ∃ a, planning = some a ∧ result = .ok a := by
  cases result with
  | ok a => exact ⟨a, (congrArg Prod.fst h).symm, rfl⟩
  | error digits => cases congrArg Prod.snd h

end Building

theorem settled_expr (span : Span) (e : Resolved.Expr) : Settled (expr span e) :=
  settled_planned _ _

/-- The second half of an arm, which is planned only if the first one is. -/
def armAfter (span : Span) (value : Resolved.Expr) : Option Expr → Build (Option (Expr × Expr))
  | some condition => do return (← expr span value).map fun value => (condition, value)
  | none => return none

theorem arms_cons (span : Span) (condition value : Resolved.Expr)
    (rest : List (Resolved.Expr × Resolved.Expr)) :
    arms span ((condition, value) :: rest) = (do
      let first ← expr span condition
      let arm ← armAfter span value first
      let others ← arms span rest
      return arm.toList ++ others) := by
  rw [arms]
  congr 1
  funext first
  cases first <;> simp [armAfter]

theorem settled_armAfter (span : Span) (value : Resolved.Expr) (first : Option Expr) :
    Settled (armAfter span value first) := by
  cases first with
  | none => exact settled_pure _
  | some condition => exact (settled_expr span value).bind fun _ => settled_pure _

theorem settled_arms (span : Span) (written : List (Resolved.Expr × Resolved.Expr)) :
    Settled (arms span written) := by
  induction written with
  | nil => exact settled_pure _
  | cons arm rest ih =>
    rw [arms_cons]
    exact (settled_expr _ _).bind fun _ => (settled_armAfter _ _ _).bind fun _ =>
      ih.bind fun _ => settled_pure _

theorem settled_call (modules : List Resolved.Module) (span : Span) (callee : String)
    (inputs : List Resolved.Expr) (outputs : List Resolved.Var) :
    Settled (call modules span callee inputs outputs) := by
  unfold call
  cases findModule modules callee with
  | none => exact (settled_complain _ _).bind fun _ => settled_pure _
  | some found =>
    by_cases hcount : inputs.length ≠ found.2.inputs.length ∨
        outputs.length ≠ found.2.outputs.length
    · simp only [hcount, if_true]
      exact (settled_complain _ _).bind fun _ => settled_pure _
    · simp only [hcount, if_false]
      exact (settled_planned _ _).bind fun _ => settled_pure _

/-- The transfer of a range, of which all three bounds have to be planned. -/
def rangePlan (target : Resolved.Var) :
    Option Expr → Option Expr → Option Expr → List Op × Option Transfer
  | some first, some last, some step => ([], some (.range target.slot first last step))
  | _, _, _ => ([], none)

theorem stmt_range (modules : List Resolved.Module) (span : Span) (target : Resolved.Var)
    (first last step : Resolved.Expr) :
    stmt modules ⟨.range target first last step, span⟩ = (do
      let first ← expr span first
      let last ← expr span last
      let step ← expr span step
      return rangePlan target first last step) := by
  simp only [stmt]
  congr 1
  funext first
  congr 1
  funext last
  congr 1
  funext step
  cases first <;> cases last <;> cases step <;> rfl

theorem settled_stmt (modules : List Resolved.Module) (s : Resolved.Stmt) :
    Settled (stmt modules s) := by
  obtain ⟨action, span⟩ := s
  cases action with
  | assign target value => exact (settled_expr _ _).bind fun _ => settled_pure _
  | range target first last step =>
    rw [stmt_range]
    exact (settled_expr _ _).bind fun _ => (settled_expr _ _).bind fun _ =>
      (settled_expr _ _).bind fun _ => settled_pure _
  | select target list => exact (settled_expr _ _).bind fun _ => settled_pure _
  | cases target arms => exact (settled_arms _ _).bind fun _ => settled_pure _
  | test condition => exact (settled_expr _ _).bind fun _ => settled_pure _
  | guard condition => exact (settled_expr _ _).bind fun _ => settled_pure _
  | call callee inputs outputs => exact (settled_call _ _ _ _ _).bind fun _ => settled_pure _
  | malformed => exact settled_pure _

theorem settled_stage (modules : List Resolved.Module) (stmts : List Resolved.Stmt) :
    Settled (stage modules stmts) := by
  induction stmts with
  | nil => exact settled_pure _
  | cons s rest ih =>
    exact (settled_stmt modules s).bind fun _ => ih.bind fun _ => settled_pure _

theorem settled_stages (modules : List Resolved.Module) (blocks : List Schedule.Block) :
    Settled (stages modules blocks) := by
  induction blocks with
  | nil => exact settled_pure _
  | cons block rest ih =>
    exact (settled_stage modules block.stmts).bind fun _ => ih.bind fun _ => settled_pure _

/-! ### What becomes of a block -/

/-- What a statement is planned to be. -/
def itemOf (modules : List Resolved.Module) (s : Resolved.Stmt) : List Op × Option Transfer :=
  ((stmt modules s).run []).1

theorem Yields.eq_itemOf {modules : List Resolved.Module} {s : Resolved.Stmt}
    {item : List Op × Option Transfer} (h : Yields (stmt modules s) item) :
    item = itemOf modules s := (congrArg Prod.fst h).symm

/-- The transfer of a stage, from that of the later statements and that of the first. -/
def laterOf : Transfer → Option Transfer → Transfer
  | .proceed, some transfer => transfer
  | later, _ => later

theorem laterOf_none (later : Transfer) : laterOf later none = later := by
  cases later <;> rfl

/-- The stage of statements that have been planned one by one. -/
def stageOf : List (List Op × Option Transfer) → Stage
  | [] => ⟨[], .proceed⟩
  | (ops, transfer) :: rest =>
      ⟨ops ++ (stageOf rest).ops, laterOf (stageOf rest).transfer transfer⟩

theorem Yields.stage_inv {modules : List Resolved.Module} {stmts : List Resolved.Stmt} {st : Stage}
    (h : Yields (stage modules stmts) st) :
    (∀ s ∈ stmts, Yields (stmt modules s) (itemOf modules s)) ∧
      st = stageOf (stmts.map (itemOf modules)) := by
  induction stmts generalizing st with
  | nil =>
    cases h.pure_inv
    exact ⟨by simp, rfl⟩
  | cons s rest ih =>
    obtain ⟨item, hitem, h⟩ := h.bind_inv (settled_stmt modules s) fun _ =>
      (settled_stage modules rest).bind fun _ => settled_pure _
    obtain ⟨after, hafter, h⟩ := h.bind_inv (settled_stage modules rest) fun _ => settled_pure _
    obtain ⟨hrest, rfl⟩ := ih hafter
    obtain rfl := hitem.eq_itemOf
    cases h.pure_inv
    refine ⟨fun t ht => ?_, rfl⟩
    rcases List.mem_cons.mp ht with rfl | ht
    · exact hitem
    · exact hrest t ht

theorem transfer_eq_none {modules : List Resolved.Module} {s : Resolved.Stmt}
    (hphase : Schedule.phaseOf s = .compute) {item : List Op × Option Transfer}
    (h : Yields (stmt modules s) item) : item.2 = none := by
  obtain ⟨action, span⟩ := s
  cases action with
  | assign target value =>
    obtain ⟨_, -, h⟩ := h.bind_inv (settled_expr _ _) fun _ => settled_pure _
    cases h.pure_inv
    rfl
  | cases target arms =>
    obtain ⟨_, -, h⟩ := h.bind_inv (settled_arms _ _) fun _ => settled_pure _
    cases h.pure_inv
    rfl
  | _ => cases hphase

/-! ### What becomes of a statement -/

open Resolved (Env StmtLowers)

/-- The operations of a statement and its transfer, by what the statement is. -/
inductive StmtPlan (env : Env) : Syntax.Stmt → List Op → Option Transfer → Prop where
  | assign {target e : Syntax.Expr} {span : Span} {t : Resolved.Target} {q : Expr} :
      Syntax.Stmt.demandsTruth ⟨.assign target (.expr e), span⟩ = false →
      env.target target = .ok t → Lowers env e q →
      StmtPlan env ⟨.assign target (.expr e), span⟩ [.assign (.ofResolved t) q] none
  | constraint {v : Syntax.Var} {e : Syntax.Expr} {span : Span} {w : Resolved.Var} {q : Expr} :
      Syntax.Stmt.demandsTruth ⟨.assign (.var v) (.expr e), span⟩ = true →
      env.find? v.key = some w → Lowers env e q →
      StmtPlan env ⟨.assign (.var v) (.expr e), span⟩
        [.assign (.single w.slot) q, .check (.var w.slot)] none
  | cases {target : Syntax.Expr} {arms : List (Syntax.Expr × Syntax.Expr)} {span span' : Span}
      {t : Resolved.Target} {qs : List (Expr × Expr)} :
      env.target target = .ok t → LowersArms env arms qs →
      StmtPlan env ⟨.assign target (.cases arms span'), span⟩ [.cases (.ofResolved t) qs] none
  | test {condition : Syntax.Expr} {span : Span} {q : Expr} :
      Lowers env condition q → StmtPlan env ⟨.test condition, span⟩ [.check q] none
  | range {v : Syntax.Var} {first last step : Syntax.Expr} {span span' : Span} {w : Resolved.Var}
      {qfirst qlast qstep : Expr} :
      env.find? v.key = some w → Lowers env first qfirst → Lowers env last qlast →
      Lowers env step qstep →
      StmtPlan env ⟨.assign (.var v) (.range first last step span'), span⟩ []
        (some (.range w.slot qfirst qlast qstep))
  | select {target list : Syntax.Expr} {span span' : Span} {t : Resolved.Target} {q : Expr} :
      env.target target = .ok t → Lowers env list q →
      StmtPlan env ⟨.assign target (.select list span'), span⟩ []
        (some (.member (.ofResolved t) q))

theorem Yields.arms_inv {env : Env} {span : Span} {arms : List (Syntax.Expr × Syntax.Expr)}
    {rs : List (Resolved.Expr × Resolved.Expr)} {qs : List (Expr × Expr)}
    (hrs : env.arms arms = .ok rs) (h : Yields (Plan.arms span rs) qs) :
    LowersArms env arms qs := by
  induction arms generalizing rs qs with
  | nil =>
    cases hrs
    cases h.pure_inv
    exact .nil
  | cons arm rest ih =>
    obtain ⟨condition, value⟩ := arm
    simp only [Env.arms, bind_eq_ok, pure_eq_ok] at hrs
    obtain ⟨rc, hrc, rv, hrv, rrest, hrrest, rfl⟩ := hrs
    rw [arms_cons] at h
    obtain ⟨first, hfirst, h⟩ := h.bind_inv (settled_expr _ _) fun _ =>
      (settled_armAfter _ _ _).bind fun _ => (settled_arms _ _).bind fun _ => settled_pure _
    obtain ⟨qc, rfl, hqc⟩ := hfirst.planned_inv
    obtain ⟨arm, harm, h⟩ := h.bind_inv (settled_armAfter _ _ _) fun _ =>
      (settled_arms _ _).bind fun _ => settled_pure _
    obtain ⟨second, hsecond, harm⟩ := harm.bind_inv (settled_expr _ _) fun _ => settled_pure _
    obtain ⟨qv, rfl, hqv⟩ := hsecond.planned_inv
    obtain ⟨others, hothers, h⟩ := h.bind_inv (settled_arms _ _) fun _ => settled_pure _
    cases harm.pure_inv
    cases h.pure_inv
    exact .cons ⟨⟨rc, hrc, hqc⟩, ⟨rv, hrv, hqv⟩⟩ (ih hrrest hothers)

/-- A statement of the source that has been resolved and planned. -/
theorem stmtPlan_of_yields {env : Env} {modules : List Resolved.Module} {s : Syntax.Stmt}
    {a : Resolved.Action} (hlowers : StmtLowers env s.action a) {ops : List Op}
    {transfer : Option Transfer} (h : Yields (stmt modules ⟨a, s.span⟩) (ops, transfer)) :
    StmtPlan env s ops transfer := by
  have hconstraint : (Resolved.Stmt.mk a s.span).isConstraint = s.isConstraint :=
    hlowers.isConstraint
  obtain ⟨action, span⟩ := s
  cases hlowers with
  | @assign target e t r ht hr =>
    obtain ⟨planned, hplanned, h⟩ := h.bind_inv (settled_expr _ _) fun _ => settled_pure _
    obtain ⟨q, rfl, hq⟩ := hplanned.planned_inv
    cases h.pure_inv
    rcases Resolved.target_cases ht with ⟨v, w, rfl, rfl, hw⟩ | ⟨members, span', vs, rfl, rfl, -⟩
    · cases htruth : Syntax.Stmt.isConstraint ⟨.assign (.var v) (.expr e), span⟩ with
      | true =>
        simp only [constraintCheck, hconstraint, htruth]
        exact .constraint htruth hw ⟨_, hr, hq⟩
      | false =>
        simp only [constraintCheck, hconstraint, htruth]
        exact .assign htruth ht ⟨_, hr, hq⟩
    · exact .assign rfl ht ⟨_, hr, hq⟩
  | range hw hfirst hlast hstep =>
    rw [stmt_range] at h
    obtain ⟨first, hfirst', h⟩ := h.bind_inv (settled_expr _ _) fun _ =>
      (settled_expr _ _).bind fun _ => (settled_expr _ _).bind fun _ => settled_pure _
    obtain ⟨last, hlast', h⟩ := h.bind_inv (settled_expr _ _) fun _ =>
      (settled_expr _ _).bind fun _ => settled_pure _
    obtain ⟨step, hstep', h⟩ := h.bind_inv (settled_expr _ _) fun _ => settled_pure _
    obtain ⟨qfirst, rfl, hqfirst⟩ := hfirst'.planned_inv
    obtain ⟨qlast, rfl, hqlast⟩ := hlast'.planned_inv
    obtain ⟨qstep, rfl, hqstep⟩ := hstep'.planned_inv
    cases h.pure_inv
    exact .range hw ⟨_, hfirst, hqfirst⟩ ⟨_, hlast, hqlast⟩ ⟨_, hstep, hqstep⟩
  | select ht hr =>
    obtain ⟨planned, hplanned, h⟩ := h.bind_inv (settled_expr _ _) fun _ => settled_pure _
    obtain ⟨q, rfl, hq⟩ := hplanned.planned_inv
    cases h.pure_inv
    exact .select ht ⟨_, hr, hq⟩
  | cases ht hrs =>
    obtain ⟨qs, hqs, h⟩ := h.bind_inv (settled_arms _ _) fun _ => settled_pure _
    cases h.pure_inv
    exact .cases ht (hqs.arms_inv hrs)
  | test hr =>
    obtain ⟨planned, hplanned, h⟩ := h.bind_inv (settled_expr _ _) fun _ => settled_pure _
    obtain ⟨q, rfl, hq⟩ := hplanned.planned_inv
    cases h.pure_inv
    exact .test ⟨_, hr, hq⟩

end Plan

namespace Search

open Explore
open Plan (Op Transfer Yields itemOf stageOf)

/-! ### Statements one after the other -/

section Items

variable {α β : Type}

theorem perform_bind (effect : Effect α) (rest : α → Effect β) (next : β → Explore) :
    perform (effect >>= rest) next = perform effect fun a => perform (rest a) next := by
  funext s
  simp only [perform, bind, EStateM.bind]
  cases effect s <;> rfl

theorem perform_runOps_append (env : Env) (first second : List Op) (next : Bool → Explore) :
    perform (runOps env (first ++ second)) next =
      perform (runOps env first) fun holds =>
        if holds then perform (runOps env second) next else next false := by
  induction first with
  | nil => rfl
  | cons op rest ih =>
    rw [List.cons_append, runOps, runOps, perform_bind, perform_bind]
    congr 1
    funext holds
    cases holds with
    | true => exact ih
    | false => rfl

variable (p : Plan.Program) (depth : Nat) (call : Instance → Explore → Explore) (env : Env)

/-- Runs the operations of a statement and explores what follows as its transfer says. -/
def exploreItem (item : List Op × Option Transfer) (body : Explore) : Explore :=
  perform (runOps env item.1) fun holds =>
    if holds then exploreTransfer p depth call env body (item.2.getD .proceed) else nothing

theorem exploreItem_stageOf (front : List (List Op × Option Transfer))
    (hfront : ∀ item ∈ front, item.2 = none) (last : List Op × Option Transfer) (body : Explore) :
    exploreItem p depth call env
        ((stageOf (front ++ [last])).ops, some (stageOf (front ++ [last])).transfer) body =
      (front ++ [last]).foldr (exploreItem p depth call env) body := by
  induction front with
  | nil =>
    obtain ⟨ops, transfer⟩ := last
    cases transfer <;> simp [stageOf, exploreItem, Plan.laterOf]
  | cons item front ih =>
    obtain ⟨ops, transfer⟩ := item
    obtain rfl : transfer = none := hfront (ops, transfer) (by simp)
    rw [List.cons_append, List.foldr_cons, ← ih fun item hitem => hfront item (by simp [hitem])]
    simp only [exploreItem, stageOf, Plan.laterOf_none]
    rw [perform_runOps_append]
    rfl

/-- **The stages of a method are its statements in order**, each with the later ones as
    what follows it. -/
theorem exploreStages_eq {modules : List Resolved.Module} {groups : List Schedule.Group}
    (hjoined : ∀ g ∈ groups, g.Joined) {stages : List Plan.Stage}
    (h : Yields (Plan.stages modules (groups.map Schedule.Group.block)) stages)
    (hphases : ∀ g ∈ groups, ∀ e ∈ g.members, e.phase = Schedule.phaseOf e.stmt) :
    (∀ g ∈ groups, ∀ e ∈ g.members, Yields (Plan.stmt modules e.stmt) (itemOf modules e.stmt)) ∧
      ∀ follow, exploreStages p depth call env follow stages =
        ((groups.flatMap (·.members)).map fun e => itemOf modules e.stmt).foldr
          (exploreItem p depth call env) follow := by
  induction groups generalizing stages with
  | nil =>
    cases h.pure_inv
    exact ⟨by simp, fun _ => rfl⟩
  | cons g rest ih =>
    obtain ⟨stage, hstage, h⟩ := h.bind_inv (Plan.settled_stage _ _) fun _ =>
      (Plan.settled_stages _ _).bind fun _ => Plan.settled_pure _
    obtain ⟨later, hlater, h⟩ := h.bind_inv (Plan.settled_stages _ _) fun _ => Plan.settled_pure _
    cases h.pure_inv
    obtain ⟨hyields', hrest⟩ := ih (fun x hx => hjoined x (by simp [hx])) hlater
      fun x hx => hphases x (by simp [hx])
    obtain ⟨hyields, rfl⟩ := hstage.stage_inv
    have hmembers : ∀ e ∈ g.members, Yields (Plan.stmt modules e.stmt) (itemOf modules e.stmt) :=
      fun e he => hyields e.stmt (List.mem_map_of_mem he)
    refine ⟨fun x hx => ?_, fun follow => ?_⟩
    · rcases List.mem_cons.mp hx with rfl | hx
      · exact hmembers
      · exact hyields' x hx
    -- all members but the last one are calculations and have no transfer
    obtain ⟨calcs, last, hg, hcalcs, -⟩ := hjoined g (by simp)
    have hnone : ∀ item ∈ calcs.map fun e => itemOf modules e.stmt, item.2 = none := by
      intro item hitem
      obtain ⟨e, he, rfl⟩ := List.mem_map.mp hitem
      have hmem : e ∈ g.members := by simp [hg, he]
      refine Plan.transfer_eq_none ?_ (hmembers e hmem)
      rw [← hphases g (by simp) e hmem]
      exact hcalcs e he
    have hstmts : g.block.stmts.map (itemOf modules) =
        (calcs.map fun e => itemOf modules e.stmt) ++ [itemOf modules last.stmt] := by
      simp [Schedule.Group.block, hg]
    have hitems : (g.members.map fun e => itemOf modules e.stmt) =
        (calcs.map fun e => itemOf modules e.stmt) ++ [itemOf modules last.stmt] := by
      simp [hg]
    rw [List.flatMap_cons, List.map_append, List.foldr_append, ← hrest, hitems, hstmts,
      ← exploreItem_stageOf p depth call env _ hnone]
    rfl

end Items

end Search

end CandidateSearch
