/-
  CandidateSearch/Proofs/Listing/Operands.lean
  ============================================
  **Which operands fit where they are listed.**

  When a source is read, the operands of arithmetic and of the functions are checked: as far
  as its type is known, an operand is a number or a list where one is needed.  Nothing looks
  at the type of a condition, or at the two sides of a comparison:

      nth(0, L) + 1        both operands fit
      length([true])       the operand fits
      test(1)              a decimal is listed as a condition
      true < false         truth values are listed as decimals

  So in every program that compiles the numbers fit, and the lists too, unless arithmetic
  on something of unknown type is taken for one.  Any other operand that does not fit is one
  that the plan refuses when it gets there (`compiled_operands_accounted`).
-/
import CandidateSearch.Proofs.Compiling.Placeholders
import CandidateSearch.Proofs.Compiling.WellFormed
import CandidateSearch.Proofs.Listing.Conversions

namespace CandidateSearch

open Source Library
open Syntax (BinaryOp Builtin)
open Grammar (mayBeNumber mayBeList accepts isList)

namespace Listing

/-! ### Operands that are checked -/

/-- Arithmetic, the result of which may have an unknown type. -/
def isArithmetic : Resolved.Expr → Bool
  | .unary .neg _ => true
  | .binary op _ _ => !op.isLogical
  | _ => false

/-- Where a number is needed the operand fits, and where a list is needed it fits or is
    arithmetic. -/
def Conversion.Checked (c : Conversion) : Prop :=
  (c.use = .number → c.Fits) ∧ (c.use = .list → c.Fits ∨ isArithmetic c.operand = true)

/-- The kind of a listed expression goes with its type in the source. -/
def Kind.Agrees (arithmetic : Bool) (ty : Ty) : Kind → Prop
  | .decimal => mayBeNumber ty = true ∧ (ty = .unknown → arithmetic = true)
  | .bool => ty = .bool
  | .list => isList ty = true
  | .value => True

section Checked

variable {r : Resolved.Expr} {ty : Ty} (h : (expr r).kind.Agrees (isArithmetic r) ty)

include h

theorem checked_number (hty : mayBeNumber ty = true) : Conversion.Checked ⟨.number, r⟩ := by
  refine ⟨fun _ => ?_, fun huse => by cases huse⟩
  unfold Conversion.Fits
  cases hkind : (expr r).kind with
  | decimal => exact .inr rfl
  | value => exact .inl rfl
  | bool =>
    rw [hkind] at h
    cases h
    cases hty
  | list =>
    rw [hkind] at h
    cases ty with
    | list members => cases hty
    | _ => cases h

theorem checked_list (hty : mayBeList ty = true) : Conversion.Checked ⟨.list, r⟩ := by
  refine ⟨fun huse => (by cases huse), fun _ => ?_⟩
  unfold Conversion.Fits
  cases hkind : (expr r).kind with
  | list => exact .inl (.inr rfl)
  | value => exact .inl (.inl rfl)
  | bool =>
    rw [hkind] at h
    cases h
    cases hty
  | decimal =>
    rw [hkind] at h
    cases ty with
    | unknown => exact .inr (h.2 rfl)
    | integer | real => cases hty
    | _ => cases h.1

end Checked

theorem checked_of_use {c : Conversion} (hnumber : c.use ≠ .number) (hlist : c.use ≠ .list) :
    c.Checked :=
  ⟨fun h => absurd h hnumber, fun h => absurd h hlist⟩

/-- All conversions in a part of a listing have been checked. -/
def Traced.Checked {α : Type} (traced : Traced α) : Prop := ∀ c ∈ traced.conversions, c.Checked

theorem Traced.Checked.of_nil {α : Type} {traced : Traced α} (h : traced.conversions = []) :
    traced.Checked := by
  intro c hc
  rw [h] at hc
  cases hc

theorem Traced.Checked.concat {α β : Type} {traced : Traced α} {whole : Traced β}
    (h : traced.Checked) {c : Conversion} (hc : c.Checked)
    (hwhole : whole.conversions = traced.conversions ++ [c]) : whole.Checked := by
  intro d hd
  rw [hwhole, List.mem_append, List.mem_singleton] at hd
  rcases hd with hd | rfl
  · exact h d hd
  · exact hc

theorem checked_traceValues {rs : List Resolved.Expr} (h : ∀ r ∈ rs, (traceExpr r).Checked) :
    (traceValues rs).Checked := by
  intro c hc
  obtain ⟨r, hr, hc⟩ := mem_traceValues.mp hc
  exact h r hr c hc

end Listing

open Listing

/-! ### Expressions -/

namespace Syntax.Expr

/-- However the expression is resolved, its operands have been checked and its kind goes
    with its type. -/
def Sorted (e : Expr) : Prop := ∀ (env : Resolved.Env) r, env.expr e = .ok r →
  (traceExpr r).Checked ∧ (expr r).kind.Agrees (isArithmetic r) e.ty

theorem sorted_number {digits : String} {span : Span} : (number digits span).Sorted := by
  intro env r hr
  cases hr
  refine ⟨.of_nil rfl, ?_⟩
  show mayBeNumber (numeralTy digits) = true ∧ (numeralTy digits = .unknown → _)
  unfold numeralTy
  split
  · exact ⟨rfl, fun hunknown => by cases hunknown⟩
  · exact ⟨rfl, fun hunknown => by cases hunknown⟩

theorem sorted_var {v : Var} : (var v).Sorted := by
  intro env r hr
  simp only [Resolved.Env.expr, bind_eq_ok, pure_eq_ok] at hr
  obtain ⟨w, -, rfl⟩ := hr
  exact ⟨.of_nil rfl, trivial⟩

/-- Each of the items is resolved. -/
theorem exists_of_mem_exprs {env : Resolved.Env} {items : List Expr} {rs : List Resolved.Expr}
    (h : env.exprs items = .ok rs) : ∀ r ∈ rs, ∃ e ∈ items, env.expr e = .ok r := by
  induction items generalizing rs with
  | nil =>
    cases h
    simp
  | cons e rest ih =>
    simp only [Resolved.Env.exprs, bind_eq_ok, pure_eq_ok] at h
    obtain ⟨first, hfirst, others, hothers, rfl⟩ := h
    intro r hr
    rcases List.mem_cons.mp hr with rfl | hr
    · exact ⟨e, List.mem_cons_self, hfirst⟩
    · obtain ⟨other, hother, hresolved⟩ := ih hothers r hr
      exact ⟨other, List.mem_cons_of_mem _ hother, hresolved⟩

theorem exists_of_mem_members {env : Resolved.Env} {members : List (Expr × Bool)}
    {rs : List Resolved.Expr} (h : env.members members = .ok rs) :
    ∀ r ∈ rs, ∃ m ∈ members, env.expr m.1 = .ok r := by
  induction members generalizing rs with
  | nil =>
    cases h
    simp
  | cons member rest ih =>
    simp only [Resolved.Env.members, bind_eq_ok, pure_eq_ok] at h
    obtain ⟨first, hfirst, others, hothers, rfl⟩ := h
    intro r hr
    rcases List.mem_cons.mp hr with rfl | hr
    · exact ⟨member, List.mem_cons_self, hfirst⟩
    · obtain ⟨other, hother, hresolved⟩ := ih hothers r hr
      exact ⟨other, List.mem_cons_of_mem _ hother, hresolved⟩

theorem sorted_list {items : List Expr} {span : Span} (h : ∀ e ∈ items, e.Sorted) :
    (list items span).Sorted := by
  intro env r hr
  simp only [Resolved.Env.expr, bind_eq_ok, pure_eq_ok] at hr
  obtain ⟨rs, hrs, rfl⟩ := hr
  have hvalues : (traceValues rs).Checked := by
    apply checked_traceValues
    intro r hr
    obtain ⟨e, he, hresolved⟩ := exists_of_mem_exprs hrs r hr
    exact (h e he env r hresolved).1
  refine ⟨?_, rfl⟩
  intro c hc
  rw [conversions_list] at hc
  exact hvalues c hc

theorem checked_members {members : List (Expr × Bool)} (h : ∀ m ∈ members, m.1.Sorted)
    {env : Resolved.Env} {rs : List Resolved.Expr} (hrs : env.members members = .ok rs) :
    ∀ r ∈ rs, (traceExpr r).Checked := by
  intro r hr
  obtain ⟨m, hm, hresolved⟩ := exists_of_mem_members hrs r hr
  exact (h m hm env r hresolved).1

theorem sorted_vector {members : List (Expr × Bool)} {span : Span}
    (h : ∀ m ∈ members, m.1.Sorted) : (vector members span).Sorted := by
  intro env r hr
  simp only [Resolved.Env.expr, bind_eq_ok, pure_eq_ok] at hr
  obtain ⟨rs, hrs, rfl⟩ := hr
  refine ⟨?_, trivial⟩
  intro c hc
  rw [conversions_vector] at hc
  exact checked_traceValues (checked_members h hrs) c hc

theorem sorted_not {e : Expr} {span : Span} (h : e.Sorted) : (unary .not e span).Sorted := by
  intro env r hr
  simp only [Resolved.Env.expr, bind_eq_ok, pure_eq_ok] at hr
  obtain ⟨r, hr, rfl⟩ := hr
  refine ⟨(h env r hr).1.concat (c := ⟨.condition, r⟩) ?_ rfl, rfl⟩
  exact checked_of_use (by simp) (by simp)

theorem sorted_neg {e : Expr} {span : Span} (h : e.Sorted) (hty : mayBeNumber e.ty = true) :
    (unary .neg e span).Sorted := by
  intro env r hr
  simp only [Resolved.Env.expr, bind_eq_ok, pure_eq_ok] at hr
  obtain ⟨r, hr, rfl⟩ := hr
  obtain ⟨hchecked, hagrees⟩ := h env r hr
  exact ⟨hchecked.concat (checked_number hagrees hty) rfl, hty, fun _ => rfl⟩

theorem sorted_binary {op : BinaryOp} {lhs rhs : Expr} {span : Span} (hlhs : lhs.Sorted)
    (hrhs : rhs.Sorted) (htys : op.isLogical = false →
      mayBeNumber lhs.ty = true ∧ mayBeNumber rhs.ty = true) :
    (binary op lhs rhs span).Sorted := by
  intro env r hr
  simp only [Resolved.Env.expr, bind_eq_ok, pure_eq_ok] at hr
  obtain ⟨a, ha, b, hb, rfl⟩ := hr
  obtain ⟨hfirst, hleft⟩ := hlhs env a ha
  obtain ⟨hsecond, hright⟩ := hrhs env b hb
  constructor
  · intro c hc
    have hparts : c ∈ (traceExpr a).conversions ++ ((traceExpr b).conversions ++
        (traceBinary a b (traceExpr a).value (traceExpr b).value op).conversions) := hc
    rw [List.mem_append, List.mem_append] at hparts
    rcases hparts with hc | hc | hc
    · exact hfirst c hc
    · exact hsecond c hc
    obtain ⟨hoperand, hlist, hnumber⟩ := use_of_mem_traceBinary a b _ _ hc
    obtain ⟨use, operand⟩ := c
    by_cases huse : use = .number
    · subst huse
      obtain ⟨hleftTy, hrightTy⟩ := htys (hnumber rfl)
      rcases hoperand with rfl | rfl
      · exact checked_number hleft hleftTy
      · exact checked_number hright hrightTy
    · exact checked_of_use huse hlist
  · show Kind.Agrees (!op.isLogical) (ty (.binary op lhs rhs span))
      (Listing.binary op (expr a) (expr b)).kind
    rw [kind_binary, ty]
    cases op.isLogical with
    | true => rfl
    | false => exact ⟨mayBeNumber_arithmeticTy op lhs.ty rhs.ty, fun _ => rfl⟩

theorem exists_of_exprs_singleton {env : Resolved.Env} {e : Expr} {rs : List Resolved.Expr}
    (h : env.exprs [e] = .ok rs) : ∃ r, env.expr e = .ok r ∧ rs = [r] := by
  simp only [Resolved.Env.exprs, bind_eq_ok, pure_eq_ok, Except.ok.injEq] at h
  obtain ⟨r, hr, _, rfl, rfl⟩ := h
  exact ⟨r, hr, rfl⟩

theorem sorted_builtin {f : Builtin} {args : List Expr} {span : Span}
    (harity : args.length = f.arity) (htys : accepts f (args.map Expr.ty) = true)
    (h : ∀ e ∈ args, e.Sorted) : (builtin f args span).Sorted := by
  intro env r hr
  simp only [Resolved.Env.expr, bind_eq_ok] at hr
  obtain ⟨rs, hrs, hr⟩ := hr
  cases f with
  | sqrt | exp =>
    obtain ⟨e, rfl⟩ := List.length_eq_one_iff.mp harity
    obtain ⟨a, ha, rfl⟩ := exists_of_exprs_singleton hrs
    cases hr
    obtain ⟨hchecked, hagrees⟩ := h e (by simp) env a ha
    refine ⟨hchecked.concat (checked_number hagrees htys) rfl, rfl, fun hunknown => ?_⟩
    cases hunknown
  | length =>
    obtain ⟨e, rfl⟩ := List.length_eq_one_iff.mp harity
    obtain ⟨a, ha, rfl⟩ := exists_of_exprs_singleton hrs
    cases hr
    obtain ⟨hchecked, hagrees⟩ := h e (by simp) env a ha
    refine ⟨hchecked.concat (checked_list hagrees htys) rfl, rfl, fun hunknown => ?_⟩
    cases hunknown
  | sum =>
    obtain ⟨e, rfl⟩ := List.length_eq_one_iff.mp harity
    obtain ⟨a, ha, rfl⟩ := exists_of_exprs_singleton hrs
    cases hr
    obtain ⟨hchecked, hagrees⟩ := h e (by simp) env a ha
    refine ⟨hchecked.concat (checked_list hagrees htys) rfl, ?_⟩
    show mayBeNumber (ty _) = true ∧ (ty _ = .unknown → _)
    rw [ty]
    split_ifs
    · exact ⟨rfl, fun hunknown => by cases hunknown⟩
    · exact ⟨rfl, fun hunknown => by cases hunknown⟩
  | nth =>
    obtain ⟨place, items, rfl⟩ := List.length_eq_two.mp harity
    simp only [Resolved.Env.exprs, bind_eq_ok, pure_eq_ok, Except.ok.injEq] at hrs
    obtain ⟨i, hi, _, ⟨l, hl, _, rfl, rfl⟩, rfl⟩ := hrs
    cases hr
    obtain ⟨hplace, hnumber⟩ := h place (by simp) env i hi
    obtain ⟨hitems, hlist⟩ := h items (by simp) env l hl
    obtain ⟨hplaceTy, hitemsTy⟩ := Bool.and_eq_true_iff.mp htys
    refine ⟨?_, trivial⟩
    intro c hc
    have hparts : c ∈ (traceExpr l).conversions ++ (⟨.list, l⟩ :: ((traceExpr i).conversions ++
        [⟨.number, i⟩])) := hc
    simp only [List.mem_append, List.mem_cons, List.not_mem_nil, or_false] at hparts
    rcases hparts with hc | rfl | hc | rfl
    · exact hitems c hc
    · exact checked_list hlist hitemsTy
    · exact hplace c hc
    · exact checked_number hnumber hplaceTy

/-- Being whole and sorted passes from the parts of an expression to the whole. -/
theorem hereditary_sorted : Grammar.Hereditary fun e => e.Whole ∧ e.Sorted where
  number _ _ := ⟨trivial, sorted_number⟩
  string _ _ := ⟨trivial, fun _ _ hr => by cases hr; exact ⟨.of_nil rfl, trivial⟩⟩
  atom _ _ := ⟨trivial, fun _ _ hr => by cases hr; exact ⟨.of_nil rfl, trivial⟩⟩
  bool _ _ := ⟨trivial, fun _ _ hr => by cases hr; exact ⟨.of_nil rfl, rfl⟩⟩
  var _ := ⟨trivial, sorted_var⟩
  list _ _ hitems :=
    ⟨wholeAll_iff.mpr fun e he => (hitems e he).1, sorted_list fun e he => (hitems e he).2⟩
  vector _ _ hmembers :=
    ⟨wholeMembers_iff.mpr fun m hm => (hmembers m hm).1,
      sorted_vector fun m hm => (hmembers m hm).2⟩
  not _ _ he := ⟨he.1, sorted_not he.2⟩
  neg _ _ he hty := ⟨he.1, sorted_neg he.2 hty⟩
  binary _ _ _ _ hlhs hrhs htys := ⟨⟨hlhs.1, hrhs.1⟩, sorted_binary hlhs.2 hrhs.2 htys⟩
  builtin _ _ _ harity htys hargs :=
    ⟨⟨harity, wholeAll_iff.mpr fun e he => (hargs e he).1⟩,
      sorted_builtin harity htys fun e he => (hargs e he).2⟩

end Syntax.Expr

/-! ### Statements -/

namespace Resolved

theorem exists_of_mem_arms {env : Env} {arms : List (Syntax.Expr × Syntax.Expr)}
    {resolved : List (Expr × Expr)} (h : env.arms arms = .ok resolved) : ∀ r ∈ resolved,
    ∃ arm ∈ arms, env.expr arm.1 = .ok r.1 ∧ env.expr arm.2 = .ok r.2 := by
  induction arms generalizing resolved with
  | nil =>
    cases h
    simp
  | cons arm rest ih =>
    simp only [Env.arms, bind_eq_ok, pure_eq_ok] at h
    obtain ⟨condition, hcondition, value, hvalue, others, hothers, rfl⟩ := h
    intro r hr
    rcases List.mem_cons.mp hr with rfl | hr
    · exact ⟨arm, List.mem_cons_self, hcondition, hvalue⟩
    · obtain ⟨other, hother, hresolved⟩ := ih hothers r hr
      exact ⟨other, List.mem_cons_of_mem _ hother, hresolved⟩

theorem checked_condition {env : Env} {condition : Syntax.Expr} (h : condition.Sorted) {r : Expr}
    (hr : env.expr condition = .ok r) : (traceCondition r).Checked := by
  intro c hc
  rcases mem_traceCondition.mp hc with hc | rfl
  · exact (h env r hr).1 c hc
  · exact checked_of_use (by simp) (by simp)

theorem checked_of_converts {env : Env} {a : Syntax.Action} (h : a.Each fun e => e.Whole ∧ e.Sorted)
    {b : Resolved.Action} (hb : env.action a = .ok b) {span : Span} {c : Conversion}
    (hc : Converts ⟨b, span⟩ c) : c.Checked := by
  cases a with
  | assign target value =>
    obtain ⟨-, -, hvalue⟩ := h
    simp only [Env.action, bind_eq_ok] at hb
    obtain ⟨t, -, hb⟩ := hb
    cases value with
    | expr e =>
      simp only [bind_eq_ok, pure_eq_ok] at hb
      obtain ⟨r, hr, rfl⟩ := hb
      exact (hvalue.2 env r hr).1 c hc
    | range first last step rangeSpan =>
      cases t with
      | destructure vs => cases hb
      | single v =>
        simp only [bind_eq_ok, pure_eq_ok] at hb
        obtain ⟨r₁, hfirst, r₂, hlast, r₃, hstep, rfl⟩ := hb
        obtain ⟨e, he, hc⟩ := hc
        have hsorted : ∃ written : Syntax.Expr, (written.Whole ∧ written.Sorted) ∧
            mayBeNumber written.ty = true ∧ env.expr written = .ok e := by
          simp only [List.mem_cons, List.not_mem_nil, or_false] at he
          rcases he with rfl | rfl | rfl
          · exact ⟨first, (hvalue first (by simp)).1, (hvalue first (by simp)).2, hfirst⟩
          · exact ⟨last, (hvalue last (by simp)).1, (hvalue last (by simp)).2, hlast⟩
          · exact ⟨step, (hvalue step (by simp)).1, (hvalue step (by simp)).2, hstep⟩
        obtain ⟨written, hwritten, hty, hresolved⟩ := hsorted
        obtain ⟨hchecked, hagrees⟩ := hwritten.2 env e hresolved
        rcases hc with hc | rfl
        · exact hchecked c hc
        · exact checked_number hagrees hty
    | select list selectSpan =>
      simp only [bind_eq_ok, pure_eq_ok] at hb
      obtain ⟨r, hr, rfl⟩ := hb
      obtain ⟨hchecked, hagrees⟩ := hvalue.1.2 env r hr
      rcases hc with hc | rfl
      · exact hchecked c hc
      · exact checked_list hagrees hvalue.2
    | cases arms casesSpan =>
      simp only [bind_eq_ok, pure_eq_ok] at hb
      obtain ⟨resolved, hresolved, rfl⟩ := hb
      obtain ⟨r, hr, hc⟩ := hc
      obtain ⟨arm, harm, hcondition, hchosen⟩ := exists_of_mem_arms hresolved r hr
      rcases hc with hc | rfl | hc
      · exact ((hvalue arm harm).1.2 env r.1 hcondition).1 c hc
      · exact checked_of_use (by simp) (by simp)
      · exact ((hvalue arm harm).2.2 env r.2 hchosen).1 c hc
  | test condition | guard condition =>
    simp only [Env.action, bind_eq_ok, pure_eq_ok] at hb
    obtain ⟨r, hr, rfl⟩ := hb
    exact checked_condition h.2 hr c (mem_traceCondition.mpr hc)
  | call callee inputs outputs =>
    obtain ⟨⟨hinputs, hvector⟩, -⟩ := h
    cases inputs with
    | vector members memberSpan =>
      simp only [Env.action, bind_eq_ok, pure_eq_ok] at hb
      obtain ⟨rs, hrs, targets, -, rfl⟩ := hb
      have hresolved : env.expr (.vector members memberSpan) = .ok (.vector rs) := by
        simp only [Env.expr, hrs]
        rfl
      apply (hinputs.2 env (.vector rs) hresolved).1
      rw [conversions_vector, mem_traceValues]
      exact hc
    | _ => cases hvector
  | missing => exact h.elim

/-- Whatever the outcome for a statement: one that cannot be resolved converts nothing. -/
theorem checked_stmt {env : Env} {s : Syntax.Stmt}
    (h : s.action.Each fun e => e.Whole ∧ e.Sorted) (modules : List Module) (next : String) :
    (traceStmt modules next (env.stmt s).value).Checked := by
  intro c hc
  have hconverts := converts_of_mem hc
  unfold Env.stmt at hconverts
  split at hconverts
  · rename_i action haction
    exact checked_of_converts h haction hconverts
  · exact hconverts.elim

theorem checked_guard {env : Env} {guard : Option Syntax.Expr}
    (h : ∀ condition, guard = some condition → condition.Whole ∧ condition.Sorted)
    {condition : Expr} (hcondition : (env.guard guard).value = some condition) :
    (traceCondition condition).Checked := by
  cases guard with
  | none => cases hcondition
  | some written =>
    unfold Env.guard at hcondition
    dsimp only at hcondition
    split at hcondition
    · rename_i r hr
      cases hcondition
      exact checked_condition (h written rfl).2 hr
    · cases hcondition

end Resolved

/-! ### Programs -/

theorem assured_sorted : Assured (Syntax.Module.Each fun e => e.Whole ∧ e.Sorted) :=
  fun _ => Grammar.each_of_parse Syntax.Expr.hereditary_sorted fun _ h => h.1

namespace Listing

/-- The operand has been checked as far as its use is, and if it does not fit, then whatever
    it evaluates to is refused. -/
structure Conversion.Accounted (c : Conversion) : Prop where
  checked : c.Checked
  refused : ¬ c.Fits → ∀ q, Plan.Expr.ofResolved c.operand = .ok q →
    ∀ read a, Plan.Expr.eval read q = .ok a → c.use.Refuses a

/-- The guards and statements of the modules are listed as they are traced, and all their
    conversions are accounted for. -/
def AccountsFor (scheduled : List Schedule.Module) : Prop :=
  ∀ m ∈ scheduled, ∀ method ∈ m.methods,
    (∀ condition, method.resolved.guard = some condition →
      (traceCondition condition).value = (expr condition).operand Listed.boolean ∧
      ∀ c ∈ (traceCondition condition).conversions, c.Accounted) ∧
    ∀ block ∈ method.blocks, ∀ s ∈ block.stmts, ∀ modules next,
      (traceStmt modules next s).value = stmt modules next s ∧
      ∀ c ∈ (traceStmt modules next s).conversions, c.Accounted

theorem Traced.Checked.accounted {α : Type} {traced : Traced α} (h : traced.Checked) :
    ∀ c ∈ traced.conversions, c.Accounted := fun c hc =>
  ⟨h c hc, fun hmisfit _ hq _ _ ha => Conversion.refuses_of_misfit hmisfit hq ha⟩

theorem accountsFor_of_comesFrom {scheduled : List Schedule.Module} {units : List Loaded}
    (horigins : List.Forall₂ Schedule.Module.ComesFrom scheduled units)
    (hunits : ∀ unit ∈ units, unit.syntaxTree.Each fun e => e.Whole ∧ e.Sorted) :
    AccountsFor scheduled := by
  intro m hm method hmethod
  obtain ⟨unit, hunit, horigin⟩ := exists_origin horigins m hm
  have hresolved : method.resolved ∈ (Resolved.ofSyntax unit.syntaxTree).value.methods := by
    rw [← horigin.resolved, ← horigin.methods]
    exact List.mem_map_of_mem hmethod
  obtain ⟨number, written, hwritten, heq⟩ := Resolved.exists_of_mem_ofSyntax hresolved
  have heach := (hunits unit hunit).methods written hwritten
  constructor
  · intro condition hcondition
    rw [heq] at hcondition
    exact ⟨value_traceCondition condition,
      (Resolved.checked_guard heach.guard hcondition).accounted⟩
  · intro block hblock s hs modules next
    refine ⟨value_traceStmt modules next s, Traced.Checked.accounted ?_⟩
    have hbody := horigin.stmts method hmethod block hblock s hs
    rw [heq] at hbody
    obtain ⟨outcome, houtcome, rfl⟩ := List.mem_map.mp hbody
    obtain ⟨t, ht, rfl⟩ := List.mem_map.mp houtcome
    exact Resolved.checked_stmt (heach.body t ht) modules next

end Listing

/-- **Which operands fit where they are listed.**  A program that compiles has a listing of
    what it was scheduled as, in which each operand is listed once for its use.  Where a
    number is needed, an operand is a value or a decimal.  Where a list is needed, it is a
    value or a list, or arithmetic.  A condition and the two sides of a comparison may be of
    any kind; but an operand that is neither a value nor of the kind that is wanted is one
    that the plan refuses, whatever it evaluates to. -/
theorem compiled_operands_accounted {options : Options} {source : String} {compiled : Compiled}
    (h : (compile options source).result = .ok compiled) :
    ∃ scheduled, (schedulesOf options source).result = .ok scheduled ∧
      Plan.Program.ofSchedule scheduled = .ok compiled.program ∧
      (compiled.listing = if options.listing then Listing.text options.name scheduled else "") ∧
      AccountsFor scheduled := by
  obtain ⟨units, scheduled, hunits, hscheduled, horigins, hprogram, hlisting⟩ :=
    origins_of_compile h
  have hload := ends_load assured_sorted options.name source options.sources
  unfold Logged.Ends at hload
  rw [hunits] at hload
  exact ⟨scheduled, hscheduled, hprogram, hlisting, accountsFor_of_comesFrom horigins hload⟩

/-- A condition that is a number, truth values in order, a number that equals a truth value,
    and the length of a sum. -/
def misfitSource : String :=
  "f({L:[]},{X:i}) method test(1); test(true<false); test(1=true); X=length(nth(0,L)+1); " ++
  "end method; end module;"

/-- Some statement lists an operand that does not fit the use. -/
def holdsMisfit (use : Use) (scheduled : List Schedule.Module) : Bool :=
  scheduled.any fun m => m.methods.any fun method => method.blocks.any fun block =>
    block.stmts.any fun s => (traceStmt [] "" s).conversions.any fun c =>
      decide (c.use = use) && !decide c.Fits

set_option maxRecDepth 100000 in
theorem compiled_operands_accounted_misfitSource :
    ∃ compiled scheduled, (compile {} misfitSource).result = .ok compiled ∧
      (schedulesOf {} misfitSource).result = .ok scheduled ∧
      ([.condition, .ordered, .equated, .list].all fun use => holdsMisfit use scheduled) = true ∧
      AccountsFor scheduled := by
  have hchars : misfitSource.toList = _ :=
    toList_append_of_toList String.toList_ofList String.toList_ofList
  have hcompiles : (compile {} misfitSource).result.toOption.isSome = true := by
    rw [compile, Library.load, Library.State.load, Source.Document.ofText, hchars]
    decide +kernel
  have hmisfits : (schedulesOf {} misfitSource).result.toOption.any (fun scheduled =>
      [.condition, .ordered, .equated, .list].all fun use => holdsMisfit use scheduled) = true := by
    rw [schedulesOf, Library.load, Library.State.load, Source.Document.ofText, hchars]
    decide +kernel
  cases hresult : (compile {} misfitSource).result with
  | error diagnostics =>
    rw [hresult] at hcompiles
    cases hcompiles
  | ok compiled =>
    obtain ⟨scheduled, hscheduled, -, -, haccounts⟩ := compiled_operands_accounted hresult
    rw [hscheduled] at hmisfits
    exact ⟨compiled, scheduled, rfl, hscheduled, hmisfits, haccounts⟩

end CandidateSearch
