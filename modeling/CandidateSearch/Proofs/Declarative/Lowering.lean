/-
  CandidateSearch/Proofs/Declarative/Lowering.lean
  ================================================
  **From the expressions of a source to those of a plan.**

  A variable of a source is found by its scope and name, and from then on it is a slot.
  If the slots hold the values that the variables have, then a planned expression has the
  value that the expression of the source has; where the one has none, the evaluation of
  the other ends with a fault (`toOption_eval`).
-/
import CandidateSearch.Plan.OfSchedule
import CandidateSearch.Proofs.Declarative.Semantics
import CandidateSearch.Resolved.OfSyntax

namespace CandidateSearch

/-! ### Results -/

section Results

variable {ε α β : Type}

theorem bind_eq_ok {x : Except ε α} {f : α → Except ε β} {b : β} :
    x >>= f = .ok b ↔ ∃ a, x = .ok a ∧ f a = .ok b := by
  cases x with
  | ok a => simp [bind, Except.bind]
  | error e => simp [bind, Except.bind]

theorem map_eq_ok {x : Except ε α} {f : α → β} {b : β} :
    x.map f = .ok b ↔ ∃ a, x = .ok a ∧ f a = b := by
  cases x <;> simp [Except.map]

theorem pure_eq_ok {a b : α} : (pure a : Except ε α) = .ok b ↔ a = b := by
  simp [pure, Except.pure]

theorem toOption_bind (x : Except ε α) (f : α → Except ε β) :
    (x >>= f).toOption = x.toOption >>= fun a => (f a).toOption := by
  cases x <;> rfl

theorem toOption_pure (a : α) : (pure a : Except ε α).toOption = some a := rfl

theorem toOption_ite (c : Prop) [Decidable c] (x y : Except ε α) :
    (if c then x else y).toOption = if c then x.toOption else y.toOption := by
  split <;> rfl

end Results

namespace Resolved

/-! ### Looking up variables -/

/-- The variable that a scope and a name stand for. -/
def Env.find? (env : Env) (k : Key) : Option Var :=
  (match k.1 with
    | .parameter => env.fields
    | .body => env.locals).reverse.find? fun w => w.name == k.2

theorem Env.var_eq_ok {env : Env} {v : Syntax.Var} {w : Var} :
    env.var v = .ok w ↔ env.find? v.key = some w := by
  obtain ⟨name, ty, tySpan, scope, input, span⟩ := v
  cases scope with
  | parameter =>
    simp only [Env.var, Env.find?, Syntax.Var.key]
    cases env.fields.reverse.find? fun w => w.name == name <;> simp [reject]
  | body =>
    simp only [Env.var, Env.find?, Syntax.Var.key]
    cases env.locals.reverse.find? fun w => w.name == name <;> simp [reject]

theorem Env.name_of_find? {env : Env} {k : Key} {w : Var} (h : env.find? k = some w) :
    w.name = k.2 := by
  simpa using List.find?_some h

end Resolved

namespace Plan

open Resolved (Env)

variable {env : Env} {read : Reader} {V : Valuation}

/-! ### Expressions -/

/-- The expression of the source becomes this one in the plan. -/
def Lowers (env : Env) (e : Syntax.Expr) (q : Expr) : Prop :=
  ∃ r, env.expr e = .ok r ∧ Expr.ofResolved r = .ok q

/-- The slots of these variables hold their values. -/
def Sees (env : Env) (read : Reader) (V : Valuation) (vars : List Syntax.Var) : Prop :=
  ∀ v ∈ vars, ∀ w, env.find? v.key = some w → (read w.slot).toOption = V v.key

theorem Sees.mono {vars vars' : List Syntax.Var} (h : Sees env read V vars)
    (hsub : ∀ v ∈ vars', v ∈ vars) : Sees env read V vars' :=
  fun v hv => h v (hsub v hv)

mutual

/-- A planned expression has the value of the expression in the source. -/
theorem toOption_eval : ∀ (e : Syntax.Expr) (q : Expr), Lowers env e q →
    Sees env read V e.vars → (q.eval read).toOption = e.value V
  | .number digits _, q, ⟨r, hr, hq⟩, _ => by
      cases hr
      simp only [Expr.ofResolved] at hq
      split at hq
      · rename_i d hd
        cases hq
        simp [Expr.eval, Syntax.Expr.value, hd, Except.toOption]
      · cases hq
  | .string text _, q, ⟨r, hr, hq⟩, _ => by
      cases hr
      cases hq
      rfl
  | .atom text _, q, ⟨r, hr, hq⟩, _ => by
      cases hr
      cases hq
      rfl
  | .bool b _, q, ⟨r, hr, hq⟩, _ => by
      cases hr
      cases hq
      rfl
  | .missing _, q, ⟨r, hr, _⟩, _ => by cases hr
  | .var v, q, ⟨r, hr, hq⟩, hsees => by
      simp only [Env.expr, bind_eq_ok, pure_eq_ok, Env.var_eq_ok] at hr
      obtain ⟨w, hw, rfl⟩ := hr
      cases hq
      have hread := hsees v (by simp [Syntax.Expr.vars]) w hw
      simp only [Expr.eval, Syntax.Expr.value, toOption_bind, hread]
  | .list items _, q, ⟨r, hr, hq⟩, hsees => by
      simp only [Env.expr, bind_eq_ok, pure_eq_ok] at hr
      obtain ⟨rs, hrs, rfl⟩ := hr
      simp only [Expr.ofResolved, bind_eq_ok, pure_eq_ok] at hq
      obtain ⟨qs, hqs, rfl⟩ := hq
      simp only [Expr.eval, Syntax.Expr.value, toOption_bind, toOption_pure,
        toOption_evalAll items qs ⟨rs, hrs, hqs⟩ hsees]
      rfl
  | .vector members _, q, ⟨r, hr, hq⟩, hsees => by
      simp only [Env.expr, bind_eq_ok, pure_eq_ok] at hr
      obtain ⟨rs, hrs, rfl⟩ := hr
      simp only [Expr.ofResolved, bind_eq_ok, pure_eq_ok] at hq
      obtain ⟨qs, hqs, rfl⟩ := hq
      simp only [Expr.eval, Syntax.Expr.value, toOption_bind, toOption_pure,
        toOption_evalMembers members qs ⟨rs, hrs, hqs⟩ hsees]
      rfl
  | .unary op e _, q, ⟨r, hr, hq⟩, hsees => by
      simp only [Env.expr, bind_eq_ok, pure_eq_ok] at hr
      obtain ⟨re, hre, rfl⟩ := hr
      simp only [Expr.ofResolved, bind_eq_ok, pure_eq_ok] at hq
      obtain ⟨qe, hqe, rfl⟩ := hq
      have he := toOption_eval e qe ⟨re, hre, hqe⟩ hsees
      cases op <;>
        simp only [Expr.eval, Syntax.Expr.value, toOption_bind, toOption_pure, he] <;> rfl
  | .binary op a b _, q, ⟨r, hr, hq⟩, hsees => by
      simp only [Env.expr, bind_eq_ok, pure_eq_ok] at hr
      obtain ⟨ra, hra, rb, hrb, rfl⟩ := hr
      simp only [Expr.ofResolved, bind_eq_ok, pure_eq_ok] at hq
      obtain ⟨qa, hqa, qb, hqb, rfl⟩ := hq
      have ha := toOption_eval a qa ⟨ra, hra, hqa⟩ (hsees.mono fun v hv => by
        simp [Syntax.Expr.vars, hv])
      have hb := toOption_eval b qb ⟨rb, hrb, hqb⟩ (hsees.mono fun v hv => by
        simp [Syntax.Expr.vars, hv])
      cases op <;>
        simp only [Expr.eval, Syntax.Expr.value, toOption_bind, toOption_pure, toOption_ite, ha,
          hb] <;> rfl
  | .builtin f [] _, q, ⟨r, hr, _⟩, _ => by
      simp only [Env.expr, Env.exprs, bind_eq_ok] at hr
      obtain ⟨args, hargs, hr⟩ := hr
      cases hargs
      cases f <;> cases hr
  | .builtin f [e] _, q, ⟨r, hr, hq⟩, hsees => by
      simp only [Env.expr, Env.exprs, bind_eq_ok, pure_eq_ok] at hr
      obtain ⟨args, ⟨re, hre, rest, hrest, rfl⟩, hr⟩ := hr
      cases hrest
      cases f with
      | nth => cases hr
      | sqrt | exp | length | sum =>
        cases hr
        simp only [Expr.ofResolved, bind_eq_ok, pure_eq_ok] at hq
        obtain ⟨qe, hqe, rfl⟩ := hq
        have he := toOption_eval e qe ⟨re, hre, hqe⟩ hsees
        simp only [Expr.eval, Syntax.Expr.value, toOption_bind, toOption_pure, he]
        rfl
  | .builtin f (e :: l :: rest) _, q, ⟨r, hr, hq⟩, hsees => by
      simp only [Env.expr, Env.exprs, bind_eq_ok, pure_eq_ok] at hr
      obtain ⟨args, ⟨re, hre, _, ⟨rl, hrl, _, _, rfl⟩, rfl⟩, hr⟩ := hr
      cases f with
      | nth =>
        cases hr
        simp only [Expr.ofResolved, bind_eq_ok, pure_eq_ok] at hq
        obtain ⟨qe, hqe, ql, hql, rfl⟩ := hq
        have he := toOption_eval e qe ⟨re, hre, hqe⟩ (hsees.mono fun v hv => by
          simp [Syntax.Expr.vars, hv])
        have hl := toOption_eval l ql ⟨rl, hrl, hql⟩ (hsees.mono fun v hv => by
          simp [Syntax.Expr.vars, hv])
        simp only [Expr.eval, Syntax.Expr.value, toOption_bind, he, hl]
      | sqrt | exp | length | sum =>
        cases hr
        simp only [Expr.ofResolved, bind_eq_ok, pure_eq_ok] at hq
        obtain ⟨qe, hqe, rfl⟩ := hq
        have he := toOption_eval e qe ⟨re, hre, hqe⟩ hsees
        simp only [Expr.eval, Syntax.Expr.value, toOption_bind, toOption_pure, he]
        rfl

theorem toOption_evalAll : ∀ (items : List Syntax.Expr) (qs : List Expr),
    (∃ rs, env.exprs items = .ok rs ∧ Expr.ofResolvedAll rs = .ok qs) →
    Sees env read V (Syntax.Expr.varsAll items) →
    (Expr.evalAll read qs).toOption = Syntax.Expr.values V items
  | [], qs, ⟨rs, hrs, hqs⟩, _ => by
      cases hrs
      cases hqs
      rfl
  | e :: rest, qs, ⟨rs, hrs, hqs⟩, hsees => by
      simp only [Env.exprs, bind_eq_ok, pure_eq_ok] at hrs
      obtain ⟨re, hre, rrest, hrrest, rfl⟩ := hrs
      simp only [Expr.ofResolvedAll, bind_eq_ok, pure_eq_ok] at hqs
      obtain ⟨qe, hqe, qrest, hqrest, rfl⟩ := hqs
      have he := toOption_eval e qe ⟨re, hre, hqe⟩ (hsees.mono fun v hv => by
        simp [Syntax.Expr.varsAll, hv])
      have hrest := toOption_evalAll rest qrest ⟨rrest, hrrest, hqrest⟩ (hsees.mono fun v hv => by
        simp [Syntax.Expr.varsAll, hv])
      simp only [Expr.evalAll, Syntax.Expr.values, toOption_bind, toOption_pure, he, hrest]
      rfl

theorem toOption_evalMembers : ∀ (members : List (Syntax.Expr × Bool)) (qs : List Expr),
    (∃ rs, env.members members = .ok rs ∧ Expr.ofResolvedAll rs = .ok qs) →
    Sees env read V (Syntax.Expr.memberVars members) →
    (Expr.evalAll read qs).toOption = Syntax.Expr.memberValues V members
  | [], qs, ⟨rs, hrs, hqs⟩, _ => by
      cases hrs
      cases hqs
      rfl
  | (e, _) :: rest, qs, ⟨rs, hrs, hqs⟩, hsees => by
      simp only [Env.members, bind_eq_ok, pure_eq_ok] at hrs
      obtain ⟨re, hre, rrest, hrrest, rfl⟩ := hrs
      simp only [Expr.ofResolvedAll, bind_eq_ok, pure_eq_ok] at hqs
      obtain ⟨qe, hqe, qrest, hqrest, rfl⟩ := hqs
      have he := toOption_eval e qe ⟨re, hre, hqe⟩ (hsees.mono fun v hv => by
        simp [Syntax.Expr.memberVars, hv])
      have hrest := toOption_evalMembers rest qrest ⟨rrest, hrrest, hqrest⟩
        (hsees.mono fun v hv => by simp [Syntax.Expr.memberVars, hv])
      simp only [Expr.evalAll, Syntax.Expr.memberValues, toOption_bind, toOption_pure, he, hrest]
      rfl

end

variable {e : Syntax.Expr} {q : Expr}

theorem toOption_evalValue (h : Lowers env e q) (hsees : Sees env read V e.vars) :
    (q.evalValue read).toOption = e.stored V := by
  simp only [Expr.evalValue, Syntax.Expr.stored, toOption_bind, toOption_eval e q h hsees]

theorem toOption_evalBool (h : Lowers env e q) (hsees : Sees env read V e.vars) :
    (q.evalBool read).toOption = e.truth V := by
  simp only [Expr.evalBool, Syntax.Expr.truth, toOption_bind, toOption_eval e q h hsees]

theorem toOption_evalNumber (h : Lowers env e q) (hsees : Sees env read V e.vars) :
    (q.evalNumber read).toOption = e.amount V := by
  simp only [Expr.evalNumber, Syntax.Expr.amount, toOption_bind, toOption_eval e q h hsees]

def LowersArms (env : Env) (arms : List (Syntax.Expr × Syntax.Expr)) (qs : List (Expr × Expr)) :
    Prop :=
  List.Forall₂ (fun arm q => Lowers env arm.1 q.1 ∧ Lowers env arm.2 q.2) arms qs

theorem toOption_firstMatch {arms : List (Syntax.Expr × Syntax.Expr)} {qs : List (Expr × Expr)}
    (h : LowersArms env arms qs)
    (hsees : Sees env read V (arms.flatMap fun arm => arm.1.vars ++ arm.2.vars)) :
    (firstMatch (fun arm : Expr × Expr => arm.1.evalBool read)
        (fun arm => arm.2.evalValue read) qs).toOption =
      firstMatch (fun arm => arm.1.truth V) (fun arm => arm.2.stored V) arms := by
  induction h with
  | nil => rfl
  | @cons arm q arms qs hfirst _ ih =>
    have hcondition := toOption_evalBool hfirst.1 (hsees.mono fun v hv => by simp [hv])
    have hvalue := toOption_evalValue hfirst.2 (hsees.mono fun v hv => by simp [hv])
    have hrest := ih (hsees.mono fun v hv => by
      rw [List.flatMap_cons]
      exact List.mem_append_right _ hv)
    simp only [firstMatch, toOption_bind, toOption_ite, toOption_pure, hcondition, hvalue, hrest]
    rfl

end Plan

namespace Resolved

variable {env : Env}

/-! ### What is read and written -/

/-- Occurrences of variables and what is found for them, one by one. -/
abbrev Found (env : Env) : List Syntax.Var → List Var → Prop :=
  List.Forall₂ fun v w => env.find? v.key = some w

theorem Found.head_name {vs : List Syntax.Var} {ws : List Var} (h : Found env vs ws) :
    ws.head?.map (·.name) = vs.head?.map (·.name) := by
  cases h with
  | nil => rfl
  | cons hw _ => simp [Env.name_of_find? hw, Syntax.Var.key]

theorem Found.exists_left {vs : List Syntax.Var} {ws : List Var} (h : Found env vs ws) {w : Var}
    (hw : w ∈ ws) : ∃ v ∈ vs, env.find? v.key = some w := by
  induction h with
  | nil => cases hw
  | @cons v _ _ _ hfound _ ih =>
    rcases List.mem_cons.mp hw with rfl | hw
    · exact ⟨v, by simp, hfound⟩
    · obtain ⟨u, hu, hfound⟩ := ih hw
      exact ⟨u, by simp [hu], hfound⟩

theorem Found.exists_right {vs : List Syntax.Var} {ws : List Var} (h : Found env vs ws)
    {v : Syntax.Var} (hv : v ∈ vs) : ∃ w ∈ ws, env.find? v.key = some w := by
  induction h with
  | nil => cases hv
  | @cons _ w _ _ hfound _ ih =>
    rcases List.mem_cons.mp hv with rfl | hv
    · exact ⟨w, by simp, hfound⟩
    · obtain ⟨u, hu, hfound⟩ := ih hv
      exact ⟨u, by simp [hu], hfound⟩

mutual

/-- A resolved expression reads the variables of the expression in the source. -/
theorem found_reads : ∀ (e : Syntax.Expr) (r : Expr), env.expr e = .ok r →
    Found env e.vars r.reads
  | .number .., r, h | .string .., r, h | .atom .., r, h | .bool .., r, h => by
      cases h
      exact .nil
  | .missing _, r, h => by cases h
  | .var v, r, h => by
      simp only [Env.expr, bind_eq_ok, pure_eq_ok, Env.var_eq_ok] at h
      obtain ⟨w, hw, rfl⟩ := h
      exact .cons hw .nil
  | .list items _, r, h => by
      simp only [Env.expr, bind_eq_ok, pure_eq_ok] at h
      obtain ⟨rs, hrs, rfl⟩ := h
      exact found_readsAll items rs hrs
  | .vector members _, r, h => by
      simp only [Env.expr, bind_eq_ok, pure_eq_ok] at h
      obtain ⟨rs, hrs, rfl⟩ := h
      exact found_readsMembers members rs hrs
  | .unary op e _, r, h => by
      simp only [Env.expr, bind_eq_ok, pure_eq_ok] at h
      obtain ⟨re, hre, rfl⟩ := h
      exact found_reads e re hre
  | .binary op a b _, r, h => by
      simp only [Env.expr, bind_eq_ok, pure_eq_ok] at h
      obtain ⟨ra, hra, rb, hrb, rfl⟩ := h
      exact List.rel_append (found_reads a ra hra) (found_reads b rb hrb)
  | .builtin f [] _, r, h => by
      simp only [Env.expr, Env.exprs, bind_eq_ok] at h
      obtain ⟨args, hargs, h⟩ := h
      cases hargs
      cases f <;> cases h
  | .builtin f [e] _, r, h => by
      simp only [Env.expr, Env.exprs, bind_eq_ok, pure_eq_ok] at h
      obtain ⟨args, ⟨re, hre, rest, hrest, rfl⟩, h⟩ := h
      cases hrest
      cases f with
      | nth => cases h
      | sqrt | exp | length | sum =>
        cases h
        exact found_reads e re hre
  | .builtin f (e :: l :: rest) _, r, h => by
      simp only [Env.expr, Env.exprs, bind_eq_ok, pure_eq_ok] at h
      obtain ⟨args, ⟨re, hre, _, ⟨rl, hrl, _, _, rfl⟩, rfl⟩, h⟩ := h
      cases f with
      | nth =>
        cases h
        exact List.rel_append (found_reads e re hre) (found_reads l rl hrl)
      | sqrt | exp | length | sum =>
        cases h
        exact found_reads e re hre

theorem found_readsAll : ∀ (items : List Syntax.Expr) (rs : List Expr),
    env.exprs items = .ok rs → Found env (Syntax.Expr.varsAll items) (Expr.readsAll rs)
  | [], rs, h => by
      cases h
      exact .nil
  | e :: rest, rs, h => by
      simp only [Env.exprs, bind_eq_ok, pure_eq_ok] at h
      obtain ⟨re, hre, rrest, hrrest, rfl⟩ := h
      exact List.rel_append (found_reads e re hre) (found_readsAll rest rrest hrrest)

theorem found_readsMembers : ∀ (members : List (Syntax.Expr × Bool)) (rs : List Expr),
    env.members members = .ok rs → Found env (Syntax.Expr.memberVars members) (Expr.readsAll rs)
  | [], rs, h => by
      cases h
      exact .nil
  | (e, _) :: rest, rs, h => by
      simp only [Env.members, bind_eq_ok, pure_eq_ok] at h
      obtain ⟨re, hre, rrest, hrrest, rfl⟩ := h
      exact List.rel_append (found_reads e re hre) (found_readsMembers rest rrest hrrest)

end

theorem found_targets {members : List (Syntax.Expr × Bool)} {vs : List Var}
    (h : env.targets members = .ok vs) (span : Source.Span) :
    Found env (Syntax.Expr.targets (.vector members span)) vs := by
  induction members generalizing vs with
  | nil =>
    cases h
    exact .nil
  | cons member rest ih =>
    obtain ⟨e, declares⟩ := member
    cases e with
    | var v =>
      simp only [Env.targets, bind_eq_ok, pure_eq_ok, Env.var_eq_ok] at h
      obtain ⟨w, hw, ws, hws, rfl⟩ := h
      exact .cons hw (ih hws)
    | _ => cases h

theorem target_cases {target : Syntax.Expr} {t : Target} (h : env.target target = .ok t) :
    (∃ v w, target = .var v ∧ t = .single w ∧ env.find? v.key = some w) ∨
      ∃ members span vs, target = .vector members span ∧ t = .destructure vs ∧
        env.targets members = .ok vs := by
  cases target with
  | var v =>
    simp only [Env.target, bind_eq_ok, pure_eq_ok, Env.var_eq_ok] at h
    obtain ⟨w, hw, rfl⟩ := h
    exact Or.inl ⟨v, w, rfl, rfl, hw⟩
  | vector members span =>
    simp only [Env.target, bind_eq_ok, pure_eq_ok] at h
    obtain ⟨vs, hvs, rfl⟩ := h
    exact Or.inr ⟨members, span, vs, rfl, rfl, hvs⟩
  | _ => cases h

theorem found_target {target : Syntax.Expr} {t : Target} (h : env.target target = .ok t) :
    Found env target.targets t.vars := by
  rcases target_cases h with ⟨v, w, rfl, rfl, hw⟩ | ⟨members, span, vs, rfl, rfl, hvs⟩
  · exact .cons hw .nil
  · exact found_targets hvs span

theorem found_arms {arms : List (Syntax.Expr × Syntax.Expr)} {rs : List (Expr × Expr)}
    (h : env.arms arms = .ok rs) :
    Found env (arms.flatMap fun arm => arm.1.vars ++ arm.2.vars)
      (rs.flatMap fun arm => arm.1.reads ++ arm.2.reads) := by
  induction arms generalizing rs with
  | nil =>
    cases h
    exact .nil
  | cons arm rest ih =>
    obtain ⟨condition, value⟩ := arm
    simp only [Env.arms, bind_eq_ok, pure_eq_ok] at h
    obtain ⟨rc, hrc, rv, hrv, rrest, hrrest, rfl⟩ := h
    simp only [List.flatMap_cons]
    exact List.rel_append (List.rel_append (found_reads _ _ hrc) (found_reads _ _ hrv)) (ih hrrest)

/-- What becomes of a statement, by what it is. -/
inductive StmtLowers (env : Env) : Syntax.Action → Action → Prop where
  | assign {target : Syntax.Expr} {e : Syntax.Expr} {t : Target} {r : Expr} :
      env.target target = .ok t → env.expr e = .ok r →
      StmtLowers env (.assign target (.expr e)) (.assign t r)
  | range {v : Syntax.Var} {first last step : Syntax.Expr} {span : Source.Span} {w : Var}
      {rfirst rlast rstep : Expr} :
      env.find? v.key = some w → env.expr first = .ok rfirst → env.expr last = .ok rlast →
      env.expr step = .ok rstep →
      StmtLowers env (.assign (.var v) (.range first last step span)) (.range w rfirst rlast rstep)
  | select {target list : Syntax.Expr} {span : Source.Span} {t : Target} {r : Expr} :
      env.target target = .ok t → env.expr list = .ok r →
      StmtLowers env (.assign target (.select list span)) (.select t r)
  | cases {target : Syntax.Expr} {arms : List (Syntax.Expr × Syntax.Expr)} {span : Source.Span}
      {t : Target} {rs : List (Expr × Expr)} :
      env.target target = .ok t → env.arms arms = .ok rs →
      StmtLowers env (.assign target (.cases arms span)) (.cases t rs)
  | test {condition : Syntax.Expr} {r : Expr} :
      env.expr condition = .ok r → StmtLowers env (.test condition) (.test r)

theorem stmtLowers_of_action {action : Syntax.Action} {a : Action} (h : env.action action = .ok a)
    (hguard : ∀ condition, action ≠ .guard condition)
    (hcall : ∀ callee inputs outputs, action ≠ .call callee inputs outputs) :
    StmtLowers env action a := by
  cases action with
  | assign target value =>
    simp only [Env.action, bind_eq_ok] at h
    obtain ⟨t, ht, h⟩ := h
    cases value with
    | expr e =>
      simp only [bind_eq_ok, pure_eq_ok] at h
      obtain ⟨r, hr, rfl⟩ := h
      exact .assign ht hr
    | range first last step span =>
      rcases target_cases ht with ⟨v, w, rfl, rfl, hw⟩ | ⟨members, span, vs, rfl, rfl, -⟩
      · simp only [bind_eq_ok, pure_eq_ok] at h
        obtain ⟨rf, hrf, rl, hrl, rs, hrs, rfl⟩ := h
        exact .range hw hrf hrl hrs
      · cases h
    | select list span =>
      simp only [bind_eq_ok, pure_eq_ok] at h
      obtain ⟨r, hr, rfl⟩ := h
      exact .select ht hr
    | cases arms span =>
      simp only [bind_eq_ok, pure_eq_ok] at h
      obtain ⟨rs, hrs, rfl⟩ := h
      exact .cases ht hrs
  | test condition =>
    simp only [Env.action, bind_eq_ok, pure_eq_ok] at h
    obtain ⟨r, hr, rfl⟩ := h
    exact .test hr
  | guard condition => exact absurd rfl (hguard condition)
  | call callee inputs outputs => exact absurd rfl (hcall callee inputs outputs)
  | missing => cases h

namespace StmtLowers

variable {s : Syntax.Stmt} {a : Action} {span : Source.Span}

theorem found_reads (h : StmtLowers env s.action a) : Found env s.reads (Stmt.mk a span).reads := by
  obtain ⟨action, _⟩ := s
  cases h with
  | assign _ hr => exact Resolved.found_reads _ _ hr
  | range _ hfirst hlast hstep =>
    exact List.rel_append (List.rel_append (Resolved.found_reads _ _ hfirst)
      (Resolved.found_reads _ _ hlast)) (Resolved.found_reads _ _ hstep)
  | select _ hr => exact Resolved.found_reads _ _ hr
  | cases _ hrs => exact found_arms hrs
  | test hr => exact Resolved.found_reads _ _ hr

theorem found_writes (h : StmtLowers env s.action a) :
    Found env s.targets (Stmt.mk a span).writes := by
  obtain ⟨action, _⟩ := s
  cases h with
  | assign ht _ => exact found_target ht
  | range hw _ _ _ => exact .cons hw .nil
  | select ht _ => exact found_target ht
  | cases ht _ => exact found_target ht
  | test _ => exact .nil

theorem isGuard (h : StmtLowers env s.action a) : (Stmt.mk a span).isGuard = false := by
  obtain ⟨action, _⟩ := s
  cases h <;> rfl

theorem isConstraint (h : StmtLowers env s.action a) :
    (Stmt.mk a span).isConstraint = s.isConstraint := by
  obtain ⟨action, _⟩ := s
  cases h with
  | assign ht _ =>
    have hname := (found_target ht).head_name
    simp only [Stmt.isConstraint, Syntax.Stmt.isConstraint, Target.name?, hname]
  | _ => rfl

/-- A test of the source is one for the schedule, and so is a generator. -/
theorem phaseOf (h : StmtLowers env s.action a) :
    Schedule.phaseOf (Stmt.mk a span) =
      if s.isGenerator then .assume else if s.isTest then .test else .compute := by
  have hconstraint : (Stmt.mk a span).isConstraint = s.isConstraint := h.isConstraint
  obtain ⟨action, _⟩ := s
  cases h with
  | assign _ _ =>
    simp only [Schedule.phaseOf, hconstraint]
    rfl
  | _ => rfl

end StmtLowers

end Resolved

end CandidateSearch
