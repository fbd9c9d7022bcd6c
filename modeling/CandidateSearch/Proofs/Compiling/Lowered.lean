/-
  CandidateSearch/Proofs/Compiling/Lowered.lean
  =============================================
  **Whole statements are resolved, or complained about.**

  Giving slots to variables can fail in two ways: with a complaint, or without one where a
  placeholder stands that has been complained about before.  In a whole statement there is
  nothing of the second kind:

      X = nth(0, L) + Y;      resolved, or `Y` is reported as not defined

  So a whole module that gives no complaint has no malformed statement (`formed_of_whole`).
-/
import CandidateSearch.Proofs.Grammar.Whole
import CandidateSearch.Resolved.OfSyntax

namespace CandidateSearch.Resolved

open Source

variable {α β : Type} {x : Resolve α} {f : α → Resolve β} {P : α → Prop} {Q : β → Prop}

/-- The result satisfies `P`, or there is a complaint. -/
def Resolves (x : Resolve α) (P : α → Prop) : Prop :=
  match x with
  | .ok a => P a
  | .error complaint => complaint ≠ none

theorem resolves_pure {a : α} (h : P a) : Resolves (pure a) P := h

theorem resolves_reject (problem : Problem) (span : Span) :
    Resolves (reject problem span : Resolve α) P := Option.some_ne_none _

theorem Resolves.bind (hx : Resolves x P) (hf : ∀ a, P a → Resolves (f a) Q) :
    Resolves (x >>= f) Q := by
  cases x with
  | ok a => exact hf a hx
  | error complaint => exact hx

theorem resolves_var (env : Env) (v : Syntax.Var) : Resolves (env.var v) fun _ => True := by
  unfold Env.var
  dsimp only
  split
  · trivial
  · exact resolves_reject _ _

/-! ### Expressions -/

mutual

theorem resolves_expr (env : Env) :
    ∀ {e : Syntax.Expr}, e.Whole → Resolves (env.expr e) fun _ => True
  | .number .., _ | .string .., _ | .atom .., _ | .bool .., _ => by
    unfold Env.expr
    trivial
  | .var v, _ => by
    unfold Env.expr
    exact (resolves_var env v).bind fun _ _ => resolves_pure trivial
  | .list items _, h => by
    unfold Env.expr
    exact (@resolves_exprs env items h).bind fun _ _ => resolves_pure trivial
  | .vector members _, h => by
    unfold Env.expr
    exact (@resolves_members env members h).bind fun _ _ => resolves_pure trivial
  | .unary _ operand _, h => by
    unfold Env.expr
    exact (resolves_expr env (e := operand) h).bind fun _ _ => resolves_pure trivial
  | .binary _ lhs rhs _, h => by
    unfold Env.expr
    exact (resolves_expr env h.1).bind fun _ _ =>
      (resolves_expr env h.2).bind fun _ _ => resolves_pure trivial
  | .builtin f args _, h => by
    unfold Env.expr
    refine (resolves_exprs env h.2).bind fun rs hlength => ?_
    rw [h.1] at hlength
    -- there are as many arguments as the function takes
    cases f with
    | nth =>
      match rs, hlength with
      | [a, b], _ => exact resolves_pure trivial
    | sqrt | exp | length | sum =>
      match rs, hlength with
      | [a], _ => exact resolves_pure trivial
  | .missing _, h => h.elim

theorem resolves_exprs (env : Env) : ∀ {items : List Syntax.Expr}, Syntax.Expr.WholeAll items →
    Resolves (env.exprs items) fun rs => rs.length = items.length
  | [], _ => by
    unfold Env.exprs
    exact resolves_pure rfl
  | e :: rest, h => by
    unfold Env.exprs
    refine (resolves_expr env h.1).bind fun _ _ => (resolves_exprs env h.2).bind fun rs hrs => ?_
    exact resolves_pure (by simp [hrs])

theorem resolves_members (env : Env) : ∀ {members : List (Syntax.Expr × Bool)},
    Syntax.Expr.WholeMembers members → Resolves (env.members members) fun _ => True
  | [], _ => by
    unfold Env.members
    exact resolves_pure trivial
  | (e, _) :: rest, h => by
    unfold Env.members
    exact (resolves_expr env h.1).bind fun _ _ =>
      (resolves_members env h.2).bind fun _ _ => resolves_pure trivial

end

/-! ### Statements -/

theorem resolves_targets (env : Env) {members : List (Syntax.Expr × Bool)}
    (h : Syntax.Expr.WholeMembers members) : Resolves (env.targets members) fun _ => True := by
  induction members with
  | nil => exact resolves_pure trivial
  | cons member rest ih =>
    obtain ⟨e, declares⟩ := member
    have hrest : ∀ v : Var, Resolves (env.targets rest >>= fun vs => pure (v :: vs))
        fun _ => True := fun _ => (ih h.2).bind fun _ _ => resolves_pure trivial
    unfold Env.targets
    dsimp only
    split
    · exact (resolves_var env _).bind fun v _ => hrest v
    · exact h.1.elim
    · exact resolves_reject _ _

theorem resolves_target (env : Env) {target : Syntax.Expr} (h : target.Whole)
    (hkind : target.isTarget = true) : Resolves (env.target target) fun _ => True := by
  cases target with
  | var v => exact (resolves_var env v).bind fun _ _ => resolves_pure trivial
  | vector members span => exact (resolves_targets env h).bind fun _ _ => resolves_pure trivial
  | _ => cases hkind

theorem resolves_arms (env : Env) {arms : List (Syntax.Expr × Syntax.Expr)}
    (h : ∀ arm ∈ arms, arm.1.Whole ∧ arm.2.Whole) : Resolves (env.arms arms) fun _ => True := by
  induction arms with
  | nil => exact resolves_pure trivial
  | cons arm rest ih =>
    obtain ⟨hcondition, hvalue⟩ := h arm (by simp)
    exact (resolves_expr env hcondition).bind fun _ _ => (resolves_expr env hvalue).bind fun _ _ =>
      (ih fun x hx => h x (by simp [hx])).bind fun _ _ => resolves_pure trivial

/-- **A whole action is resolved, to one that is not malformed, or complained about.** -/
theorem resolves_action (env : Env) {a : Syntax.Action} (h : a.Whole) :
    Resolves (env.action a) fun b => ∀ span, (Stmt.mk b span).isMalformed = false := by
  cases a with
  | assign target value =>
    obtain ⟨htarget, hkind, hvalue⟩ := h
    refine (resolves_target env htarget hkind).bind fun t _ => ?_
    cases value with
    | expr e => exact (resolves_expr env hvalue).bind fun _ _ => resolves_pure fun _ => rfl
    | range first last step span =>
      obtain ⟨hfirst, hlast, hstep⟩ := hvalue
      cases t with
      | single v =>
        exact (resolves_expr env hfirst).bind fun _ _ => (resolves_expr env hlast).bind fun _ _ =>
          (resolves_expr env hstep).bind fun _ _ => resolves_pure fun _ => rfl
      | destructure vs => exact resolves_reject _ _
    | select list span =>
      exact (resolves_expr env (e := list) hvalue).bind fun _ _ => resolves_pure fun _ => rfl
    | cases arms span => exact (resolves_arms env hvalue).bind fun _ _ => resolves_pure fun _ => rfl
  | test condition | guard condition =>
    exact (resolves_expr env (e := condition) h).bind fun _ _ => resolves_pure fun _ => rfl
  | call callee inputs outputs =>
    obtain ⟨⟨hinputs, hvector⟩, houtputs, hkind⟩ := h
    have htarget : outputs.isTarget = true := by
      cases outputs with
      | vector members span => rfl
      | _ => cases hkind
    cases inputs with
    | vector members span =>
      exact (@resolves_members env members hinputs).bind fun _ _ =>
        (resolves_target env houtputs htarget).bind fun _ _ => resolves_pure fun _ => rfl
    | _ => cases hvector
  | missing => exact h.elim

theorem isMalformed_of_whole (env : Env) {s : Syntax.Stmt} (h : s.action.Whole)
    (hquiet : (env.stmt s).complaints = []) : (env.stmt s).value.isMalformed = false := by
  have hresolves := resolves_action env h
  unfold Env.stmt at hquiet ⊢
  cases haction : env.action s.action with
  | ok action =>
    rw [haction] at hresolves
    exact hresolves s.span
  | error complaint =>
    rw [haction] at hresolves hquiet
    cases complaint with
    | none => exact absurd rfl hresolves
    | some c => cases hquiet

/-- **A whole module without complaints has no malformed statement.** -/
theorem formed_of_whole {m : Syntax.Module} (h : m.Whole) (hquiet : (ofSyntax m).complaints = []) :
    ∀ method ∈ (ofSyntax m).value.methods, ∀ s ∈ method.body, s.isMalformed = false := by
  intro method hmethod s hs
  obtain ⟨outcome, houtcome, rfl⟩ := List.mem_map.mp hmethod
  obtain ⟨i, hi, rfl⟩ := List.mem_mapIdx.mp houtcome
  obtain ⟨lowered, hlowered, rfl⟩ := List.mem_map.mp hs
  obtain ⟨t, ht, rfl⟩ := List.mem_map.mp hlowered
  have hwhole := (h.methods m.methods[i] (List.getElem_mem hi)).body t ht
  apply isMalformed_of_whole _ hwhole
  have hmodule := List.flatMap_eq_nil_iff.mp hquiet _ houtcome
  obtain ⟨-, hbody⟩ := List.append_eq_nil_iff.mp hmodule
  exact List.flatMap_eq_nil_iff.mp hbody _ hlowered

end CandidateSearch.Resolved
