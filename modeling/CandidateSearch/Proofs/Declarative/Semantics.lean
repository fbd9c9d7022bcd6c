/-
  CandidateSearch/Proofs/Declarative/Semantics.lean
  =================================================
  **What a method says, whatever the order of its statements.**

  A method is read as a set of conditions on the values of its variables.  A generator
  allows several values; which one is meant is said by its place, counted from zero.

      X = for(1, 3, 1);   Y = X + 1;   test(Y < 4);

  Here a place for the range determines `X` and `Y`, and at the places 0 and 1 all three
  statements hold.  A model of a method is a choice of places, one for each generator,
  with values under which every statement holds (`IsModel`).

  Nothing in this module runs anything: a variable has a value or none, and an expression
  has a value or none.
-/
import CandidateSearch.Decimal.Text
import CandidateSearch.Plan.Eval
import CandidateSearch.Search.Solutions
import CandidateSearch.Syntax.Module
import Mathlib.Data.List.Forall2
import Mathlib.Logic.Relation

namespace CandidateSearch

open Syntax

/-! ### Variables and their values -/

/-- A variable of a method: where it was declared, and its name. -/
abbrev Key := Scope × String

def Syntax.Var.key (v : Var) : Key := (v.scope, v.name)

/-- Values of variables; not every variable has one. -/
abbrev Valuation := Key → Option Value

namespace Syntax

/-! ### Expressions -/

namespace Expr

mutual

/-- The variables that the value of an expression can depend on. -/
def vars : Expr → List Var
  | .var v => [v]
  | .list items _ => varsAll items
  | .vector members _ => memberVars members
  | .unary _ e _ => e.vars
  | .binary _ a b _ => a.vars ++ b.vars
  | .builtin .nth (i :: l :: _) _ => i.vars ++ l.vars
  | .builtin .nth _ _ => []
  | .builtin _ (e :: _) _ => e.vars
  | _ => []

def varsAll : List Expr → List Var
  | [] => []
  | e :: rest => e.vars ++ varsAll rest

def memberVars : List (Expr × Bool) → List Var
  | [] => []
  | (e, _) :: rest => e.vars ++ memberVars rest

end

mutual

/-- The value of an expression, if it has one. -/
def value (V : Valuation) : Expr → Option Operand
  | .number digits _ => (Decimal.ofChars? digits.toList).map .number
  | .string text _ | .atom text _ => some (.atom text)
  | .bool b _ => some (.bool b)
  | .var v => do (Operand.ofValue (← V v.key)).toOption
  | .list items _ => do return .list (← values V items)
  | .vector members _ => do return .vector (← memberValues V members)
  | .unary .neg e _ => do
      let d ← (← e.value V).number?.toOption
      return .number d.neg
  | .unary .not e _ => do
      let b ← (← e.value V).bool?.toOption
      return .bool !b
  | .binary .and lhs rhs _ => do
      let a ← (← lhs.value V).bool?.toOption
      if a then
        let b ← (← rhs.value V).bool?.toOption
        return .bool b
      else return .bool false
  | .binary .or lhs rhs _ => do
      let a ← (← lhs.value V).bool?.toOption
      if a then return .bool true
      else
        let b ← (← rhs.value V).bool?.toOption
        return .bool b
  | .binary op lhs rhs _ => do
      let a ← lhs.value V
      if Plan.demandsNumbers op then
        let a ← a.number?.toOption
        let b ← (← rhs.value V).number?.toOption
        let c ← (Plan.arithmetic op a b).toOption
        return .number c
      else
        let b ← rhs.value V
        (Plan.relation op a b).toOption
  | .builtin .sqrt (e :: _) _ => do
      let root ← (← (← e.value V).number?.toOption).sqrt?.toOption
      return .number root
  | .builtin .exp (e :: _) _ => do
      let d ← (← e.value V).number?.toOption
      return .number d.exp
  | .builtin .length (e :: _) _ => do
      let items ← (← e.value V).list?.toOption
      return .number (.ofInt items.length)
  | .builtin .sum (e :: _) _ => do
      let items ← (← e.value V).list?.toOption
      let total ← (Value.sum items).toOption
      return .number total
  | .builtin .nth (i :: l :: _) _ => do
      let index ← (← i.value V).number?.toOption
      let items ← (← l.value V).list?.toOption
      (Operand.ofValue (← (Value.nth items index).toOption)).toOption
  | .builtin .. | .missing _ => none

def values (V : Valuation) : List Expr → Option (List Value)
  | [] => some []
  | e :: rest => do
      let v ← (← e.value V).toValue.toOption
      let vs ← values V rest
      return v :: vs

def memberValues (V : Valuation) : List (Expr × Bool) → Option (List Value)
  | [] => some []
  | (e, _) :: rest => do
      let v ← (← e.value V).toValue.toOption
      let vs ← memberValues V rest
      return v :: vs

end

def stored (V : Valuation) (e : Expr) : Option Value := do (← e.value V).toValue.toOption

def truth (V : Valuation) (e : Expr) : Option Bool := do (← e.value V).bool?.toOption

def amount (V : Valuation) (e : Expr) : Option Decimal := do (← e.value V).number?.toOption

/-- The variables of an expression on the left of an assignment. -/
def targets : Expr → List Var
  | .var v => [v]
  | .vector members _ => members.filterMap fun member =>
      match member.1 with
      | .var v => some v
      | _ => none
  | _ => []

/-- The variables on the left have the value on the right, or its members one by one. -/
def Gets (V : Valuation) : Expr → Value → Prop
  | .var v, x => V v.key = some x
  | .vector members span, .vector items =>
      List.Forall₂ (fun v item => V v.key = some item) (targets (.vector members span)) items
  | _, _ => False

end Expr

/-! ### Statements -/

/-- The number at a place of a range. -/
def rangeAt (last step : Decimal) : Nat → Decimal → Option Decimal
  | 0, current => if current.atMost last then some current else none
  | place + 1, current =>
      if current.atMost last then rangeAt last step place (current.add step) else none

namespace Rhs

def vars : Rhs → List Var
  | .expr e => e.vars
  | .range first last step _ => first.vars ++ last.vars ++ step.vars
  | .select list _ => list.vars
  | .cases arms _ => arms.flatMap fun arm => arm.1.vars ++ arm.2.vars

/-- What the right-hand side stands for; of a generator, the value at the given place. -/
def value (V : Valuation) (place : Nat) : Rhs → Option Value
  | .expr e => e.stored V
  | .range first last step _ => do
      let first ← first.amount V
      let last ← last.amount V
      let step ← step.amount V
      if step.atMost (.ofInt 0) then none
      else (Value.ofDecimal? (← rangeAt last step place first)).toOption
  | .select list _ => do
      let items ← (← list.stored V).list?.toOption
      items[place]?
  | .cases arms _ => do
      let found ← firstMatch (·.1.truth V) (·.2.stored V) arms
      found

end Rhs

namespace Stmt

def reads (s : Stmt) : List Var :=
  match s.action with
  | .assign _ value => value.vars
  | .test condition | .guard condition => condition.vars
  | .call _ inputs _ => inputs.vars
  | .missing => []

def targets (s : Stmt) : List Var :=
  match s.action with
  | .assign target _ => target.targets
  | .call _ _ outputs => outputs.targets
  | .test _ | .guard _ | .missing => []

def isGenerator (s : Stmt) : Bool :=
  match s.action with
  | .assign _ value => value.isGenerator
  | _ => false

def isCall (s : Stmt) : Bool :=
  match s.action with
  | .call .. => true
  | _ => false

/-- An assignment of an expression to variables of which the first has a constraint name. -/
def isConstraint (s : Stmt) : Bool :=
  match s.action with
  | .assign target (.expr _) => (target.targets.head?.map (·.name)).any isConstraintName
  | _ => false

def isTest (s : Stmt) : Bool :=
  match s.action with
  | .test _ => true
  | _ => s.isConstraint

/-- The statement says that a single variable is true. -/
def demandsTruth (s : Stmt) : Bool :=
  match s.action with
  | .assign (.var _) (.expr _) => s.isConstraint
  | _ => false

/-- The statement is fulfilled; if it is a generator, by its value at the given place. -/
def Holds (V : Valuation) (place : Nat) (s : Stmt) : Prop :=
  match s.action with
  | .assign target value => ∃ x, value.value V place = some x ∧ target.Gets V x ∧
      (s.demandsTruth = true → x = .bool true)
  | .test condition => condition.truth V = some true
  | .guard _ | .call .. | .missing => False

end Stmt

/-! ### Modules -/

namespace Module

/-- The members of the first parameter group. -/
def inputs (m : Module) : List Var := m.groups.headD []

/-- The members of all other parameter groups. -/
def outputs (m : Module) : List Var := m.groups.tail.flatten

/-- The outputs with their values; an output without a value has the default of its
    type. -/
def solution (m : Module) (V : Valuation) : Search.Solution :=
  ⟨m.outputs.map fun v => (v.name, (V (.parameter, v.name)).getD (.default v.ty))⟩

end Module

/-- The place chosen for the statement at a position of the body.  Places are given in the
    order in which the generators are listed by their positions. -/
def placeOf (generators choices : List Nat) (position : Nat) : Nat :=
  ((generators.zip choices).lookup position).getD 0

/-- **A model of a method.**  The inputs are as given, a variable that no statement is
    about has no value, and every statement holds at the place chosen for it. -/
structure IsModel (m : Module) (body : List Stmt) (b : Search.Bindings) (generators : List Nat)
    (choices : List Nat) (V : Valuation) : Prop where
  chosen : choices.length = generators.length
  inputs : ∀ v ∈ m.inputs, V (.parameter, v.name) = b.get? v.name
  others : ∀ k : Key, (∀ v ∈ m.inputs, k ≠ (.parameter, v.name)) →
    (∀ s ∈ body, ∀ v ∈ s.targets, k ≠ v.key) → V k = none
  holds : ∀ i (s : Stmt), body[i]? = some s → s.Holds V (placeOf generators choices i)

/-! ### Methods of the plain kind -/

/-- The only method of a module, without guard and calls, in which no input is written and
    no other variable is written twice. -/
structure IsPlain (m : Module) (method : Method) : Prop where
  only : m.methods = [method]
  parameters : (m.groups.flatten.map (·.name)).Nodup
  guard : method.guard = none
  guards : ∀ s ∈ method.body, s.guard? = none
  calls : ∀ s ∈ method.body, s.isCall = false
  inputs : ∀ s ∈ method.body, ∀ v ∈ s.targets, ∀ w ∈ m.inputs, w.name ≠ v.name
  targets : ((method.body.flatMap (·.targets)).map (·.name)).Nodup

/-- The statement reads a variable that the other one writes; inputs do not count. -/
def Stmt.DependsOn (inputs : List Var) (s t : Stmt) : Prop :=
  ∃ v ∈ s.reads, (∀ w ∈ inputs, w.name ≠ v.name) ∧ ∃ w ∈ t.targets, w.name = v.name

def DependsIn (inputs : List Var) (body : List Stmt) (s t : Stmt) : Prop :=
  s ∈ body ∧ t ∈ body ∧ s.DependsOn inputs t

/-- No statement depends on itself, be it through others, and no test depends on a
    constraint that stands after it. -/
structure IsLayered (inputs : List Var) (body : List Stmt) : Prop where
  acyclic : ∀ s, ¬ Relation.TransGen (DependsIn inputs body) s s
  constraints : body.Pairwise fun u t => u.isTest = true → t.isConstraint = true →
    ¬ Relation.TransGen (DependsIn inputs body) u t

/-! ### Checking a method -/

/-- The method of a module, if it is the only one and of the plain kind. -/
def Module.plainMethod? (m : Module) : Option Method :=
  match m.methods with
  | [method] =>
      if (m.groups.flatten.map (·.name)).Nodup ∧ method.guard.isNone ∧
          (∀ s ∈ method.body, s.guard?.isNone ∧ s.isCall = false) ∧
          (∀ s ∈ method.body, ∀ v ∈ s.targets, ∀ w ∈ m.inputs, w.name ≠ v.name) ∧
          ((method.body.flatMap (·.targets)).map (·.name)).Nodup
      then some method
      else none
  | _ => none

theorem Module.plainMethod?_eq_some_iff {m : Module} {method : Method} :
    m.plainMethod? = some method ↔ IsPlain m method := by
  constructor
  · intro h
    unfold plainMethod? at h
    split at h
    · rename_i only hmethods
      split at h
      · rename_i hplain
        obtain ⟨hparameters, hguard, hstmts, hinputs, htargets⟩ := hplain
        cases h
        exact ⟨hmethods, hparameters, Option.isNone_iff_eq_none.mp hguard,
          fun s hs => Option.isNone_iff_eq_none.mp (hstmts s hs).1, fun s hs => (hstmts s hs).2,
          hinputs, htargets⟩
      · cases h
    · cases h
  · intro h
    have hstmts : ∀ s ∈ method.body, s.guard?.isNone ∧ s.isCall = false := fun s hs =>
      ⟨Option.isNone_iff_eq_none.mpr (h.guards s hs), h.calls s hs⟩
    simp only [plainMethod?, h.only]
    exact if_pos ⟨h.parameters, by simp [h.guard], hstmts, h.inputs, h.targets⟩

instance (inputs : List Var) (s t : Stmt) : Decidable (s.DependsOn inputs t) :=
  inferInstanceAs (Decidable (∃ v ∈ s.reads, _ ∧ _))

/-- A body that is written from its end, with no constraint after a test. -/
theorem isLayered_of_turned {inputs : List Var} {body : List Stmt}
    (hself : ∀ s ∈ body, ¬ s.DependsOn inputs s)
    (hturned : body.Pairwise fun s t => ¬ t.DependsOn inputs s)
    (hconstraints : body.Pairwise fun u t => u.isTest = true → t.isConstraint = false) :
    IsLayered inputs body := by
  classical
  have hlater : ∀ s t, DependsIn inputs body s t → body.idxOf s < body.idxOf t := by
    rintro s t ⟨hs, ht, hdepends⟩
    have hi := List.idxOf_lt_length_of_mem hs
    have hj := List.idxOf_lt_length_of_mem ht
    rcases Nat.lt_trichotomy (body.idxOf s) (body.idxOf t) with hlt | heq | hgt
    · exact hlt
    · rw [List.idxOf_inj hs] at heq
      exact absurd (heq ▸ hdepends) (hself s hs)
    · have hpair := List.pairwise_iff_getElem.mp hturned _ _ hj hi hgt
      rw [List.getElem_idxOf, List.getElem_idxOf] at hpair
      exact absurd hdepends hpair
  constructor
  · intro s hcircle
    have hpath := hcircle.lift (fun s => body.idxOf s) hlater
    rw [Relation.transGen_eq_self] at hpath
    exact Nat.lt_irrefl _ hpath
  · refine hconstraints.imp fun hnone htest hconstraint => ?_
    rw [hnone htest] at hconstraint
    cases hconstraint

/-! ### What values depend on -/

namespace Expr

variable {V W : Valuation}

mutual

/-- Only the variables of an expression matter to its value. -/
theorem value_congr : ∀ e : Expr, (∀ v ∈ e.vars, V v.key = W v.key) → e.value V = e.value W
  | .number .., _ | .string .., _ | .atom .., _ | .bool .., _ | .missing _, _ => rfl
  | .var v, h => by simp [value, h v (by simp [vars])]
  | .list items _, h => by simp only [value, values_congr items h]
  | .vector members _, h => by simp only [value, memberValues_congr members h]
  | .unary op e _, h => by cases op <;> simp only [value, value_congr e h]
  | .binary op a b _, h => by
      have ha := value_congr a fun v hv => h v (by simp [vars, hv])
      have hb := value_congr b fun v hv => h v (by simp [vars, hv])
      cases op <;> simp only [value, ha, hb]
  | .builtin f [] _, _ => by cases f <;> rfl
  | .builtin f [e] _, h => by
      cases f with
      | nth => rfl
      | sqrt | exp | length | sum => simp only [value, value_congr e h]
  | .builtin f (e :: l :: _) _, h => by
      cases f with
      | nth =>
        have he := value_congr e fun v hv => h v (by simp [vars, hv])
        have hl := value_congr l fun v hv => h v (by simp [vars, hv])
        simp only [value, he, hl]
      | sqrt | exp | length | sum => simp only [value, value_congr e h]

theorem values_congr : ∀ items : List Expr, (∀ v ∈ varsAll items, V v.key = W v.key) →
    values V items = values W items
  | [], _ => rfl
  | e :: rest, h => by
      have he := value_congr e fun v hv => h v (by simp [varsAll, hv])
      have hrest := values_congr rest fun v hv => h v (by simp [varsAll, hv])
      simp only [values, he, hrest]

theorem memberValues_congr : ∀ members : List (Expr × Bool),
    (∀ v ∈ memberVars members, V v.key = W v.key) →
    memberValues V members = memberValues W members
  | [], _ => rfl
  | (e, _) :: rest, h => by
      have he := value_congr e fun v hv => h v (by simp [memberVars, hv])
      have hrest := memberValues_congr rest fun v hv => h v (by simp [memberVars, hv])
      simp only [memberValues, he, hrest]

end

end Expr

theorem Rhs.value_congr {V W : Valuation} (rhs : Rhs) (h : ∀ v ∈ rhs.vars, V v.key = W v.key)
    (place : Nat) : rhs.value V place = rhs.value W place := by
  cases rhs with
  | expr e => simp only [value, Expr.stored, e.value_congr h]
  | range first last step _ =>
    have hfirst := first.value_congr fun v hv => h v (by simp [vars, hv])
    have hlast := last.value_congr fun v hv => h v (by simp [vars, hv])
    have hstep := step.value_congr fun v hv => h v (by simp [vars, hv])
    simp only [value, Expr.amount, hfirst, hlast, hstep]
  | select list _ => simp only [value, Expr.stored, list.value_congr h]
  | cases arms _ =>
    have hfound : firstMatch (·.1.truth V) (·.2.stored V) arms =
        firstMatch (·.1.truth W) (·.2.stored W) arms := by
      have h' : ∀ v ∈ arms.flatMap fun arm => arm.1.vars ++ arm.2.vars, V v.key = W v.key := h
      clear h
      induction arms with
      | nil => rfl
      | cons arm rest ih =>
        have hcondition := arm.1.value_congr fun v hv => h' v (by simp [hv])
        have hvalue := arm.2.value_congr fun v hv => h' v (by simp [hv])
        rw [firstMatch, firstMatch, ih fun v hv => h' v (by simp [hv])]
        simp only [Expr.truth, Expr.stored, hcondition, hvalue]
    simp only [value, hfound]

end Syntax

end CandidateSearch
