/-
  CandidateSearch/Proofs/Grammar/Whole.lean
  =========================================
  **What is read without complaints is whole.**

  Where something cannot be read a placeholder is put in its place:

      X = 2 +;            the sum of `2` and a missing expression, with a complaint
      test(X < 3)         a missing statement, for its semicolon is not there

  An expression is whole if it has no placeholder in it and its functions have as many
  arguments as they take; a statement moreover assigns to variables and calls with
  vectors.  Being whole passes from the parts of an expression to what is put together from
  them, and what does so (`Hereditary`) holds of all the expressions that are read without
  complaints, in whatever statement they stand (`quiet_expression`, `quiet_eachModule`).  So a
  source without complaints is whole, and no guard is left in its bodies (`whole_of_parse`).
-/
import CandidateSearch.Grammar.Module
import CandidateSearch.Proofs.Grammar.Quiet

namespace CandidateSearch

open Source (Span)

/-! ### Whole trees -/

namespace Syntax

/-- The number of arguments that a function takes. -/
def Builtin.arity : Builtin → Nat
  | .nth => 2
  | .sqrt | .exp | .length | .sum => 1

namespace Expr

mutual

/-- No part of the expression is missing, and its functions have their arguments. -/
def Whole : Expr → Prop
  | .missing _ => False
  | .list items _ => WholeAll items
  | .vector members _ => WholeMembers members
  | .unary _ operand _ => Whole operand
  | .binary _ lhs rhs _ => Whole lhs ∧ Whole rhs
  | .builtin f args _ => args.length = f.arity ∧ WholeAll args
  | .number .. | .string .. | .atom .. | .bool .. | .var .. => True

def WholeAll : List Expr → Prop
  | [] => True
  | e :: rest => Whole e ∧ WholeAll rest

def WholeMembers : List (Expr × Bool) → Prop
  | [] => True
  | (e, _) :: rest => Whole e ∧ WholeMembers rest

end

theorem wholeAll_iff {items : List Expr} : WholeAll items ↔ ∀ e ∈ items, e.Whole := by
  induction items with
  | nil => simp [WholeAll]
  | cons e rest ih => simp [WholeAll, ih]

theorem wholeMembers_iff {members : List (Expr × Bool)} :
    WholeMembers members ↔ ∀ m ∈ members, m.1.Whole := by
  induction members with
  | nil => simp [WholeMembers]
  | cons m rest ih => simp [WholeMembers, ih]

mutual

theorem hasMissing_of_whole : ∀ {e : Expr}, e.Whole → e.hasMissing = false
  | .number .., _ | .string .., _ | .atom .., _ | .bool .., _ | .var .., _ => rfl
  | .list items _, h => @anyMissing_of_whole items h
  | .vector members _, h => @anyMemberMissing_of_whole members h
  | .unary _ operand _, h => hasMissing_of_whole (e := operand) h
  | .binary _ lhs rhs _, h => by
    rw [hasMissing, hasMissing_of_whole h.1, hasMissing_of_whole h.2]
    rfl
  | .builtin _ args _, h => @anyMissing_of_whole args h.2
  | .missing _, h => h.elim

theorem anyMissing_of_whole : ∀ {items : List Expr}, WholeAll items → anyMissing items = false
  | [], _ => rfl
  | e :: rest, h => by
    rw [anyMissing, hasMissing_of_whole h.1, anyMissing_of_whole h.2]
    rfl

theorem anyMemberMissing_of_whole :
    ∀ {members : List (Expr × Bool)}, WholeMembers members → anyMemberMissing members = false
  | [], _ => rfl
  | (e, _) :: rest, h => by
    rw [anyMemberMissing, hasMissing_of_whole h.1, anyMemberMissing_of_whole h.2]
    rfl

end

def isVector : Expr → Bool
  | .vector .. => true
  | _ => false

/-- Something that can be assigned to. -/
def isTarget : Expr → Bool
  | .var _ | .vector .. => true
  | _ => false

end Expr

def Rhs.Whole : Rhs → Prop
  | .expr e => e.Whole
  | .range first last step _ => first.Whole ∧ last.Whole ∧ step.Whole
  | .select list _ => list.Whole
  | .cases arms _ => ∀ arm ∈ arms, arm.1.Whole ∧ arm.2.Whole

def Action.Whole : Action → Prop
  | .assign target value => target.Whole ∧ target.isTarget = true ∧ value.Whole
  | .test condition | .guard condition => condition.Whole
  | .call _ inputs outputs =>
      (inputs.Whole ∧ inputs.isVector = true) ∧ outputs.Whole ∧ outputs.isVector = true
  | .missing => False

/-- Guard and body are whole, and no guard is left in the body. -/
structure Method.Whole (m : Method) : Prop where
  guard : ∀ condition, m.guard = some condition → condition.Whole
  body : ∀ s ∈ m.body, s.action.Whole
  unguarded : ∀ s ∈ m.body, s.guard? = none

def Param.isMissing : Param → Bool
  | .missing _ => true
  | .callee .. | .group .. => false

structure Module.Whole (m : Module) : Prop where
  params : ∀ param ∈ m.params, param.isMissing = false
  methods : ∀ method ∈ m.methods, method.Whole

/-! ### Placeholders anywhere in a module -/

def Rhs.hasMissing : Rhs → Bool
  | .expr e => e.hasMissing
  | .range first last step _ => first.hasMissing || last.hasMissing || step.hasMissing
  | .select list _ => list.hasMissing
  | .cases arms _ => arms.any fun arm => arm.1.hasMissing || arm.2.hasMissing

def Action.hasMissing : Action → Bool
  | .assign target value => target.hasMissing || value.hasMissing
  | .test condition | .guard condition => condition.hasMissing
  | .call _ inputs outputs => inputs.hasMissing || outputs.hasMissing
  | .missing => true

def Method.hasMissing (m : Method) : Bool :=
  m.guard.any Expr.hasMissing || m.body.any fun s => s.action.hasMissing

/-- A parameter, a statement or some part of an expression could not be read. -/
def Module.hasMissing (m : Module) : Bool :=
  m.params.any Param.isMissing || m.methods.any Method.hasMissing

theorem Rhs.hasMissing_of_whole {value : Rhs} (h : value.Whole) : value.hasMissing = false := by
  cases value with
  | expr e => exact Expr.hasMissing_of_whole h
  | range first last step span =>
    simp [Rhs.hasMissing, Expr.hasMissing_of_whole h.1, Expr.hasMissing_of_whole h.2.1,
      Expr.hasMissing_of_whole h.2.2]
  | select list span => exact Expr.hasMissing_of_whole (e := list) h
  | cases arms span =>
    apply List.any_eq_false.mpr
    intro arm harm
    simp [Expr.hasMissing_of_whole (h arm harm).1, Expr.hasMissing_of_whole (h arm harm).2]

theorem Action.hasMissing_of_whole {a : Action} (h : a.Whole) : a.hasMissing = false := by
  cases a with
  | assign target value =>
    simp [Action.hasMissing, Expr.hasMissing_of_whole h.1, Rhs.hasMissing_of_whole h.2.2]
  | test condition | guard condition => exact Expr.hasMissing_of_whole (e := condition) h
  | call callee inputs outputs =>
    simp [Action.hasMissing, Expr.hasMissing_of_whole h.1.1, Expr.hasMissing_of_whole h.2.1]
  | missing => exact h.elim

theorem Module.hasMissing_of_whole {m : Module} (h : m.Whole) : m.hasMissing = false := by
  have hmethods : m.methods.any Method.hasMissing = false := by
    apply List.any_eq_false.mpr
    intro method hmethod
    have hwhole := h.methods method hmethod
    have hguard : method.guard.any Expr.hasMissing = false := by
      cases hsome : method.guard with
      | none => rfl
      | some condition => exact Expr.hasMissing_of_whole (hwhole.guard condition hsome)
    have hbody : (method.body.any fun s => s.action.hasMissing) = false := by
      apply List.any_eq_false.mpr
      intro s hs
      simp [Action.hasMissing_of_whole (hwhole.body s hs)]
    simp [Method.hasMissing, hguard, hbody]
  have hparams : m.params.any Param.isMissing = false := by
    apply List.any_eq_false.mpr
    intro param hparam
    simp [h.params param hparam]
  simp [Module.hasMissing, hparams, hmethods]

end Syntax

/-! ### Expressions -/

namespace Grammar

open Syntax

/-- The type is one of numbers, or not known. -/
def mayBeNumber (ty : Ty) : Bool := ty = .unknown || ty.isNumeric

/-- The type is one of lists, or not known. -/
def mayBeList (ty : Ty) : Bool := ty = .unknown || isList ty

/-- The function takes arguments of these types, as far as they are known. -/
def accepts : Builtin → List Ty → Bool
  | .sqrt, [ty] | .exp, [ty] => mayBeNumber ty
  | .length, [ty] | .sum, [ty] => mayBeList ty
  | .nth, [index, list] => mayBeNumber index && mayBeList list
  | _, _ => false

/-- What holds of an expression that is put together from parts of which it holds, with as
    many arguments as a function takes and with the types, as far as they are known, that
    arithmetic and the functions take. -/
structure Hereditary (P : Expr → Prop) : Prop where
  number : ∀ digits span, P (.number digits span)
  string : ∀ content span, P (.string content span)
  atom : ∀ name span, P (.atom name span)
  bool : ∀ value span, P (.bool value span)
  var : ∀ v, P (.var v)
  list : ∀ items span, (∀ e ∈ items, P e) → P (.list items span)
  vector : ∀ members span, (∀ m ∈ members, P m.1) → P (.vector members span)
  not : ∀ e span, P e → P (.unary .not e span)
  neg : ∀ e span, P e → mayBeNumber e.ty = true → P (.unary .neg e span)
  binary : ∀ op lhs rhs span, P lhs → P rhs →
    (op.isLogical = false → mayBeNumber lhs.ty = true ∧ mayBeNumber rhs.ty = true) →
    P (.binary op lhs rhs span)
  builtin : ∀ f args span, args.length = f.arity → accepts f (args.map Expr.ty) = true →
    (∀ e ∈ args, P e) → P (.builtin f args span)

theorem hereditary_whole : Hereditary Expr.Whole where
  number _ _ := trivial
  string _ _ := trivial
  atom _ _ := trivial
  bool _ _ := trivial
  var _ := trivial
  list _ _ hitems := Expr.wholeAll_iff.mpr hitems
  vector _ _ hmembers := Expr.wholeMembers_iff.mpr hmembers
  not _ _ he := he
  neg _ _ he _ := he
  binary _ _ _ _ hlhs hrhs _ := ⟨hlhs, hrhs⟩
  builtin _ _ _ harity _ hargs := ⟨harity, Expr.wholeAll_iff.mpr hargs⟩

section Hereditary

variable {P : Expr → Prop} {inner operand : Parse Expr}

theorem quiet_checkNumeric (e : Expr) :
    Quiet (checkNumeric e) fun _ => mayBeNumber e.ty = true := quiet_check _ _

theorem quiet_checkList (e : Expr) : Quiet (checkList e) fun _ => mayBeList e.ty = true :=
  quiet_check _ _

theorem quiet_operation (hP : Hereditary P) (op : BinaryOp) (lhs rhs : Expr) (span : Span) :
    Quiet (operation op lhs rhs span) fun e => P lhs → P rhs → P e := by
  unfold operation
  refine quiet_ite (fun hop => ?_) fun _ => ?_
  · exact quiet_pure fun hlhs hrhs =>
      hP.binary op lhs rhs span hlhs hrhs fun hlogical => absurd hop (by simp [hlogical])
  · refine (quiet_checkNumeric lhs).bind fun _ => (quiet_checkNumeric rhs).bind fun _ => ?_
    exact quiet_pure fun hright hleft hlhs hrhs =>
      hP.binary op lhs rhs span hlhs hrhs fun _ => ⟨hleft, hright⟩

theorem quiet_chain (hP : Hereditary P) (level : Level) (hoperand : Quiet operand P) (fuel : Nat)
    (lhs : Expr) : Quiet (chain level operand fuel lhs) fun e => P lhs → P e := by
  induction fuel generalizing lhs with
  | zero => exact quiet_pure id
  | succ fuel ih =>
    refine quiet_peek.andThen fun token => ?_
    split
    · split
      · rename_i op exchanged _
        refine quiet_advance.andThen fun _ => hoperand.bind fun rhs => ?_
        cases exchanged with
        | true =>
          refine (quiet_operation hP op rhs lhs token.span).bind fun e => ?_
          exact (ih e).mono fun _ hlast hoperation hrhs hlhs => hlast (hoperation hrhs hlhs)
        | false =>
          refine (quiet_operation hP op lhs rhs token.span).bind fun e => ?_
          exact (ih e).mono fun _ hlast hoperation hrhs hlhs => hlast (hoperation hlhs hrhs)
      · exact quiet_pure id
    · exact quiet_pure id

theorem quiet_builtinCall (hP : Hereditary P) (f : Builtin) (hinner : Quiet inner P) :
    Quiet (builtinCall f inner) P := by
  have hclosing : ∀ (token : Token) (args : List Expr),
      Quiet (consume .closeParen >>= fun _ => pure (Expr.builtin f args token.span)) fun e =>
        args.length = f.arity → accepts f (args.map Expr.ty) = true → (∀ e ∈ args, P e) → P e :=
    fun token args => (quiet_consume .closeParen).andThen fun _ =>
      quiet_pure (hP.builtin f args token.span)
  refine quiet_advance.andThen fun token => (quiet_consume .openParen).andThen fun _ => ?_
  refine hinner.bind fun first => ?_
  cases f with
  | sqrt =>
    refine (quiet_checkNumeric first).bind fun _ => ?_
    exact (hclosing token [first]).mono fun _ hargs hty hfirst =>
      hargs rfl hty (by simpa using hfirst)
  | exp =>
    refine (quiet_checkNumeric first).bind fun _ => ?_
    exact (hclosing token [first]).mono fun _ hargs hty hfirst =>
      hargs rfl hty (by simpa using hfirst)
  | length =>
    refine (quiet_checkList first).bind fun _ => ?_
    exact (hclosing token [first]).mono fun _ hargs hty hfirst =>
      hargs rfl hty (by simpa using hfirst)
  | sum =>
    refine (quiet_checkList first).bind fun _ => ?_
    exact (hclosing token [first]).mono fun _ hargs hty hfirst =>
      hargs rfl hty (by simpa using hfirst)
  | nth =>
    refine (quiet_checkNumeric first).bind fun _ => (quiet_consume .comma).andThen fun _ => ?_
    refine hinner.bind fun list => (quiet_checkList list).bind fun _ => ?_
    exact (hclosing token [first, list]).mono fun _ hargs hlistTy hlist hty hfirst =>
      hargs rfl (by simp [accepts, hty, hlistTy]) (by simpa using ⟨hfirst, hlist⟩)

theorem quiet_list (hP : Hereditary P) (hinner : Quiet inner P) (fuel : Nat) :
    Quiet (list inner fuel) P := by
  refine (quiet_consume .openBracket).andThen fun token => ?_
  refine (quiet_items hinner .closeBracket fuel).bind fun elements => ?_
  exact (quiet_consume .closeBracket).andThen fun _ => quiet_pure (hP.list elements token.span)

/-- It holds of a member that is a value. -/
def Pending.Of (P : Expr → Prop) : Pending → Prop
  | .name .. => True
  | .value e => P e

theorem quiet_member (hinner : Quiet inner P) : Quiet (member inner) (Pending.Of P) := by
  have hvalue : Quiet (inner >>= fun e => pure (.value e)) (Pending.Of P) :=
    hinner.bind fun _ => quiet_pure id
  refine quiet_peek.andThen fun token => quiet_peekNext.andThen fun next => ?_
  split
  · refine quiet_ite (fun _ => ?_) fun _ => quiet_ite (fun _ => ?_) fun _ => hvalue
    · exact quiet_advance.andThen fun _ => quiet_advance.andThen fun _ =>
        quiet_annotation.andThen fun _ => quiet_pure trivial
    · exact quiet_advance.andThen fun _ => quiet_pure trivial
  · exact hvalue

theorem quiet_groupTys (members : List Pending) : Quiet (groupTys members) fun _ => True := by
  have hnone : Quiet (pure [] : Parse (List (Ty × Span))) fun _ => True := quiet_pure trivial
  refine (quiet_at? .colon).andThen fun colon => quiet_ite (fun _ => ?_) fun _ => hnone
  refine quiet_advance.andThen fun _ => quiet_annotation.andThen fun written => ?_
  split
  · refine quiet_ite (fun _ => quiet_pure trivial) fun _ => ?_
    exact (quiet_complain _ _ fun _ => True).andThen fun _ => hnone
  · exact hnone
  · exact (quiet_complain _ _ fun _ => True).andThen fun _ => hnone

theorem quiet_pendingMembers (hinner : Quiet inner P) (fuel : Nat) :
    Quiet (pendingMembers inner fuel) fun read => ∀ m ∈ read.1, m.Of P := by
  refine (quiet_consume .openBrace).andThen fun _ => ?_
  refine (quiet_items (quiet_member hinner) .closeBrace fuel).bind fun members => ?_
  refine (quiet_consume .closeBrace).andThen fun _ => ?_
  exact (quiet_groupTys members).andThen fun _ => quiet_pure id

theorem quiet_resolveMembers (hP : Hereditary P) (members : List Pending)
    (tys : List (Ty × Span)) :
    Quiet (resolveMembers members tys) fun read =>
      (∀ m ∈ members, m.Of P) → ∀ m ∈ read, P m.1 := by
  induction members generalizing tys with
  | nil => exact quiet_pure fun _ => by simp
  | cons pending rest ih =>
    have hrest : ∀ resolved : Expr × Bool,
        Quiet (resolveMembers rest tys.tail >>= fun others => pure (resolved :: others))
          fun read => P resolved.1 → (∀ m ∈ rest, m.Of P) → ∀ m ∈ read, P m.1 :=
      fun _ => (ih tys.tail).bind fun _ => quiet_pure fun hothers hfirst hgiven =>
        List.forall_mem_cons.mpr ⟨hfirst, hothers hgiven⟩
    cases pending with
    | value e =>
      refine (hrest (e, false)).mono fun read hread hgiven => ?_
      rw [List.forall_mem_cons] at hgiven
      exact hread hgiven.1 hgiven.2
    | name name span own =>
      unfold resolveMembers
      dsimp only
      split
      · refine (quiet_declare _ _ _ _ _ _).andThen fun v => ?_
        refine (hrest (.var v, true)).mono fun read hread hgiven => ?_
        exact hread (hP.var v) (List.forall_mem_cons.mp hgiven).2
      · refine (quiet_lookup name span).bind fun found => ?_
        cases found with
        | some v =>
          refine (hrest (.var v, false)).mono fun read hread _ hgiven => ?_
          exact hread (hP.var v) (List.forall_mem_cons.mp hgiven).2
        | none =>
          refine (hrest (.missing span, false)).mono fun read hread hfound => ?_
          obtain ⟨v, hv⟩ := hfound
          cases hv

theorem quiet_vector (hP : Hereditary P) (hinner : Quiet inner P) (fuel : Nat) :
    Quiet (vector inner fuel) P := by
  refine quiet_peek.andThen fun token => (quiet_pendingMembers hinner fuel).bind fun read => ?_
  refine (quiet_resolveMembers hP read.1 read.2).bind fun members => ?_
  exact quiet_pure fun hmembers hread => hP.vector members token.span (hmembers hread)

theorem quiet_variableExpr (hP : Hereditary P) (name : String) (span : Span) :
    Quiet (variableExpr name span) P := by
  refine quiet_advance.andThen fun _ => (quiet_at? .colon).andThen fun colon => ?_
  refine quiet_ite (fun _ => ?_) fun _ => ?_
  · exact quiet_advance.andThen fun _ => quiet_annotation.andThen fun ty =>
      (quiet_declare _ _ _ _ _ _).andThen fun v => quiet_pure (hP.var v)
  · refine (quiet_lookup name span).bind fun found => ?_
    cases found with
    | some v => exact quiet_pure fun _ => hP.var v
    | none =>
      refine quiet_pure fun hfound => ?_
      obtain ⟨v, hv⟩ := hfound
      cases hv

theorem quiet_noExpression (P : Expr → Prop) : Quiet noExpression P := quiet_skip _ _ P

theorem quiet_single {e : Expr} (he : P e) : Quiet (single e) P :=
  quiet_advance.andThen fun _ => quiet_pure he

theorem quiet_primaryWith (hP : Hereditary P) (hinner : Quiet inner P) (fuel : Nat) :
    Quiet (primaryWith inner fuel) P := by
  refine quiet_peek.andThen fun token => ?_
  split
  · split
    · exact quiet_builtinCall hP _ hinner
    · split
      · refine quiet_advance.andThen fun _ => hinner.bind fun e => ?_
        exact (quiet_consume .closeParen).andThen fun _ => quiet_pure id
      · exact quiet_list hP hinner fuel
      · exact quiet_vector hP hinner fuel
      · exact quiet_single (hP.bool _ _)
      · exact quiet_single (hP.bool _ _)
      · exact quiet_noExpression P
  · exact quiet_single (hP.number _ _)
  · exact quiet_single (hP.string _ _)
  · exact quiet_single (hP.atom _ _)
  · exact quiet_variableExpr hP _ _
  · exact quiet_noExpression P
  · exact quiet_noExpression P

/-- **What is hereditary holds of an expression that is read without complaints**, at every
    level. -/
theorem quiet_exprAt (hP : Hereditary P) (fuel : Nat) (level : Level) :
    Quiet (exprAt fuel level) P := by
  induction fuel generalizing level with
  | zero => exact quiet_noExpression P
  | succ fuel ih =>
    have hchain : ∀ level : Level, Quiet (exprAt fuel level.tighter >>=
        chain level (exprAt fuel level.tighter) fuel) P :=
      fun level => (ih level.tighter).bind fun first => quiet_chain hP level (ih _) fuel first
    cases level with
    | not =>
      refine quiet_peek.andThen fun token => quiet_ite (fun _ => ?_) fun _ => ih .equality
      refine quiet_advance.andThen fun _ => (quiet_consume .openParen).andThen fun _ => ?_
      refine (ih .or).bind fun operand => (quiet_consume .closeParen).andThen fun _ => ?_
      exact quiet_pure (hP.not operand token.span)
    | power =>
      refine (ih .unary).bind fun base => quiet_peek.andThen fun token => ?_
      refine quiet_ite (fun _ => ?_) fun _ => quiet_pure id
      refine quiet_advance.andThen fun _ => (ih .power).bind fun exponent => ?_
      exact (quiet_operation hP _ _ _ _).mono fun _ hread hexponent hbase => hread hbase hexponent
    | unary =>
      refine quiet_peek.andThen fun token => quiet_ite (fun _ => ?_) fun _ => ?_
      · refine quiet_advance.andThen fun _ => (ih .unary).bind fun operand => ?_
        refine (quiet_checkNumeric operand).bind fun _ => quiet_pure fun hnumber hoperand => ?_
        exact hP.neg operand token.span hoperand hnumber
      · exact quiet_primaryWith hP (ih .or) fuel
    | or => exact hchain .or
    | and => exact hchain .and
    | equality => exact hchain .equality
    | relational => exact hchain .relational
    | additive => exact hchain .additive
    | multiplicative => exact hchain .multiplicative

theorem quiet_enough : Quiet enough fun _ => True :=
  quiet_remaining.andThen fun _ => quiet_pure trivial

theorem quiet_expression (hP : Hereditary P) : Quiet expression P :=
  quiet_enough.andThen fun fuel => quiet_exprAt hP fuel .or

theorem quiet_primary (hP : Hereditary P) : Quiet primary P :=
  quiet_enough.andThen fun fuel => quiet_primaryWith hP (quiet_exprAt hP fuel .or) fuel

end Hereditary

/-! ### Statements -/

end Grammar

namespace Syntax

/-- Each expression of a right-hand side satisfies `P`; the bounds of a range are numbers and
    what is selected from is a list, as far as is known. -/
def Rhs.Each (P : Expr → Prop) : Rhs → Prop
  | .expr e => P e
  | .range first last step _ => ∀ e ∈ [first, last, step], P e ∧ Grammar.mayBeNumber e.ty = true
  | .select list _ => P list ∧ Grammar.mayBeList list.ty = true
  | .cases arms _ => ∀ arm ∈ arms, P arm.1 ∧ P arm.2

/-- Each expression of a statement satisfies `P`; it assigns to variables and calls with
    vectors. -/
def Action.Each (P : Expr → Prop) : Action → Prop
  | .assign target value => P target ∧ target.isTarget = true ∧ value.Each P
  | .test condition | .guard condition => P condition
  | .call _ inputs outputs =>
      (P inputs ∧ inputs.isVector = true) ∧ P outputs ∧ outputs.isVector = true
  | .missing => False

structure Method.Each (P : Expr → Prop) (m : Method) : Prop where
  guard : ∀ condition, m.guard = some condition → P condition
  body : ∀ s ∈ m.body, s.action.Each P
  unguarded : ∀ s ∈ m.body, s.guard? = none

structure Module.Each (P : Expr → Prop) (m : Module) : Prop where
  params : ∀ param ∈ m.params, param.isMissing = false
  methods : ∀ method ∈ m.methods, method.Each P

theorem Rhs.whole_of_each {value : Rhs} (h : value.Each Expr.Whole) : value.Whole := by
  cases value with
  | expr e => exact h
  | range first last step span =>
    exact ⟨(h first (by simp)).1, (h last (by simp)).1, (h step (by simp)).1⟩
  | select list span => exact h.1
  | cases arms span => exact h

theorem Action.whole_of_each {a : Action} (h : a.Each Expr.Whole) : a.Whole := by
  cases a with
  | assign target value => exact ⟨h.1, h.2.1, Rhs.whole_of_each h.2.2⟩
  | test condition | guard condition => exact h
  | call callee inputs outputs => exact h
  | missing => exact h

theorem Module.whole_of_each {m : Module} (h : m.Each Expr.Whole) : m.Whole :=
  ⟨h.params, fun method hmethod =>
    ⟨(h.methods method hmethod).guard,
      fun s hs => Action.whole_of_each ((h.methods method hmethod).body s hs),
      (h.methods method hmethod).unguarded⟩⟩

end Syntax

namespace Grammar

open Syntax

section Statements

variable {P : Expr → Prop} (hP : Hereditary P)

include hP

theorem quiet_bound : Quiet bound fun e => P e ∧ mayBeNumber e.ty = true :=
  (quiet_expression hP).bind fun e => (quiet_checkNumeric e).bind fun _ =>
    quiet_pure fun hnumber he => ⟨he, hnumber⟩

theorem quiet_arm : Quiet arm fun read => P read.1 ∧ P read.2 := by
  refine (quiet_expression hP).bind fun condition => (quiet_consume .arrow).andThen fun _ => ?_
  exact (quiet_expression hP).bind fun value =>
    quiet_pure fun hvalue hcondition => ⟨hcondition, hvalue⟩

theorem quiet_rhs : Quiet rhs (Rhs.Each P) := by
  refine quiet_peek.andThen fun token => ?_
  split
  · refine quiet_advance.andThen fun _ => (quiet_consume .openParen).andThen fun _ => ?_
    refine (quiet_bound hP).bind fun first => (quiet_consume .comma).andThen fun _ => ?_
    refine (quiet_bound hP).bind fun last => (quiet_consume .comma).andThen fun _ => ?_
    refine (quiet_bound hP).bind fun step => (quiet_consume .closeParen).andThen fun _ => ?_
    refine quiet_pure fun hstep hlast hfirst => ?_
    simpa [Rhs.Each] using ⟨hfirst, hlast, hstep⟩
  · refine quiet_advance.andThen fun _ => (quiet_consume .openParen).andThen fun _ => ?_
    refine (quiet_expression hP).bind fun list => (quiet_checkList list).bind fun _ => ?_
    exact (quiet_consume .closeParen).andThen fun _ => quiet_pure fun hlist he => ⟨he, hlist⟩
  · refine quiet_advance.andThen fun _ => (quiet_consume .openParen).andThen fun _ => ?_
    refine quiet_remaining.andThen fun left => ?_
    refine (quiet_commaSeparated (quiet_arm hP) (left + 1)).bind fun arms => ?_
    exact (quiet_consume .closeParen).andThen fun _ => quiet_pure id
  · exact (quiet_expression hP).bind fun _ => quiet_pure id

omit hP in
theorem quiet_checkConstraint (name : String) (value : Rhs) :
    Quiet (checkConstraint name value) fun _ => True :=
  quiet_ite (fun _ => (quiet_check _ _).mono fun _ _ => trivial) fun _ => quiet_pure trivial

theorem quiet_declaringAssign (name : String) (span : Span) :
    Quiet (declaringAssign name span) (Action.Each P) := by
  refine quiet_advance.andThen fun _ => (quiet_consume .equals).andThen fun _ => ?_
  refine (quiet_rhs hP).bind fun value => (quiet_checkConstraint name value).andThen fun _ => ?_
  refine (quiet_declare _ _ _ _ _ _).andThen fun v => ?_
  exact quiet_pure fun hvalue => ⟨hP.var v, rfl, hvalue⟩

/-- The part of an assignment that comes after its target. -/
theorem quiet_assigned (target : Expr) :
    Quiet (do
      let _ ← consume .equals
      let value ← rhs
      match target with
      | .var v => checkConstraint v.name value
      | _ => pure ()
      return Action.assign target value) fun read =>
        P target → target.isTarget = true → read.Each P := by
  refine (quiet_consume .equals).andThen fun _ => (quiet_rhs hP).bind fun value => ?_
  have hgiven : Quiet (pure (.assign target value) : Parse Action) fun read =>
      value.Each P → P target → target.isTarget = true → read.Each P :=
    quiet_pure fun hvalue htarget hkind => ⟨htarget, hkind, hvalue⟩
  dsimp only
  split
  · exact (quiet_checkConstraint _ value).andThen fun _ => hgiven
  · exact hgiven

variable (hmissing : ∀ span, ¬ P (.missing span))

include hmissing

theorem quiet_plainAssign : Quiet plainAssign (Action.Each P) := by
  refine quiet_peek.andThen fun token => (quiet_primary hP).bind fun target => ?_
  dsimp only
  split
  · rename_i v
    exact (quiet_assigned hP (.var v)).mono fun _ hread htarget => hread htarget rfl
  · rename_i members span
    exact (quiet_assigned hP (.vector members span)).mono fun _ hread htarget => hread htarget rfl
  · rename_i span
    exact (quiet_assigned hP (.missing span)).mono fun _ _ htarget => absurd htarget (hmissing span)
  · refine (quiet_complain _ _ fun _ => False).bind fun _ => ?_
    exact (quiet_assigned hP target).mono fun _ _ => False.elim

theorem quiet_assign : Quiet assign (Action.Each P) := by
  refine quiet_peek.andThen fun token => quiet_peekNext.andThen fun next => ?_
  split
  · refine quiet_get.andThen fun s => ?_
    exact quiet_ite (fun _ => quiet_declaringAssign hP _ _) fun _ => quiet_plainAssign hP hmissing
  · exact quiet_plainAssign hP hmissing

theorem quiet_vectorArgument : Quiet vectorArgument fun e => P e ∧ e.isVector = true := by
  refine (quiet_primary hP).bind fun e => ?_
  split
  · exact quiet_pure fun he => ⟨he, rfl⟩
  · exact quiet_pure fun he => absurd he (hmissing _)
  · exact (quiet_complain _ _ fun _ => False).bind fun _ => quiet_pure False.elim

theorem quiet_call (callables : List String) : Quiet (call callables) (Action.Each P) := by
  have hargument := quiet_vectorArgument hP hmissing
  have harguments : ∀ callee : String,
      Quiet (do
        let _ ← advance
        let _ ← consume .comma
        let inputs ← vectorArgument
        let _ ← consume .comma
        let outputs ← vectorArgument
        let _ ← consume .closeParen
        return .call callee inputs outputs) (Action.Each P) := by
    intro callee
    refine quiet_advance.andThen fun _ => (quiet_consume .comma).andThen fun _ => ?_
    refine hargument.bind fun inputs => (quiet_consume .comma).andThen fun _ => ?_
    refine hargument.bind fun outputs => (quiet_consume .closeParen).andThen fun _ => ?_
    exact quiet_pure fun houtputs hinputs => ⟨hinputs, houtputs⟩
  refine quiet_advance.andThen fun _ => (quiet_consume .openParen).andThen fun _ => ?_
  refine quiet_peek.andThen fun token => ?_
  dsimp only
  split
  · exact harguments _
  · exact (quiet_complain _ _ fun _ => True).andThen fun _ => harguments _

omit hmissing in
theorem quiet_condition : Quiet condition P := by
  refine quiet_advance.andThen fun _ => (quiet_consume .openParen).andThen fun _ => ?_
  exact (quiet_expression hP).bind fun e =>
    (quiet_consume .closeParen).andThen fun _ => quiet_pure id

theorem quiet_action (callables : List String) : Quiet (action callables) (Action.Each P) := by
  refine quiet_peek.andThen fun token => ?_
  split
  · exact (quiet_condition hP).bind fun _ => quiet_pure id
  · exact (quiet_condition hP).bind fun _ => quiet_pure id
  · exact quiet_call hP hmissing callables
  · exact quiet_assign hP hmissing

theorem quiet_eachStmt (callables : List String) :
    Quiet (stmt callables) fun s => s.action.Each P := by
  refine quiet_peek.andThen fun token => (quiet_action hP hmissing callables).bind fun read => ?_
  refine quiet_terminator.bind fun complete => quiet_pure fun hcomplete hread => ?_
  rw [if_pos hcomplete]
  exact hread

end Statements

/-- **A statement that is read without complaints is whole.** -/
theorem quiet_stmt (callables : List String) :
    Quiet (stmt callables) fun s => s.action.Whole :=
  (quiet_eachStmt hereditary_whole (fun _ => id) callables).mono fun _ => Action.whole_of_each

/-! ### Modules -/

theorem quiet_noMember (P : Expr → Prop) : Quiet noMember P := quiet_skip _ _ P

theorem quiet_declareMembers (input : Bool) (members : List Pending) (tys : List (Ty × Span)) :
    Quiet (declareMembers input members tys) fun _ => True := by
  induction members generalizing tys with
  | nil => exact quiet_pure trivial
  | cons pending rest ih =>
    have hrest : ∀ declared : List Var,
        Quiet (declareMembers input rest tys.tail >>= fun others => pure (declared ++ others))
          fun _ => True :=
      fun _ => (ih tys.tail).andThen fun _ => quiet_pure trivial
    unfold declareMembers
    dsimp only
    split
    · exact hrest []
    · split
      · exact (quiet_declare _ _ _ _ _ _).andThen fun v => hrest [v]
      · exact (quiet_complain _ _ fun _ => True).andThen fun _ => hrest []

theorem quiet_param (input : Bool) : Quiet (param input) fun read => read.isMissing = false := by
  refine quiet_peek.andThen fun token => ?_
  split
  · exact quiet_advance.andThen fun _ => quiet_pure rfl
  · refine quiet_ite (fun _ => ?_) fun _ => ?_
    · refine quiet_remaining.andThen fun left => ?_
      refine (quiet_pendingMembers (quiet_noMember fun _ => True) (left + 1)).andThen fun read => ?_
      exact (quiet_declareMembers _ _ _).andThen fun _ => quiet_pure rfl
    · refine (quiet_complain _ _ fun _ => False).bind fun _ => ?_
      exact quiet_advance.andThen fun _ => quiet_pure False.elim

theorem quiet_paramsFrom (fuel : Nat) (input : Bool) :
    Quiet (paramsFrom input fuel) fun read => ∀ p ∈ read, p.isMissing = false := by
  induction fuel generalizing input with
  | zero => exact quiet_pure (by simp)
  | succ fuel ih =>
    refine (quiet_param input).bind fun first => (quiet_at? .comma).andThen fun comma => ?_
    refine quiet_ite (fun _ => ?_) fun _ => quiet_pure fun hfirst => by simpa using hfirst
    refine quiet_advance.andThen fun _ => (ih _).bind fun rest => ?_
    exact quiet_pure fun hrest hfirst => List.forall_mem_cons.mpr ⟨hfirst, hrest⟩

theorem quiet_params : Quiet params fun read => ∀ p ∈ read, p.isMissing = false := by
  have hclosing : ∀ read : List Param, Quiet (consume .closeParen >>= fun _ => pure read)
      fun given => (∀ p ∈ read, p.isMissing = false) → ∀ p ∈ given, p.isMissing = false :=
    fun _ => (quiet_consume .closeParen).andThen fun _ => quiet_pure id
  refine (quiet_consume .openParen).andThen fun _ => ?_
  refine (quiet_at? .closeParen).andThen fun closed => ?_
  dsimp only
  refine quiet_ite (fun _ => ?_) fun _ => ?_
  · exact (hclosing []).mono fun _ hgiven => hgiven (by simp)
  · refine quiet_remaining.andThen fun left => ?_
    exact (quiet_paramsFrom (left + 1) true).bind fun read => hclosing read

theorem quiet_checkBody (body : List Stmt) :
    Quiet (checkBody body) fun _ => ∀ s ∈ body, s.guard? = none := by
  induction body with
  | nil => exact quiet_pure (by simp)
  | cons s rest ih =>
    refine quiet_ite (fun _ => ?_) fun hguard => ?_
    · exact (quiet_complain _ _ fun _ => False).bind fun _ => ih.mono fun _ _ => False.elim
    · refine ih.mono fun _ hrest => List.forall_mem_cons.mpr ⟨?_, hrest⟩
      simpa using hguard

/-- The guard that is taken out of a body is a condition of it, and nothing is added. -/
theorem splitGuard_spec (stmts : List Stmt) :
    (∀ condition, (splitGuard stmts).1 = some condition →
        ∃ s ∈ stmts, s.action = .guard condition) ∧
      ∀ s ∈ (splitGuard stmts).2, s ∈ stmts := by
  induction stmts with
  | nil => simp [splitGuard]
  | cons s rest ih =>
    rw [splitGuard]
    split
    · constructor
      · intro condition hcondition
        obtain ⟨t, ht, haction⟩ := ih.1 condition hcondition
        exact ⟨t, by simp [ht], haction⟩
      · intro t ht
        rcases List.mem_cons.mp ht with rfl | ht
        · simp
        · simp [ih.2 t ht]
    · split
      · rename_i condition hguard
        constructor
        · intro condition' hcondition
          cases hcondition
          refine ⟨s, by simp, ?_⟩
          unfold Stmt.guard? at hguard
          split at hguard
          · rename_i c haction
            cases hguard
            exact haction
          · cases hguard
        · exact fun t ht => by simp [ht]
      · simp

theorem quiet_moduleHead : Quiet moduleHead fun _ => True := by
  refine quiet_peek.andThen fun token => ?_
  dsimp only
  split
  · exact quiet_advance.andThen fun _ => quiet_pure trivial
  · refine (quiet_complain _ _ fun _ => True).andThen fun _ => ?_
    exact quiet_advance.andThen fun _ => quiet_pure trivial

section Modules

variable {P : Expr → Prop} (hP : Hereditary P) (hmissing : ∀ span, ¬ P (.missing span))

include hP hmissing

theorem quiet_method (callables : List String) : Quiet (method callables) (Method.Each P) := by
  refine (quiet_consume .method).andThen fun token => ?_
  refine Quiet.andThen (quiet_modify fun _ => rfl) fun _ => quiet_remaining.andThen fun left => ?_
  refine (quiet_untilEndWord (quiet_eachStmt hP hmissing callables) (left + 1)).bind fun stmts => ?_
  refine (quiet_consume .endWord).andThen fun _ => (quiet_consume .method).andThen fun _ => ?_
  refine quiet_terminator.andThen fun _ => quiet_get.andThen fun s => ?_
  refine Quiet.andThen (quiet_modify fun _ => rfl) fun _ => ?_
  refine (quiet_checkBody (splitGuard stmts).2).bind fun _ => quiet_pure fun hbody hstmts => ?_
  obtain ⟨hguard, hkept⟩ := splitGuard_spec stmts
  refine ⟨fun condition hcondition => ?_, fun s hs => hstmts s (hkept s hs), hbody⟩
  obtain ⟨s, hs, haction⟩ := hguard condition hcondition
  have heach := hstmts s hs
  rw [haction] at heach
  exact heach

/-- **What is hereditary holds of all expressions of a module** that is read without
    complaints. -/
theorem quiet_eachModule : Quiet wholeModule (Module.Each P) := by
  refine Quiet.andThen (quiet_modify fun _ => rfl) fun _ => quiet_moduleHead.andThen fun head => ?_
  refine quiet_params.bind fun params => quiet_remaining.andThen fun left => ?_
  refine (quiet_untilEndWord (quiet_method hP hmissing _) (left + 1)).bind fun methods => ?_
  have hclosing : Quiet (do
      let _ ← consume .endWord
      if ← expect .moduleWord then
        let _ ← advance
      let _ ← terminator
      return Syntax.Module.mk head.1 params methods head.2) fun m =>
        (∀ method ∈ methods, method.Each P) → (∀ p ∈ params, p.isMissing = false) →
          m.Each P := by
    have hgiven : Quiet
        (terminator >>= fun _ => pure (Syntax.Module.mk head.1 params methods head.2))
        fun m => (∀ method ∈ methods, method.Each P) →
          (∀ p ∈ params, p.isMissing = false) → m.Each P :=
      quiet_terminator.andThen fun _ => quiet_pure fun hmethods hparams => ⟨hparams, hmethods⟩
    refine (quiet_consume .endWord).andThen fun _ => ?_
    refine (quiet_expect .moduleWord).andThen fun found => quiet_ite (fun _ => ?_) fun _ => hgiven
    exact quiet_advance.andThen fun _ => hgiven
  refine quiet_ite (fun _ => ?_) fun _ => hclosing
  exact (quiet_complain _ _ fun _ => True).andThen fun _ => hclosing

theorem each_of_parse {tokens : List Token} (h : (parse tokens).complaints = []) :
    ∀ m ∈ (parse tokens).modules, m.Each P :=
  (quiet_untilEnd (quiet_eachModule hP hmissing) (tokens.length + 1) { rest := tokens }
    (List.reverse_eq_nil_iff.mp h)).2

end Modules

/-- **A module that is read without complaints is whole.** -/
theorem quiet_wholeModule : Quiet wholeModule Module.Whole :=
  (quiet_eachModule hereditary_whole fun _ => id).mono fun _ => Module.whole_of_each

/-- **A source that is read without complaints consists of whole modules.** -/
theorem whole_of_parse {tokens : List Token} (h : (parse tokens).complaints = []) :
    ∀ m ∈ (parse tokens).modules, m.Whole := fun m hm =>
  Module.whole_of_each (each_of_parse hereditary_whole (fun _ => id) h m hm)

end Grammar

end CandidateSearch
