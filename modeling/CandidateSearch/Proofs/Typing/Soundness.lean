/-
  CandidateSearch/Proofs/Typing/Soundness.lean
  ============================================
  **Static types against the values that come out.**

  The type of an expression is worked out from its parts, its value by evaluation, and the
  two agree: if the variables hold values of their types, the value of an expression is of
  the type of the expression.  There is one gap.  A list has the type of its first item, and
  the other items are not looked at:

      nth(1, ["x", true])        an atom by its type, a truth value when it is evaluated

  `value_admitted` says that there is no other: where a value is not of its type, some list
  in the expression has an item that is of its own type but not of the type of the first.
-/
import CandidateSearch.Proofs.Declarative.Lowering
import CandidateSearch.Proofs.Grammar.Whole

namespace CandidateSearch

open Syntax
open Source (Span)

/-! ### Values of a type -/

namespace Ty

mutual

/-- The value is of the type.  Integers and reals are both numbers, `[]` is any list, and
    anything is of a type that is not known. -/
def admits : Ty → Value → Bool
  | .integer, .number _ | .real, .number _ => true
  | .bool, .bool _ => true
  | .atom, .atom _ => true
  | .list members, .list items => admitsItems members items
  | .vector members, .vector items => admitsMembers members items
  | .unknown, _ => true
  | _, _ => false

/-- The items are of the element type of a list type. -/
def admitsItems : List Ty → List Value → Bool
  | [], _ => true
  | ty :: _, items => items.all ty.admits

def admitsMembers : List Ty → List Value → Bool
  | [], [] => true
  | ty :: tys, v :: vs => ty.admits v && admitsMembers tys vs
  | _, _ => false

end

theorem admitsMembers_iff {tys : List Ty} {vs : List Value} :
    admitsMembers tys vs = true ↔ List.Forall₂ (fun ty v => ty.admits v = true) tys vs := by
  induction tys generalizing vs with
  | nil => cases vs <;> simp [admitsMembers]
  | cons ty tys ih => cases vs <;> simp [admitsMembers, ih]

/-- A type that is or may be one of numbers has every number. -/
theorem admits_number {ty : Ty} (h : Grammar.mayBeNumber ty = true) (x : Float) :
    ty.admits (.number x) = true := by
  cases ty <;> simp_all [Grammar.mayBeNumber, isNumeric, admits]

theorem exists_number {ty : Ty} (hnumeric : ty.isNumeric = true) {v : Value}
    (h : ty.admits v = true) : ∃ x, v = .number x := by
  cases ty <;> cases v <;> simp_all [isNumeric, admits]

end Ty

/-- The value that an operand becomes, but for the digits of a number. -/
def Operand.shape : Operand → Value
  | .number _ => .number 0
  | .atom name => .atom name
  | .bool b => .bool b
  | .list items => .list items
  | .vector items => .vector items

namespace Ty

variable {ty : Ty} {a : Operand} {v : Value}

theorem admits_number_eq (ty : Ty) (x y : Float) :
    ty.admits (.number x) = ty.admits (.number y) := by
  cases ty <;> rfl

theorem admits_ofValue (h : Operand.ofValue v = .ok a) : ty.admits a.shape = ty.admits v := by
  cases v with
  | number x =>
    obtain ⟨d, _, rfl⟩ := map_eq_ok.mp h
    exact admits_number_eq ty _ _
  | atom name | bool b | list items | vector items =>
    cases h
    rfl

theorem admits_toValue (h : a.toValue = .ok v) : ty.admits v = ty.admits a.shape := by
  cases a with
  | number d =>
    obtain ⟨x, _, rfl⟩ := map_eq_ok.mp h
    exact admits_number_eq ty _ _
  | atom name | bool b | list items | vector items =>
    cases h
    rfl

end Ty

/-! ### Lists with items of different types -/

namespace Syntax.Expr

/-- An expression that stands in another one, or is it. -/
inductive Part (part : Expr) : Expr → Prop
  | self : Part part part
  | item {items : List Expr} {span : Span} {e : Expr} (he : e ∈ items) (hpart : Part part e) :
      Part part (.list items span)
  | member {members : List (Expr × Bool)} {span : Span} {m : Expr × Bool} (hm : m ∈ members)
      (hpart : Part part m.1) : Part part (.vector members span)
  | operand {op : UnaryOp} {e : Expr} {span : Span} (hpart : Part part e) :
      Part part (.unary op e span)
  | left {op : BinaryOp} {lhs rhs : Expr} {span : Span} (hpart : Part part lhs) :
      Part part (.binary op lhs rhs span)
  | right {op : BinaryOp} {lhs rhs : Expr} {span : Span} (hpart : Part part rhs) :
      Part part (.binary op lhs rhs span)
  | argument {f : Builtin} {args : List Expr} {span : Span} {e : Expr} (he : e ∈ args)
      (hpart : Part part e) : Part part (.builtin f args span)

/-- Some list in the expression has an item whose value is of the type of the item, but not
    of the type of the first item. -/
def Mixed (V : Valuation) (e : Expr) : Prop :=
  ∃ first rest span item v, Part (.list (first :: rest) span) e ∧ item ∈ rest ∧
    item.stored V = some v ∧ item.ty.admits v = true ∧ first.ty.admits v = false

variable {V : Valuation}

theorem Mixed.of_part {e whole : Expr} (h : Mixed V e)
    (hpart : ∀ part, Part part e → Part part whole) : Mixed V whole := by
  obtain ⟨first, rest, span, item, v, hlist, hrest⟩ := h
  exact ⟨first, rest, span, item, v, hpart _ hlist, hrest⟩

/-- Variables that have a value have one of their type. -/
def Typed (V : Valuation) (vars : List Var) : Prop :=
  ∀ v ∈ vars, ∀ x, V v.key = some x → v.ty.admits x = true

theorem Typed.mono {vars vars' : List Var} (h : Typed V vars) (hsub : ∀ v ∈ vars', v ∈ vars) :
    Typed V vars' := fun v hv => h v (hsub v hv)

/-- If the variables have values of their types, the value of the expression is of its type,
    or there is a mixed list in the expression. -/
def Sound (V : Valuation) (e : Expr) : Prop :=
  Typed V e.vars → ∀ a, e.value V = some a → e.ty.admits a.shape = true ∨ Mixed V e

/-! ### Operators and functions -/

theorem toOption_eq_some {ε α : Type} {x : Except ε α} {a : α} :
    x.toOption = some a ↔ x = .ok a := by
  cases x <;> simp [Except.toOption]

theorem mayBeNumber_arithmeticTy (op : BinaryOp) (lhs rhs : Ty) :
    Grammar.mayBeNumber (arithmeticTy op lhs rhs) = true := by
  unfold arithmeticTy
  split_ifs <;> rfl

theorem sound_unary_not {e : Expr} {span : Span} : Sound V (.unary .not e span) := by
  intro _ a ha
  simp only [value, Option.bind_eq_bind, Option.bind_eq_some_iff] at ha
  obtain ⟨_, _, b, _, ha⟩ := ha
  cases ha
  exact .inl rfl

theorem sound_unary_neg {e : Expr} {span : Span} (hnumber : Grammar.mayBeNumber e.ty = true) :
    Sound V (.unary .neg e span) := by
  intro _ a ha
  simp only [value, Option.bind_eq_bind, Option.bind_eq_some_iff] at ha
  obtain ⟨_, _, d, _, ha⟩ := ha
  cases ha
  exact .inl (Ty.admits_number hnumber 0)

/-- But for `and` and `or`, an operator looks at both operands: as numbers, or as they are. -/
theorem exists_operands {op : BinaryOp} (hand : op ≠ .and) (hor : op ≠ .or) {lhs rhs : Expr}
    {span : Span} {a : Operand} (ha : value V (.binary op lhs rhs span) = some a) :
    ∃ x y, lhs.value V = some x ∧ rhs.value V = some y ∧
      ((Plan.demandsNumbers op = true ∧ ∃ d, a = .number d) ∨
        Plan.demandsNumbers op = false ∧ Plan.relation op x y = .ok a) := by
  rw [value] at ha
  · simp only [Option.bind_eq_bind, Option.bind_eq_some_iff] at ha
    obtain ⟨x, hx, ha⟩ := ha
    split at ha
    · rename_i hnumbers
      simp only [Option.bind_eq_some_iff] at ha
      obtain ⟨_, _, y, hy, _, _, d, _, ha⟩ := ha
      cases ha
      exact ⟨x, y, hx, hy, .inl ⟨hnumbers, d, rfl⟩⟩
    · rename_i hnumbers
      simp only [Option.bind_eq_some_iff, toOption_eq_some] at ha
      obtain ⟨y, hy, ha⟩ := ha
      exact ⟨x, y, hx, hy, .inr ⟨by simpa using hnumbers, ha⟩⟩
  · exact hand
  · exact hor

/-- `and` and `or` give truth values. -/
theorem exists_bool_of_connective {op : BinaryOp} (hop : op = .and ∨ op = .or) {lhs rhs : Expr}
    {span : Span} {a : Operand} (ha : value V (.binary op lhs rhs span) = some a) :
    ∃ truth, a = .bool truth := by
  rcases hop with rfl | rfl
  · simp only [value, Option.bind_eq_bind, Option.bind_eq_some_iff] at ha
    obtain ⟨_, _, first, _, ha⟩ := ha
    cases first with
    | true =>
      simp only [if_true, Option.bind_eq_some_iff] at ha
      obtain ⟨_, _, second, _, ha⟩ := ha
      cases ha
      exact ⟨second, rfl⟩
    | false =>
      cases ha
      exact ⟨false, rfl⟩
  · simp only [value, Option.bind_eq_bind, Option.bind_eq_some_iff] at ha
    obtain ⟨_, _, first, _, ha⟩ := ha
    cases first with
    | true =>
      cases ha
      exact ⟨true, rfl⟩
    | false =>
      simp only [Bool.false_eq_true, if_false, Option.bind_eq_some_iff] at ha
      obtain ⟨_, _, second, _, ha⟩ := ha
      cases ha
      exact ⟨second, rfl⟩

/-- A comparison gives a truth value. -/
theorem exists_bool_of_relation {op : BinaryOp} (hop : op.isLogical = true) (hand : op ≠ .and)
    (hor : op ≠ .or) {x y a : Operand} (h : Plan.relation op x y = .ok a) :
    ∃ truth, a = .bool truth := by
  cases op with
  | and => exact absurd rfl hand
  | or => exact absurd rfl hor
  | eq | ne =>
    cases h
    exact ⟨_, rfl⟩
  | lt | le =>
    obtain ⟨order, _, rfl⟩ := map_eq_ok.mp h
    exact ⟨_, rfl⟩
  | add | sub | mul | div | mod | pow => exact absurd hop (by decide)

theorem sound_logical {op : BinaryOp} {lhs rhs : Expr} {span : Span}
    (hop : op.isLogical = true) : Sound V (.binary op lhs rhs span) := by
  intro _ a ha
  have hbool : ∃ truth, a = .bool truth := by
    by_cases hconnective : op = .and ∨ op = .or
    · exact exists_bool_of_connective hconnective ha
    · rw [not_or] at hconnective
      obtain ⟨x, y, _, _, hresult⟩ := exists_operands hconnective.1 hconnective.2 ha
      rcases hresult with ⟨hdemands, _⟩ | ⟨_, hrelation⟩
      · exact absurd hop (by revert hdemands; cases op <;> decide)
      · exact exists_bool_of_relation hop hconnective.1 hconnective.2 hrelation
  obtain ⟨truth, rfl⟩ := hbool
  left
  rw [ty, if_pos hop]
  rfl

theorem exists_number_of_add {x y a : Operand} (h : Operand.add x y = .ok a)
    (hx : ∃ d, x = .number d) : ∃ d, a = .number d := by
  obtain ⟨d, rfl⟩ := hx
  simp only [Operand.add, bind_eq_ok, pure_eq_ok] at h
  obtain ⟨_, _, _, _, rfl⟩ := h
  exact ⟨_, rfl⟩

/-- Arithmetic gives a number, unless it joins atoms; then the type of an operand is not
    known, and neither is that of the result. -/
theorem sound_arithmetic {op : BinaryOp} {lhs rhs : Expr} {span : Span}
    (hop : op.isLogical = false) (hlhs : Sound V lhs)
    (hleft : Grammar.mayBeNumber lhs.ty = true) :
    Sound V (.binary op lhs rhs span) := by
  intro hvars a ha
  have hty : ty (.binary op lhs rhs span) = arithmeticTy op lhs.ty rhs.ty := by simp [ty, hop]
  have hnumber : (∃ d, a = .number d) → (ty (.binary op lhs rhs span)).admits a.shape = true := by
    rintro ⟨d, rfl⟩
    rw [hty]
    exact Ty.admits_number (mayBeNumber_arithmeticTy op lhs.ty rhs.ty) 0
  have hplain : op ≠ .and ∧ op ≠ .or := by
    constructor <;> (rintro rfl; exact absurd hop (by decide))
  obtain ⟨x, y, hx, hy, hresult⟩ := exists_operands hplain.1 hplain.2 ha
  rcases hresult with ⟨_, hd⟩ | ⟨hdemands, hrelation⟩
  · exact .inl (hnumber hd)
  have hadd : op = .add := by cases op <;> simp_all [Plan.demandsNumbers, BinaryOp.isLogical]
  subst hadd
  rcases hlhs (hvars.mono fun v hv => by simp [vars, hv]) x hx with hadmits | hmixed
  · by_cases hunknown : lhs.ty = .unknown
    · left
      rw [hty, arithmeticTy, if_pos (.inl hunknown)]
      rfl
    · have hnumeric : lhs.ty.isNumeric = true := by
        simpa [Grammar.mayBeNumber, hunknown] using hleft
      obtain ⟨z, hz⟩ := Ty.exists_number hnumeric hadmits
      left
      apply hnumber
      apply exists_number_of_add hrelation
      cases x <;> simp_all [Operand.shape]
  · exact .inr (hmixed.of_part fun _ => .left)

/-- `nth` gives an item of the list. -/
theorem mem_of_nth {items : List Value} {index : Decimal} {v : Value}
    (h : Value.nth items index = .ok v) : v ∈ items := by
  unfold Value.nth at h
  dsimp only at h
  split at h
  · rename_i found hfound
    cases h
    split at hfound
    · exact List.mem_of_getElem? hfound
    · cases hfound
  · cases h

theorem admits_elementTy {list : Ty} {items : List Value} {v : Value}
    (hlist : list.admits (.list items) = true) (hv : v ∈ items) :
    (elementTy (some list)).admits v = true := by
  match list, hlist with
  | .list (ty :: tys), hlist => exact List.all_eq_true.mp hlist v hv
  | .list [], _ => rfl
  | .unknown, _ => rfl

theorem sound_nth {i l : Expr} {span : Span} (hl : Sound V l) :
    Sound V (.builtin .nth [i, l] span) := by
  intro hvars a ha
  simp only [value, Option.bind_eq_bind, Option.bind_eq_some_iff, toOption_eq_some] at ha
  obtain ⟨_, _, index, _, x, hx, items, hitems, v, hv, ha⟩ := ha
  have hlist : x = .list items := by
    cases x <;> simp_all [Operand.list?]
  rcases hl (hvars.mono fun v hv => by simp [vars, hv]) x hx with hadmits | hmixed
  · left
    rw [hlist] at hadmits
    rw [Ty.admits_ofValue ha]
    exact admits_elementTy hadmits (mem_of_nth hv)
  · exact .inr (hmixed.of_part fun _ => .argument (by simp))

/-- All functions but `nth` give numbers. -/
theorem sound_builtin {f : Builtin} {args : List Expr} {span : Span}
    (harity : args.length = f.arity) (hargs : ∀ e ∈ args, Sound V e) :
    Sound V (.builtin f args span) := by
  cases f with
  | nth =>
    obtain ⟨i, l, rfl⟩ := List.length_eq_two.mp harity
    exact sound_nth (hargs l (by simp))
  | sqrt =>
    obtain ⟨e, rfl⟩ := List.length_eq_one_iff.mp harity
    intro _ a ha
    simp only [value, Option.bind_eq_bind, Option.bind_eq_some_iff] at ha
    obtain ⟨_, _, _, _, root, _, ha⟩ := ha
    cases ha
    exact .inl rfl
  | exp =>
    obtain ⟨e, rfl⟩ := List.length_eq_one_iff.mp harity
    intro _ a ha
    simp only [value, Option.bind_eq_bind, Option.bind_eq_some_iff] at ha
    obtain ⟨_, _, d, _, ha⟩ := ha
    cases ha
    exact .inl rfl
  | length =>
    obtain ⟨e, rfl⟩ := List.length_eq_one_iff.mp harity
    intro _ a ha
    simp only [value, Option.bind_eq_bind, Option.bind_eq_some_iff] at ha
    obtain ⟨_, _, items, _, ha⟩ := ha
    cases ha
    exact .inl rfl
  | sum =>
    obtain ⟨e, rfl⟩ := List.length_eq_one_iff.mp harity
    intro _ a ha
    simp only [value, Option.bind_eq_bind, Option.bind_eq_some_iff] at ha
    obtain ⟨_, _, items, _, total, _, ha⟩ := ha
    cases ha
    left
    simp only [ty]
    split <;> rfl

/-! ### Lists and vectors -/

theorem Sound.of_stored {e : Expr} (h : Sound V e) (hvars : Typed V e.vars) {x : Value}
    (hx : e.stored V = some x) : e.ty.admits x = true ∨ Mixed V e := by
  simp only [stored, Option.bind_eq_bind, Option.bind_eq_some_iff, toOption_eq_some] at hx
  obtain ⟨a, ha, hx⟩ := hx
  rw [Ty.admits_toValue hx]
  exact h hvars a ha

/-- The values of several expressions are of their types one by one, or one of them has a
    mixed list in it. -/
theorem admitted_or_mixed {items : List Expr} (hitems : ∀ e ∈ items, Sound V e)
    (hvars : Typed V (varsAll items)) {vs : List Value} (h : values V items = some vs) :
    List.Forall₂ (fun e v => e.stored V = some v ∧ e.ty.admits v = true) items vs ∨
      ∃ e ∈ items, Mixed V e := by
  induction items generalizing vs with
  | nil =>
    cases h
    exact .inl .nil
  | cons e rest ih =>
    simp only [values, Option.bind_eq_bind, Option.bind_eq_some_iff] at h
    obtain ⟨a, ha, v, hv, others, hothers, h⟩ := h
    cases h
    have hstored : e.stored V = some v := by simp [stored, ha, hv]
    rw [List.forall_mem_cons] at hitems
    rcases hitems.1.of_stored (hvars.mono fun v hv => by simp [varsAll, hv]) hstored with
      hadmits | hmixed
    · rcases ih hitems.2 (hvars.mono fun v hv => by simp [varsAll, hv]) hothers with
        hrest | ⟨other, hother, hmixed⟩
      · exact .inl (.cons ⟨hstored, hadmits⟩ hrest)
      · exact .inr ⟨other, List.mem_cons_of_mem e hother, hmixed⟩
    · exact .inr ⟨e, List.mem_cons_self, hmixed⟩

theorem exists_of_mem_right {α β : Type} {R : α → β → Prop} {as : List α} {bs : List β}
    (h : List.Forall₂ R as bs) {b : β} (hb : b ∈ bs) : ∃ a ∈ as, R a b := by
  induction h with
  | nil => cases hb
  | @cons a _ _ _ hab _ ih =>
    rcases List.mem_cons.mp hb with rfl | hb
    · exact ⟨a, List.mem_cons_self, hab⟩
    · obtain ⟨a', ha', hab'⟩ := ih hb
      exact ⟨a', List.mem_cons_of_mem a ha', hab'⟩

theorem sound_list {items : List Expr} {span : Span} (hitems : ∀ e ∈ items, Sound V e) :
    Sound V (.list items span) := by
  intro hvars a ha
  simp only [value, Option.bind_eq_bind, Option.bind_eq_some_iff] at ha
  obtain ⟨vs, hvs, ha⟩ := ha
  cases ha
  rcases admitted_or_mixed hitems hvars hvs with hall | ⟨e, he, hmixed⟩
  · cases items with
    | nil => exact .inl rfl
    | cons first rest =>
      -- the type looks at the first item only, so that another one may not be of it
      by_cases hfirst : vs.all first.ty.admits = true
      · exact .inl hfirst
      · right
        simp only [List.all_eq_true, not_forall] at hfirst
        obtain ⟨v, hv, hother⟩ := hfirst
        obtain ⟨item, hitem, hstored, hadmits⟩ := exists_of_mem_right hall hv
        rcases List.mem_cons.mp hitem with rfl | hitem
        · exact absurd hadmits hother
        · exact ⟨first, rest, span, item, v, .self, hitem, hstored, hadmits, by simpa using hother⟩
  · exact .inr (hmixed.of_part fun _ => .item he)

theorem memberValues_eq (members : List (Expr × Bool)) :
    memberValues V members = values V (members.map (·.1)) := by
  induction members with
  | nil => rfl
  | cons m rest ih => simp only [memberValues, values, List.map_cons, ih]

theorem memberVars_eq (members : List (Expr × Bool)) :
    memberVars members = varsAll (members.map (·.1)) := by
  induction members with
  | nil => rfl
  | cons m rest ih => simp only [memberVars, varsAll, List.map_cons, ih]

theorem memberTys_eq (members : List (Expr × Bool)) :
    memberTys members = (members.map (·.1)).map ty := by
  induction members with
  | nil => rfl
  | cons m rest ih => simp only [memberTys, List.map_cons, ih]

theorem sound_vector {members : List (Expr × Bool)} {span : Span}
    (hmembers : ∀ m ∈ members, Sound V m.1) : Sound V (.vector members span) := by
  intro hvars a ha
  simp only [value, Option.bind_eq_bind, Option.bind_eq_some_iff, memberValues_eq] at ha
  obtain ⟨vs, hvs, ha⟩ := ha
  cases ha
  simp only [vars, memberVars_eq] at hvars
  rcases admitted_or_mixed (List.forall_mem_map.mpr hmembers) hvars hvs with
    hall | ⟨e, he, hmixed⟩
  · left
    simp only [ty, memberTys_eq, Operand.shape, Ty.admits, Ty.admitsMembers_iff,
      List.forall₂_map_left_iff] at hall ⊢
    exact hall.imp fun _ _ h => h.2
  · obtain ⟨m, hm, rfl⟩ := List.mem_map.mp he
    exact .inr (hmixed.of_part fun _ => .member hm)

/-! ### All expressions that can be read -/

theorem sound_number {digits : String} {span : Span} : Sound V (.number digits span) := by
  intro _ a ha
  obtain ⟨d, _, rfl⟩ := Option.map_eq_some_iff.mp ha
  left
  simp only [ty, numeralTy]
  split <;> rfl

theorem sound_var {v : Var} : Sound V (.var v) := by
  intro hvars a ha
  simp only [value, Option.bind_eq_bind, Option.bind_eq_some_iff, toOption_eq_some] at ha
  obtain ⟨x, hx, ha⟩ := ha
  left
  rw [Ty.admits_ofValue ha]
  exact hvars v (by simp [vars]) x hx

/-- Being sound passes from the parts of an expression to the whole. -/
theorem hereditary_sound (V : Valuation) : Grammar.Hereditary (Sound V) where
  number _ _ := sound_number
  string _ _ := fun _ _ ha => by cases ha; exact .inl rfl
  atom _ _ := fun _ _ ha => by cases ha; exact .inl rfl
  bool _ _ := fun _ _ ha => by cases ha; exact .inl rfl
  var _ := sound_var
  list _ _ hitems := sound_list hitems
  vector _ _ hmembers := sound_vector hmembers
  not _ _ _ := sound_unary_not
  neg _ _ _ hnumber := sound_unary_neg hnumber
  binary op _ _ _ hlhs _ hchecked := by
    cases hop : op.isLogical with
    | true => exact sound_logical hop
    | false => exact sound_arithmetic hop hlhs (hchecked hop).1
  builtin _ _ _ harity _ hargs := sound_builtin harity hargs

end Syntax.Expr

/-- The expression is what is read somewhere in a source without complaints. -/
def Grammar.Accepted (e : Expr) : Prop :=
  ∃ read ∈ [Grammar.expression, Grammar.primary], ∃ s,
    (read.run s).2.complaints = [] ∧ (read.run s).1 = e

theorem Grammar.Accepted.sound {e : Expr} (h : Grammar.Accepted e) (V : Valuation) :
    e.Sound V := by
  obtain ⟨read, hread, s, hquiet, rfl⟩ := h
  simp only [List.mem_cons, List.not_mem_nil, or_false] at hread
  rcases hread with rfl | rfl
  · exact (Grammar.quiet_expression (Expr.hereditary_sound V) s hquiet).2
  · exact (Grammar.quiet_primary (Expr.hereditary_sound V) s hquiet).2

namespace Plan

open Resolved (Env)

/-- The values that the slots give to the variables. -/
def valuation (env : Env) (read : Reader) : Valuation :=
  fun k => (env.find? k).bind fun w => (read w.slot).toOption

theorem sees_valuation (env : Env) (read : Reader) (vars : List Var) :
    Sees env read (valuation env read) vars := by
  intro v _ w hw
  simp [valuation, hw]

/-- If every variable of an expression that was read without complaints is unbound or holds
    a value of its type, and the planned expression has a value, then the value is of the
    type of the expression; or else some list in the expression has an item whose value is
    of the type of the item, but not of the type of the first item of the list. -/
theorem evaluation_respects_types {e : Syntax.Expr} (haccepted : Grammar.Accepted e) {env : Env}
    {q : Expr} (hlowers : Lowers env e q) {read : Reader}
    (hvars : ∀ v ∈ e.vars, ∀ w, env.find? v.key = some w →
      ∀ x, read w.slot = .ok x → v.ty.admits x = true)
    {x : Value} (hx : q.evalValue read = .ok x) :
    e.ty.admits x = true ∨ e.Mixed (valuation env read) := by
  apply (haccepted.sound (valuation env read)).of_stored
  · intro v hv x hx
    simp only [valuation, Option.bind_eq_some_iff, Syntax.Expr.toOption_eq_some] at hx
    obtain ⟨w, hw, hx⟩ := hx
    exact hvars v hv w hw x hx
  · rw [← toOption_evalValue hlowers (sees_valuation env read e.vars), hx]
    rfl

/-! ### A mixed list -/

/-- A variable `Flag` of type `bool`. -/
def flag : Var := ⟨"Flag", .bool, {}, .body, false, {}⟩

/-- `["x", Flag]`. -/
def mixedList : Syntax.Expr := .list [.string "x" {}, .var flag] {}

/-- The tokens of the list, in a method that has declared the variable. -/
def mixedState : Grammar.State where
  rest := [⟨.reserved .openBracket, {}⟩, ⟨.string "x", {}⟩, ⟨.reserved .comma, {}⟩,
    ⟨.var "Flag", {}⟩, ⟨.reserved .closeBracket, {}⟩, ⟨.eof, {}⟩]
  locals := [flag]

def flagEnv : Env := ⟨[], [⟨"Flag", .bool, .inner 0, false⟩]⟩

/-- The list is of type `[atom]`, and with `true` for the variable its value is not. -/
theorem evaluation_respects_types_mixedList :
    Grammar.Accepted mixedList ∧ mixedList.ty = .list [.atom] ∧
      Lowers flagEnv mixedList (.list [.atom "x", .var (.inner 0)]) ∧
      Expr.evalValue (fun _ => .ok (.bool true)) (.list [.atom "x", .var (.inner 0)]) =
        .ok (.list [.atom "x", .bool true]) ∧
      mixedList.ty.admits (.list [.atom "x", .bool true]) = false ∧
      mixedList.Mixed (valuation flagEnv fun _ => .ok (.bool true)) := by
  have haccepted : Grammar.Accepted mixedList :=
    ⟨Grammar.expression, by simp, mixedState, rfl, rfl⟩
  have hlowers : Lowers flagEnv mixedList (.list [.atom "x", .var (.inner 0)]) :=
    ⟨.list [.atom "x", .var ⟨"Flag", .bool, .inner 0, false⟩], rfl, rfl⟩
  have hvalue : Expr.evalValue (fun _ => .ok (.bool true)) (.list [.atom "x", .var (.inner 0)]) =
      .ok (.list [.atom "x", .bool true]) := rfl
  have hvars : ∀ v ∈ mixedList.vars, ∀ w, flagEnv.find? v.key = some w →
      ∀ x, (.ok (.bool true) : Except Fault Value) = .ok x → v.ty.admits x = true := by
    intro v hv w _ x hx
    obtain rfl : v = flag := by simpa [mixedList, Syntax.Expr.vars, Syntax.Expr.varsAll] using hv
    cases hx
    rfl
  have hother : mixedList.ty.admits (.list [.atom "x", .bool true]) = false := rfl
  refine ⟨haccepted, rfl, hlowers, hvalue, hother, ?_⟩
  rcases evaluation_respects_types haccepted hlowers hvars hvalue with hadmits | hmixed
  · exact absurd hadmits (by simp [hother])
  · exact hmixed

end Plan

end CandidateSearch
