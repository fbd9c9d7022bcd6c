/-
  CandidateSearch/Proofs/Grammar/Derivation.lean
  ==============================================
  **The grammar, without a reader.**

  For each category of the grammar a relation says which tokens belong to it and which tree
  they stand for.  The rules are those of the grammar, one by one:

      relational  = additive {("<" | "=<" | ">" | ">=") additive}
      vector      = "{" [member {"," member} [","]] "}" [":" vector-type]
      vector-type = "{" [type {"," type}] "}"

  The group of a parameter is written as a vector is, so both may be empty, and so may the
  vector type behind them.

  A tree also says of what variable an occurrence is, so a category relates the variables
  that are known before its tokens to those that are known after them: an occurrence with a
  type declares its variable, one without must have been declared.

  The grammar has vectors as the arguments of a call.  With `strict` turned off an argument
  may also be a vector in parentheses.
-/
import CandidateSearch.Grammar.Module
import CandidateSearch.Proofs.Grammar.Whole

namespace CandidateSearch.Grammar

open Source Syntax

/-! ### Known variables -/

/-- The variables that are known at a place: parameters, and variables of the method. -/
structure Names where
  fields : List Var := []
  locals : List Var := []

namespace Names

/-- The variable that a name stands for. -/
def find? (Γ : Names) (name : String) : Option Var :=
  (Γ.fields ++ Γ.locals).find? fun v => v.name == name

/-- Makes a variable known. -/
def add (Γ : Names) (v : Var) : Names :=
  match v.scope with
  | .parameter => { Γ with fields := Γ.fields ++ [v] }
  | .body => { Γ with locals := Γ.locals ++ [v] }

/-- An occurrence declares a variable: a new one, or one that is known with a type that
    agrees. -/
inductive Declares (Γ : Names) (v : Var) : Var → Names → Prop
  | new (hnew : Γ.find? v.name = none) : Declares Γ v v (Γ.add v)
  | again {found : Var} (hfound : Γ.find? v.name = some found)
      (hty : found.ty.compatible v.ty = true) : Declares Γ v { found with span := v.span } Γ

end Names

/-- What tokens stand for, given the known variables, and the variables known after them. -/
abbrev Category (α : Type) := Names → List Token → α → Names → Prop

section Repetition

variable {α : Type}

/-- `item {"," item}` -/
inductive Listed (item : Category α) : Category (List α)
  | last {Γ Γ' : Names} {ts : List Token} {a : α} (ha : item Γ ts a Γ') :
      Listed item Γ ts [a] Γ'
  | more {Γ Γ₁ Γ' : Names} {ts us : List Token} {c : Token} {a : α} {as : List α}
      (ha : item Γ ts a Γ₁) (hc : c.is .comma) (has : Listed item Γ₁ us as Γ') :
      Listed item Γ (ts ++ c :: us) (a :: as) Γ'

/-- `[item {"," item}]` -/
inductive Separated (item : Category α) : Category (List α)
  | none {Γ : Names} : Separated item Γ [] [] Γ
  | some {Γ Γ' : Names} {ts : List Token} {as : List α} (has : Listed item Γ ts as Γ') :
      Separated item Γ ts as Γ'

/-- `[item {"," item} [","]]` -/
inductive Bracketed (item : Category α) : Category (List α)
  | plain {Γ Γ' : Names} {ts : List Token} {as : List α} (has : Separated item Γ ts as Γ') :
      Bracketed item Γ ts as Γ'
  | trailing {Γ Γ' : Names} {ts : List Token} {c : Token} {as : List α}
      (has : Listed item Γ ts as Γ') (hc : c.is .comma) : Bracketed item Γ (ts ++ [c]) as Γ'

/-- `{item}` -/
inductive Repeated (item : Category α) : Category (List α)
  | none {Γ : Names} : Repeated item Γ [] [] Γ
  | more {Γ Γ₁ Γ' : Names} {ts us : List Token} {a : α} {as : List α} (ha : item Γ ts a Γ₁)
      (has : Repeated item Γ₁ us as Γ') : Repeated item Γ (ts ++ us) (a :: as) Γ'

theorem Separated.tokens_eq_nil {item : Category α} {Γ Γ' : Names} {ts : List Token}
    (h : Separated item Γ ts [] Γ') : ts = [] := by
  cases h with
  | none => rfl
  | some has => cases has

end Repetition

/-! ### Types -/

/-- The types that are written as one word, in full or by the first letter. -/
inductive TypeWord : Reserved → Ty → Prop
  | integer : TypeWord .integer .integer
  | i : TypeWord .i .integer
  | real : TypeWord .real .real
  | r : TypeWord .r .real
  | bool : TypeWord .bool .bool
  | b : TypeWord .b .bool
  | atom : TypeWord .atom .atom
  | a : TypeWord .a .atom

/-- A word, `[T, …]` or `{T, …}`. -/
inductive TypeOf : Category Annotation
  | word {Γ : Names} {t : Token} {w : Reserved} {ty : Ty} (ht : t.is w) (hty : TypeWord w ty) :
      TypeOf Γ [t] ⟨ty, t.span, []⟩ Γ
  | list {Γ Γ' : Names} {t u : Token} {ts : List Token} {members : List Annotation}
      (ht : t.is .openBracket) (hmembers : Separated TypeOf Γ ts members Γ')
      (hu : u.is .closeBracket) :
      TypeOf Γ (t :: (ts ++ [u])) ⟨.list (members.map (·.ty)), t.span, []⟩ Γ'
  | vector {Γ Γ' : Names} {t u : Token} {ts : List Token} {members : List Annotation}
      (ht : t.is .openBrace) (hmembers : Separated TypeOf Γ ts members Γ')
      (hu : u.is .closeBrace) :
      TypeOf Γ (t :: (ts ++ [u]))
        ⟨.vector (members.map (·.ty)), t.span, members.map fun m => (m.ty, m.span)⟩ Γ'

/-! ### Vectors -/

/-- `variable [":" type] | value` -/
inductive MemberOf (value : Category Expr) : Category Pending
  | typed {Γ Γ' : Names} {t c : Token} {ts : List Token} {name : String} {a : Annotation}
      (ht : t.kind = .var name) (hc : c.is .colon) (ha : TypeOf Γ ts a Γ') :
      MemberOf value Γ (t :: c :: ts) (.name name t.span (some (a.ty, a.span))) Γ'
  | bare {Γ : Names} {t : Token} {name : String} (ht : t.kind = .var name) :
      MemberOf value Γ [t] (.name name t.span none) Γ
  | value {Γ Γ' : Names} {ts : List Token} {e : Expr} (he : value Γ ts e Γ') :
      MemberOf value Γ ts (.value e) Γ'

/-- What stands in braces: the members, the types of a group annotation for them, and where
    it starts. -/
structure Group where
  members : List Pending
  tys : List (Ty × Span)
  span : Span

/-- `[":" vector-type]`, for variables only, with a type for each.  After `{}` the vector type
    is `{}`. -/
inductive GroupTypes (members : List Pending) : Category (List (Ty × Span))
  | none {Γ : Names} : GroupTypes members Γ [] [] Γ
  | some {Γ Γ' : Names} {c : Token} {ts : List Token} {a : Annotation} {tys : List Ty}
      (hc : c.is .colon) (hnames : members.all Pending.isName = true) (ha : TypeOf Γ ts a Γ')
      (hty : a.ty = .vector tys) (hcount : tys.length = members.length) :
      GroupTypes members Γ (c :: ts) a.members Γ'

/-- An annotation has at least one type, unless there are no members: then it is `: {}`. -/
theorem GroupTypes.typed_or_empty {members : List Pending} {Γ Γ' : Names} {ts : List Token}
    {tys : List (Ty × Span)} (h : GroupTypes members Γ ts tys Γ') (hts : ts ≠ []) :
    tys ≠ [] ∨ members = [] ∧ ∃ c t u : Token, ts = [c, t, u] ∧
      c.is .colon ∧ t.is .openBrace ∧ u.is .closeBrace := by
  cases h with
  | none => exact absurd rfl hts
  | some hc _ ha hty hcount =>
    cases ha with
    | word _ hword => cases hword <;> cases hty
    | list => cases hty
    | @vector _ _ t u _ written ht hwritten hu =>
      obtain rfl := Ty.vector.inj hty
      cases written with
      | nil =>
        obtain rfl := hwritten.tokens_eq_nil
        exact .inr ⟨List.eq_nil_of_length_eq_zero hcount.symm, _, t, u, rfl, hc, ht, hu⟩
      | cons first rest => exact .inl (by simp)

example : GroupTypes [] {} [⟨.reserved .colon, {}⟩, ⟨.reserved .openBrace, {}⟩,
    ⟨.reserved .closeBrace, {}⟩] [] {} :=
  .some rfl rfl (.vector rfl .none rfl) rfl rfl

/-- `"{" [member {"," member} [","]] "}" [":" vector-type]` -/
inductive GroupOf (value : Category Expr) : Category Group
  | mk {Γ Γ₁ Γ' : Names} {t u : Token} {ts us : List Token} {members : List Pending}
      {tys : List (Ty × Span)} (ht : t.is .openBrace)
      (hmembers : Bracketed (MemberOf value) Γ ts members Γ₁) (hu : u.is .closeBrace)
      (htys : GroupTypes members Γ₁ us tys Γ') :
      GroupOf value Γ (t :: (ts ++ u :: us)) ⟨members, tys, t.span⟩ Γ'

/-- The members of a vector as expressions: one with a type, its own or that of the group,
    declares its variable. -/
inductive MembersAre : Names → List Pending → List (Ty × Span) → List (Expr × Bool) → Names → Prop
  | nil {Γ : Names} {tys : List (Ty × Span)} : MembersAre Γ [] tys [] Γ
  | value {Γ Γ' : Names} {e : Expr} {rest : List Pending} {tys : List (Ty × Span)}
      {more : List (Expr × Bool)} (hrest : MembersAre Γ rest tys.tail more Γ') :
      MembersAre Γ (.value e :: rest) tys ((e, false) :: more) Γ'
  | declared {Γ Γ₁ Γ' : Names} {name : String} {span tySpan : Span} {own : Option (Ty × Span)}
      {ty : Ty} {v : Var} {rest : List Pending} {tys : List (Ty × Span)}
      {more : List (Expr × Bool)} (hty : (own <|> tys.head?) = some (ty, tySpan))
      (hv : Γ.Declares ⟨name, ty, tySpan, .body, false, span⟩ v Γ₁)
      (hrest : MembersAre Γ₁ rest tys.tail more Γ') :
      MembersAre Γ (.name name span own :: rest) tys ((.var v, true) :: more) Γ'
  | known {Γ Γ' : Names} {name : String} {span : Span} {own : Option (Ty × Span)} {v : Var}
      {rest : List Pending} {tys : List (Ty × Span)} {more : List (Expr × Bool)}
      (hty : (own <|> tys.head?) = none) (hv : Γ.find? name = some v)
      (hrest : MembersAre Γ rest tys.tail more Γ') :
      MembersAre Γ (.name name span own :: rest) tys
        ((.var { v with span := span }, false) :: more) Γ'

inductive VectorOf (value : Category Expr) : Category Expr
  | mk {Γ Γ₁ Γ' : Names} {ts : List Token} {group : Group} {members : List (Expr × Bool)}
      (hgroup : GroupOf value Γ ts group Γ₁)
      (hmembers : MembersAre Γ₁ group.members group.tys members Γ') :
      VectorOf value Γ ts (.vector members group.span) Γ'

/-! ### Expressions -/

/-- The operators of a level.  Greater-than is less-than with the operands exchanged. -/
inductive Operator : Level → Reserved → BinaryOp → Bool → Prop
  | or : Operator .or .or .or false
  | and : Operator .and .and .and false
  | equals : Operator .equality .equals .eq false
  | doubleEquals : Operator .equality .doubleEquals .eq false
  | notEquals : Operator .equality .notEquals .ne false
  | less : Operator .relational .less .lt false
  | atMost : Operator .relational .atMost .le false
  | greater : Operator .relational .greater .lt true
  | atLeast : Operator .relational .atLeast .le true
  | plus : Operator .additive .plus .add false
  | minus : Operator .additive .minus .sub false
  | times : Operator .multiplicative .times .mul false
  | divide : Operator .multiplicative .divide .div false
  | mod : Operator .multiplicative .mod .mod false

/-- `{operator operand}` after an operand, from left to right. -/
inductive Chain (level : Level) (operand : Category Expr) : Expr → Category Expr
  | stop {Γ : Names} {lhs : Expr} : Chain level operand lhs Γ [] lhs Γ
  | step {Γ Γ₁ Γ' : Names} {t : Token} {ts us : List Token} {w : Reserved} {op : BinaryOp}
      {exchanged : Bool} {lhs rhs e : Expr} (ht : t.is w) (hop : Operator level w op exchanged)
      (hrhs : operand Γ ts rhs Γ₁)
      (hrest : Chain level operand (if exchanged then .binary op rhs lhs t.span
        else .binary op lhs rhs t.span) Γ₁ us e Γ') :
      Chain level operand lhs Γ (t :: (ts ++ us)) e Γ'

mutual

/-- Expressions, from the loosest level to the tightest. -/
inductive ExprOf : Level → Category Expr
  | or {Γ Γ₁ Γ' : Names} {ts us : List Token} {first e : Expr} (hfirst : ExprOf .and Γ ts first Γ₁)
      (hrest : Chain .or (ExprOf .and) first Γ₁ us e Γ') : ExprOf .or Γ (ts ++ us) e Γ'
  | and {Γ Γ₁ Γ' : Names} {ts us : List Token} {first e : Expr} (hfirst : ExprOf .not Γ ts first Γ₁)
      (hrest : Chain .and (ExprOf .not) first Γ₁ us e Γ') : ExprOf .and Γ (ts ++ us) e Γ'
  | not {Γ Γ' : Names} {t o u : Token} {ts : List Token} {e : Expr} (ht : t.is .not)
      (ho : o.is .openParen) (he : ExprOf .or Γ ts e Γ') (hu : u.is .closeParen) :
      ExprOf .not Γ (t :: o :: (ts ++ [u])) (.unary .not e t.span) Γ'
  | positive {Γ Γ' : Names} {ts : List Token} {e : Expr} (he : ExprOf .equality Γ ts e Γ') :
      ExprOf .not Γ ts e Γ'
  | equality {Γ Γ₁ Γ' : Names} {ts us : List Token} {first e : Expr}
      (hfirst : ExprOf .relational Γ ts first Γ₁)
      (hrest : Chain .equality (ExprOf .relational) first Γ₁ us e Γ') :
      ExprOf .equality Γ (ts ++ us) e Γ'
  | relational {Γ Γ₁ Γ' : Names} {ts us : List Token} {first e : Expr}
      (hfirst : ExprOf .additive Γ ts first Γ₁)
      (hrest : Chain .relational (ExprOf .additive) first Γ₁ us e Γ') :
      ExprOf .relational Γ (ts ++ us) e Γ'
  | additive {Γ Γ₁ Γ' : Names} {ts us : List Token} {first e : Expr}
      (hfirst : ExprOf .multiplicative Γ ts first Γ₁)
      (hrest : Chain .additive (ExprOf .multiplicative) first Γ₁ us e Γ') :
      ExprOf .additive Γ (ts ++ us) e Γ'
  | multiplicative {Γ Γ₁ Γ' : Names} {ts us : List Token} {first e : Expr}
      (hfirst : ExprOf .power Γ ts first Γ₁)
      (hrest : Chain .multiplicative (ExprOf .power) first Γ₁ us e Γ') :
      ExprOf .multiplicative Γ (ts ++ us) e Γ'
  | base {Γ Γ' : Names} {ts : List Token} {e : Expr} (he : ExprOf .unary Γ ts e Γ') :
      ExprOf .power Γ ts e Γ'
  | power {Γ Γ₁ Γ' : Names} {t : Token} {ts us : List Token} {base exponent : Expr}
      (hbase : ExprOf .unary Γ ts base Γ₁) (ht : t.is .power)
      (hexponent : ExprOf .power Γ₁ us exponent Γ') :
      ExprOf .power Γ (ts ++ t :: us) (.binary .pow base exponent t.span) Γ'
  | minus {Γ Γ' : Names} {t : Token} {ts : List Token} {e : Expr} (ht : t.is .minus)
      (he : ExprOf .unary Γ ts e Γ') : ExprOf .unary Γ (t :: ts) (.unary .neg e t.span) Γ'
  | primary {Γ Γ' : Names} {ts : List Token} {e : Expr} (he : PrimaryOf Γ ts e Γ') :
      ExprOf .unary Γ ts e Γ'

inductive PrimaryOf : Category Expr
  | function {Γ Γ' : Names} {t o u : Token} {ts : List Token} {w : Reserved} {f : Builtin}
      {e : Expr} (ht : t.is w) (hf : w.text = f.text) (harity : f.arity = 1)
      (ho : o.is .openParen) (he : ExprOf .or Γ ts e Γ') (hu : u.is .closeParen) :
      PrimaryOf Γ (t :: o :: (ts ++ [u])) (.builtin f [e] t.span) Γ'
  | nth {Γ Γ₁ Γ' : Names} {t o c u : Token} {ts us : List Token} {i l : Expr} (ht : t.is .nth)
      (ho : o.is .openParen) (hi : ExprOf .or Γ ts i Γ₁) (hc : c.is .comma)
      (hl : ExprOf .or Γ₁ us l Γ') (hu : u.is .closeParen) :
      PrimaryOf Γ (t :: o :: (ts ++ c :: (us ++ [u]))) (.builtin .nth [i, l] t.span) Γ'
  | parens {Γ Γ' : Names} {t u : Token} {ts : List Token} {e : Expr} (ht : t.is .openParen)
      (he : ExprOf .or Γ ts e Γ') (hu : u.is .closeParen) : PrimaryOf Γ (t :: (ts ++ [u])) e Γ'
  | list {Γ Γ' : Names} {t u : Token} {ts : List Token} {items : List Expr}
      (ht : t.is .openBracket) (hitems : Bracketed (ExprOf .or) Γ ts items Γ')
      (hu : u.is .closeBracket) : PrimaryOf Γ (t :: (ts ++ [u])) (.list items t.span) Γ'
  | vector {Γ Γ' : Names} {ts : List Token} {e : Expr} (he : VectorOf (ExprOf .or) Γ ts e Γ') :
      PrimaryOf Γ ts e Γ'
  | trueWord {Γ : Names} {t : Token} (ht : t.is .trueWord) :
      PrimaryOf Γ [t] (.bool true t.span) Γ
  | falseWord {Γ : Names} {t : Token} (ht : t.is .falseWord) :
      PrimaryOf Γ [t] (.bool false t.span) Γ
  | number {Γ : Names} {t : Token} {digits : String} (ht : t.kind = .number digits) :
      PrimaryOf Γ [t] (.number digits t.span) Γ
  | string {Γ : Names} {t : Token} {content : String} (ht : t.kind = .string content) :
      PrimaryOf Γ [t] (.string content t.span) Γ
  | atom {Γ : Names} {t : Token} {name : String} (ht : t.kind = .atom name) :
      PrimaryOf Γ [t] (.atom name t.span) Γ
  | variable {Γ : Names} {t : Token} {name : String} {v : Var} (ht : t.kind = .var name)
      (hv : Γ.find? name = some v) : PrimaryOf Γ [t] (.var { v with span := t.span }) Γ
  | declaration {Γ Γ₁ Γ' : Names} {t c : Token} {ts : List Token} {name : String}
      {a : Annotation} {v : Var} (ht : t.kind = .var name) (hc : c.is .colon)
      (ha : TypeOf Γ ts a Γ₁) (hv : Γ₁.Declares ⟨name, a.ty, a.span, .body, false, t.span⟩ v Γ') :
      PrimaryOf Γ (t :: c :: ts) (.var v) Γ'

end

/-! ### Statements -/

/-- A module is named by an atom or by a reserved word. -/
inductive NamesModule (t : Token) : String → Prop
  | atom {name : String} (ht : t.kind = .atom name) : NamesModule t name
  | word {w : Reserved} (ht : t.is w) (hw : w ∈ Reserved.words) : NamesModule t w.text

/-- `expr "->" expr` -/
inductive ArmOf : Category (Expr × Expr)
  | mk {Γ Γ₁ Γ' : Names} {a : Token} {ts us : List Token} {condition value : Expr}
      (hcondition : ExprOf .or Γ ts condition Γ₁) (ha : a.is .arrow)
      (hvalue : ExprOf .or Γ₁ us value Γ') : ArmOf Γ (ts ++ a :: us) (condition, value) Γ'

inductive RhsOf : Category Rhs
  | range {Γ Γ₁ Γ₂ Γ' : Names} {t o c d u : Token} {ts us vs : List Token} {first last step : Expr}
      (ht : t.is .forWord) (ho : o.is .openParen) (hfirst : ExprOf .or Γ ts first Γ₁)
      (hc : c.is .comma) (hlast : ExprOf .or Γ₁ us last Γ₂) (hd : d.is .comma)
      (hstep : ExprOf .or Γ₂ vs step Γ') (hu : u.is .closeParen) :
      RhsOf Γ (t :: o :: (ts ++ c :: (us ++ d :: (vs ++ [u])))) (.range first last step t.span) Γ'
  | select {Γ Γ' : Names} {t o u : Token} {ts : List Token} {list : Expr} (ht : t.is .select)
      (ho : o.is .openParen) (hlist : ExprOf .or Γ ts list Γ') (hu : u.is .closeParen) :
      RhsOf Γ (t :: o :: (ts ++ [u])) (.select list t.span) Γ'
  | cases {Γ Γ' : Names} {t o u : Token} {ts : List Token} {arms : List (Expr × Expr)}
      (ht : t.is .caseWord) (ho : o.is .openParen) (harms : Listed ArmOf Γ ts arms Γ')
      (hu : u.is .closeParen) : RhsOf Γ (t :: o :: (ts ++ [u])) (.cases arms t.span) Γ'
  | expr {Γ Γ' : Names} {ts : List Token} {e : Expr} (he : ExprOf .or Γ ts e Γ') :
      RhsOf Γ ts (.expr e) Γ'

/-- An argument of a call: a vector, or, if the grammar is not strict, one in parentheses. -/
inductive ArgumentOf (strict : Bool) : Category Expr
  | vector {Γ Γ' : Names} {ts : List Token} {e : Expr} (he : VectorOf (ExprOf .or) Γ ts e Γ') :
      ArgumentOf strict Γ ts e Γ'
  | parens {Γ Γ' : Names} {t u : Token} {ts : List Token} {e : Expr} (hstrict : strict = false)
      (ht : t.is .openParen) (he : ExprOf .or Γ ts e Γ') (hu : u.is .closeParen)
      (hvector : e.isVector = true) : ArgumentOf strict Γ (t :: (ts ++ [u])) e Γ'

/-- A statement up to its semicolon.  A variable that is not known is declared by an
    assignment, with the type of the right-hand side. -/
inductive ActionOf (strict : Bool) (callables : List String) : Category Action
  | test {Γ Γ' : Names} {t o u : Token} {ts : List Token} {e : Expr} (ht : t.is .test)
      (ho : o.is .openParen) (he : ExprOf .or Γ ts e Γ') (hu : u.is .closeParen) :
      ActionOf strict callables Γ (t :: o :: (ts ++ [u])) (.test e) Γ'
  | guard {Γ Γ' : Names} {t o u : Token} {ts : List Token} {e : Expr} (ht : t.is .whenWord)
      (ho : o.is .openParen) (he : ExprOf .or Γ ts e Γ') (hu : u.is .closeParen) :
      ActionOf strict callables Γ (t :: o :: (ts ++ [u])) (.guard e) Γ'
  | call {Γ Γ₁ Γ' : Names} {t o m c d u : Token} {ts us : List Token} {callee : String}
      {inputs outputs : Expr} (ht : t.is .call) (ho : o.is .openParen) (hm : NamesModule m callee)
      (hcallee : callee ∈ callables) (hc : c.is .comma) (hinputs : ArgumentOf strict Γ ts inputs Γ₁)
      (hd : d.is .comma) (houtputs : ArgumentOf strict Γ₁ us outputs Γ') (hu : u.is .closeParen) :
      ActionOf strict callables Γ (t :: o :: m :: c :: (ts ++ d :: (us ++ [u])))
        (.call callee inputs outputs) Γ'
  | declaring {Γ Γ₁ Γ' : Names} {t q : Token} {ts : List Token} {name : String} {value : Rhs}
      {v : Var} (ht : t.kind = .var name) (hnew : Γ.find? name = none) (hq : q.is .equals)
      (hvalue : RhsOf Γ ts value Γ₁)
      (hv : Γ₁.Declares ⟨name, value.ty, t.span, .body, false, t.span⟩ v Γ') :
      ActionOf strict callables Γ (t :: q :: ts) (.assign (.var v) value) Γ'
  | assign {Γ Γ₁ Γ' : Names} {q : Token} {ts us : List Token} {target : Expr} {value : Rhs}
      (htarget : PrimaryOf Γ ts target Γ₁) (hkind : target.isTarget = true) (hq : q.is .equals)
      (hvalue : RhsOf Γ₁ us value Γ') :
      ActionOf strict callables Γ (ts ++ q :: us) (.assign target value) Γ'

/-- A statement with its semicolon, placed where its first token stands. -/
inductive StmtOf (strict : Bool) (callables : List String) : Category Stmt
  | mk {Γ Γ' : Names} {t u : Token} {ts : List Token} {action : Action}
      (haction : ActionOf strict callables Γ ts action Γ') (hu : u.is .semicolon)
      (ht : (ts ++ [u]).head? = some t) :
      StmtOf strict callables Γ (ts ++ [u]) ⟨action, t.span⟩ Γ'

/-! ### Methods and modules -/

/-- The statements of a method, as a guard and a body without guards. -/
inductive Guarded : List Stmt → Option Expr → List Stmt → Prop
  | plain {body : List Stmt} (hbody : ∀ s ∈ body, s.guard? = none) : Guarded body none body
  | guard {condition : Expr} {span : Span} {body : List Stmt}
      (hbody : ∀ s ∈ body, s.guard? = none) :
      Guarded (⟨.guard condition, span⟩ :: body) (some condition) body

/-- `"method" {stmt} "end" "method" ";"`, where what is declared is forgotten at the end. -/
inductive MethodOf (strict : Bool) (callables : List String) : Category Method
  | mk {Γ Γ' : Names} {t e m u : Token} {ts : List Token} {stmts body : List Stmt}
      {guard : Option Expr} (ht : t.is .method)
      (hstmts : Repeated (StmtOf strict callables) { Γ with locals := [] } ts stmts Γ')
      (he : e.is .endWord) (hm : m.is .method) (hu : u.is .semicolon)
      (hguard : Guarded stmts guard body) :
      MethodOf strict callables Γ (t :: (ts ++ [e, m, u])) ⟨guard, body, Γ'.locals, t.span⟩
        { Γ' with locals := [] }

/-- The variables of a parameter group, each with a type. -/
inductive GroupIs (input : Bool) :
    Names → List Pending → List (Ty × Span) → List Var → Names → Prop
  | nil {Γ : Names} {tys : List (Ty × Span)} : GroupIs input Γ [] tys [] Γ
  | declared {Γ Γ₁ Γ' : Names} {name : String} {span tySpan : Span} {own : Option (Ty × Span)}
      {ty : Ty} {v : Var} {rest : List Pending} {tys : List (Ty × Span)} {more : List Var}
      (hty : (own <|> tys.head?) = some (ty, tySpan))
      (hv : Γ.Declares ⟨name, ty, tySpan, .parameter, input, span⟩ v Γ₁)
      (hrest : GroupIs input Γ₁ rest tys.tail more Γ') :
      GroupIs input Γ (.name name span own :: rest) tys (v :: more) Γ'

/-- `module-name | group`, where all members of the group are variables. -/
inductive ParamOf (input : Bool) : Category Param
  | callee {Γ : Names} {t : Token} {name : String} (ht : NamesModule t name) :
      ParamOf input Γ [t] (.callee name t.span) Γ
  | group {Γ Γ₁ Γ' : Names} {ts : List Token} {group : Group} {members : List Var}
      (hgroup : GroupOf (fun _ _ _ _ => False) Γ ts group Γ₁)
      (hmembers : GroupIs input Γ₁ group.members group.tys members Γ') :
      ParamOf input Γ ts (.group members group.span) Γ'

/-- `param {"," param}`; the first group holds the inputs. -/
inductive ParamsOf : Bool → Category (List Param)
  | last {input : Bool} {Γ Γ' : Names} {ts : List Token} {p : Param}
      (hp : ParamOf input Γ ts p Γ') : ParamsOf input Γ ts [p] Γ'
  | more {input : Bool} {Γ Γ₁ Γ' : Names} {ts us : List Token} {c : Token} {p : Param}
      {ps : List Param} (hp : ParamOf input Γ ts p Γ₁) (hc : c.is .comma)
      (hps : ParamsOf (input && p.group?.isNone) Γ₁ us ps Γ') :
      ParamsOf input Γ (ts ++ c :: us) (p :: ps) Γ'

/-- `[param {"," param}]` -/
inductive ParamListOf : Category (List Param)
  | none {Γ : Names} : ParamListOf Γ [] [] Γ
  | some {Γ Γ' : Names} {ts : List Token} {ps : List Param} (hps : ParamsOf true Γ ts ps Γ') :
      ParamListOf Γ ts ps Γ'

/-- `function-name "(" [param {"," param}] ")" method {method} "end" "module" ";"`. -/
inductive ModuleOf (strict : Bool) : Category Module
  | mk {Γ Γ₁ Γ' : Names} {t o c e m u : Token} {ts us : List Token} {name : String}
      {params : List Param} {methods : List Method} (ht : t.kind = .function name)
      (ho : o.is .openParen) (hparams : ParamListOf {} ts params Γ₁) (hc : c.is .closeParen)
      (hmethods : Repeated (MethodOf strict (name :: params.filterMap Param.callee?))
        Γ₁ us methods Γ')
      (hsome : methods ≠ []) (he : e.is .endWord) (hm : m.is .moduleWord) (hu : u.is .semicolon) :
      ModuleOf strict Γ (t :: o :: (ts ++ c :: (us ++ [e, m, u]))) ⟨name, params, methods, t.span⟩
        Γ'

/-- The tokens are those of a source, and the modules its tree. -/
def SourceOf (strict : Bool) (tokens : List Token) (modules : List Module) : Prop :=
  ∃ Γ, Repeated (ModuleOf strict) {} tokens modules Γ

end CandidateSearch.Grammar
