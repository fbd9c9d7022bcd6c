/-
  CandidateSearch/Proofs/Grammar/Scopes.lean
  ==========================================
  **What reading does to the variables that can be seen.**

  All that reading does to its state is to move on, to complain, and to declare a variable
  of a name that cannot be seen yet.  So a relation between states that these three keep to
  holds between the states before and after any reader (`keeps_exprAt`, `moves_stmt`).

  Two things follow for the variables.  The locals of a method have names of their own,
  which differ from those of the parameters (`localsApart_of_parse`).  A member of a
  parameter group has the name of a parameter that has been declared, but it need not be
  that one:

      f({A: integer}, {A: integer, B: integer})      one declaration of A, two members

  The second `A` agrees with the first, so there is no complaint and no new variable, but
  it is a member of its group all the same.
-/
import CandidateSearch.Proofs.Grammar.Reading

namespace CandidateSearch

open Source Syntax

/-- The variables of each method have names of their own, different from each other and
    from those of all the members of the parameter groups. -/
def Syntax.Module.LocalsApart (m : Module) : Prop :=
  ∀ method ∈ m.methods, (method.locals.map Var.name).Nodup ∧
    ∀ v ∈ method.locals, ∀ w ∈ m.groups.flatten, v.name ≠ w.name

namespace Grammar

/-! ### Relations that reading keeps to -/

/-- The state with one variable more. -/
def State.add (s : State) (v : Var) : Scope → State
  | .parameter => { s with fields := s.fields ++ [v] }
  | .body => { s with locals := s.locals ++ [v] }

/-- A relation that allows what reading does, with variables of one scope declared. -/
class Permits (scope : outParam Scope) (R : State → State → Prop) : Prop where
  refl : ∀ s, R s s
  trans : ∀ {s s' s''}, R s s' → R s' s'' → R s s''
  advance : ∀ s, s.head.isEof = false → R s s.moved
  complain : ∀ s c, R s { s with complaints := c :: s.complaints }
  declare : ∀ s v, s.find? v.name = none → R s (s.add v scope)

/-- The three ways in which a declaration can go. -/
theorem run_declare (name : String) (span : Span) (ty : Ty) (tySpan : Span) (scope : Scope)
    (input : Bool) (s : State) : (declare name span ty tySpan scope input).run s =
      match s.find? name with
      | some found =>
          if found.ty.compatible ty then ({ found with span := span }, s)
          else ({ found with name := conflictName, ty := .unknown, tySpan := span, span := span },
            { s with complaints := ⟨.redefinedVariable name found.ty, tySpan⟩ :: s.complaints })
      | none =>
          let v : Var := { name, ty, tySpan, scope, input, span }
          (v, s.add v scope) := by
  show (match s.find? name with
    | some found => do
        if found.ty.compatible ty then return { found with span := span }
        complain (.redefinedVariable name found.ty) tySpan
        return { found with name := conflictName, ty := .unknown, tySpan := span, span := span }
    | none => do
        let v : Var := { name, ty, tySpan, scope, input, span }
        match scope with
        | .parameter => modify fun s => { s with fields := s.fields ++ [v] }
        | .body => modify fun s => { s with locals := s.locals ++ [v] }
        return v : Parse Var).run s = _
  cases s.find? name with
  | some found =>
    dsimp only
    split <;> rfl
  | none => cases scope <;> rfl

/-- The states before and after the reader are related. -/
def Keeps {α : Type} (R : State → State → Prop) (x : Parse α) : Prop := ∀ s, R s (x.run s).2

section Cursor

variable {α β : Type} {scope : Scope} {R : State → State → Prop} [hR : Permits scope R]
  {x item : Parse α} {f : α → Parse β}

include hR

/-- A reader that only looks at the state. -/
theorem keeps_look (h : ∀ s, (x.run s).2 = s) : Keeps R x := by
  intro s
  rw [h s]
  exact hR.refl s

theorem keeps_pure (a : α) : Keeps R (pure a) := keeps_look fun _ => rfl

theorem Keeps.bind (hx : Keeps R x) (hf : ∀ a, Keeps R (f a)) : Keeps R (x >>= f) :=
  fun s => hR.trans (hx s) (hf _ _)

omit hR in
theorem keeps_ite {c : Prop} [Decidable c] {y : Parse α} (hx : Keeps R x) (hy : Keeps R y) :
    Keeps R (if c then x else y) :=
  iteInduction (fun _ => hx) fun _ => hy

theorem keeps_complain (problem : Problem) (span : Span) : Keeps R (complain problem span) :=
  fun s => hR.complain s _

/-- A check that complains or does nothing. -/
theorem keeps_check {c : Prop} [Decidable c] (problem : Problem) (span : Span) :
    Keeps R (unless c do complain problem span) :=
  keeps_ite (keeps_pure _) (keeps_complain problem span)

theorem keeps_get : Keeps R (get : Parse State) := keeps_look fun _ => rfl

theorem keeps_peek : Keeps R peek := keeps_look fun _ => rfl

theorem keeps_peekNext : Keeps R peekNext := keeps_look fun _ => rfl

theorem keeps_at? (w : Reserved) : Keeps R (at? w) := keeps_look fun _ => rfl

theorem keeps_remaining : Keeps R remaining := keeps_look fun _ => rfl

theorem keeps_advance : Keeps R advance := by
  intro s
  cases heof : s.head.isEof with
  | true =>
    rw [run_advance_of_eof heof]
    exact hR.refl s
  | false =>
    rw [run_advance heof]
    exact hR.advance s heof

theorem keeps_expect (w : Reserved) : Keeps R (expect w) := by
  refine keeps_peek.bind fun token => keeps_ite (keeps_pure _) ?_
  exact (keeps_complain _ _).bind fun _ => keeps_pure _

/-- The reader keeps to the relation, and first of all takes the token at the cursor, unless
    that is an end token. -/
structure Moves (R : State → State → Prop) (x : Parse α) : Prop where
  keeps : Keeps R x
  moves : ∀ s, s.head.isEof = false → ∃ taken, taken.rest = s.moved.rest ∧ R taken (x.run s).2

theorem moves_advance : Moves R advance := by
  refine ⟨keeps_advance, fun s heof => ⟨s.moved, rfl, ?_⟩⟩
  rw [run_advance heof]
  exact hR.refl _

theorem Moves.bind (hx : Moves R x) (hf : ∀ a, Keeps R (f a)) : Moves R (x >>= f) := by
  refine ⟨hx.keeps.bind hf, fun s heof => ?_⟩
  obtain ⟨taken, hrest, htaken⟩ := hx.moves s heof
  exact ⟨taken, hrest, hR.trans htaken (hf _ _)⟩

omit hR in
theorem moves_ite {c : Prop} [Decidable c] {y : Parse α} (hx : Moves R x) (hy : Moves R y) :
    Moves R (if c then x else y) :=
  iteInduction (fun _ => hx) fun _ => hy

/-- After a reader that only looks, the cursor is where it was. -/
theorem moves_look {y : Parse β} {g : β → Parse α} (hy : ∀ s, (y.run s).2 = s)
    (hg : ∀ b, Moves R (g b)) : Moves R (y >>= g) := by
  refine ⟨(keeps_look hy).bind fun b => (hg b).keeps, fun s heof => ?_⟩
  have hrun : (y >>= g).run s = (g (y.run s).1).run (y.run s).2 := rfl
  rw [hrun, hy s]
  exact (hg _).moves s heof

theorem moves_peek {g : Token → Parse α} (hg : ∀ t, Moves R (g t)) : Moves R (peek >>= g) :=
  moves_look (fun _ => rfl) hg

theorem moves_peekNext {g : Token → Parse α} (hg : ∀ t, Moves R (g t)) :
    Moves R (peekNext >>= g) := moves_look (fun _ => rfl) hg

theorem moves_get {g : State → Parse α} (hg : ∀ s, Moves R (g s)) : Moves R (get >>= g) :=
  moves_look (fun _ => rfl) hg

theorem moves_complain {g : Unit → Parse α} (hg : Moves R (g ())) (problem : Problem)
    (span : Span) : Moves R (complain problem span >>= g) :=
  ⟨(keeps_complain problem span).bind fun _ => hg.keeps,
    fun s => hg.moves { s with complaints := ⟨problem, span⟩ :: s.complaints }⟩

/-- A reader that complains about the token at the cursor and skips it. -/
theorem moves_skip (problem : Token → Problem) (make : Token → α) :
    Moves R (do
      let token ← peek
      complain (problem token) token.span
      let _ ← advance
      return make token) :=
  moves_peek fun _ => moves_complain (moves_advance.bind fun _ => keeps_pure _) _ _

theorem moves_consume (w : Reserved) : Moves R (consume w) := by
  refine ⟨(keeps_expect w).bind fun _ => keeps_advance, fun s heof => ?_⟩
  have hrun : (consume w).run s = advance.run ((expect w).run s).2 := rfl
  rw [hrun, run_expect]
  split
  · exact moves_advance.moves s heof
  · exact moves_advance.moves { s with complaints := _ :: s.complaints } heof

theorem keeps_consume (w : Reserved) : Keeps R (consume w) := (moves_consume w).keeps

theorem keeps_terminator : Keeps R terminator := by
  have hcomplain : ∀ problem span, Keeps R (complain problem span >>= fun _ => pure false) :=
    fun _ _ => (keeps_complain _ _).bind fun _ => keeps_pure _
  refine keeps_peek.bind fun token => keeps_ite ?_ (keeps_ite ?_ ?_)
  · exact keeps_advance.bind fun _ => keeps_pure _
  · exact keeps_get.bind fun s => keeps_ite (hcomplain _ _) (hcomplain _ _)
  · refine (keeps_complain _ _).bind fun _ => ?_
    exact keeps_advance.bind fun _ => keeps_pure _

/-- A variable is declared only if there is none of its name. -/
theorem keeps_declare (name : String) (span : Span) (ty : Ty) (tySpan : Span) (input : Bool) :
    Keeps R (declare name span ty tySpan scope input) := by
  intro s
  rw [run_declare]
  cases hfound : s.find? name with
  | some found =>
    by_cases hagrees : found.ty.compatible ty = true
    · simp only [hagrees, if_true]
      exact hR.refl s
    · simp only [hagrees]
      exact hR.complain s _
  | none => exact hR.declare s _ hfound

theorem keeps_lookup (name : String) (span : Span) : Keeps R (lookup name span) := by
  refine keeps_get.bind fun s => ?_
  split
  · exact keeps_pure _
  · exact (keeps_complain _ _).bind fun _ => keeps_pure _

/-! ### Repetition and types -/

theorem keeps_itemsFrom (hitem : Keeps R item) (close : Reserved) (fuel : Nat) :
    Keeps R (itemsFrom close item fuel) := by
  induction fuel with
  | zero => exact keeps_pure _
  | succ fuel ih =>
    refine hitem.bind fun first => (keeps_at? .comma).bind fun comma => ?_
    refine keeps_ite ?_ (keeps_pure _)
    refine keeps_peekNext.bind fun next => keeps_advance.bind fun _ => ?_
    exact keeps_ite (keeps_pure _) (ih.bind fun _ => keeps_pure _)

theorem keeps_items (hitem : Keeps R item) (close : Reserved) (fuel : Nat) :
    Keeps R (items close item fuel) :=
  (keeps_at? close).bind fun _ => keeps_ite (keeps_pure _) (keeps_itemsFrom hitem close fuel)

theorem keeps_commaSeparated (hitem : Keeps R item) (fuel : Nat) :
    Keeps R (commaSeparated item fuel) := by
  induction fuel with
  | zero => exact keeps_pure _
  | succ fuel ih =>
    refine hitem.bind fun first => (keeps_at? .comma).bind fun comma => ?_
    refine keeps_ite ?_ (keeps_pure _)
    exact keeps_advance.bind fun _ => ih.bind fun _ => keeps_pure _

theorem keeps_untilEndWord (hitem : Keeps R item) (fuel : Nat) :
    Keeps R (untilEndWord item fuel) := by
  induction fuel with
  | zero => exact keeps_pure _
  | succ fuel ih =>
    refine keeps_peek.bind fun token => keeps_ite (keeps_pure _) ?_
    exact hitem.bind fun _ => ih.bind fun _ => keeps_pure _

theorem keeps_noAnnotation : Keeps R noAnnotation := (moves_skip _ _).keeps

theorem keeps_annotationMembers {annotated : Parse Annotation} (h : Keeps R annotated)
    (close : Reserved) (fuel : Nat) : Keeps R (annotationMembers close annotated fuel) := by
  have hclosing : ∀ members : List Annotation,
      Keeps R (consume close >>= fun _ => pure members) :=
    fun _ => (keeps_consume close).bind fun _ => keeps_pure _
  have hnone : Keeps R (pure [] : Parse (List Annotation)) := keeps_pure _
  refine keeps_peek.bind fun token => ?_
  dsimp only
  split
  · exact keeps_ite ((keeps_commaSeparated h fuel).bind hclosing) (hnone.bind hclosing)
  · exact hnone.bind hclosing

theorem keeps_annotationAt (depth : Nat) : Keeps R (annotationAt depth) := by
  induction depth with
  | zero => exact keeps_noAnnotation
  | succ depth ih =>
    refine keeps_peek.bind fun token => ?_
    split
    · exact keeps_advance.bind fun _ => (keeps_annotationMembers ih _ _).bind fun _ => keeps_pure _
    · exact keeps_advance.bind fun _ => (keeps_annotationMembers ih _ _).bind fun _ => keeps_pure _
    · split
      · exact keeps_advance.bind fun _ => keeps_pure _
      · exact keeps_noAnnotation
    · exact keeps_noAnnotation

theorem keeps_annotation : Keeps R annotation :=
  keeps_remaining.bind fun _ => keeps_annotationAt _

/-! ### Members of vectors -/

theorem keeps_member {inner : Parse Expr} (hinner : Keeps R inner) : Keeps R (member inner) := by
  have hvalue : Keeps R (inner >>= fun e => pure (Pending.value e)) :=
    hinner.bind fun _ => keeps_pure _
  refine keeps_peek.bind fun token => keeps_peekNext.bind fun next => ?_
  split
  · refine keeps_ite ?_ (keeps_ite ?_ hvalue)
    · exact keeps_advance.bind fun _ => keeps_advance.bind fun _ =>
        keeps_annotation.bind fun _ => keeps_pure _
    · exact keeps_advance.bind fun _ => keeps_pure _
  · exact hvalue

theorem keeps_groupTys (members : List Pending) : Keeps R (groupTys members) := by
  have hnone : Keeps R (pure [] : Parse (List (Ty × Span))) := keeps_pure _
  refine (keeps_at? .colon).bind fun colon => keeps_ite ?_ hnone
  refine keeps_advance.bind fun _ => keeps_annotation.bind fun written => ?_
  split
  · exact keeps_ite (keeps_pure _) ((keeps_complain _ _).bind fun _ => hnone)
  · exact hnone
  · exact (keeps_complain _ _).bind fun _ => hnone

theorem moves_pendingMembers {inner : Parse Expr} (hinner : Keeps R inner) (fuel : Nat) :
    Moves R (pendingMembers inner fuel) := by
  refine (moves_consume .openBrace).bind fun _ => ?_
  refine (keeps_items (keeps_member hinner) .closeBrace fuel).bind fun members => ?_
  refine (keeps_consume .closeBrace).bind fun _ => ?_
  exact (keeps_groupTys members).bind fun _ => keeps_pure _

end Cursor

/-! ### Expressions -/

section Bodies

variable {R : State → State → Prop} [hR : Permits .body R] {inner operand : Parse Expr}

theorem keeps_checkNumeric (e : Expr) : Keeps R (checkNumeric e) := keeps_check _ _

theorem keeps_checkList (e : Expr) : Keeps R (checkList e) := keeps_check _ _

theorem keeps_operation (op : BinaryOp) (lhs rhs : Expr) (span : Span) :
    Keeps R (operation op lhs rhs span) := by
  unfold operation
  refine keeps_ite (keeps_pure _) ?_
  exact (keeps_checkNumeric lhs).bind fun _ => (keeps_checkNumeric rhs).bind fun _ => keeps_pure _

theorem keeps_chain (level : Level) (hoperand : Keeps R operand) (fuel : Nat) (lhs : Expr) :
    Keeps R (chain level operand fuel lhs) := by
  induction fuel generalizing lhs with
  | zero => exact keeps_pure _
  | succ fuel ih =>
    refine keeps_peek.bind fun token => ?_
    split
    · split
      · refine keeps_advance.bind fun _ => hoperand.bind fun rhs => ?_
        exact (keeps_operation _ _ _ _).bind fun e => ih e
      · exact keeps_pure _
    · exact keeps_pure _

theorem moves_builtinCall (f : Builtin) (hinner : Keeps R inner) :
    Moves R (builtinCall f inner) := by
  have hclosing : ∀ (token : Token) (args : List Expr),
      Keeps R (consume .closeParen >>= fun _ => pure (Expr.builtin f args token.span)) :=
    fun _ _ => (keeps_consume .closeParen).bind fun _ => keeps_pure _
  refine moves_advance.bind fun token => (keeps_consume .openParen).bind fun _ => ?_
  refine hinner.bind fun first => ?_
  cases f with
  | sqrt | exp => exact (keeps_checkNumeric first).bind fun _ => hclosing token _
  | length | sum => exact (keeps_checkList first).bind fun _ => hclosing token _
  | nth =>
    refine (keeps_checkNumeric first).bind fun _ => (keeps_consume .comma).bind fun _ => ?_
    exact hinner.bind fun list => (keeps_checkList list).bind fun _ => hclosing token _

theorem moves_list (hinner : Keeps R inner) (fuel : Nat) : Moves R (list inner fuel) := by
  refine (moves_consume .openBracket).bind fun token => ?_
  refine (keeps_items hinner .closeBracket fuel).bind fun elements => ?_
  exact (keeps_consume .closeBracket).bind fun _ => keeps_pure _

theorem keeps_resolveMembers (members : List Pending) (tys : List (Ty × Span)) :
    Keeps R (resolveMembers members tys) := by
  induction members generalizing tys with
  | nil => exact keeps_pure _
  | cons pending rest ih =>
    have hrest : ∀ resolved : Expr × Bool,
        Keeps R (resolveMembers rest tys.tail >>= fun others => pure (resolved :: others)) :=
      fun _ => (ih tys.tail).bind fun _ => keeps_pure _
    unfold resolveMembers
    dsimp only
    split
    · exact hrest _
    · split
      · exact (keeps_declare _ _ _ _ _).bind fun v => hrest _
      · refine (keeps_lookup _ _).bind fun found => ?_
        cases found with
        | some v => exact hrest _
        | none => exact hrest _

theorem moves_vector (hinner : Keeps R inner) (fuel : Nat) : Moves R (vector inner fuel) := by
  refine moves_peek fun token => (moves_pendingMembers hinner fuel).bind fun read => ?_
  exact (keeps_resolveMembers read.1 read.2).bind fun _ => keeps_pure _

theorem moves_variableExpr (name : String) (span : Span) : Moves R (variableExpr name span) := by
  refine moves_advance.bind fun _ => (keeps_at? .colon).bind fun colon => keeps_ite ?_ ?_
  · exact keeps_advance.bind fun _ => keeps_annotation.bind fun ty =>
      (keeps_declare _ _ _ _ _).bind fun _ => keeps_pure _
  · refine (keeps_lookup name span).bind fun found => ?_
    cases found with
    | some v => exact keeps_pure _
    | none => exact keeps_pure _

theorem moves_noExpression : Moves R noExpression := moves_skip _ _

theorem moves_single (e : Expr) : Moves R (single e) := moves_advance.bind fun _ => keeps_pure _

/-- Each kind of primary expression takes the token that it is known by. -/
theorem moves_primaryWith (hinner : Keeps R inner) (fuel : Nat) :
    Moves R (primaryWith inner fuel) := by
  refine moves_peek fun token => ?_
  split
  · split
    · exact moves_builtinCall _ hinner
    · split
      · refine moves_advance.bind fun _ => hinner.bind fun e => ?_
        exact (keeps_consume .closeParen).bind fun _ => keeps_pure _
      · exact moves_list hinner fuel
      · exact moves_vector hinner fuel
      · exact moves_single _
      · exact moves_single _
      · exact moves_noExpression
  · exact moves_single _
  · exact moves_single _
  · exact moves_single _
  · exact moves_variableExpr _ _
  · exact moves_noExpression
  · exact moves_noExpression

/-- **An expression**, at every level. -/
theorem keeps_exprAt (fuel : Nat) (level : Level) : Keeps R (exprAt fuel level) := by
  induction fuel generalizing level with
  | zero => exact moves_noExpression.keeps
  | succ fuel ih =>
    have hchain : ∀ level : Level, Keeps R (exprAt fuel level.tighter >>=
        chain level (exprAt fuel level.tighter) fuel) :=
      fun level => (ih level.tighter).bind fun first => keeps_chain level (ih _) fuel first
    cases level with
    | not =>
      refine keeps_peek.bind fun token => keeps_ite ?_ (ih .equality)
      refine keeps_advance.bind fun _ => (keeps_consume .openParen).bind fun _ => ?_
      refine (ih .or).bind fun operand => (keeps_consume .closeParen).bind fun _ => ?_
      exact keeps_pure _
    | power =>
      refine (ih .unary).bind fun base => keeps_peek.bind fun token => ?_
      refine keeps_ite ?_ (keeps_pure _)
      exact keeps_advance.bind fun _ => (ih .power).bind fun _ => keeps_operation _ _ _ _
    | unary =>
      refine keeps_peek.bind fun token => keeps_ite ?_ (moves_primaryWith (ih .or) fuel).keeps
      refine keeps_advance.bind fun _ => (ih .unary).bind fun operand => ?_
      exact (keeps_checkNumeric operand).bind fun _ => keeps_pure _
    | or => exact hchain .or
    | and => exact hchain .and
    | equality => exact hchain .equality
    | relational => exact hchain .relational
    | additive => exact hchain .additive
    | multiplicative => exact hchain .multiplicative

theorem keeps_enough : Keeps R enough := keeps_look fun _ => rfl

theorem keeps_expression : Keeps R expression :=
  keeps_enough.bind fun fuel => keeps_exprAt fuel .or

theorem moves_enough {α : Type} {g : Nat → Parse α} (hg : ∀ fuel, Moves R (g fuel)) :
    Moves R (enough >>= g) := moves_look (fun _ => rfl) hg

theorem moves_primary : Moves R primary :=
  moves_enough fun fuel => moves_primaryWith (keeps_exprAt fuel .or) fuel

/-! ### Statements -/

theorem keeps_bound : Keeps R bound :=
  keeps_expression.bind fun e => (keeps_checkNumeric e).bind fun _ => keeps_pure _

theorem keeps_arm : Keeps R arm :=
  keeps_expression.bind fun _ => (keeps_consume .arrow).bind fun _ =>
    keeps_expression.bind fun _ => keeps_pure _

theorem keeps_rhs : Keeps R rhs := by
  refine keeps_peek.bind fun token => ?_
  split
  · refine keeps_advance.bind fun _ => (keeps_consume .openParen).bind fun _ => ?_
    refine keeps_bound.bind fun first => (keeps_consume .comma).bind fun _ => ?_
    refine keeps_bound.bind fun last => (keeps_consume .comma).bind fun _ => ?_
    exact keeps_bound.bind fun step => (keeps_consume .closeParen).bind fun _ => keeps_pure _
  · refine keeps_advance.bind fun _ => (keeps_consume .openParen).bind fun _ => ?_
    refine keeps_expression.bind fun list => (keeps_checkList list).bind fun _ => ?_
    exact (keeps_consume .closeParen).bind fun _ => keeps_pure _
  · refine keeps_advance.bind fun _ => (keeps_consume .openParen).bind fun _ => ?_
    refine keeps_remaining.bind fun left => ?_
    refine (keeps_commaSeparated keeps_arm (left + 1)).bind fun arms => ?_
    exact (keeps_consume .closeParen).bind fun _ => keeps_pure _
  · exact keeps_expression.bind fun _ => keeps_pure _

theorem keeps_checkConstraint (name : String) (value : Rhs) :
    Keeps R (checkConstraint name value) :=
  keeps_ite (keeps_check _ _) (keeps_pure _)

theorem moves_declaringAssign (name : String) (span : Span) :
    Moves R (declaringAssign name span) := by
  refine moves_advance.bind fun _ => (keeps_consume .equals).bind fun _ => ?_
  refine keeps_rhs.bind fun value => (keeps_checkConstraint name value).bind fun _ => ?_
  exact (keeps_declare _ _ _ _ _).bind fun _ => keeps_pure _

/-- The part of an assignment that comes after its target. -/
theorem keeps_assigned (target : Expr) :
    Keeps R (do
      let _ ← consume .equals
      let value ← rhs
      match target with
      | .var v => checkConstraint v.name value
      | _ => pure ()
      return Action.assign target value) := by
  refine (keeps_consume .equals).bind fun _ => keeps_rhs.bind fun value => ?_
  dsimp only
  split
  · exact (keeps_checkConstraint _ value).bind fun _ => keeps_pure _
  · exact keeps_pure _

theorem moves_plainAssign : Moves R plainAssign := by
  refine moves_peek fun token => moves_primary.bind fun target => ?_
  dsimp only
  split
  · rename_i v
    exact keeps_assigned (.var v)
  · rename_i members span
    exact keeps_assigned (.vector members span)
  · rename_i span
    exact keeps_assigned (.missing span)
  · exact (keeps_complain _ _).bind fun _ => keeps_assigned target

theorem moves_assign : Moves R assign := by
  refine moves_peek fun token => moves_peekNext fun next => ?_
  split
  · exact moves_get fun s => moves_ite (moves_declaringAssign _ _) moves_plainAssign
  · exact moves_plainAssign

theorem keeps_vectorArgument : Keeps R vectorArgument := by
  refine moves_primary.keeps.bind fun e => ?_
  split
  · exact keeps_pure _
  · exact keeps_pure _
  · exact (keeps_complain _ _).bind fun _ => keeps_pure _

theorem moves_call (callables : List String) : Moves R (call callables) := by
  have harguments : ∀ callee : String,
      Keeps R (do
        let _ ← advance
        let _ ← consume .comma
        let inputs ← vectorArgument
        let _ ← consume .comma
        let outputs ← vectorArgument
        let _ ← consume .closeParen
        return Action.call callee inputs outputs) := by
    intro callee
    refine keeps_advance.bind fun _ => (keeps_consume .comma).bind fun _ => ?_
    refine keeps_vectorArgument.bind fun inputs => (keeps_consume .comma).bind fun _ => ?_
    refine keeps_vectorArgument.bind fun outputs => (keeps_consume .closeParen).bind fun _ => ?_
    exact keeps_pure _
  refine moves_advance.bind fun _ => (keeps_consume .openParen).bind fun _ => ?_
  refine keeps_peek.bind fun token => ?_
  dsimp only
  split
  · exact harguments _
  · exact (keeps_complain _ _).bind fun _ => harguments _

theorem moves_condition : Moves R condition := by
  refine moves_advance.bind fun _ => (keeps_consume .openParen).bind fun _ => ?_
  exact keeps_expression.bind fun e => (keeps_consume .closeParen).bind fun _ => keeps_pure _

theorem moves_action (callables : List String) : Moves R (action callables) := by
  refine moves_peek fun token => ?_
  split
  · exact moves_condition.bind fun _ => keeps_pure _
  · exact moves_condition.bind fun _ => keeps_pure _
  · exact moves_call callables
  · exact moves_assign

/-- **A statement.** -/
theorem moves_stmt (callables : List String) : Moves R (stmt callables) :=
  moves_peek fun _ => (moves_action callables).bind fun _ =>
    keeps_terminator.bind fun _ => keeps_pure _

theorem keeps_checkBody (body : List Stmt) : Keeps R (checkBody body) := by
  induction body with
  | nil => exact keeps_pure _
  | cons s rest ih => exact keeps_ite ((keeps_complain _ _).bind fun _ => ih) ih

end Bodies

/-! ### Names of variables -/

/-- No two of the variables that can be seen have one name. -/
def State.Apart (s : State) : Prop := ((s.fields ++ s.locals).map (·.name)).Nodup

/-- A new variable has a name of its own. -/
theorem State.Apart.add {s : State} (h : s.Apart) {v : Var} (hnew : s.find? v.name = none)
    (scope : Scope) : (s.add v scope).Apart := by
  have hfresh : v.name ∉ (s.fields ++ s.locals).map (·.name) := by
    intro hmem
    obtain ⟨w, hw, hname⟩ := List.mem_map.mp hmem
    have hother := List.find?_eq_none.mp hnew w hw
    exact hother (beq_iff_eq.mpr hname)
  have hcons : ((v :: (s.fields ++ s.locals)).map (·.name)).Nodup :=
    List.nodup_cons.mpr ⟨hfresh, h⟩
  cases scope with
  | parameter =>
    refine (List.Perm.nodup_iff (List.Perm.map _ ?_)).mpr hcons
    show (s.fields ++ [v] ++ s.locals).Perm _
    rw [List.append_assoc]
    exact List.perm_middle
  | body =>
    refine (List.Perm.nodup_iff (List.Perm.map _ ?_)).mpr hcons
    show (s.fields ++ (s.locals ++ [v])).Perm _
    rw [← List.append_assoc]
    exact List.perm_append_singleton v _

/-- What reading in a method body does to the variables. -/
structure State.Body (s s' : State) : Prop where
  fields : s'.fields = s.fields
  apart : s.Apart → s'.Apart
  quiet : s'.complaints = [] → s.complaints = []

instance permits_body : Permits .body State.Body where
  refl _ := ⟨rfl, id, id⟩
  trans h h' := ⟨h'.fields.trans h.fields, h'.apart ∘ h.apart, h.quiet ∘ h'.quiet⟩
  advance _ _ := ⟨rfl, id, id⟩
  complain _ _ := ⟨rfl, id, fun hnone => absurd hnone (List.cons_ne_nil _ _)⟩
  declare _ _ hnew := ⟨rfl, fun h => h.add hnew .body, id⟩

/-- What reading in the parameters of a module does to the variables. -/
structure State.Head (s s' : State) : Prop where
  locals : s'.locals = s.locals
  fields : s.fields <+: s'.fields
  apart : s.Apart → s'.Apart
  quiet : s'.complaints = [] → s.complaints = []

instance permits_head : Permits .parameter State.Head where
  refl _ := ⟨rfl, List.prefix_rfl, id, id⟩
  trans h h' := ⟨h'.locals.trans h.locals, h.fields.trans h'.fields, h'.apart ∘ h.apart,
    h.quiet ∘ h'.quiet⟩
  advance _ _ := ⟨rfl, List.prefix_rfl, id, id⟩
  complain _ _ := ⟨rfl, List.prefix_rfl, id, fun hnone => absurd hnone (List.cons_ne_nil _ _)⟩
  declare _ _ hnew := ⟨rfl, List.prefix_append _ _, fun h => h.add hnew .parameter, id⟩

/-! ### What is read, and the state after it -/

section Results

variable {α β : Type} {R : State → State → Prop} {x : Parse α} {f : α → Parse β}
  {P : α → State → Prop} {Q : β → State → Prop} {s : State}

/-- `P` holds of what the reader gives together with the state after it. -/
def After (x : Parse α) (P : α → State → Prop) (s : State) : Prop := P (x.run s).1 (x.run s).2

theorem After.bind (hx : After x P s) (hf : ∀ a s', P a s' → After (f a) Q s') :
    After (x >>= f) Q s := hf _ _ hx

theorem Keeps.after (hx : Keeps R x) : After x (fun _ s' => R s s') s := hx s

theorem Quiet.keeps {S : α → Prop} (hx : Quiet x S) :
    Keeps (fun s s' => s'.complaints = [] → s.complaints = []) x :=
  fun s hnone => (hx s hnone).1

theorem After.keeps (hx : After x P s) (hR : Keeps R x) :
    After x (fun a s' => P a s' ∧ R s s') s := ⟨hx, hR s⟩

end Results

/-! ### Parameters -/

section Heads

variable {R : State → State → Prop} [hR : Permits .parameter R]

theorem keeps_noMember : Keeps R noMember := (moves_skip _ _).keeps

theorem keeps_declareMembers (input : Bool) (members : List Pending) (tys : List (Ty × Span)) :
    Keeps R (declareMembers input members tys) := by
  induction members generalizing tys with
  | nil => exact keeps_pure _
  | cons pending rest ih =>
    have hrest : ∀ declared : List Var, Keeps R
        (declareMembers input rest tys.tail >>= fun others => pure (declared ++ others)) :=
      fun _ => (ih tys.tail).bind fun _ => keeps_pure _
    unfold declareMembers
    dsimp only
    split
    · exact hrest []
    · split
      · exact (keeps_declare _ _ _ _ _).bind fun v => hrest [v]
      · exact (keeps_complain _ _).bind fun _ => hrest []

theorem keeps_param (input : Bool) : Keeps R (param input) := by
  refine keeps_peek.bind fun token => ?_
  split
  · exact keeps_advance.bind fun _ => keeps_pure _
  · refine keeps_ite ?_ ?_
    · refine keeps_remaining.bind fun left => ?_
      refine (moves_pendingMembers keeps_noMember (left + 1)).keeps.bind fun read => ?_
      exact (keeps_declareMembers _ _ _).bind fun _ => keeps_pure _
    · exact (keeps_complain _ _).bind fun _ => keeps_advance.bind fun _ => keeps_pure _

theorem keeps_paramsFrom (fuel : Nat) (input : Bool) : Keeps R (paramsFrom input fuel) := by
  induction fuel generalizing input with
  | zero => exact keeps_pure _
  | succ fuel ih =>
    refine (keeps_param input).bind fun first => (keeps_at? .comma).bind fun comma => ?_
    refine keeps_ite ?_ (keeps_pure _)
    exact keeps_advance.bind fun _ => (ih _).bind fun _ => keeps_pure _

theorem keeps_params : Keeps R params := by
  have hclosing : ∀ read : List Param, Keeps R (consume .closeParen >>= fun _ => pure read) :=
    fun _ => (keeps_consume .closeParen).bind fun _ => keeps_pure _
  refine (keeps_consume .openParen).bind fun _ => (keeps_at? .closeParen).bind fun closed => ?_
  refine keeps_ite (hclosing []) (keeps_remaining.bind fun left => ?_)
  exact (keeps_paramsFrom (left + 1) true).bind hclosing

end Heads

/-- A parameter of the module has been declared under this name. -/
def State.Declared (s : State) (name : String) : Prop := ∃ v ∈ s.fields, v.name = name

theorem State.Head.declared {s s' : State} (h : s.Head s') {name : String}
    (hdeclared : s.Declared name) : s'.Declared name := by
  obtain ⟨v, hv, hname⟩ := hdeclared
  exact ⟨v, h.fields.subset hv, hname⟩

/-- **A member of a group has the name of a declared parameter**, though it need not be the
    one that was declared. -/
theorem declared_declare (name : String) (span : Span) (ty : Ty) (tySpan : Span) (input : Bool)
    {s : State} (hlocals : s.locals = []) :
    After (declare name span ty tySpan .parameter input)
      (fun v s' => s'.complaints = [] → s'.Declared v.name) s := by
  unfold After
  rw [run_declare]
  cases hfound : s.find? name with
  | some found =>
    have hmem : found ∈ s.fields := by
      have hmem := List.mem_of_find?_eq_some hfound
      rwa [hlocals, List.append_nil] at hmem
    by_cases hagrees : found.ty.compatible ty = true
    · simp only [hagrees, if_true]
      exact fun _ => ⟨found, hmem, rfl⟩
    · simp only [hagrees]
      exact fun hnone => absurd hnone (List.cons_ne_nil _ _)
  | none => exact fun _ => ⟨_, List.mem_append_right _ (List.mem_singleton.mpr rfl), rfl⟩

theorem declared_declareMembers (input : Bool) (members : List Pending) (tys : List (Ty × Span))
    {s : State} (hlocals : s.locals = []) :
    After (declareMembers input members tys)
      (fun vs s' => s'.complaints = [] → ∀ v ∈ vs, s'.Declared v.name) s := by
  induction members generalizing tys s with
  | nil => exact fun _ v hv => absurd hv List.not_mem_nil
  | cons pending rest ih =>
    have hrest : ∀ (declared : List Var) (s : State), s.locals = [] →
        (s.complaints = [] → ∀ v ∈ declared, s.Declared v.name) →
        After (declareMembers input rest tys.tail >>= fun others => pure (declared ++ others))
          (fun vs s' => s'.complaints = [] → ∀ v ∈ vs, s'.Declared v.name) s := by
      intro declared s hlocals hdeclared
      refine ((ih tys.tail hlocals).keeps (keeps_declareMembers (R := State.Head) _ _ _)).bind ?_
      intro others s' hothers hnone v hv
      rcases List.mem_append.mp hv with hv | hv
      · exact hothers.2.declared (hdeclared (hothers.2.quiet hnone) v hv)
      · exact hothers.1 hnone v hv
    unfold declareMembers
    dsimp only
    split
    · exact hrest [] s hlocals fun _ v hv => absurd hv List.not_mem_nil
    · split
      · refine ((declared_declare _ _ _ _ _ hlocals).keeps
          (keeps_declare (R := State.Head) _ _ _ _ _)).bind ?_
        intro v s' hv
        refine hrest [v] s' (hv.2.locals.trans hlocals) fun hnone w hw => ?_
        rw [List.mem_singleton.mp hw]
        exact hv.1 hnone
      · refine (keeps_complain (R := State.Head) _ _).after.bind fun _ s' hs' => ?_
        exact hrest [] s' (hs'.locals.trans hlocals) fun _ v hv => absurd hv List.not_mem_nil

/-- The members of the groups among some parameters. -/
def membersOf (read : List Param) : List Var := (read.filterMap Param.group?).flatten

theorem declared_param (input : Bool) {s : State} (hlocals : s.locals = []) :
    After (param input)
      (fun p s' => s'.complaints = [] → ∀ v ∈ membersOf [p], s'.Declared v.name) s := by
  refine keeps_peek.after.bind fun token s₁ (h₁ : s.Head s₁) => ?_
  split
  · exact fun _ v hv => absurd hv List.not_mem_nil
  · by_cases hopen : token.is .openBrace = true
    · rw [if_pos hopen]
      refine keeps_remaining.after.bind fun left s₂ (h₂ : s₁.Head s₂) => ?_
      have hpending := moves_pendingMembers (R := State.Head) keeps_noMember (left + 1)
      refine hpending.keeps.after.bind fun read s₃ h₃ => ?_
      have hnone : s₃.locals = [] := by rw [h₃.locals, h₂.locals, h₁.locals, hlocals]
      refine (declared_declareMembers input read.1 read.2 hnone).bind ?_
      intro vs s₄ hvs hquiet v (hv : v ∈ membersOf [.group vs token.span])
      exact hvs hquiet v (by simpa [membersOf, Param.group?] using hv)
    · rw [if_neg hopen]
      exact fun _ v hv => absurd hv List.not_mem_nil

theorem declared_paramsFrom (fuel : Nat) (input : Bool) {s : State} (hlocals : s.locals = []) :
    After (paramsFrom input fuel)
      (fun read s' => s'.complaints = [] → ∀ v ∈ membersOf read, s'.Declared v.name) s := by
  induction fuel generalizing input s with
  | zero => exact fun _ v hv => absurd hv List.not_mem_nil
  | succ fuel ih =>
    refine ((declared_param input hlocals).keeps (keeps_param (R := State.Head) input)).bind ?_
    intro first s₁ hfirst
    refine (keeps_at? (R := State.Head) .comma).after.bind fun comma s₂ h₂ => ?_
    cases comma with
    | false => exact fun hquiet v hv => h₂.declared (hfirst.1 (h₂.quiet hquiet) v hv)
    | true =>
      refine (keeps_advance (R := State.Head)).after.bind fun _ s₃ h₃ => ?_
      have hnone : s₃.locals = [] := by rw [h₃.locals, h₂.locals, hfirst.2.locals, hlocals]
      refine ((ih _ hnone).keeps (keeps_paramsFrom (R := State.Head) fuel _)).bind ?_
      intro rest s₄ hrest hquiet v hv
      have hsplit : v ∈ membersOf [first] ∨ v ∈ membersOf rest := by
        rw [← List.mem_append, membersOf, membersOf, ← List.flatten_append,
          ← List.filterMap_append]
        exact hv
      rcases hsplit with hv | hv
      · have hbefore : s₁.Head s₄ := permits_head.trans h₂ (permits_head.trans h₃ hrest.2)
        exact hbefore.declared (hfirst.1 (hbefore.quiet hquiet) v hv)
      · exact hrest.1 hquiet v hv

theorem declared_params {s : State} (hlocals : s.locals = []) :
    After params (fun read s' => (s'.complaints = [] → ∀ v ∈ membersOf read, s'.Declared v.name) ∧
      s.Head s') s := by
  have hclosing : ∀ (read : List Param) (s₁ : State), s.Head s₁ →
      (s₁.complaints = [] → ∀ v ∈ membersOf read, s₁.Declared v.name) →
      After (consume .closeParen >>= fun _ => pure read) (fun read s' =>
        (s'.complaints = [] → ∀ v ∈ membersOf read, s'.Declared v.name) ∧ s.Head s') s₁ := by
    intro read s₁ h₁ hread
    refine (keeps_consume (R := State.Head) .closeParen).after.bind fun _ s₂ h₂ => ?_
    exact ⟨fun hquiet v hv => h₂.declared (hread (h₂.quiet hquiet) v hv), permits_head.trans h₁ h₂⟩
  refine (keeps_consume (R := State.Head) .openParen).after.bind fun _ s₁ h₁ => ?_
  refine (keeps_at? (R := State.Head) .closeParen).after.bind fun closed s₂ h₂ => ?_
  have hbefore : s.Head s₂ := permits_head.trans h₁ h₂
  cases closed with
  | true => exact hclosing [] s₂ hbefore fun _ v hv => absurd hv List.not_mem_nil
  | false =>
    refine (keeps_remaining (R := State.Head)).after.bind fun left s₃ h₃ => ?_
    have hthere : s.Head s₃ := permits_head.trans hbefore h₃
    have hnone : s₃.locals = [] := hthere.locals.trans hlocals
    have hparams := keeps_paramsFrom (R := State.Head) (left + 1) true
    refine ((declared_paramsFrom (left + 1) true hnone).keeps hparams).bind ?_
    intro read s₄ hread
    exact hclosing read s₄ (permits_head.trans hthere hread.2) hread.1

/-! ### Methods and modules -/

/-- **The variables that a method declares have names of their own**, different from each
    other and from those of the parameters. -/
theorem apart_method (callables : List String) {s : State} (h : (s.fields.map Var.name).Nodup) :
    After (method callables)
      (fun m s' => ((s.fields ++ m.locals).map Var.name).Nodup ∧ s'.fields = s.fields) s := by
  refine (keeps_consume (R := State.Body) .method).after.bind fun token s₁ h₁ => ?_
  refine After.bind (P := fun _ s' => s' = { s₁ with locals := [] }) rfl ?_
  rintro _ s₂ hs₂
  have hstart : s₂.Apart := by
    rw [hs₂]
    show ((s₁.fields ++ []).map Var.name).Nodup
    rw [List.append_nil, h₁.fields]
    exact h
  refine (keeps_remaining (R := State.Body)).after.bind fun left s₃ h₃ => ?_
  have hstmt : Keeps State.Body (stmt callables) := (moves_stmt callables).keeps
  refine (keeps_untilEndWord hstmt (left + 1)).after.bind ?_
  intro stmts s₄ h₄
  refine (keeps_consume (R := State.Body) .endWord).after.bind fun _ s₅ h₅ => ?_
  refine (keeps_consume (R := State.Body) .method).after.bind fun _ s₆ h₆ => ?_
  refine (keeps_terminator (R := State.Body)).after.bind fun _ s₇ h₇ => ?_
  have hread : s₂.Body s₇ := permits_body.trans h₃ (permits_body.trans h₄ (permits_body.trans h₅
    (permits_body.trans h₆ h₇)))
  have hfields : s₇.fields = s.fields := by rw [hread.fields, hs₂, ← h₁.fields]
  refine After.bind (P := fun seen s' => s₇ = seen ∧ s₇ = s') ⟨rfl, rfl⟩ ?_
  rintro _ _ ⟨rfl, rfl⟩
  refine After.bind (P := fun _ s' => s'.fields = s₇.fields) rfl fun _ s₈ h₈ => ?_
  refine (keeps_checkBody (R := State.Body) (splitGuard stmts).2).after.bind fun _ s₉ h₉ => ?_
  refine ⟨?_, (h₉.fields.trans h₈).trans hfields⟩
  rw [← hfields]
  exact hread.apart hstart

theorem apart_methods (callables : List String) (fuel : Nat) {s : State}
    (h : (s.fields.map Var.name).Nodup) :
    After (untilEndWord (method callables) fuel)
      (fun ms _ => ∀ m ∈ ms, ((s.fields ++ m.locals).map Var.name).Nodup) s := by
  induction fuel generalizing s with
  | zero => exact fun m hm => absurd hm List.not_mem_nil
  | succ fuel ih =>
    refine (keeps_peek (R := State.Body)).after.bind fun token s₁ h₁ => ?_
    by_cases hstop : (token.is .endWord || token.isEof) = true
    · rw [if_pos hstop]
      exact fun m hm => absurd hm List.not_mem_nil
    · rw [if_neg hstop]
      rw [← h₁.fields] at h ⊢
      refine (apart_method callables h).bind fun first s₂ ⟨hfirst, hfields⟩ => ?_
      rw [← hfields] at h hfirst ⊢
      refine (ih h).bind fun rest s₃ hrest => ?_
      exact List.forall_mem_cons.mpr ⟨hfirst, hrest⟩

theorem keeps_moduleHead : Keeps State.Head moduleHead := by
  refine keeps_peek.bind fun token => ?_
  dsimp only
  split
  · exact keeps_advance.bind fun _ => keeps_pure _
  · exact (keeps_complain _ _).bind fun _ => keeps_advance.bind fun _ => keeps_pure _

/-- The end of a module has nothing to do with its variables. -/
theorem localsApart_closing {given : Module} {s : State}
    (h : s.complaints = [] → given.LocalsApart) :
    After (do
      let _ ← consume .endWord
      if ← expect .moduleWord then
        let _ ← advance
      let _ ← terminator
      return given) (fun m s' => s'.complaints = [] → m.LocalsApart) s := by
  have hgiven : ∀ s : State, (s.complaints = [] → given.LocalsApart) →
      After (terminator >>= fun _ => pure given)
        (fun m s' => s'.complaints = [] → m.LocalsApart) s := by
    intro s h
    refine (keeps_terminator (R := State.Body)).after.bind fun _ s' h' => ?_
    exact fun hnone => h (h'.quiet hnone)
  refine (keeps_consume (R := State.Body) .endWord).after.bind fun _ s₁ h₁ => ?_
  refine (keeps_expect (R := State.Body) .moduleWord).after.bind fun found s₂ h₂ => ?_
  have hbefore : s.Body s₂ := permits_body.trans h₁ h₂
  cases found with
  | false => exact hgiven s₂ fun hnone => h (hbefore.quiet hnone)
  | true =>
    refine (keeps_advance (R := State.Body)).after.bind fun _ s₃ h₃ => ?_
    exact hgiven s₃ fun hnone => h (hbefore.quiet (h₃.quiet hnone))

/-- **In a module that is read without complaints the locals have names of their own.** -/
theorem localsApart_wholeModule (s : State) :
    After wholeModule (fun m s' => s'.complaints = [] → m.LocalsApart) s := by
  refine After.bind (P := fun _ s' => s'.fields = [] ∧ s'.locals = []) ⟨rfl, rfl⟩ ?_
  intro _ s₁ hempty
  have hstart : s₁.Apart := by
    unfold State.Apart
    rw [hempty.1, hempty.2]
    exact List.nodup_nil
  refine keeps_moduleHead.after.bind fun head s₂ h₂ => ?_
  refine (declared_params (h₂.locals.trans hempty.2)).bind fun params s₃ ⟨hdeclared, h₃⟩ => ?_
  have hnames : (s₃.fields.map Var.name).Nodup := by
    have hapart : s₃.Apart := h₃.apart (h₂.apart hstart)
    unfold State.Apart at hapart
    rwa [h₃.locals, h₂.locals, hempty.2, List.append_nil] at hapart
  refine (keeps_remaining (R := State.Body)).after.bind fun left s₄ h₄ => ?_
  rw [← h₄.fields] at hnames
  have hquiet := quiet_untilEndWord (quiet_method hereditary_whole (fun _ => id)
    (head.1 :: params.filterMap Param.callee?)) (left + 1)
  refine ((apart_methods _ (left + 1) hnames).keeps hquiet.keeps).bind ?_
  intro methods s₅ ⟨hmethods, h₅⟩
  have hread : s₅.complaints = [] → Module.LocalsApart ⟨head.1, params, methods, head.2⟩ := by
    intro hnone method hmethod
    obtain ⟨-, hown, hother⟩ := List.nodup_append.mp
      (List.map_append ▸ hmethods method hmethod)
    refine ⟨hown, fun v hv w hw heq => ?_⟩
    obtain ⟨declared, hmem, hname⟩ := hdeclared (h₄.quiet (h₅ hnone)) w hw
    rw [← h₄.fields] at hmem
    exact hother _ (List.mem_map_of_mem hmem) _ (List.mem_map_of_mem hv) (hname.trans heq.symm)
  by_cases hempty : methods.isEmpty = true
  · rw [if_pos hempty]
    refine (keeps_complain (R := State.Body) _ _).after.bind fun _ s₆ h₆ => ?_
    exact localsApart_closing fun hnone => hread (h₆.quiet hnone)
  · rw [if_neg hempty]
    exact localsApart_closing hread

/-- The locals of what is read without complaints have names of their own. -/
theorem localsApart_of_parse {tokens : List Token} (h : (parse tokens).complaints = []) :
    ∀ m ∈ (parse tokens).modules, m.LocalsApart := by
  have hquiet : Quiet wholeModule Module.LocalsApart := fun s hnone =>
    ⟨(quiet_wholeModule s hnone).1, localsApart_wholeModule s hnone⟩
  exact (quiet_untilEnd hquiet (tokens.length + 1) { rest := tokens }
    (List.reverse_eq_nil_iff.mp h)).2

end Grammar

end CandidateSearch
