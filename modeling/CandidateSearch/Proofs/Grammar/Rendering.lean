/-
  CandidateSearch/Proofs/Grammar/Rendering.lean
  =============================================
  **Expressions written as tokens.**

  An expression is put in parentheses where its level is looser than the one that its place
  asks for, and nowhere else:

      operator                          on its left       on its right
      or, and, equality … mod           its own level     the next tighter level
      ^                                 unary             power
      - (of one operand)                                  unary

  So operators of one level go to the left, `^` goes to the right, and the sign of `-A ^ B`
  belongs to `A`.  A negation has parentheses of its own, `not(A)`; its level is looser than
  those of equality and arithmetic, so it is put in parentheses once more as an operand of
  these.

  A `Style` says what else is left open: which of two words stands for an operator, and
  whether a comma stands after the last element.  `A < B` may be written as `B > A`; then
  the places of the operands are exchanged too.

  `Checked Γ e` says that an expression could be read where the variables `Γ` are known:
  its variables are among them, and its operands have the types that are asked for.
-/
import CandidateSearch.Proofs.Grammar.Phrases
import Mathlib.Data.List.Forall2

namespace CandidateSearch

open Source (Span)
open Syntax
open Token (Kind)

/-! ### Levels -/

namespace Grammar

/-- How tight a level is, counted from the loosest. -/
def Level.rank : Level → Nat
  | .or => 0
  | .and => 1
  | .not => 2
  | .equality => 3
  | .relational => 4
  | .additive => 5
  | .multiplicative => 6
  | .power => 7
  | .unary => 8

theorem Level.rank_le (level : Level) : level.rank ≤ 8 := by cases level <;> decide

theorem Level.rank_tighter {level : Level} (h : level ≠ .unary) :
    level.tighter.rank = level.rank + 1 := by
  cases level with
  | unary => exact absurd rfl h
  | _ => rfl

theorem Level.rank_inj {level other : Level} : level.rank = other.rank ↔ level = other := by
  cases level <;> cases other <;> simp [Level.rank]

/-- What holds at a level and goes over to looser ones holds at all that are looser. -/
theorem Level.induction_looser {P : Level → Prop} {start : Level} (hstart : P start)
    (hlooser : ∀ level : Level, level.rank < start.rank → P level.tighter → P level)
    {level : Level} (h : level.rank ≤ start.rank) : P level := by
  rcases Nat.eq_or_lt_of_le h with heq | hlt
  · rw [Level.rank_inj.mp heq]
    exact hstart
  · have hne : level ≠ .unary := by
      rintro rfl
      exact absurd hlt (Nat.not_lt.mpr start.rank_le)
    have hrank := Level.rank_tighter hne
    exact hlooser level hlt (Level.induction_looser hstart hlooser (by omega))
termination_by start.rank - level.rank

end Grammar

open Grammar

namespace Syntax

/-- The level of an operator. -/
def BinaryOp.level : BinaryOp → Level
  | .or => .or
  | .and => .and
  | .eq | .ne => .equality
  | .lt | .le => .relational
  | .add | .sub => .additive
  | .mul | .div | .mod => .multiplicative
  | .pow => .power

/-- The level asked for on the left of an operator. -/
def BinaryOp.leftLevel : BinaryOp → Level
  | .pow => .unary
  | op => op.level

/-- The level asked for on the right of an operator. -/
def BinaryOp.rightLevel : BinaryOp → Level
  | .pow => .power
  | op => op.level.tighter

theorem BinaryOp.level_ne_unary (op : BinaryOp) : op.level ≠ .unary := by
  cases op <;> simp [BinaryOp.level]

theorem BinaryOp.leftLevel_eq {op : BinaryOp} (h : op ≠ .pow) : op.leftLevel = op.level := by
  cases op with
  | pow => exact absurd rfl h
  | _ => rfl

theorem BinaryOp.rightLevel_eq {op : BinaryOp} (h : op ≠ .pow) :
    op.rightLevel = op.level.tighter := by
  cases op with
  | pow => exact absurd rfl h
  | _ => rfl

/-- The level of an expression. -/
def Expr.level : Expr → Level
  | .binary op _ _ _ => op.level
  | .unary .not _ _ => .not
  | _ => .unary

end Syntax

/-- The level of the operators that a word stands for. -/
def Reserved.level? : Reserved → Option Level
  | .or => some .or
  | .and => some .and
  | .equals | .doubleEquals | .notEquals => some .equality
  | .less | .atMost | .greater | .atLeast => some .relational
  | .plus | .minus => some .additive
  | .times | .divide | .mod => some .multiplicative
  | .power => some .power
  | _ => none

namespace Grammar

/-- An expression can go on with a token: an operator, or the colon in front of a type. -/
def continues : Kind → Bool
  | .reserved w => decide (w = .colon) || w.level?.isSome
  | _ => false

/-- An operand of a level ends in front of a token: operators of looser levels are not
    part of it. -/
def Level.endsAt (level : Level) : Kind → Bool
  | .reserved w => decide (w ≠ .colon) && w.level?.all fun other => other.rank < level.rank
  | _ => true

theorem Level.endsAt_mono {level other : Level} (h : level.rank ≤ other.rank) {kind : Kind}
    (hends : level.endsAt kind = true) : other.endsAt kind = true := by
  cases kind with
  | reserved w =>
    simp only [Level.endsAt, Bool.and_eq_true, Option.all_eq_true, decide_eq_true_eq] at hends ⊢
    exact ⟨hends.1, fun found hfound => Nat.lt_of_lt_of_le (hends.2 found hfound) h⟩
  | _ => rfl

theorem Level.endsAt_of_not_continues {kind : Kind} (h : continues kind = false) (level : Level) :
    level.endsAt kind = true := by
  cases kind with
  | reserved w =>
    simp only [continues, Bool.or_eq_false_iff, decide_eq_false_iff_not,
      Option.isSome_eq_false_iff, Option.isNone_iff_eq_none] at h
    simp [Level.endsAt, h]
  | _ => rfl

theorem Level.endsAt_tighter {level : Level} (hlevel : level ≠ .unary) {w : Reserved}
    (hw : w.level? = some level) : level.tighter.endsAt (.reserved w) = true := by
  have hrank := Level.rank_tighter hlevel
  have hcolon : w ≠ .colon := by
    rintro rfl
    cases hw
  simp [Level.endsAt, hw, hcolon, hrank]

theorem Level.ne_colon_of_endsAt {level : Level} {kind : Kind} (h : level.endsAt kind = true) :
    kind ≠ .reserved .colon := by
  rintro rfl
  exact absurd h (by simp [Level.endsAt])

/-- No operator of the level stands in front of the end. -/
theorem Level.level?_of_endsAt {level : Level} {w : Reserved}
    (h : level.endsAt (.reserved w) = true) : w.level? ≠ some level := by
  intro hw
  simp [Level.endsAt, hw] at h

theorem Level.level?_of_operator? {level : Level} {w : Reserved} {op : BinaryOp} {exchanged : Bool}
    (h : level.operator? w = some (op, exchanged)) : w.level? = some level := by
  cases operator_of_operator? h <;> rfl

/-! ### Writing -/

/-- What a writer may choose, by where an expression stands. -/
structure Style where
  turned : Span → Bool         -- `B > A` for `A < B`, and `B >= A` for `A =< B`
  doubled : Span → Bool        -- `==` for `=`
  trailing : Span → Bool       -- a comma after the last element

namespace Style

/-- The word for an operator. -/
def word (style : Style) : BinaryOp → Span → Reserved
  | .or, _ => .or
  | .and, _ => .and
  | .eq, span => if style.doubled span then .doubleEquals else .equals
  | .ne, _ => .notEquals
  | .lt, span => if style.turned span then .greater else .less
  | .le, span => if style.turned span then .atLeast else .atMost
  | .add, _ => .plus
  | .sub, _ => .minus
  | .mul, _ => .times
  | .div, _ => .divide
  | .mod, _ => .mod
  | .pow, _ => .power

/-- The second operand is written first. -/
def exchanges (style : Style) : BinaryOp → Span → Bool
  | .lt, span | .le, span => style.turned span
  | _, _ => false

end Style

/-- The word for a function. -/
def functionWord : Builtin → Reserved
  | .sqrt => .sqrt
  | .exp => .exp
  | .length => .length
  | .nth => .nth
  | .sum => .sum

def enclosed (opening closing : Reserved) (kinds : List Kind) : List Kind :=
  .reserved opening :: (kinds ++ [.reserved closing])

theorem length_enclosed (opening closing : Reserved) (kinds : List Kind) :
    (enclosed opening closing kinds).length = kinds.length + 2 := by simp [enclosed]

/-- The tokens of an expression in a place that asks for a level. -/
def fitted (level : Level) (e : Expr) (kinds : List Kind) : List Kind :=
  if e.level.rank < level.rank then enclosed .openParen .closeParen kinds else kinds

/-- Parts with commas between them. -/
def commas : List (List Kind) → List Kind
  | [] => []
  | [part] => part
  | part :: next :: rest => part ++ .reserved .comma :: commas (next :: rest)

/-- Elements with commas between them, and perhaps one after the last. -/
def elements (trailing : Bool) (parts : List (List Kind)) : List Kind :=
  commas parts ++ if trailing && !parts.isEmpty then [.reserved .comma] else []

theorem elements_false (parts : List (List Kind)) : elements false parts = commas parts :=
  List.append_nil _

theorem length_le_elements (trailing : Bool) {parts : List (List Kind)} {part : List Kind}
    (h : part ∈ parts) : part.length ≤ (elements trailing parts).length := by
  have hcommas : part.length ≤ (commas parts).length := by
    induction parts using commas.induct with
    | case1 => cases h
    | case2 only =>
      rw [List.mem_singleton.mp h]
      exact Nat.le_refl _
    | case3 first next rest ih =>
      rw [commas, List.length_append, List.length_cons]
      rcases List.mem_cons.mp h with rfl | h
      · exact Nat.le_add_right _ _
      · have hrest := ih h
        omega
  rw [elements, List.length_append]
  exact Nat.le_trans hcommas (Nat.le_add_right _ _)

/-- There are no more elements than tokens. -/
theorem count_le_elements (trailing : Bool) {parts : List (List Kind)}
    (h : ∀ part ∈ parts, part ≠ []) : parts.length ≤ (elements trailing parts).length := by
  have hcommas : parts.length ≤ (commas parts).length := by
    induction parts using commas.induct with
    | case1 => exact Nat.le_refl _
    | case2 only =>
      rw [commas]
      exact List.length_pos_iff.mpr (h only List.mem_cons_self)
    | case3 first next rest ih =>
      have hrest := ih fun part hpart => h part (.tail _ hpart)
      rw [commas, List.length_append]
      exact Nat.le_trans (Nat.succ_le_succ hrest) (Nat.le_add_left _ _)
  rw [elements, List.length_append]
  exact Nat.le_trans hcommas (Nat.le_add_right _ _)

namespace Style

mutual

/-- The tokens of an expression. -/
def write (style : Style) : Expr → List Kind
  | .number digits _ => [.number digits]
  | .string content _ => [.string content]
  | .atom name _ => [.atom name]
  | .bool value _ => [.reserved (if value then .trueWord else .falseWord)]
  | .var v => [.var v.name]
  | .list items span =>
      enclosed .openBracket .closeBracket (elements (style.trailing span) (writeEach style items))
  | .vector members span =>
      enclosed .openBrace .closeBrace (elements (style.trailing span) (writeMembers style members))
  | .unary .not operand _ => .reserved .not :: enclosed .openParen .closeParen (write style operand)
  | .unary .neg operand _ => .reserved .minus :: fitted .unary operand (write style operand)
  | .binary op lhs rhs span =>
      let operator := Kind.reserved (style.word op span)
      if style.exchanges op span then
        fitted op.leftLevel rhs (write style rhs) ++
          operator :: fitted op.rightLevel lhs (write style lhs)
      else
        fitted op.leftLevel lhs (write style lhs) ++
          operator :: fitted op.rightLevel rhs (write style rhs)
  | .builtin f args _ =>
      .reserved (functionWord f) :: enclosed .openParen .closeParen (commas (writeEach style args))
  | .missing _ => []

def writeEach (style : Style) : List Expr → List (List Kind)
  | [] => []
  | e :: rest => write style e :: writeEach style rest

def writeMembers (style : Style) : List (Expr × Bool) → List (List Kind)
  | [] => []
  | (e, _) :: rest => write style e :: writeMembers style rest

end

/-- The tokens of an expression in a place that asks for a level. -/
def writeAt (style : Style) (level : Level) (e : Expr) : List Kind :=
  fitted level e (style.write e)

variable (style : Style)

theorem writeEach_eq (items : List Expr) : style.writeEach items = items.map style.write := by
  induction items with
  | nil => rfl
  | cons e rest ih => rw [writeEach, ih, List.map_cons]

theorem writeMembers_eq (members : List (Expr × Bool)) :
    style.writeMembers members = (members.map Prod.fst).map style.write := by
  induction members with
  | nil => rfl
  | cons member rest ih =>
    obtain ⟨e, declares⟩ := member
    rw [writeMembers, ih, List.map_cons, List.map_cons]

theorem writeAt_or (e : Expr) : style.writeAt .or e = style.write e := rfl

theorem writeAt_of_le {level : Level} {e : Expr} (h : level.rank ≤ e.level.rank) :
    style.writeAt level e = style.write e := if_neg (Nat.not_lt.mpr h)

theorem writeAt_of_lt {level : Level} {e : Expr} (h : e.level.rank < level.rank) :
    style.writeAt level e = enclosed .openParen .closeParen (style.write e) := if_pos h

/-- Two neighbouring levels differ only for the expressions of the looser one. -/
theorem writeAt_tighter {level : Level} {e : Expr} (hunary : level ≠ .unary)
    (hlevel : e.level ≠ level) : style.writeAt level.tighter e = style.writeAt level e := by
  have hrank := Level.rank_tighter hunary
  have hne : e.level.rank ≠ level.rank := fun heq => hlevel (Level.rank_inj.mp heq)
  rcases Nat.lt_or_ge e.level.rank level.rank with hlt | hle
  · rw [writeAt_of_lt style hlt, writeAt_of_lt style (by omega)]
  · rw [writeAt_of_le style hle, writeAt_of_le style (by omega)]

/-- The operand that is written first, and the other one. -/
def operands (op : BinaryOp) (span : Span) (lhs rhs : Expr) : Expr × Expr :=
  if style.exchanges op span then (rhs, lhs) else (lhs, rhs)

theorem write_binary (op : BinaryOp) (lhs rhs : Expr) (span : Span) :
    style.write (.binary op lhs rhs span) =
      style.writeAt op.leftLevel (style.operands op span lhs rhs).1 ++
        .reserved (style.word op span) ::
          style.writeAt op.rightLevel (style.operands op span lhs rhs).2 := by
  rw [write, operands]
  cases style.exchanges op span <;> rfl

theorem writeAt_level (e : Expr) : style.writeAt e.level e = style.write e :=
  style.writeAt_of_le (Nat.le_refl _)

theorem writeAt_binary (op : BinaryOp) (lhs rhs : Expr) (span : Span) :
    style.writeAt op.level (.binary op lhs rhs span) =
      style.writeAt op.leftLevel (style.operands op span lhs rhs).1 ++
        .reserved (style.word op span) ::
          style.writeAt op.rightLevel (style.operands op span lhs rhs).2 := by
  rw [← write_binary]
  exact style.writeAt_level _

theorem writeAt_not (operand : Expr) (span : Span) :
    style.writeAt .not (.unary .not operand span) =
      .reserved .not :: enclosed .openParen .closeParen (style.write operand) := by
  rw [← write]
  exact style.writeAt_level _

theorem writeAt_neg (operand : Expr) (span : Span) :
    style.writeAt .unary (.unary .neg operand span) =
      .reserved .minus :: style.writeAt .unary operand := by
  show style.write _ = _
  rw [write, writeAt]

theorem level?_word (op : BinaryOp) (span : Span) :
    (style.word op span).level? = some op.level := by
  cases op <;> simp only [word] <;> (try split) <;> rfl

/-- The word that is written is read as the operator. -/
theorem operator?_word {op : BinaryOp} (h : op ≠ .pow) (span : Span) :
    op.level.operator? (style.word op span) = some (op, style.exchanges op span) := by
  cases op with
  | pow => exact absurd rfl h
  | eq =>
    simp only [word]
    split <;> rfl
  | lt | le =>
    simp only [word, exchanges]
    cases style.turned span <;> rfl
  | _ => rfl

end Style

end Grammar

/-! ### Trees up to spans -/

namespace Syntax

def Var.unplaced (v : Var) : Var := { v with tySpan := {}, span := {} }

namespace Expr

mutual

/-- The expression without its spans. -/
def unplaced : Expr → Expr
  | .number digits _ => .number digits {}
  | .string content _ => .string content {}
  | .atom name _ => .atom name {}
  | .bool value _ => .bool value {}
  | .var v => .var v.unplaced
  | .list items _ => .list (unplacedEach items) {}
  | .vector members _ => .vector (unplacedMembers members) {}
  | .unary op operand _ => .unary op (unplaced operand) {}
  | .binary op lhs rhs _ => .binary op (unplaced lhs) (unplaced rhs) {}
  | .builtin f args _ => .builtin f (unplacedEach args) {}
  | .missing _ => .missing {}

def unplacedEach : List Expr → List Expr
  | [] => []
  | e :: rest => unplaced e :: unplacedEach rest

def unplacedMembers : List (Expr × Bool) → List (Expr × Bool)
  | [] => []
  | (e, declares) :: rest => (unplaced e, declares) :: unplacedMembers rest

end

mutual

/-- Types do not depend on where expressions stand. -/
theorem ty_unplaced : ∀ e : Expr, e.unplaced.ty = e.ty
  | .number .. | .string .. | .atom .. | .bool .. | .var .. | .missing .. => by
      simp only [unplaced, ty, Var.unplaced]
  | .list items _ => by simp only [unplaced, ty, firstTy_unplacedEach items]
  | .vector members _ => by simp only [unplaced, ty, memberTys_unplacedMembers members]
  | .unary .not _ _ => by simp only [unplaced, ty]
  | .unary .neg operand _ => by simp only [unplaced, ty, ty_unplaced operand]
  | .binary op lhs rhs _ => by simp only [unplaced, ty, ty_unplaced lhs, ty_unplaced rhs]
  | .builtin f args _ => by cases f <;> simp only [unplaced, ty, argTys_unplacedEach args]

theorem firstTy_unplacedEach : ∀ items : List Expr, firstTy (unplacedEach items) = firstTy items
  | [] => by simp only [unplacedEach]
  | e :: _ => by simp only [unplacedEach, firstTy, ty_unplaced e]

theorem memberTys_unplacedMembers :
    ∀ members : List (Expr × Bool), memberTys (unplacedMembers members) = memberTys members
  | [] => by simp only [unplacedMembers]
  | (e, _) :: rest => by
      simp only [unplacedMembers, memberTys, ty_unplaced e, memberTys_unplacedMembers rest]

theorem argTys_unplacedEach : ∀ args : List Expr, argTys (unplacedEach args) = argTys args
  | [] => by simp only [unplacedEach]
  | e :: rest => by simp only [unplacedEach, argTys, ty_unplaced e, argTys_unplacedEach rest]

end

/-- The same tree, in another place. -/
def Alike (e read : Expr) : Prop := read.unplaced = e.unplaced

theorem Alike.ty_eq {e read : Expr} (h : Alike e read) : read.ty = e.ty := by
  rw [← ty_unplaced read, h, ty_unplaced]

theorem unplacedEach_of_alike {items read : List Expr} (h : List.Forall₂ Alike items read) :
    unplacedEach read = unplacedEach items := by
  induction h with
  | nil => rfl
  | cons hfirst _ ih => rw [unplacedEach, hfirst, ih, unplacedEach]

end Expr

end Syntax

/-! ### Expressions that can be read -/

/-- The type of a number, as far as it is known. -/
def Ty.MayBeNumber (ty : Ty) : Prop := ty = .unknown ∨ ty.isNumeric = true

/-- The type of a list, as far as it is known. -/
def Ty.MayBeList (ty : Ty) : Prop := ty = .unknown ∨ isList ty = true

namespace Grammar

/-- The arguments that a function takes. -/
inductive Takes : Builtin → List Expr → Prop
  | sqrt {e : Expr} (he : e.ty.MayBeNumber) : Takes .sqrt [e]
  | exp {e : Expr} (he : e.ty.MayBeNumber) : Takes .exp [e]
  | length {e : Expr} (he : e.ty.MayBeList) : Takes .length [e]
  | nth {i l : Expr} (hi : i.ty.MayBeNumber) (hl : l.ty.MayBeList) : Takes .nth [i, l]
  | sum {e : Expr} (he : e.ty.MayBeList) : Takes .sum [e]

/-- Nothing is missing and nothing is declared, the variables are known, and the operands
    pass the checks of their types. -/
inductive Checked (Γ : Names) : Expr → Prop
  | number {digits : String} {span : Span} : Checked Γ (.number digits span)
  | string {content : String} {span : Span} : Checked Γ (.string content span)
  | atom {name : String} {span : Span} : Checked Γ (.atom name span)
  | bool {value : Bool} {span : Span} : Checked Γ (.bool value span)
  | var {v found : Var} (hfound : Γ.find? v.name = some found)
      (hsame : found.unplaced = v.unplaced) : Checked Γ (.var v)
  | list {items : List Expr} {span : Span} (hitems : ∀ e ∈ items, Checked Γ e) :
      Checked Γ (.list items span)
  | vector {members : List (Expr × Bool)} {span : Span} (hmembers : ∀ m ∈ members, Checked Γ m.1)
      (hplain : ∀ m ∈ members, m.2 = false) : Checked Γ (.vector members span)
  | not {operand : Expr} {span : Span} (h : Checked Γ operand) :
      Checked Γ (.unary .not operand span)
  | neg {operand : Expr} {span : Span} (h : Checked Γ operand) (hty : operand.ty.MayBeNumber) :
      Checked Γ (.unary .neg operand span)
  | binary {op : BinaryOp} {lhs rhs : Expr} {span : Span} (hlhs : Checked Γ lhs)
      (hrhs : Checked Γ rhs)
      (htys : op.isLogical = false → lhs.ty.MayBeNumber ∧ rhs.ty.MayBeNumber) :
      Checked Γ (.binary op lhs rhs span)
  | builtin {f : Builtin} {args : List Expr} {span : Span} (hargs : ∀ e ∈ args, Checked Γ e)
      (htakes : Takes f args) : Checked Γ (.builtin f args span)

/-! ### How an expression begins -/

/-- An operand of a level can begin with a token. -/
def Level.begins (level : Level) : Kind → Bool
  | .number _ | .string _ | .atom _ | .var _ => true
  | .reserved w => match w with
    | .trueWord | .falseWord | .openParen | .openBracket | .openBrace | .minus => true
    | .sqrt | .exp | .length | .nth | .sum => true
    | .not => decide (level.rank ≤ Level.not.rank)
    | _ => false
  | _ => false

theorem Level.begins_mono {level other : Level} (h : other.rank ≤ level.rank) {kind : Kind}
    (hbegins : level.begins kind = true) : other.begins kind = true := by
  cases kind with
  | reserved w =>
    cases w with
    | not =>
      simp only [Level.begins, decide_eq_true_eq] at hbegins ⊢
      exact Nat.le_trans h hbegins
    | _ => exact hbegins
  | _ => exact hbegins

namespace Style

variable (style : Style) {Γ : Names} {e lhs rhs : Expr}

theorem operands_forall {P : Expr → Prop} (op : BinaryOp) (span : Span) (hlhs : P lhs)
    (hrhs : P rhs) :
    P (style.operands op span lhs rhs).1 ∧ P (style.operands op span lhs rhs).2 := by
  rw [operands]
  split
  · exact ⟨hrhs, hlhs⟩
  · exact ⟨hlhs, hrhs⟩

/-- An expression begins like an operand of its own level. -/
theorem begins_write (h : Checked Γ e) :
    ∃ kind rest, style.write e = kind :: rest ∧ e.level.begins kind = true := by
  induction h with
  | number | string | atom | var => exact ⟨_, [], by rw [write], rfl⟩
  | @bool value => exact ⟨_, [], by rw [write], by cases value <;> rfl⟩
  | list | vector => exact ⟨_, _, by rw [write, enclosed], rfl⟩
  | not | neg => exact ⟨_, _, by rw [write], rfl⟩
  | @builtin f => exact ⟨_, _, by rw [write], by cases f <;> rfl⟩
  | @binary op lhs rhs span _ _ _ ihlhs ihrhs =>
    obtain ⟨kind, rest, hfirst, hbegins⟩ := (style.operands_forall (P := fun e =>
      ∃ kind rest, style.write e = kind :: rest ∧ e.level.begins kind = true) op span ihlhs ihrhs).1
    have hle : op.level.rank ≤ op.leftLevel.rank := by cases op <;> decide
    rw [write_binary]
    rcases Nat.lt_or_ge (style.operands op span lhs rhs).1.level.rank op.leftLevel.rank with
      hlt | hfits
    · exact ⟨_, _, by rw [writeAt_of_lt style hlt, enclosed, List.cons_append], by cases op <;> rfl⟩
    · refine ⟨kind, _, by rw [writeAt_of_le style hfits, hfirst, List.cons_append], ?_⟩
      exact Level.begins_mono (Nat.le_trans hle hfits) hbegins

theorem begins_writeAt (h : Checked Γ e) (level : Level) :
    ∃ kind rest, style.writeAt level e = kind :: rest ∧ level.begins kind = true := by
  rcases Nat.lt_or_ge e.level.rank level.rank with hlt | hfits
  · exact ⟨_, _, writeAt_of_lt style hlt, rfl⟩
  · obtain ⟨kind, rest, hwrite, hbegins⟩ := style.begins_write h
    exact ⟨kind, rest, by rw [writeAt_of_le style hfits, hwrite], Level.begins_mono hfits hbegins⟩

theorem write_ne_nil (h : Checked Γ e) : style.write e ≠ [] := by
  obtain ⟨kind, rest, hwrite, -⟩ := style.begins_write h
  rw [hwrite]
  exact List.cons_ne_nil _ _

theorem begins_ne (h : Checked Γ e) {w : Reserved}
    (hw : Level.or.begins (.reserved w) = false) :
    ∃ kind rest, style.write e = kind :: rest ∧ kind ≠ .reserved w := by
  obtain ⟨kind, rest, hwrite, hbegins⟩ := style.begins_writeAt h .or
  refine ⟨kind, rest, hwrite, ?_⟩
  rintro rfl
  rw [hw] at hbegins
  cases hbegins

/-- If the first token is a variable, then it is the only one, or an operator comes next. -/
theorem write_of_var (h : Checked Γ e) {name : String} {rest : List Kind}
    (hwrite : style.write e = .var name :: rest) :
    (∃ v, e = .var v) ∨ ∃ w later, rest = .reserved w :: later ∧ w.level?.isSome = true := by
  induction h generalizing rest with
  | var => exact .inl ⟨_, rfl⟩
  | number | string | atom | bool | list | vector | not | neg | builtin =>
    rw [write] at hwrite
    cases hwrite
  | @binary op lhs rhs span hlhs hrhs _ ihlhs ihrhs =>
    right
    rw [write_binary] at hwrite
    obtain ⟨kind, more, hfirst, -⟩ :=
      style.begins_write (style.operands_forall op span hlhs hrhs).1
    rcases Nat.lt_or_ge (style.operands op span lhs rhs).1.level.rank op.leftLevel.rank with
      hlt | hfits
    · rw [writeAt_of_lt style hlt] at hwrite
      cases hwrite
    · rw [writeAt_of_le style hfits, hfirst] at hwrite
      cases hwrite
      have ih := (style.operands_forall (P := fun e => ∀ rest : List Kind,
        style.write e = .var name :: rest → (∃ v, e = .var v) ∨
          ∃ w later, rest = .reserved w :: later ∧ w.level?.isSome = true) op span
        (fun _ => ihlhs) (fun _ => ihrhs)).1
      rcases ih more hfirst with ⟨v, hv⟩ | ⟨w, later, rfl, hw⟩
      · rw [hv, write] at hfirst
        cases hfirst
        exact ⟨_, _, rfl, by rw [level?_word]; rfl⟩
      · exact ⟨w, _, rfl, hw⟩

end Style

end Grammar

end CandidateSearch
