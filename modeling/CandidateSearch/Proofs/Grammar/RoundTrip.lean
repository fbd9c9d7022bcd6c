/-
  CandidateSearch/Proofs/Grammar/RoundTrip.lean
  =============================================
  **An expression that is written is read back.**

  The readers of the primary expressions come first; what stands in brackets is read by a
  reader that is assumed to do right (`Inside`).  Then the levels.  `ReadsBack` says that the
  reader of a level reads an expression back that is written for this level, if what follows
  is not part of such an operand any more.

  The reader of `A - B - C` does not meet `A - B` as a whole: it reads `A` and goes on with
  the chain of operators.  So the operand on the left needs a second statement, `Leads`: the
  reader of the level gets through it, and what is left to do is the rest of the chain, with
  the expression read so far in front.

  From its own level an expression gets to all looser ones, since their readers descend and
  find no operator of theirs; from there to the tightest level, in parentheses; and from
  there to the levels that are left (`Recovered.of_own`).  The induction over the expression
  has to look at its own level only.

  A token is met after ten descents at most, so ten units of fuel for each token suffice;
  a reader of a tighter level needs that many fewer.
-/
import CandidateSearch.Proofs.Grammar.Accepting

namespace CandidateSearch.Grammar

open Source Syntax
open Token (Kind)
open Syntax.Expr (Alike)

variable {s : State} {style : Style} {e : Expr} {kinds more later : List Kind} {P : Expr → Prop}

/-! ### Primary expressions -/

section Primary

variable {inner : Parse Expr} {fuel : Nat}

/-- The reader for what stands in brackets reads an expression back. -/
def Inside (s : State) (style : Style) (inner : Parse Expr) (e : Expr) : Prop :=
  ∀ after, Level.or.endsAt (firstKind after) = true →
    Accepts s inner (style.write e) after (Alike e)

theorem Inside.of_separator {close : Reserved} (h : Inside s style inner e)
    (hclose : Level.or.endsAt (.reserved close) = true) {after : List Kind}
    (hafter : firstKind after = .reserved .comma ∨ firstKind after = .reserved close) :
    Accepts s inner (style.write e) after (Alike e) := by
  refine h after ?_
  rcases hafter with hafter | hafter
  · rw [hafter]
    rfl
  · rw [hafter]
    exact hclose

theorem accepts_parens (h : Accepts s inner kinds (.reserved .closeParen :: later) P) :
    Accepts s (primaryWith inner fuel) (enclosed .openParen .closeParen kinds) later P := by
  apply accepts_peek_cons
  intro span
  refine accepts_advance (by simp) fun _ _ => h.bind fun e he => ?_
  exact accepts_consume fun _ _ => accepts_pure he

theorem accepts_single {e : Expr} {kind : Kind} (hkind : kind ≠ .eof) (h : P e) :
    Accepts s (single e) [kind] later P :=
  accepts_advance hkind fun _ _ => accepts_pure h

theorem accepts_variableExpr {v found : Var} (hfound : s.names.find? v.name = some found)
    (hsame : found.unplaced = v.unplaced) (hcolon : firstKind later ≠ .reserved .colon)
    (span : Span) :
    Accepts s (variableExpr v.name span) [.var v.name] later (Alike (.var v)) := by
  apply accepts_advance (by simp)
  intro _ _
  refine accepts_at? false (by simpa using hcolon) (accepts_if_neg (by simp) ?_)
  refine (accepts_lookup hfound span).silent_bind ?_
  rintro _ rfl
  exact accepts_pure (congrArg Expr.var hsame)

theorem accepts_list {items : List Expr} {span : Span} (hitems : ∀ e ∈ items, Checked s.names e)
    (hinner : ∀ e ∈ items, Inside s style inner e) (hfuel : items.length ≤ fuel) :
    Accepts s (primaryWith inner fuel) (style.write (.list items span)) later
      (Alike (.list items span)) := by
  have hread : Accepts s (Grammar.items .closeBracket inner fuel)
      (elements (style.trailing span) (items.map style.write)) (.reserved .closeBracket :: later)
      (List.Forall₂ Alike items) :=
    accepts_items (by simp) _ items (fun e he after => (hinner e he).of_separator rfl)
      (fun e he => style.begins_ne (hitems e he) rfl) hfuel
  rw [Style.write, Style.writeEach_eq]
  apply accepts_peek_cons
  intro place
  refine accepts_consume fun _ _ => hread.bind fun read hread => ?_
  refine accepts_consume fun _ _ => accepts_pure ?_
  exact congrArg (Expr.list · {}) (Expr.unplacedEach_of_alike hread)

/-! ### Vectors -/

/-- What is read for a member, before the variables are looked up. -/
inductive Pends : Expr → Pending → Prop
  | name {v : Var} {span : Span} : Pends (.var v) (.name v.name span none)
  | value {e read : Expr} (h : Alike e read) : Pends e (.value read)

/-- A member that begins with a variable is one if a comma or the brace comes next;
    otherwise an operator does. -/
theorem accepts_member (he : Checked s.names e) (hinner : Inside s style inner e)
    {after : List Kind}
    (hafter : firstKind after = .reserved .comma ∨ firstKind after = .reserved .closeBrace) :
    Accepts s (member inner) (style.write e) after (Pends e) := by
  have hvalue : Accepts s (inner >>= fun e => pure (.value e)) (style.write e) after (Pends e) :=
    (hinner.of_separator rfl hafter).then_silent fun read hread => accepts_pure (.value hread)
  obtain ⟨kind, rest, hwrite, -⟩ := style.begins_write he
  refine accepts_peek fun t hfirst => accepts_peekNext fun next hnext => ?_
  obtain ⟨first, span⟩ := t
  rw [hwrite] at hfirst hnext
  obtain rfl : first = kind := hfirst
  cases first with
  | var name =>
    rcases style.write_of_var he hwrite with ⟨v, rfl⟩ | ⟨w, others, rfl, hw⟩
    · rw [Style.write] at hwrite ⊢
      cases hwrite
      have hnext : next.kind = firstKind after := hnext
      refine accepts_if_neg ?_ (accepts_if_pos ?_ ?_)
      · rw [is_iff_kind, hnext]
        rcases hafter with hafter | hafter <;> simp [hafter]
      · rw [Bool.or_eq_true, is_iff_kind, is_iff_kind, hnext]
        exact hafter
      · exact accepts_advance (by simp) fun _ _ => accepts_pure .name
    · have hnext : next.kind = .reserved w := hnext
      refine accepts_if_neg ?_ (accepts_if_neg ?_ hvalue)
      · rw [is_iff_kind, hnext]
        rintro ⟨⟩
        cases hw
      · rw [Bool.or_eq_true, is_iff_kind, is_iff_kind, hnext]
        rintro (⟨⟨⟩⟩ | ⟨⟨⟩⟩) <;> cases hw
  | _ => exact hvalue

/-- The variables among the members are looked up. -/
theorem accepts_resolveMembers {members : List (Expr × Bool)} {pendings : List Pending}
    (hmembers : ∀ m ∈ members, Checked s.names m.1) (hplain : ∀ m ∈ members, m.2 = false)
    (hpends : List.Forall₂ Pends (members.map Prod.fst) pendings) :
    Accepts s (resolveMembers pendings []) [] later
      fun read => Expr.unplacedMembers read = Expr.unplacedMembers members := by
  induction members generalizing pendings with
  | nil =>
    cases hpends
    exact accepts_pure rfl
  | cons member rest ih =>
    obtain ⟨e, declares⟩ := member
    obtain rfl : declares = false := hplain _ List.mem_cons_self
    rw [List.map_cons, List.forall₂_cons_left_iff] at hpends
    obtain ⟨pending, others, hfirst, hrest, rfl⟩ := hpends
    have hresolved : ∀ first, Alike e first →
        Accepts s (resolveMembers others [] >>= fun read => pure ((first, false) :: read)) [] later
          fun read => Expr.unplacedMembers read = Expr.unplacedMembers ((e, false) :: rest) := by
      intro first halike
      refine (ih (fun m hm => hmembers m (.tail _ hm)) (fun m hm => hplain m (.tail _ hm))
        hrest).then_silent fun read hread => accepts_pure ?_
      rw [Expr.unplacedMembers, hread, Expr.unplacedMembers, halike]
    cases hfirst with
    | name =>
      cases hmembers _ List.mem_cons_self with
      | var hfound hsame =>
        refine (accepts_lookup hfound _).silent_bind ?_
        rintro _ rfl
        exact hresolved _ (congrArg Expr.var hsame)
    | value halike => exact hresolved _ halike

theorem accepts_groupTys (members : List Pending) (hcolon : firstKind later ≠ .reserved .colon) :
    Accepts s (groupTys members) [] later fun tys => tys = [] :=
  accepts_at? false (by simpa using hcolon) (accepts_if_neg (by simp) (accepts_pure rfl))

theorem accepts_vector {members : List (Expr × Bool)} {span : Span}
    (hmembers : ∀ m ∈ members, Checked s.names m.1) (hplain : ∀ m ∈ members, m.2 = false)
    (hinner : ∀ m ∈ members, Inside s style inner m.1) (hfuel : members.length ≤ fuel)
    (hcolon : firstKind later ≠ .reserved .colon) :
    Accepts s (primaryWith inner fuel) (style.write (.vector members span)) later
      (Alike (.vector members span)) := by
  have hread : Accepts s (items .closeBrace (member inner) fuel)
      (elements (style.trailing span) ((members.map Prod.fst).map style.write))
      (.reserved .closeBrace :: later) (List.Forall₂ Pends (members.map Prod.fst)) := by
    refine accepts_items (by simp) _ _ ?_ ?_ (by simpa using hfuel)
    · intro e he after hafter
      obtain ⟨m, hm, rfl⟩ := List.mem_map.mp he
      exact accepts_member (hmembers m hm) (hinner m hm) hafter
    · intro e he
      obtain ⟨m, hm, rfl⟩ := List.mem_map.mp he
      exact style.begins_ne (hmembers m hm) rfl
  have hpending : Accepts s (pendingMembers inner fuel)
      (enclosed .openBrace .closeBrace
        (elements (style.trailing span) ((members.map Prod.fst).map style.write))) later
      fun read => List.Forall₂ Pends (members.map Prod.fst) read.1 ∧ read.2 = [] := by
    refine accepts_consume fun _ _ => hread.bind fun pendings hpendings => ?_
    refine accepts_consume fun _ _ => (accepts_groupTys pendings hcolon).then_silent ?_
    exact fun tys htys => accepts_pure ⟨hpendings, htys⟩
  rw [Style.write, Style.writeMembers_eq]
  apply accepts_peek_cons
  intro place
  refine accepts_peek fun token _ => hpending.then_silent ?_
  rintro ⟨pendings, _⟩ ⟨hpendings, rfl⟩
  refine (accepts_resolveMembers hmembers hplain hpendings).silent_bind fun read hread => ?_
  exact accepts_pure (congrArg (Expr.vector · {}) hread)

/-! ### Functions -/

theorem accepts_builtin {f : Builtin} {args : List Expr} {span : Span} (htakes : Takes f args)
    (hinner : ∀ e ∈ args, Inside s style inner e) :
    Accepts s (primaryWith inner fuel) (style.write (.builtin f args span)) later
      (Alike (.builtin f args span)) := by
  have hcall : Accepts s (builtinCall f inner) (style.write (.builtin f args span)) later
      (Alike (.builtin f args span)) := by
    have hclosing : ∀ (read : List Expr) (place : Span), List.Forall₂ Alike args read →
        Accepts s (consume .closeParen >>= fun _ => pure (Expr.builtin f read place))
          [.reserved .closeParen] later (Alike (.builtin f args span)) := by
      intro read place hread
      refine accepts_consume fun _ _ => accepts_pure ?_
      exact congrArg (Expr.builtin f · {}) (Expr.unplacedEach_of_alike hread)
    rw [Style.write, Style.writeEach_eq]
    refine accepts_advance (by simp) fun token _ => accepts_consume fun _ _ => ?_
    cases htakes with
    | sqrt he | exp he =>
      refine (hinner _ List.mem_cons_self _ rfl).bind fun first hfirst => ?_
      refine (accepts_checkNumeric (hfirst.ty_eq ▸ he)).silent_bind fun _ _ => ?_
      exact hclosing [first] _ (.cons hfirst .nil)
    | length he | sum he =>
      refine (hinner _ List.mem_cons_self _ rfl).bind fun first hfirst => ?_
      refine (accepts_checkList (hfirst.ty_eq ▸ he)).silent_bind fun _ _ => ?_
      exact hclosing [first] _ (.cons hfirst .nil)
    | @nth i l hi hl =>
      rw [List.map_cons, List.map_singleton, commas, commas, List.append_assoc, List.cons_append]
      refine (hinner i List.mem_cons_self _ rfl).bind fun first hfirst => ?_
      refine (accepts_checkNumeric (hfirst.ty_eq ▸ hi)).silent_bind fun _ _ => ?_
      apply accepts_consume
      intro _ _
      refine (hinner l (by simp) _ rfl).bind fun second hsecond => ?_
      refine (accepts_checkList (hsecond.ty_eq ▸ hl)).silent_bind fun _ _ => ?_
      exact hclosing [first, second] _ (.cons hfirst (.cons hsecond .nil))
  rw [Style.write] at hcall ⊢
  apply accepts_peek_cons
  intro place
  cases f <;> exact hcall

end Primary

/-! ### Chains of operators -/

theorem accepts_chain_stop {level : Level} {operand : Parse Expr} {fuel : Nat} {lhs : Expr}
    (hends : level.endsAt (firstKind later) = true) :
    Accepts s (chain level operand fuel lhs) [] later fun e => e = lhs := by
  cases fuel with
  | zero => exact accepts_pure rfl
  | succ fuel =>
    apply accepts_peek
    intro t hkind
    obtain ⟨kind, span⟩ := t
    obtain rfl : kind = firstKind later := hkind
    split
    · rename_i w hkind
      have hkind : firstKind later = .reserved w := hkind
      rw [hkind] at hends
      split
      · rename_i hop
        exact absurd (Level.level?_of_operator? hop) (Level.level?_of_endsAt hends)
      · exact accepts_pure rfl
    · exact accepts_pure rfl

/-- One operator and its second operand. -/
theorem accepts_chain_step {level : Level} {operand : Parse Expr} {fuel : Nat} {lhs : Expr}
    {w : Reserved} {op : BinaryOp} {exchanged : Bool} {R : Expr → Prop}
    (hop : level.operator? w = some (op, exchanged))
    (hoperand : Accepts s operand kinds (more ++ later) R)
    (htys : ∀ rhs, R rhs → op.isLogical = false → lhs.ty.MayBeNumber ∧ rhs.ty.MayBeNumber)
    (hrest : ∀ rhs span, R rhs → Accepts s (chain level operand fuel
      (if exchanged then .binary op rhs lhs span else .binary op lhs rhs span)) more later P) :
    Accepts s (chain level operand (fuel + 1) lhs) (.reserved w :: (kinds ++ more)) later P := by
  apply accepts_peek_cons
  intro span
  dsimp only
  rw [hop]
  refine accepts_advance (by simp) fun _ _ => hoperand.bind fun rhs hrhs => ?_
  have htys := htys rhs hrhs
  have hrest := hrest rhs span hrhs
  cases exchanged with
  | true =>
    refine (accepts_operation fun h => (htys h).symm).silent_bind ?_
    rintro _ rfl
    exact hrest
  | false =>
    refine (accepts_operation htys).silent_bind ?_
    rintro _ rfl
    exact hrest

/-! ### Levels -/

/-- The levels whose operators go to the left. -/
def Level.chained : Level → Bool
  | .not | .power | .unary => false
  | _ => true

theorem exprAt_chained {level : Level} (h : level.chained = true) (fuel : Nat) :
    exprAt (fuel + 1) level =
      exprAt fuel level.tighter >>= chain level (exprAt fuel level.tighter) fuel := by
  cases level with
  | not | power | unary => cases h
  | _ => rfl

/-- An operand of the level is read back, in front of a token where it ends. -/
def ReadsBack (s : State) (style : Style) (level : Level) (e : Expr) : Prop :=
  ∀ fuel later, 10 * (style.writeAt level e).length ≤ fuel + level.rank →
    level.endsAt (firstKind later) = true →
      Accepts s (exprAt fuel level) (style.writeAt level e) later (Alike e)

/-- The reader of the level gets through an expression in front, and what is left is the
    chain of operators after it.  Of its rounds no more are used up than there are tokens. -/
def Leads (s : State) (style : Style) (level : Level) (e : Expr) : Prop :=
  ∀ fuel more later P, 10 * (style.writeAt level e).length ≤ fuel + 1 + level.rank →
    level.tighter.endsAt (firstKind (more ++ later)) = true →
    (∀ read rounds, Alike e read → fuel ≤ rounds + (style.writeAt level e).length →
      Accepts s (chain level (exprAt fuel level.tighter) rounds read) more later P) →
      Accepts s (exprAt (fuel + 1) level) (style.writeAt level e ++ more) later P

/-- Some fuel is needed. -/
theorem fuel_pos {level : Level} {fuel : Nat} (he : Checked s.names e)
    (hfuel : 10 * (style.writeAt level e).length ≤ fuel + level.rank) : ∃ n, fuel = n + 1 := by
  obtain ⟨kind, rest, hwrite, -⟩ := style.begins_writeAt he level
  have hrank := level.rank_le
  rw [hwrite, List.length_cons] at hfuel
  exact ⟨fuel - 1, by omega⟩

section Climbing

variable {level : Level}

theorem Leads.of_tighter (hchained : level.chained = true) (hlevel : e.level ≠ level)
    (h : ReadsBack s style level.tighter e) : Leads s style level e := by
  intro fuel more later P hfuel hends hchain
  have hunary : level ≠ .unary := by
    rintro rfl
    cases hchained
  have hwrite := style.writeAt_tighter hunary hlevel
  have hrank := Level.rank_tighter hunary
  have hfirst := h fuel (more ++ later) (by rw [hwrite]; omega) hends
  rw [hwrite] at hfirst
  rw [exprAt_chained hchained]
  exact hfirst.bind fun read hread => hchain read fuel hread (Nat.le_add_right _ _)

theorem Leads.readsBack (he : Checked s.names e) (hunary : level ≠ .unary)
    (h : Leads s style level e) : ReadsBack s style level e := by
  intro fuel later hfuel hends
  obtain ⟨fuel, rfl⟩ := fuel_pos he hfuel
  have hrank := Level.rank_tighter hunary
  rw [← List.append_nil (style.writeAt level e)]
  refine h fuel [] later _ hfuel (Level.endsAt_mono (by omega) hends) fun read rounds hread _ => ?_
  refine (accepts_chain_stop hends).mono ?_
  rintro _ rfl
  exact hread

theorem ReadsBack.looser (he : Checked s.names e) (hunary : level ≠ .unary)
    (hlevel : e.level ≠ level) (h : ReadsBack s style level.tighter e) :
    ReadsBack s style level e := by
  by_cases hchained : level.chained = true
  · exact (Leads.of_tighter hchained hlevel h).readsBack he hunary
  · intro fuel later hfuel hends
    obtain ⟨fuel, rfl⟩ := fuel_pos he hfuel
    have hwrite := style.writeAt_tighter hunary hlevel
    have hrank := Level.rank_tighter hunary
    have hoperand := h fuel later (by rw [hwrite]; omega) (Level.endsAt_mono (by omega) hends)
    cases level with
    | not =>
      obtain ⟨kind, rest, hbegin, hbegins⟩ := style.begins_writeAt he Level.not.tighter
      rw [hwrite] at hoperand hbegin
      refine accepts_peek fun t ht => accepts_if_neg ?_ hoperand
      rw [is_iff_kind, ht, hbegin]
      intro hkind
      obtain rfl : kind = .reserved .not := hkind
      cases hbegins
    | power =>
      rw [hwrite] at hoperand
      refine hoperand.then_silent fun base hbase => accepts_peek fun t ht => ?_
      refine accepts_if_neg ?_ (accepts_pure hbase)
      rw [is_iff_kind, ht]
      intro hkind
      have hkind : firstKind later = .reserved .power := hkind
      rw [hkind] at hends
      cases hends
    | unary => exact absurd rfl hunary
    | _ => exact absurd rfl hchained

end Climbing

theorem accepts_unary {fuel : Nat} (hminus : firstKind (kinds ++ later) ≠ .reserved .minus)
    (h : Accepts s (primaryWith (exprAt fuel .or) fuel) kinds later P) :
    Accepts s (exprAt (fuel + 1) .unary) kinds later P :=
  accepts_peek fun t ht => accepts_if_neg (by rw [is_iff_kind, ht]; exact hminus) h

/-- In parentheses an expression can stand everywhere. -/
theorem ReadsBack.in_parens (he : Checked s.names e) (hlevel : e.level ≠ .unary)
    (h : ReadsBack s style .or e) : ReadsBack s style .unary e := by
  intro fuel later hfuel hends
  obtain ⟨fuel, rfl⟩ := fuel_pos he hfuel
  have hne : e.level.rank ≠ Level.unary.rank := fun heq => hlevel (Level.rank_inj.mp heq)
  have hlt : e.level.rank < Level.unary.rank := Nat.lt_of_le_of_ne e.level.rank_le hne
  have hrank : Level.unary.rank = 8 := rfl
  rw [style.writeAt_of_lt hlt] at hfuel ⊢
  rw [length_enclosed] at hfuel
  refine accepts_unary (by simp [firstKind, enclosed]) (accepts_parens ?_)
  exact h fuel _ (by rw [style.writeAt_or]; omega) rfl

/-- The expression is read back wherever it can stand. -/
structure Recovered (s : State) (style : Style) (e : Expr) : Prop where
  operand : ∀ level, ReadsBack s style level e
  lead : ∀ level : Level, level.chained = true → Leads s style level e

/-- From its own level an expression gets to all others: to the looser ones as it is, and to
    the tighter ones in parentheses. -/
theorem Recovered.of_own (he : Checked s.names e) (hown : ReadsBack s style e.level e)
    (hlead : e.level.chained = true → Leads s style e.level e) : Recovered s style e := by
  have hlooser : ∀ level : Level, level.rank ≤ e.level.rank → ReadsBack s style level e := by
    intro level hle
    refine Level.induction_looser (P := fun level => ReadsBack s style level e) hown
      (fun level hlt h => h.looser he ?_ ?_) hle
    · rintro rfl
      exact absurd hlt (Nat.not_lt.mpr e.level.rank_le)
    · rintro rfl
      exact absurd hlt (Nat.lt_irrefl _)
  have hunary : ReadsBack s style .unary e := by
    by_cases h : e.level = .unary
    · rw [← h]
      exact hown
    · exact (hlooser .or (Nat.zero_le _)).in_parens he h
  have hall : ∀ level, ReadsBack s style level e := by
    intro level
    rcases Nat.lt_or_ge e.level.rank level.rank with hlt | hle
    · refine Level.induction_looser (P := fun level => e.level.rank < level.rank →
        ReadsBack s style level e) (fun _ => hunary) ?_ level.rank_le hlt
      intro level hlevel h hlt
      have hne : level ≠ .unary := by
        rintro rfl
        exact absurd hlevel (Nat.lt_irrefl _)
      have hrank := Level.rank_tighter hne
      refine (h (by omega)).looser he hne ?_
      rintro rfl
      exact absurd hlt (Nat.lt_irrefl _)
    · exact hlooser level hle
  refine ⟨hall, fun level hchained => ?_⟩
  by_cases h : e.level = level
  · rw [← h] at hchained ⊢
    exact hlead hchained
  · exact Leads.of_tighter hchained h (hall _)

/-! ### Trees -/

theorem Recovered.inside (h : Recovered s style e) {fuel : Nat}
    (hfuel : 10 * (style.write e).length ≤ fuel) : Inside s style (exprAt fuel .or) e :=
  fun after hends => h.operand .or fuel after hfuel hends

/-- What begins with neither `-` nor `not` and has no operator outside of brackets. -/
theorem Recovered.of_primary (he : Checked s.names e) (hlevel : e.level = .unary)
    (hminus : ∀ rest, style.write e ≠ .reserved .minus :: rest)
    (h : ∀ fuel later, 10 * (style.write e).length ≤ fuel + 9 →
      firstKind later ≠ .reserved .colon →
        Accepts s (primaryWith (exprAt fuel .or) fuel) (style.write e) later (Alike e)) :
    Recovered s style e := by
  have hwrite : style.writeAt e.level e = style.write e := style.writeAt_of_le (Nat.le_refl _)
  refine .of_own he ?_ fun hchained => ?_
  · intro fuel later hfuel hends
    obtain ⟨fuel, rfl⟩ := fuel_pos he hfuel
    rw [hwrite, hlevel] at hfuel
    rw [hwrite, hlevel]
    refine accepts_unary ?_ (h fuel later hfuel (Level.ne_colon_of_endsAt hends))
    obtain ⟨kind, rest, hbegin, -⟩ := style.begins_write he
    rw [hbegin]
    intro hkind
    obtain rfl : kind = .reserved .minus := hkind
    exact hminus rest hbegin
  · rw [hlevel] at hchained
    cases hchained

theorem recovered_not {operand : Expr} {span : Span} (he : Checked s.names operand)
    (h : Recovered s style operand) : Recovered s style (.unary .not operand span) := by
  have hread : ReadsBack s style .not (.unary .not operand span) := by
    intro fuel later hfuel hends
    obtain ⟨fuel, rfl⟩ := fuel_pos (.not he) hfuel
    have hrank : Level.not.rank = 2 := rfl
    rw [Style.writeAt_not] at hfuel ⊢
    rw [List.length_cons, length_enclosed] at hfuel
    refine accepts_peek fun t ht => accepts_if_pos (is_iff_kind.mpr ht) ?_
    refine accepts_advance (by simp) fun _ _ => accepts_consume fun _ _ => ?_
    refine (h.inside (by omega) _ rfl).bind fun read halike => ?_
    refine accepts_consume fun _ _ => accepts_pure ?_
    exact congrArg (Expr.unary .not · {}) halike
  exact .of_own (.not he) hread fun hchained => by cases hchained

theorem recovered_neg {operand : Expr} {span : Span} (he : Checked s.names operand)
    (hty : operand.ty.MayBeNumber) (h : Recovered s style operand) :
    Recovered s style (.unary .neg operand span) := by
  have hread : ReadsBack s style .unary (.unary .neg operand span) := by
    intro fuel later hfuel hends
    obtain ⟨fuel, rfl⟩ := fuel_pos (.neg he hty) hfuel
    rw [Style.writeAt_neg] at hfuel ⊢
    rw [List.length_cons] at hfuel
    refine accepts_peek fun t ht => accepts_if_pos (is_iff_kind.mpr ht) ?_
    apply accepts_advance (by simp)
    intro _ _
    refine (h.operand .unary fuel later (by omega) hends).then_silent fun read halike => ?_
    refine (accepts_checkNumeric (halike.ty_eq ▸ hty)).silent_bind fun _ _ => accepts_pure ?_
    exact congrArg (Expr.unary .neg · {}) halike
  exact .of_own (.neg he hty) hread fun hchained => by cases hchained

section Binary

variable {op : BinaryOp} {lhs rhs : Expr} {span : Span}

/-- The operands of what is read stand where they stood before they were written. -/
theorem alike_binary {first second : Expr} {place : Span}
    (hfirst : Alike (style.operands op span lhs rhs).1 first)
    (hsecond : Alike (style.operands op span lhs rhs).2 second) :
    Alike (.binary op lhs rhs span)
      (if style.exchanges op span then .binary op second first place
        else .binary op first second place) := by
  rw [Style.operands] at hfirst hsecond
  cases hexchanges : style.exchanges op span with
  | true =>
    rw [hexchanges] at hfirst hsecond
    exact congrArg₂ (Expr.binary op · · {}) hsecond hfirst
  | false =>
    rw [hexchanges] at hfirst hsecond
    exact congrArg₂ (Expr.binary op · · {}) hfirst hsecond

theorem mayBeNumber_operands
    (htys : op.isLogical = false → lhs.ty.MayBeNumber ∧ rhs.ty.MayBeNumber)
    {first second : Expr} (hfirst : Alike (style.operands op span lhs rhs).1 first)
    (hsecond : Alike (style.operands op span lhs rhs).2 second) (hop : op.isLogical = false) :
    first.ty.MayBeNumber ∧ second.ty.MayBeNumber := by
  obtain ⟨hlhs, hrhs⟩ := htys hop
  rw [hfirst.ty_eq, hsecond.ty_eq]
  exact style.operands_forall (P := fun e => e.ty.MayBeNumber) op span hlhs hrhs

theorem leads_binary (hop : op ≠ .pow) (hlhs : Recovered s style lhs) (hrhs : Recovered s style rhs)
    (htys : op.isLogical = false → lhs.ty.MayBeNumber ∧ rhs.ty.MayBeNumber) (span : Span) :
    Leads s style op.level (.binary op lhs rhs span) := by
  obtain ⟨hfirst, hsecond⟩ := style.operands_forall op span hlhs hrhs
  have hchained : op.level.chained = true := by
    cases op with
    | pow => exact absurd rfl hop
    | _ => rfl
  have hrank := Level.rank_tighter op.level_ne_unary
  have hle := op.level.rank_le
  intro fuel more later P hfuel hends hchain
  rw [Style.writeAt_binary, BinaryOp.leftLevel_eq hop, BinaryOp.rightLevel_eq hop]
    at hfuel hchain ⊢
  rw [List.length_append, List.length_cons] at hfuel hchain
  rw [List.append_assoc, List.cons_append]
  -- the first operand leads to the rest of the chain, which begins with this operator
  refine hfirst.lead op.level hchained fuel _ later P (by omega)
    (Level.endsAt_tighter op.level_ne_unary (style.level?_word op span)) ?_
  intro first rounds halike hrounds
  obtain ⟨rounds, rfl⟩ : ∃ n, rounds = n + 1 := ⟨rounds - 1, by omega⟩
  refine accepts_chain_step (style.operator?_word hop span)
    (hsecond.operand op.level.tighter fuel _ (by omega) hends)
    (fun second => mayBeNumber_operands htys halike) fun second place hsecond => ?_
  exact hchain _ rounds (alike_binary halike hsecond) (by omega)

theorem readsBack_pow (he : Checked s.names (.binary .pow lhs rhs span))
    (hlhs : Recovered s style lhs) (hrhs : Recovered s style rhs)
    (htys : lhs.ty.MayBeNumber ∧ rhs.ty.MayBeNumber) :
    ReadsBack s style .power (.binary .pow lhs rhs span) := by
  intro fuel later hfuel hends
  obtain ⟨fuel, rfl⟩ := fuel_pos he hfuel
  have hwrite : style.writeAt .power (.binary .pow lhs rhs span) =
      style.writeAt .unary lhs ++ .reserved .power :: style.writeAt .power rhs :=
    style.writeAt_binary .pow lhs rhs span
  have hpower : Level.power.rank = 7 := rfl
  have hunary : Level.unary.rank = 8 := rfl
  rw [hwrite] at hfuel ⊢
  rw [List.length_append, List.length_cons] at hfuel
  refine (hlhs.operand .unary fuel _ (by omega) rfl).bind fun base hbase => ?_
  refine accepts_peek fun t ht => accepts_if_pos (is_iff_kind.mpr ht) ?_
  apply accepts_advance (by simp)
  intro _ _
  refine (hrhs.operand .power fuel later (by omega) hends).then_silent fun exponent hexponent => ?_
  refine (accepts_operation fun _ => ?_).mono ?_
  · rw [hbase.ty_eq, hexponent.ty_eq]
    exact htys
  · rintro _ rfl
    exact congrArg₂ (Expr.binary .pow · · {}) hbase hexponent

theorem recovered_binary (he : Checked s.names (.binary op lhs rhs span))
    (hlhs : Recovered s style lhs) (hrhs : Recovered s style rhs)
    (htys : op.isLogical = false → lhs.ty.MayBeNumber ∧ rhs.ty.MayBeNumber) :
    Recovered s style (.binary op lhs rhs span) := by
  by_cases hop : op = .pow
  · subst hop
    exact .of_own he (readsBack_pow he hlhs hrhs (htys rfl)) fun hchained => by cases hchained
  · have hlead := leads_binary hop hlhs hrhs htys span
    exact .of_own he (hlead.readsBack he op.level_ne_unary) fun _ => hlead

end Binary

/-- For what stands in brackets there is fuel left, and there are rounds enough. -/
theorem inside_elements {items : List Expr} {trailing : Bool} {opening closing : Reserved}
    {fuel : Nat} (hitems : ∀ e ∈ items, Checked s.names e) (ih : ∀ e ∈ items, Recovered s style e)
    (hfuel : 10 * (enclosed opening closing
      (elements trailing (items.map style.write))).length ≤ fuel + 9) :
    (∀ e ∈ items, Inside s style (exprAt fuel .or) e) ∧ items.length ≤ fuel := by
  rw [length_enclosed] at hfuel
  constructor
  · intro e he
    have hlength := length_le_elements trailing (List.mem_map_of_mem (f := style.write) he)
    exact (ih e he).inside (by omega)
  · have hsome : ∀ part ∈ items.map style.write, part ≠ [] :=
      List.forall_mem_map.mpr fun e he => style.write_ne_nil (hitems e he)
    have hcount := count_le_elements trailing hsome
    rw [List.length_map] at hcount
    omega

/-- **Every expression is recovered.** -/
theorem recovered (h : Checked s.names e) : Recovered s style e := by
  induction h with
  | number | string | atom =>
    refine .of_primary (by constructor) rfl (by simp [Style.write]) fun fuel later _ _ => ?_
    rw [Style.write]
    apply accepts_peek_cons
    intro place
    exact accepts_single (by simp) rfl
  | @bool value span =>
    refine .of_primary .bool rfl (by cases value <;> simp [Style.write]) fun fuel later _ _ => ?_
    rw [Style.write]
    apply accepts_peek_cons
    intro place
    cases value <;> exact accepts_single (by simp) rfl
  | @var v found hfound hsame =>
    refine .of_primary (.var hfound hsame) rfl (by simp [Style.write]) fun fuel later _ hcolon => ?_
    rw [Style.write]
    apply accepts_peek_cons
    intro place
    exact accepts_variableExpr hfound hsame hcolon place
  | @list items span hitems ih =>
    refine .of_primary (.list hitems) rfl (by simp [Style.write, enclosed]) ?_
    intro fuel later hfuel _
    rw [Style.write, Style.writeEach_eq] at hfuel
    obtain ⟨hinside, hcount⟩ := inside_elements hitems ih hfuel
    exact accepts_list hitems hinside hcount
  | @vector members span hmembers hplain ih =>
    refine .of_primary (.vector hmembers hplain) rfl (by simp [Style.write, enclosed]) ?_
    intro fuel later hfuel hcolon
    rw [Style.write, Style.writeMembers_eq] at hfuel
    obtain ⟨hinside, hcount⟩ := inside_elements (List.forall_mem_map.mpr hmembers)
      (List.forall_mem_map.mpr ih) hfuel
    rw [List.length_map] at hcount
    exact accepts_vector hmembers hplain (List.forall_mem_map.mp hinside) hcount hcolon
  | not he ih => exact recovered_not he ih
  | neg he hty ih => exact recovered_neg he hty ih
  | binary hlhs hrhs htys ihlhs ihrhs =>
    exact recovered_binary (.binary hlhs hrhs htys) ihlhs ihrhs htys
  | @builtin f args span hargs htakes ih =>
    have hminus : functionWord f ≠ .minus := by cases f <;> simp [functionWord]
    refine .of_primary (.builtin hargs htakes) rfl (by simp [Style.write, hminus]) ?_
    intro fuel later hfuel _
    rw [Style.write, Style.writeEach_eq, ← elements_false, List.length_cons] at hfuel
    have hfuel : 10 * (enclosed .openParen .closeParen
        (elements false (args.map style.write))).length ≤ fuel + 9 := by omega
    exact accepts_builtin htakes (inside_elements hargs ih hfuel).1

theorem run_enough (s : State) (g : Nat → Parse Expr) :
    (enough >>= g).run s = (g (16 * (s.rest.length + 1))).run s := rfl

/-- **An expression is read back from the tokens that it is written as.**  In front of a
    token with which no expression goes on, exactly these tokens are taken, whatever style
    they are written in; there is no complaint and no new variable, and what is read is the
    same tree but for the places. -/
theorem expression_of_written (style : Style) {s : State} {e : Expr} {tokens later : List Token}
    (he : Checked s.names e) (htokens : tokens.map (·.kind) = style.write e)
    (hrest : s.rest = tokens ++ later) (hlater : continues (later.headD noToken).kind = false) :
    ∃ read, read.unplaced = e.unplaced ∧
      expression.run s = (read, { s with rest := later, last := tokens.getLast? }) := by
  have hends : Level.or.endsAt (firstKind (later.map (·.kind))) = true := by
    rw [← kind_headD]
    exact Level.endsAt_of_not_continues hlater .or
  have hlength : (style.write e).length = tokens.length := by rw [← htokens, List.length_map]
  have hread : Accepts s (exprAt (16 * (s.rest.length + 1)) .or) (style.write e)
      (later.map (·.kind)) (Alike e) := by
    refine (recovered he).inside ?_ _ hends
    rw [hlength, hrest, List.length_append]
    omega
  obtain ⟨read, halike, hrun⟩ := hread tokens later s.last htokens rfl
  refine ⟨read, halike, ?_⟩
  have hlast : tokens.getLast?.or s.last = tokens.getLast? := by
    have hsome : tokens ≠ [] := by
      rintro rfl
      exact style.write_ne_nil he htokens.symm
    rw [List.getLast?_eq_some_getLast hsome]
    rfl
  have hstart : s.facing s.last (tokens ++ later) = s := by
    rw [← hrest]
    rfl
  rw [hlast, hstart] at hrun
  rw [expression, run_enough, hrun]
  rfl

/-! A sample: `not(B > A) or {A, -A ^ 2 ^ B,} = [A - (A - B),]`. -/

def sampleVar (name : String) : Var := ⟨name, .integer, {}, .body, false, {}⟩

def sampleExpr : Expr :=
  let a := Expr.var (sampleVar "A")
  let b := Expr.var (sampleVar "B")
  let power := Expr.binary .pow (.unary .neg a {}) (.binary .pow (.number "2" {}) b {}) {}
  .binary .or (.unary .not (.binary .lt a b {}) {})
    (.binary .eq (.vector [(a, false), (power, false)] {})
      (.list [.binary .sub a (.binary .sub a b {}) {}] {}) {}) {}

def sampleStyle : Style := ⟨fun _ => true, fun _ => false, fun _ => true⟩

def sampleTokens : List Token :=
  [.reserved .not, .reserved .openParen, .var "B", .reserved .greater, .var "A",
    .reserved .closeParen, .reserved .or, .reserved .openBrace, .var "A", .reserved .comma,
    .reserved .minus, .var "A", .reserved .power, .number "2", .reserved .power, .var "B",
    .reserved .comma, .reserved .closeBrace, .reserved .equals, .reserved .openBracket, .var "A",
    .reserved .minus, .reserved .openParen, .var "A", .reserved .minus, .var "B",
    .reserved .closeParen, .reserved .comma, .reserved .closeBracket].map (⟨·, {}⟩)

def sampleState : State :=
  { rest := sampleTokens ++ [⟨.reserved .semicolon, {}⟩],
    locals := [sampleVar "A", sampleVar "B"] }

theorem checked_sampleExpr : Checked sampleState.names sampleExpr := by
  have hty : ∀ name, (Expr.var (sampleVar name)).ty.MayBeNumber := fun _ => .inr rfl
  have ha : Checked sampleState.names (.var (sampleVar "A")) := .var rfl rfl
  have hb : Checked sampleState.names (.var (sampleVar "B")) := .var rfl rfl
  have hexponent : Checked sampleState.names
      (.binary .pow (.number "2" {}) (.var (sampleVar "B")) {}) :=
    .binary .number hb fun _ => ⟨.inr rfl, hty "B"⟩
  have hpower : Checked sampleState.names (.binary .pow (.unary .neg (.var (sampleVar "A")) {})
      (.binary .pow (.number "2" {}) (.var (sampleVar "B")) {}) {}) :=
    .binary (.neg ha (hty "A")) hexponent fun _ => ⟨.inr rfl, .inr rfl⟩
  have hdifference : Checked sampleState.names (.binary .sub (.var (sampleVar "A"))
      (.binary .sub (.var (sampleVar "A")) (.var (sampleVar "B")) {}) {}) :=
    .binary ha (.binary ha hb fun _ => ⟨hty "A", hty "B"⟩) fun _ => ⟨hty "A", .inr rfl⟩
  refine .binary (.not (.binary ha hb fun h => by cases h))
    (.binary (.vector ?_ (by simp)) (.list ?_) fun h => by cases h) fun h => by cases h
  · exact List.forall_mem_cons.mpr ⟨ha, List.forall_mem_singleton.mpr hpower⟩
  · exact List.forall_mem_singleton.mpr hdifference

theorem expression_of_written_sample :
    sampleTokens.map (·.kind) = sampleStyle.write sampleExpr ∧
      ∃ read, read.unplaced = sampleExpr.unplaced ∧
        expression.run sampleState = (read, { sampleState with
          rest := [⟨.reserved .semicolon, {}⟩], last := sampleTokens.getLast? }) := by
  have htokens : sampleTokens.map (·.kind) = sampleStyle.write sampleExpr := rfl
  exact ⟨htokens, expression_of_written sampleStyle checked_sampleExpr htokens rfl rfl⟩

end CandidateSearch.Grammar
