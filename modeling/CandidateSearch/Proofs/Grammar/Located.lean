/-
  CandidateSearch/Proofs/Grammar/Located.lean
  ===========================================
  **What reading complains about is a token.**

  A complaint may be made long after the token that it is about has been read.  In

      {X, Y}: {bool} = {nth(true, []), 1};

  it shows only behind its closing brace that the type has too few members, and only at a
  comma that `true` is no index.  The span for such a complaint comes with what was read: an
  expression, a type, a member whose type is still to come.  So the rules follow two things
  at once: the state, whose complaints are all about tokens, and the result, whose spans are
  all those of tokens (`Locates`).

  There is one exception.  A semicolon that is missing at the end of the text is complained
  about on the line above the end token, if that is on another line than the token read last
  (`Blamed.above`).
-/
import CandidateSearch.Proofs.Grammar.Scopes

namespace CandidateSearch.Grammar

open Source Syntax

/-! ### Spans of tokens -/

/-- The span of one of the tokens. -/
def Covers (tokens : List Token) (span : Span) : Prop := ∃ t ∈ tokens, t.span = span

/-- What a complaint may point to. -/
inductive Blamed (tokens : List Token) : Span → Prop
  | token {span : Span} (h : Covers tokens span) : Blamed tokens span
  | above {last previous : Token} (hlast : last ∈ tokens) (heof : last.isEof = true)
      (hprevious : previous ∈ tokens) (hline : previous.span.line < last.span.line) :
      Blamed tokens (last.span.onLine (last.span.line - 1))

/-- The tokens that are left and the token read last are among the tokens given, an end
    token is still to come, and all complaints are about tokens. -/
structure State.Located (tokens : List Token) (s : State) : Prop where
  rest : ∀ t ∈ s.rest, t ∈ tokens
  ending : ∃ t ∈ s.rest, t.isEof = true
  last : ∀ t ∈ s.last, t ∈ tokens
  complaints : ∀ c ∈ s.complaints, Blamed tokens c.span

/-- The reader keeps to what is located, and what it gives has the property. -/
def Locates {α : Type} (tokens : List Token) (x : Parse α) (S : α → Prop) : Prop :=
  ∀ s : State, s.Located tokens → (x.run s).2.Located tokens ∧ S (x.run s).1

theorem covers_of_mem {tokens : List Token} {t : Token} (h : t ∈ tokens) : Covers tokens t.span :=
  ⟨t, h, rfl⟩

theorem blamed_of_mem {tokens : List Token} {t : Token} (h : t ∈ tokens) :
    Blamed tokens t.span := .token (covers_of_mem h)

section Rules

variable {α β : Type} {tokens : List Token} {x y item : Parse α} {f : α → Parse β}
  {S : α → Prop} {S' : β → Prop} {s : State} {span : Span}

theorem State.Located.head_mem (h : s.Located tokens) : s.head ∈ tokens := by
  obtain ⟨t, ht, -⟩ := h.ending
  cases hrest : s.rest with
  | nil => simp [hrest] at ht
  | cons first rest =>
    have hhead : s.head = first := by simp [State.head, hrest]
    rw [hhead]
    exact h.rest first (by simp [hrest])

theorem State.Located.moved (h : s.Located tokens) (heof : s.head.isEof = false) :
    s.moved.Located tokens := by
  refine ⟨fun t ht => h.rest t (List.mem_of_mem_tail ht), ?_, ?_, h.complaints⟩
  · obtain ⟨t, ht, hlast⟩ := h.ending
    rw [s.rest_eq heof] at ht
    rcases List.mem_cons.mp ht with rfl | ht
    · rw [heof] at hlast
      cases hlast
    · exact ⟨t, ht, hlast⟩
  · intro t ht
    obtain rfl := Option.some.inj ht
    exact h.head_mem

theorem State.Located.complain (h : s.Located tokens) {c : Complaint}
    (hc : Blamed tokens c.span) :
    ({ s with complaints := c :: s.complaints } : State).Located tokens :=
  ⟨h.rest, h.ending, h.last, List.forall_mem_cons.mpr ⟨hc, h.complaints⟩⟩

theorem locates_pure {a : α} (h : S a) : Locates tokens (pure a) S := fun _ hs => ⟨hs, h⟩

theorem Locates.bind (hx : Locates tokens x S) (hf : ∀ a, S a → Locates tokens (f a) S') :
    Locates tokens (x >>= f) S' :=
  fun s hs => hf _ (hx s hs).2 _ (hx s hs).1

theorem locates_if {c : Prop} [Decidable c] (hx : c → Locates tokens x S)
    (hy : ¬ c → Locates tokens y S) : Locates tokens (if c then x else y) S :=
  iteInduction (motive := (Locates tokens · S)) hx hy

theorem locates_ite {c : Prop} [Decidable c] (hx : Locates tokens x S)
    (hy : Locates tokens y S) : Locates tokens (if c then x else y) S :=
  locates_if (fun _ => hx) fun _ => hy

/-- A reader that only looks at the state. -/
theorem locates_look (h : ∀ s, (x.run s).2 = s) : Locates tokens x fun _ => True := by
  intro s hs
  rw [h s]
  exact ⟨hs, trivial⟩

theorem locates_peek : Locates tokens peek (· ∈ tokens) := fun _ hs => ⟨hs, hs.head_mem⟩

theorem locates_peekNext : Locates tokens peekNext fun _ => True := locates_look fun _ => rfl

theorem locates_at? (w : Reserved) : Locates tokens (at? w) fun _ => True :=
  locates_look fun _ => rfl

theorem locates_get : Locates tokens (get : Parse State) (State.Located tokens) :=
  fun _ hs => ⟨hs, hs⟩

theorem locates_remaining : Locates tokens remaining fun _ => True := locates_look fun _ => rfl

theorem locates_advance : Locates tokens advance (· ∈ tokens) := by
  intro s hs
  cases heof : s.head.isEof with
  | true =>
    rw [run_advance_of_eof heof]
    exact ⟨hs, hs.head_mem⟩
  | false =>
    rw [run_advance heof]
    exact ⟨hs.moved heof, hs.head_mem⟩

theorem locates_complain (problem : Problem) (h : Blamed tokens span) :
    Locates tokens (complain problem span) fun _ => True :=
  fun _ hs => ⟨hs.complain h, trivial⟩

/-- A check that complains or does nothing. -/
theorem locates_check {c : Prop} [Decidable c] (problem : Problem) (hspan : Covers tokens span) :
    Locates tokens (unless c do complain problem span) fun _ => True :=
  locates_ite (locates_pure trivial) (locates_complain problem (.token hspan))

/-- A reader that complains about the token at the cursor and skips it. -/
theorem locates_skip (problem : Token → Problem) {make : Token → α}
    (hmake : ∀ token ∈ tokens, S (make token)) :
    Locates tokens (do
      let token ← peek
      complain (problem token) token.span
      let _ ← advance
      return make token) S := by
  refine locates_peek.bind fun token htoken => ?_
  refine (locates_complain _ (blamed_of_mem htoken)).bind fun _ _ => ?_
  exact locates_advance.bind fun _ _ => locates_pure (hmake token htoken)

theorem locates_expect (w : Reserved) : Locates tokens (expect w) fun _ => True := by
  refine locates_peek.bind fun token htoken => locates_ite (locates_pure trivial) ?_
  exact (locates_complain _ (blamed_of_mem htoken)).bind fun _ _ => locates_pure trivial

theorem locates_consume (w : Reserved) : Locates tokens (consume w) (· ∈ tokens) :=
  (locates_expect w).bind fun _ _ => locates_advance

/-- **A missing semicolon** is all that may be complained about on another line. -/
theorem locates_terminator : Locates tokens terminator fun _ => True := by
  have hcomplain : ∀ (problem : Problem) {span : Span}, Blamed tokens span →
      Locates tokens (complain problem span >>= fun _ => pure false) fun _ => True :=
    fun problem _ h => (locates_complain problem h).bind fun _ _ => locates_pure trivial
  refine locates_peek.bind fun token htoken => locates_ite ?_ (locates_if ?_ ?_)
  · exact locates_advance.bind fun _ _ => locates_pure trivial
  · intro heof
    refine locates_get.bind fun s hs => locates_if ?_ fun _ => hcomplain _ (blamed_of_mem htoken)
    intro hline
    cases hlast : s.last with
    | none =>
      rw [hlast] at hline
      exact absurd hline (Nat.lt_irrefl _)
    | some previous =>
      rw [hlast] at hline
      exact hcomplain _ (.above htoken heof (hs.last previous hlast) hline)
  · intro _
    refine (locates_complain _ (blamed_of_mem htoken)).bind fun _ _ => ?_
    exact locates_advance.bind fun _ _ => locates_pure trivial

/-! ### Variables -/

theorem State.Located.add (h : s.Located tokens) (v : Var) (scope : Scope) :
    (s.add v scope).Located tokens := by
  cases scope <;> exact ⟨h.rest, h.ending, h.last, h.complaints⟩

theorem locates_declare (name : String) (ty : Ty) (scope : Scope) (input : Bool) {tySpan : Span}
    (hspan : Covers tokens span) (hty : Covers tokens tySpan) :
    Locates tokens (declare name span ty tySpan scope input) fun v => Covers tokens v.span := by
  intro s hs
  rw [run_declare]
  cases hfound : s.find? name with
  | some found =>
    by_cases hagrees : found.ty.compatible ty = true
    · simp only [hagrees, if_true]
      exact ⟨hs, hspan⟩
    · simp only [hagrees]
      exact ⟨hs.complain (.token hty), hspan⟩
  | none => exact ⟨hs.add _ scope, hspan⟩

theorem locates_lookup (name : String) (hspan : Covers tokens span) :
    Locates tokens (lookup name span) fun found => ∀ v ∈ found, Covers tokens v.span := by
  refine locates_get.bind fun s _ => ?_
  split
  · exact locates_pure fun v hv => by
      obtain rfl := Option.some.inj hv
      exact hspan
  · refine (locates_complain _ (.token hspan)).bind fun _ _ => ?_
    exact locates_pure fun v hv => by cases hv

/-! ### Repetition -/

theorem locates_itemsFrom (hitem : Locates tokens item S) (close : Reserved) (fuel : Nat) :
    Locates tokens (itemsFrom close item fuel) fun as => ∀ a ∈ as, S a := by
  induction fuel with
  | zero => exact locates_pure (by simp)
  | succ fuel ih =>
    refine hitem.bind fun first hfirst => (locates_at? .comma).bind fun comma _ => ?_
    have hone : Locates tokens (pure [first]) fun as => ∀ a ∈ as, S a :=
      locates_pure (List.forall_mem_singleton.mpr hfirst)
    refine locates_ite ?_ hone
    refine locates_peekNext.bind fun next _ => locates_advance.bind fun _ _ => locates_ite hone ?_
    exact ih.bind fun others hothers => locates_pure (List.forall_mem_cons.mpr ⟨hfirst, hothers⟩)

theorem locates_items (hitem : Locates tokens item S) (close : Reserved) (fuel : Nat) :
    Locates tokens (items close item fuel) fun as => ∀ a ∈ as, S a :=
  (locates_at? close).bind fun _ _ =>
    locates_ite (locates_pure (by simp)) (locates_itemsFrom hitem close fuel)

theorem locates_commaSeparated (hitem : Locates tokens item S) (fuel : Nat) :
    Locates tokens (commaSeparated item fuel) fun as => ∀ a ∈ as, S a := by
  induction fuel with
  | zero => exact locates_pure (by simp)
  | succ fuel ih =>
    refine hitem.bind fun first hfirst => (locates_at? .comma).bind fun comma _ => ?_
    refine locates_ite ?_ (locates_pure (List.forall_mem_singleton.mpr hfirst))
    refine locates_advance.bind fun _ _ => ih.bind fun others hothers => ?_
    exact locates_pure (List.forall_mem_cons.mpr ⟨hfirst, hothers⟩)

theorem locates_untilEndWord (hitem : Locates tokens item S) (fuel : Nat) :
    Locates tokens (untilEndWord item fuel) fun as => ∀ a ∈ as, S a := by
  induction fuel with
  | zero => exact locates_pure (by simp)
  | succ fuel ih =>
    refine locates_peek.bind fun token _ => locates_ite (locates_pure (by simp)) ?_
    refine hitem.bind fun first hfirst => ih.bind fun others hothers => ?_
    exact locates_pure (List.forall_mem_cons.mpr ⟨hfirst, hothers⟩)

theorem locates_untilEnd (hitem : Locates tokens item fun _ => True) (fuel : Nat) :
    Locates tokens (untilEnd item fuel) fun _ => True := by
  induction fuel with
  | zero => exact locates_pure trivial
  | succ fuel ih =>
    have hends : Locates tokens atEnd? fun _ => True := locates_look fun _ => rfl
    refine hends.bind fun _ _ => locates_ite (locates_pure trivial) ?_
    exact hitem.bind fun _ _ => ih.bind fun _ _ => locates_pure trivial

end Rules

section Readers

variable {tokens : List Token} {inner : Parse Expr} {span : Span}

/-! ### Types -/

/-- The annotation and the members of its type stand at tokens. -/
def Annotation.Covered (tokens : List Token) (written : Annotation) : Prop :=
  Covers tokens written.span ∧ ∀ m ∈ written.members, Covers tokens m.2

theorem locates_noAnnotation :
    Locates tokens noAnnotation fun written => written.Covered tokens :=
  locates_skip _ fun _ htoken => ⟨covers_of_mem htoken, by simp⟩

theorem locates_annotationMembers {annotated : Parse Annotation}
    (h : Locates tokens annotated fun written => written.Covered tokens) (close : Reserved)
    (fuel : Nat) :
    Locates tokens (annotationMembers close annotated fuel)
      fun members => ∀ m ∈ members, m.Covered tokens := by
  have hclosing : ∀ members : List Annotation, (∀ m ∈ members, m.Covered tokens) →
      Locates tokens (consume close >>= fun _ => pure members)
        fun members => ∀ m ∈ members, m.Covered tokens :=
    fun _ hmembers => (locates_consume close).bind fun _ _ => locates_pure hmembers
  have hnone : Locates tokens (pure [] : Parse (List Annotation))
      fun members => ∀ m ∈ members, m.Covered tokens := locates_pure (by simp)
  refine locates_peek.bind fun token _ => ?_
  dsimp only
  split
  · exact locates_ite ((locates_commaSeparated h fuel).bind hclosing) (hnone.bind hclosing)
  · exact hnone.bind hclosing

theorem locates_annotationAt (depth : Nat) :
    Locates tokens (annotationAt depth) fun written => written.Covered tokens := by
  induction depth with
  | zero => exact locates_noAnnotation
  | succ depth ih =>
    refine locates_peek.bind fun token htoken => ?_
    have hspan := covers_of_mem htoken
    split
    · refine locates_advance.bind fun _ _ => (locates_annotationMembers ih _ _).bind fun _ _ => ?_
      exact locates_pure ⟨hspan, by simp⟩
    · refine locates_advance.bind fun _ _ => ?_
      refine (locates_annotationMembers ih _ _).bind fun members hmembers => ?_
      refine locates_pure ⟨hspan, fun m hm => ?_⟩
      obtain ⟨written, hwritten, rfl⟩ := List.mem_map.mp hm
      exact (hmembers written hwritten).1
    · split
      · exact locates_advance.bind fun _ _ => locates_pure ⟨hspan, by simp⟩
      · exact locates_noAnnotation
    · exact locates_noAnnotation

theorem locates_annotation : Locates tokens annotation fun written => written.Covered tokens :=
  locates_remaining.bind fun _ _ => locates_annotationAt _

/-! ### Members of vectors -/

/-- All that may be complained about in a member stands at tokens. -/
def Pending.Covered (tokens : List Token) : Pending → Prop
  | .name _ span ty => Covers tokens span ∧ ∀ t ∈ ty, Covers tokens t.2
  | .value e => Covers tokens e.span

theorem locates_member (hinner : Locates tokens inner fun e => Covers tokens e.span) :
    Locates tokens (member inner) (Pending.Covered tokens) := by
  have hvalue : Locates tokens (inner >>= fun e => pure (Pending.value e))
      (Pending.Covered tokens) := hinner.bind fun e he => locates_pure he
  refine locates_peek.bind fun token htoken => locates_peekNext.bind fun next _ => ?_
  have hspan := covers_of_mem htoken
  split
  · refine locates_ite ?_ (locates_ite ?_ hvalue)
    · refine locates_advance.bind fun _ _ => locates_advance.bind fun _ _ => ?_
      refine locates_annotation.bind fun ty hty => locates_pure ⟨hspan, fun t ht => ?_⟩
      obtain rfl := Option.some.inj ht
      exact hty.1
    · exact locates_advance.bind fun _ _ => locates_pure ⟨hspan, fun t ht => by cases ht⟩
  · exact hvalue

theorem locates_groupTys (members : List Pending) :
    Locates tokens (groupTys members) fun tys => ∀ t ∈ tys, Covers tokens t.2 := by
  have hnone : Locates tokens (pure [] : Parse (List (Ty × Span)))
      fun tys => ∀ t ∈ tys, Covers tokens t.2 := locates_pure (by simp)
  refine (locates_at? .colon).bind fun colon _ => locates_ite ?_ hnone
  refine locates_advance.bind fun _ _ => locates_annotation.bind fun written hwritten => ?_
  have hblamed : Blamed tokens written.span := .token hwritten.1
  split
  · refine locates_ite (locates_pure hwritten.2) ?_
    exact (locates_complain _ hblamed).bind fun _ _ => hnone
  · exact hnone
  · exact (locates_complain _ hblamed).bind fun _ _ => hnone

theorem locates_pendingMembers (hinner : Locates tokens inner fun e => Covers tokens e.span)
    (fuel : Nat) : Locates tokens (pendingMembers inner fuel) fun read =>
      (∀ m ∈ read.1, m.Covered tokens) ∧ ∀ t ∈ read.2, Covers tokens t.2 := by
  refine (locates_consume .openBrace).bind fun _ _ => ?_
  refine (locates_items (locates_member hinner) .closeBrace fuel).bind fun members hmembers => ?_
  refine (locates_consume .closeBrace).bind fun _ _ => ?_
  exact (locates_groupTys members).bind fun tys htys => locates_pure ⟨hmembers, htys⟩

/-- The type of a member, its own or that of the group. -/
theorem covers_memberTy {own : Option (Ty × Span)} {tys : List (Ty × Span)}
    (hown : ∀ t ∈ own, Covers tokens t.2) (htys : ∀ t ∈ tys, Covers tokens t.2)
    {t : Ty × Span} (h : (own <|> tys.head?) = some t) : Covers tokens t.2 := by
  cases own with
  | some t' => exact hown t h
  | none => exact htys t (List.mem_of_head? h)

theorem locates_resolveMembers (members : List Pending) (tys : List (Ty × Span))
    (hmembers : ∀ m ∈ members, m.Covered tokens) (htys : ∀ t ∈ tys, Covers tokens t.2) :
    Locates tokens (resolveMembers members tys) fun _ => True := by
  induction members generalizing tys with
  | nil => exact locates_pure trivial
  | cons pending rest ih =>
    obtain ⟨hpending, hothers⟩ := List.forall_mem_cons.mp hmembers
    have hrest : ∀ resolved : Expr × Bool, Locates tokens
        (resolveMembers rest tys.tail >>= fun others => pure (resolved :: others))
        fun _ => True := by
      intro resolved
      have htail : ∀ t ∈ tys.tail, Covers tokens t.2 :=
        fun t ht => htys t (List.mem_of_mem_tail ht)
      exact (ih tys.tail hothers htail).bind fun _ _ => locates_pure trivial
    unfold resolveMembers
    dsimp only
    split
    · exact hrest _
    · split
      · rename_i hty
        have hcovered := covers_memberTy hpending.2 htys hty
        exact (locates_declare _ _ _ _ hpending.1 hcovered).bind fun v _ => hrest _
      · refine (locates_lookup _ hpending.1).bind fun found _ => ?_
        cases found with
        | some v => exact hrest _
        | none => exact hrest _

/-! ### Expressions -/

theorem locates_checkNumeric {e : Expr} (he : Covers tokens e.span) :
    Locates tokens (checkNumeric e) fun _ => True := locates_check _ he

theorem locates_checkList {e : Expr} (he : Covers tokens e.span) :
    Locates tokens (checkList e) fun _ => True := locates_check _ he

theorem locates_operation (op : BinaryOp) {lhs rhs : Expr} (hlhs : Covers tokens lhs.span)
    (hrhs : Covers tokens rhs.span) (hspan : Covers tokens span) :
    Locates tokens (operation op lhs rhs span) fun e => Covers tokens e.span := by
  unfold operation
  refine locates_ite (locates_pure hspan) ?_
  refine (locates_checkNumeric hlhs).bind fun _ _ => ?_
  exact (locates_checkNumeric hrhs).bind fun _ _ => locates_pure hspan

theorem locates_chain (level : Level) {operand : Parse Expr}
    (hoperand : Locates tokens operand fun e => Covers tokens e.span) (fuel : Nat) {lhs : Expr}
    (hlhs : Covers tokens lhs.span) :
    Locates tokens (chain level operand fuel lhs) fun e => Covers tokens e.span := by
  induction fuel generalizing lhs with
  | zero => exact locates_pure hlhs
  | succ fuel ih =>
    refine locates_peek.bind fun token htoken => ?_
    split
    · split
      · rename_i exchanged _
        refine locates_advance.bind fun _ _ => hoperand.bind fun rhs hrhs => ?_
        have hspan := covers_of_mem htoken
        cases exchanged with
        | true => exact (locates_operation _ hrhs hlhs hspan).bind fun e he => ih he
        | false => exact (locates_operation _ hlhs hrhs hspan).bind fun e he => ih he
      · exact locates_pure hlhs
    · exact locates_pure hlhs

theorem locates_builtinCall (f : Builtin)
    (hinner : Locates tokens inner fun e => Covers tokens e.span) :
    Locates tokens (builtinCall f inner) fun e => Covers tokens e.span := by
  refine locates_advance.bind fun token htoken => (locates_consume .openParen).bind fun _ _ => ?_
  have hclosing : ∀ args : List Expr,
      Locates tokens (consume .closeParen >>= fun _ => pure (Expr.builtin f args token.span))
        fun e => Covers tokens e.span :=
    fun _ => (locates_consume .closeParen).bind fun _ _ => locates_pure (covers_of_mem htoken)
  refine hinner.bind fun first hfirst => ?_
  cases f with
  | sqrt | exp => exact (locates_checkNumeric hfirst).bind fun _ _ => hclosing _
  | length | sum => exact (locates_checkList hfirst).bind fun _ _ => hclosing _
  | nth =>
    refine (locates_checkNumeric hfirst).bind fun _ _ => (locates_consume .comma).bind fun _ _ => ?_
    exact hinner.bind fun list hlist => (locates_checkList hlist).bind fun _ _ => hclosing _

theorem locates_list (hinner : Locates tokens inner fun e => Covers tokens e.span) (fuel : Nat) :
    Locates tokens (list inner fuel) fun e => Covers tokens e.span := by
  refine (locates_consume .openBracket).bind fun token htoken => ?_
  refine (locates_items hinner .closeBracket fuel).bind fun elements _ => ?_
  exact (locates_consume .closeBracket).bind fun _ _ => locates_pure (covers_of_mem htoken)

theorem locates_vector (hinner : Locates tokens inner fun e => Covers tokens e.span)
    (fuel : Nat) : Locates tokens (vector inner fuel) fun e => Covers tokens e.span := by
  refine locates_peek.bind fun token htoken => ?_
  refine (locates_pendingMembers hinner fuel).bind fun read hread => ?_
  refine (locates_resolveMembers read.1 read.2 hread.1 hread.2).bind fun _ _ => ?_
  exact locates_pure (covers_of_mem htoken)

theorem locates_variableExpr (name : String) (hspan : Covers tokens span) :
    Locates tokens (variableExpr name span) fun e => Covers tokens e.span := by
  refine locates_advance.bind fun _ _ => (locates_at? .colon).bind fun colon _ => ?_
  refine locates_ite ?_ ?_
  · refine locates_advance.bind fun _ _ => locates_annotation.bind fun ty hty => ?_
    exact (locates_declare _ _ _ _ hspan hty.1).bind fun v hv => locates_pure hv
  · refine (locates_lookup name hspan).bind fun found hfound => ?_
    cases found with
    | some v => exact locates_pure (hfound v rfl)
    | none => exact locates_pure hspan

theorem locates_noExpression : Locates tokens noExpression fun e => Covers tokens e.span :=
  locates_skip _ fun _ htoken => covers_of_mem htoken

theorem locates_single {e : Expr} (he : Covers tokens e.span) :
    Locates tokens (single e) fun e => Covers tokens e.span :=
  locates_advance.bind fun _ _ => locates_pure he

theorem locates_primaryWith (hinner : Locates tokens inner fun e => Covers tokens e.span)
    (fuel : Nat) : Locates tokens (primaryWith inner fuel) fun e => Covers tokens e.span := by
  refine locates_peek.bind fun token htoken => ?_
  have hspan := covers_of_mem htoken
  split
  · split
    · exact locates_builtinCall _ hinner
    · split
      · refine locates_advance.bind fun _ _ => hinner.bind fun e he => ?_
        exact (locates_consume .closeParen).bind fun _ _ => locates_pure he
      · exact locates_list hinner fuel
      · exact locates_vector hinner fuel
      · exact locates_single hspan
      · exact locates_single hspan
      · exact locates_noExpression
  · exact locates_single hspan
  · exact locates_single hspan
  · exact locates_single hspan
  · exact locates_variableExpr _ hspan
  · exact locates_noExpression
  · exact locates_noExpression

/-- **An expression** stands at one of its tokens, and so does all there is to complain about
    in it. -/
theorem locates_exprAt (fuel : Nat) (level : Level) :
    Locates tokens (exprAt fuel level) fun e => Covers tokens e.span := by
  induction fuel generalizing level with
  | zero => exact locates_noExpression
  | succ fuel ih =>
    have hchain : ∀ level : Level, Locates tokens (exprAt fuel level.tighter >>=
        chain level (exprAt fuel level.tighter) fuel) fun e => Covers tokens e.span :=
      fun level => (ih level.tighter).bind fun first hfirst =>
        locates_chain level (ih _) fuel hfirst
    cases level with
    | not =>
      refine locates_peek.bind fun token htoken => locates_ite ?_ (ih .equality)
      refine locates_advance.bind fun _ _ => (locates_consume .openParen).bind fun _ _ => ?_
      refine (ih .or).bind fun operand _ => (locates_consume .closeParen).bind fun _ _ => ?_
      exact locates_pure (covers_of_mem htoken)
    | power =>
      refine (ih .unary).bind fun base hbase => locates_peek.bind fun token htoken => ?_
      refine locates_ite ?_ (locates_pure hbase)
      refine locates_advance.bind fun _ _ => (ih .power).bind fun exponent hexponent => ?_
      exact locates_operation _ hbase hexponent (covers_of_mem htoken)
    | unary =>
      refine locates_peek.bind fun token htoken =>
        locates_ite ?_ (locates_primaryWith (ih .or) fuel)
      refine locates_advance.bind fun _ _ => (ih .unary).bind fun operand hoperand => ?_
      exact (locates_checkNumeric hoperand).bind fun _ _ => locates_pure (covers_of_mem htoken)
    | or => exact hchain .or
    | and => exact hchain .and
    | equality => exact hchain .equality
    | relational => exact hchain .relational
    | additive => exact hchain .additive
    | multiplicative => exact hchain .multiplicative

theorem locates_enough : Locates tokens enough fun _ => True := locates_look fun _ => rfl

theorem locates_expression : Locates tokens expression fun e => Covers tokens e.span :=
  locates_enough.bind fun fuel _ => locates_exprAt fuel .or

theorem locates_primary : Locates tokens primary fun e => Covers tokens e.span :=
  locates_enough.bind fun fuel _ => locates_primaryWith (locates_exprAt fuel .or) fuel

/-! ### Statements -/

theorem locates_bound : Locates tokens bound fun _ => True :=
  locates_expression.bind fun _ he => (locates_checkNumeric he).bind fun _ _ => locates_pure trivial

theorem locates_arm : Locates tokens arm fun _ => True :=
  locates_expression.bind fun _ _ => (locates_consume .arrow).bind fun _ _ =>
    locates_expression.bind fun _ _ => locates_pure trivial

theorem locates_rhs : Locates tokens rhs fun value => Covers tokens value.span := by
  refine locates_peek.bind fun token htoken => ?_
  have hspan := covers_of_mem htoken
  split
  · refine locates_advance.bind fun _ _ => (locates_consume .openParen).bind fun _ _ => ?_
    refine locates_bound.bind fun first _ => (locates_consume .comma).bind fun _ _ => ?_
    refine locates_bound.bind fun last _ => (locates_consume .comma).bind fun _ _ => ?_
    refine locates_bound.bind fun step _ => (locates_consume .closeParen).bind fun _ _ => ?_
    exact locates_pure hspan
  · refine locates_advance.bind fun _ _ => (locates_consume .openParen).bind fun _ _ => ?_
    refine locates_expression.bind fun list hlist => (locates_checkList hlist).bind fun _ _ => ?_
    exact (locates_consume .closeParen).bind fun _ _ => locates_pure hspan
  · refine locates_advance.bind fun _ _ => (locates_consume .openParen).bind fun _ _ => ?_
    refine locates_remaining.bind fun left _ => ?_
    refine (locates_commaSeparated locates_arm (left + 1)).bind fun arms _ => ?_
    exact (locates_consume .closeParen).bind fun _ _ => locates_pure hspan
  · exact locates_expression.bind fun _ he => locates_pure he

theorem locates_checkConstraint (name : String) {value : Rhs} (h : Covers tokens value.span) :
    Locates tokens (checkConstraint name value) fun _ => True :=
  locates_ite (locates_check _ h)
    (locates_pure trivial)

theorem locates_declaringAssign (name : String) (hspan : Covers tokens span) :
    Locates tokens (declaringAssign name span) fun _ => True := by
  refine locates_advance.bind fun _ _ => (locates_consume .equals).bind fun _ _ => ?_
  refine locates_rhs.bind fun value hvalue => ?_
  refine (locates_checkConstraint name hvalue).bind fun _ _ => ?_
  exact (locates_declare _ _ _ _ hspan hspan).bind fun _ _ => locates_pure trivial

/-- The part of an assignment that comes after its target. -/
theorem locates_assigned (target : Expr) :
    Locates tokens (do
      let _ ← consume .equals
      let value ← rhs
      match target with
      | .var v => checkConstraint v.name value
      | _ => pure ()
      return Action.assign target value) fun _ => True := by
  refine (locates_consume .equals).bind fun _ _ => locates_rhs.bind fun value hvalue => ?_
  dsimp only
  split
  · exact (locates_checkConstraint _ hvalue).bind fun _ _ => locates_pure trivial
  · exact locates_pure trivial

theorem locates_plainAssign : Locates tokens plainAssign fun _ => True := by
  refine locates_peek.bind fun token _ => locates_primary.bind fun target htarget => ?_
  dsimp only
  split
  · rename_i v
    exact locates_assigned (.var v)
  · rename_i members span
    exact locates_assigned (.vector members span)
  · rename_i span
    exact locates_assigned (.missing span)
  · exact (locates_complain _ (.token htarget)).bind fun _ _ => locates_assigned target

theorem locates_assign : Locates tokens assign fun _ => True := by
  refine locates_peek.bind fun token htoken => locates_peekNext.bind fun next _ => ?_
  split
  · refine locates_get.bind fun s _ => locates_ite ?_ locates_plainAssign
    exact locates_declaringAssign _ (covers_of_mem htoken)
  · exact locates_plainAssign

theorem locates_vectorArgument : Locates tokens vectorArgument fun _ => True := by
  refine locates_primary.bind fun e he => ?_
  split
  · exact locates_pure trivial
  · exact locates_pure trivial
  · exact (locates_complain _ (.token he)).bind fun _ _ => locates_pure trivial

theorem locates_call (callables : List String) : Locates tokens (call callables) fun _ => True := by
  have harguments : ∀ callee : String,
      Locates tokens (do
        let _ ← advance
        let _ ← consume .comma
        let inputs ← vectorArgument
        let _ ← consume .comma
        let outputs ← vectorArgument
        let _ ← consume .closeParen
        return Action.call callee inputs outputs) fun _ => True := by
    intro callee
    refine locates_advance.bind fun _ _ => (locates_consume .comma).bind fun _ _ => ?_
    refine locates_vectorArgument.bind fun inputs _ => (locates_consume .comma).bind fun _ _ => ?_
    refine locates_vectorArgument.bind fun outputs _ => ?_
    exact (locates_consume .closeParen).bind fun _ _ => locates_pure trivial
  refine locates_advance.bind fun _ _ => (locates_consume .openParen).bind fun _ _ => ?_
  refine locates_peek.bind fun token htoken => ?_
  dsimp only
  split
  · exact harguments _
  · exact (locates_complain _ (blamed_of_mem htoken)).bind fun _ _ => harguments _

theorem locates_condition : Locates tokens condition fun _ => True := by
  refine locates_advance.bind fun _ _ => (locates_consume .openParen).bind fun _ _ => ?_
  refine locates_expression.bind fun e _ => ?_
  exact (locates_consume .closeParen).bind fun _ _ => locates_pure trivial

theorem locates_action (callables : List String) :
    Locates tokens (action callables) fun _ => True := by
  refine locates_peek.bind fun token _ => ?_
  split
  · exact locates_condition.bind fun _ _ => locates_pure trivial
  · exact locates_condition.bind fun _ _ => locates_pure trivial
  · exact locates_call callables
  · exact locates_assign

theorem locates_stmt (callables : List String) :
    Locates tokens (stmt callables) fun s => Covers tokens s.span :=
  locates_peek.bind fun _ htoken => (locates_action callables).bind fun _ _ =>
    locates_terminator.bind fun _ _ => locates_pure (covers_of_mem htoken)

/-! ### Parameters -/

theorem locates_noMember : Locates tokens noMember fun e => Covers tokens e.span :=
  locates_skip _ fun _ htoken => covers_of_mem htoken

theorem locates_declareMembers (input : Bool) (members : List Pending) (tys : List (Ty × Span))
    (hmembers : ∀ m ∈ members, m.Covered tokens) (htys : ∀ t ∈ tys, Covers tokens t.2) :
    Locates tokens (declareMembers input members tys) fun _ => True := by
  induction members generalizing tys with
  | nil => exact locates_pure trivial
  | cons pending rest ih =>
    obtain ⟨hpending, hothers⟩ := List.forall_mem_cons.mp hmembers
    have hrest : ∀ declared : List Var, Locates tokens
        (declareMembers input rest tys.tail >>= fun others => pure (declared ++ others))
        fun _ => True := by
      intro declared
      have htail : ∀ t ∈ tys.tail, Covers tokens t.2 :=
        fun t ht => htys t (List.mem_of_mem_tail ht)
      exact (ih tys.tail hothers htail).bind fun _ _ => locates_pure trivial
    unfold declareMembers
    dsimp only
    split
    · exact hrest []
    · split
      · rename_i hty
        have hcovered := covers_memberTy hpending.2 htys hty
        exact (locates_declare _ _ _ _ hpending.1 hcovered).bind fun v _ => hrest [v]
      · exact (locates_complain _ (.token hpending.1)).bind fun _ _ => hrest []

theorem locates_param (input : Bool) : Locates tokens (param input) fun _ => True := by
  refine locates_peek.bind fun token htoken => ?_
  split
  · exact locates_advance.bind fun _ _ => locates_pure trivial
  · refine locates_ite ?_ ?_
    · refine locates_remaining.bind fun left _ => ?_
      refine (locates_pendingMembers locates_noMember (left + 1)).bind fun read hread => ?_
      refine (locates_declareMembers input read.1 read.2 hread.1 hread.2).bind fun _ _ => ?_
      exact locates_pure trivial
    · refine (locates_complain _ (blamed_of_mem htoken)).bind fun _ _ => ?_
      exact locates_advance.bind fun _ _ => locates_pure trivial

theorem locates_paramsFrom (fuel : Nat) (input : Bool) :
    Locates tokens (paramsFrom input fuel) fun _ => True := by
  induction fuel generalizing input with
  | zero => exact locates_pure trivial
  | succ fuel ih =>
    refine (locates_param input).bind fun first _ => (locates_at? .comma).bind fun comma _ => ?_
    refine locates_ite ?_ (locates_pure trivial)
    exact locates_advance.bind fun _ _ => (ih _).bind fun _ _ => locates_pure trivial

theorem locates_params : Locates tokens params fun _ => True := by
  have hclosing : ∀ read : List Param, True →
      Locates tokens (consume .closeParen >>= fun _ => pure read) fun _ => True :=
    fun _ _ => (locates_consume .closeParen).bind fun _ _ => locates_pure trivial
  refine (locates_consume .openParen).bind fun _ _ => ?_
  refine (locates_at? .closeParen).bind fun closed _ => locates_ite (hclosing [] trivial) ?_
  refine locates_remaining.bind fun left _ => ?_
  exact (locates_paramsFrom (left + 1) true).bind hclosing

/-! ### Methods and modules -/

/-- The statements of a body are among those that were read. -/
theorem mem_of_mem_splitGuard {stmts : List Stmt} {s : Stmt} (h : s ∈ (splitGuard stmts).2) :
    s ∈ stmts := by
  induction stmts with
  | nil => exact h
  | cons first rest ih =>
    unfold splitGuard at h
    split at h
    · rcases List.mem_cons.mp h with rfl | h
      · exact List.mem_cons_self
      · exact List.mem_cons_of_mem _ (ih h)
    · split at h
      · exact List.mem_cons_of_mem _ h
      · exact h

theorem locates_checkBody (body : List Stmt) (h : ∀ s ∈ body, Covers tokens s.span) :
    Locates tokens (checkBody body) fun _ => True := by
  induction body with
  | nil => exact locates_pure trivial
  | cons s rest ih =>
    obtain ⟨hs, hrest⟩ := List.forall_mem_cons.mp h
    exact locates_ite ((locates_complain _ (.token hs)).bind fun _ _ => ih hrest) (ih hrest)

/-- The variables that can be seen have nothing to do with what is located. -/
theorem locates_modify {g : State → State}
    (h : ∀ s, (g s).rest = s.rest ∧ (g s).last = s.last ∧ (g s).complaints = s.complaints) :
    Locates tokens (modify g : Parse Unit) fun _ => True := by
  intro s hs
  obtain ⟨hrest, hlast, hcomplaints⟩ := h s
  refine ⟨⟨?_, ?_, ?_, ?_⟩, trivial⟩
  · exact hrest ▸ hs.rest
  · exact hrest ▸ hs.ending
  · exact hlast ▸ hs.last
  · exact hcomplaints ▸ hs.complaints

theorem locates_method (callables : List String) :
    Locates tokens (method callables) fun _ => True := by
  have hforget : Locates tokens (modify fun s => { s with locals := [] } : Parse Unit)
      fun _ => True := locates_modify fun _ => ⟨rfl, rfl, rfl⟩
  refine (locates_consume .method).bind fun token _ => hforget.bind fun _ _ => ?_
  refine locates_remaining.bind fun left _ => ?_
  refine (locates_untilEndWord (locates_stmt callables) (left + 1)).bind fun stmts hstmts => ?_
  refine (locates_consume .endWord).bind fun _ _ => (locates_consume .method).bind fun _ _ => ?_
  refine locates_terminator.bind fun _ _ => locates_get.bind fun _ _ => ?_
  refine hforget.bind fun _ _ => ?_
  refine (locates_checkBody _ fun s hs => hstmts s (mem_of_mem_splitGuard hs)).bind fun _ _ => ?_
  exact locates_pure trivial

theorem locates_moduleHead : Locates tokens moduleHead fun head => Covers tokens head.2 := by
  refine locates_peek.bind fun token htoken => ?_
  have hnamed : ∀ name : String, Locates tokens (advance >>= fun _ => pure (name, token.span))
      fun head => Covers tokens head.2 :=
    fun _ => locates_advance.bind fun _ _ => locates_pure (covers_of_mem htoken)
  dsimp only
  split
  · exact hnamed _
  · exact (locates_complain _ (blamed_of_mem htoken)).bind fun _ _ => hnamed _

theorem locates_wholeModule : Locates tokens wholeModule fun _ => True := by
  have hend : ∀ module : Module, Locates tokens (do
      let _ ← consume .endWord
      if ← expect .moduleWord then
        let _ ← advance
      let _ ← terminator
      return module) fun _ => True := by
    intro module
    have hlast : Locates tokens (terminator >>= fun _ => pure module) fun _ => True :=
      locates_terminator.bind fun _ _ => locates_pure trivial
    refine (locates_consume .endWord).bind fun _ _ => ?_
    refine (locates_expect .moduleWord).bind fun found _ => ?_
    exact locates_ite (locates_advance.bind fun _ _ => hlast) hlast
  have hforget : Locates tokens
      (modify fun s => { s with fields := [], locals := [] } : Parse Unit) fun _ => True :=
    locates_modify fun _ => ⟨rfl, rfl, rfl⟩
  refine hforget.bind fun _ _ => locates_moduleHead.bind fun head hhead => ?_
  refine locates_params.bind fun params _ => locates_remaining.bind fun left _ => ?_
  refine (locates_untilEndWord (locates_method _) (left + 1)).bind fun methods _ => ?_
  exact locates_ite ((locates_complain _ (.token hhead)).bind fun _ _ => hend _) (hend _)

/-- **All complaints of a reading are about tokens**, if there is an end token among them. -/
theorem blamed_of_parse (hend : ∃ t ∈ tokens, t.isEof = true) {c : Complaint}
    (hc : c ∈ (parse tokens).complaints) : Blamed tokens c.span := by
  have hstart : ({ rest := tokens } : State).Located tokens :=
    ⟨fun _ ht => ht, hend, fun _ ht => (by cases ht), by simp⟩
  have hread : Locates tokens (untilEnd wholeModule (tokens.length + 1)) fun _ => True :=
    locates_untilEnd locates_wholeModule _
  exact (hread _ hstart).1.complaints c (List.mem_reverse.mp hc)

end Readers

end CandidateSearch.Grammar
