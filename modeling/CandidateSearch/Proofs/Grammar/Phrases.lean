/-
  CandidateSearch/Proofs/Grammar/Phrases.lean
  ===========================================
  **Types, vectors and expressions are read as the grammar has them.**

  One lemma for each reader up to expressions: what it reads without complaints belongs to
  its category.  An expression is read by descending through the levels,

      A + B * C =< D        relational: additive "=<" additive

  so its lemma is by induction on the number of steps (`reads_exprAt`); an expression for
  which the steps do not suffice gives a complaint.  The looser levels but for negation are
  one case: an operand of the next level and a chain of operators.

  A reader that looks for a closing symbol after it need not know whether its rounds
  sufficed.  For types this is not so: `[integer,]` must not be taken for `[integer]`.
-/
import CandidateSearch.Proofs.Grammar.Reading

namespace CandidateSearch.Grammar

open Source Syntax

/-! ### Types -/

theorem typeWord_of_simpleTy? {w : Reserved} {ty : Ty} (h : simpleTy? w = some ty) :
    TypeWord w ty := by
  unfold simpleTy? at h
  split at h <;> cases h <;> constructor

theorem readsAt_annotationMembers {member : Parse Annotation} (close : Reserved) {fuel : Nat}
    (hquiet : Quiet member fun _ => True)
    (hmember : ∀ s : State, s.rest.length < fuel → ReadsAt s member TypeOf) (s : State)
    (hfuel : s.rest.length < fuel) : ReadsAt s (annotationMembers close member fuel)
      fun Γ ts members Γ' =>
        ∃ us u, ts = us ++ [u] ∧ Separated TypeOf Γ us members Γ' ∧ u.is close := by
  have hclosing : ∀ members : List Annotation, Reads (consume close >>= fun _ => pure members)
      fun Γ₁ vs read Γ' => ∀ Γ us, Separated TypeOf Γ us members Γ₁ →
        ∃ us' u, us ++ vs = us' ++ [u] ∧ Separated TypeOf Γ us' read Γ' ∧ u.is close :=
    fun _ => reads_consume_bind fun u => reads_pure fun _ hu _ us hmembers =>
      ⟨us, u, rfl, hmembers, hu⟩
  have hnone : Reads (pure [] : Parse (List Annotation)) (Separated TypeOf) :=
    reads_pure fun _ => .none
  apply readsAt_peek
  dsimp only
  split
  · refine readsAt_ite (fun _ => ?_) fun _ => hnone.bind hclosing s
    exact ((readsAt_commaSeparated hquiet hmember fuel s hfuel hfuel).mono
      fun _ _ _ _ => .some).bind hclosing
  · exact hnone.bind hclosing s

theorem reads_noAnnotation {D : Category Annotation} : Reads noAnnotation D :=
  reads_of_quiet_false <| quiet_noAnnotation _

/-- There is no type nested deeper than there are tokens. -/
theorem readsAt_annotationAt (depth : Nat) (s : State) (hdepth : s.rest.length < depth) :
    ReadsAt s (annotationAt depth) TypeOf := by
  induction depth generalizing s with
  | zero => exact absurd hdepth (Nat.not_lt_zero _)
  | succ depth ih =>
    have hmembers : ∀ (close : Reserved), s.head.isEof = false →
        ReadsAt s.moved (annotationMembers close (annotationAt depth) depth)
          fun Γ ts members Γ' =>
            ∃ us u, ts = us ++ [u] ∧ Separated TypeOf Γ us members Γ' ∧ u.is close := by
      intro close heof
      have hlength := congrArg List.length (s.rest_eq heof)
      rw [List.length_cons] at hlength
      exact readsAt_annotationMembers close (quiet_annotationAt depth) ih s.moved (by omega)
    apply readsAt_peek
    split
    · rename_i hkind
      have ht := is_of_kind hkind
      refine readsAt_advance (isEof_of_is ht) ((hmembers _ (isEof_of_is ht)).bind fun _ => ?_)
      refine reads_pure ?_
      rintro Γ' Γ _ ⟨us, u, rfl, hread, hu⟩
      rw [List.append_nil]
      exact .list ht hread hu
    · rename_i hkind
      have ht := is_of_kind hkind
      refine readsAt_advance (isEof_of_is ht) ((hmembers _ (isEof_of_is ht)).bind fun _ => ?_)
      refine reads_pure ?_
      rintro Γ' Γ _ ⟨us, u, rfl, hread, hu⟩
      rw [List.append_nil]
      exact .vector ht hread hu
    · rename_i w _ _ hkind
      have ht := is_of_kind hkind
      split
      · rename_i ty hty
        refine readsAt_advance (isEof_of_is ht) (reads_pure (fun _ => ?_) _)
        exact .word ht (typeWord_of_simpleTy? hty)
      · exact reads_noAnnotation s
    · exact reads_noAnnotation s

/-- **A type that is read without complaints is one of the grammar.** -/
theorem reads_writtenType : Reads annotation TypeOf :=
  fun s => readsAt_remaining (readsAt_annotationAt _ s (Nat.lt_succ_self _))

theorem TypeOf.ty_ne_unknown {Γ Γ' : Names} {ts : List Token} {a : Annotation}
    (h : TypeOf Γ ts a Γ') : a.ty ≠ .unknown := by
  cases h with
  | word _ hty => cases hty <;> simp
  | list => simp
  | vector => simp

/-! ### Vectors -/

section Vectors

variable {other : Parse Expr} {value : Category Expr}

theorem reads_member (hother : Reads other value) : Reads (member other) (MemberOf value) := by
  have hvalue : Reads (other >>= fun e => pure (.value e)) (MemberOf value) := by
    refine hother.bind fun e => reads_pure fun Γ' Γ ts he => ?_
    rw [List.append_nil]
    exact .value he
  intro s
  apply readsAt_peek
  apply readsAt_peekNext
  split
  · rename_i name hkind
    have heof := isEof_of_kind hkind (by simp)
    refine readsAt_ite (fun hcolon => ?_) fun _ => readsAt_ite (fun _ => ?_) fun _ => hvalue s
    · refine readsAt_advance heof (readsAt_advance (isEof_of_is hcolon) ?_)
      refine reads_writtenType.bind (fun a => reads_pure fun Γ' Γ ts ha => ?_) _
      rw [List.append_nil]
      exact .typed hkind hcolon ha
    · exact readsAt_advance heof (reads_pure (fun _ => .bare hkind) _)
  · exact hvalue s

theorem reads_groupTys (members : List Pending) :
    Reads (groupTys members) (GroupTypes members) := by
  intro s
  apply readsAt_at?
  refine readsAt_ite (fun hnames => ?_) fun _ => reads_pure (fun _ => .none) s
  rw [Bool.and_eq_true] at hnames
  obtain ⟨hcolon, hnames⟩ := hnames
  refine readsAt_advance (isEof_of_is hcolon) (reads_writtenType.bind (fun a => ?_) _)
  dsimp only
  split
  · rename_i tys hty
    refine fun s' => readsAt_ite (fun hcount => ?_) fun _ => ?_
    · refine reads_pure (fun Γ' Γ ts ha => ?_) s'
      rw [List.append_nil]
      exact .some hcolon hnames ha hty hcount
    · exact readsAt_complain_bind _ _ (quiet_pure trivial)
  · rename_i hty
    exact reads_pure fun _ _ _ ha => absurd hty ha.ty_ne_unknown
  · exact fun _ => readsAt_complain_bind _ _ (quiet_pure trivial)

theorem readsAt_pendingMembers (hother : Reads other value) (fuel : Nat) (s : State) :
    ReadsAt s (pendingMembers other fuel) fun Γ ts read Γ' =>
      GroupOf value Γ ts ⟨read.1, read.2, s.head.span⟩ Γ' := by
  apply ReadsAt.of_head
  refine reads_consume_bind (fun t => ?_) s
  refine (reads_items (reads_member hother) .closeBrace fuel).bind fun members => ?_
  refine reads_consume_bind fun u => (reads_groupTys members).bind fun tys => ?_
  refine reads_pure fun Γ' Γ₁ us htys hu Γ ts hmembers ht hhead => ?_
  rw [List.append_nil, ← hhead t rfl]
  exact .mk ht hmembers hu htys

theorem reads_resolveMembers (members : List Pending) (tys : List (Ty × Span)) :
    Reads (resolveMembers members tys) (Silent fun Γ read Γ' => MembersAre Γ members tys read Γ') := by
  induction members generalizing tys with
  | nil => exact reads_pure fun _ => ⟨rfl, .nil⟩
  | cons pending rest ih =>
    have hrest : ∀ resolved : Expr × Bool,
        Reads (resolveMembers rest tys.tail >>= fun others => pure (resolved :: others))
          (Silent fun Γ read Γ' =>
            ∃ others, read = resolved :: others ∧ MembersAre Γ rest tys.tail others Γ') :=
      fun _ => (ih tys.tail).silent_bind fun others =>
        reads_pure fun _ _ hothers => ⟨rfl, others, rfl, hothers⟩
    cases pending with
    | value e =>
      refine (hrest (e, false)).mono ?_
      rintro Γ ts read Γ' ⟨rfl, others, rfl, hothers⟩
      exact ⟨rfl, .value hothers⟩
    | name name span own =>
      unfold resolveMembers
      dsimp only
      split
      · rename_i ty tySpan hty
        refine (reads_declare _ _ _ _ _ _).silent_bind fun v => (hrest (.var v, true)).mono ?_
        rintro Γ₁ ts read Γ' ⟨rfl, others, rfl, hothers⟩ Γ hv
        exact ⟨rfl, .declared hty hv hothers⟩
      · rename_i hty
        refine (reads_lookup name span).silent_bind fun found => ?_
        cases found with
        | some w =>
          refine (hrest (.var w, false)).mono ?_
          rintro Γ₁ ts read Γ' ⟨rfl, others, rfl, hothers⟩ Γ ⟨rfl, v, hv, hfound⟩
          cases hfound
          exact ⟨rfl, .known hty hv hothers⟩
        | none =>
          refine (hrest (.missing span, false)).mono ?_
          rintro Γ₁ ts read Γ' _ Γ ⟨_, v, _, hfound⟩
          cases hfound

theorem reads_vector (hother : Reads other value) (fuel : Nat) :
    Reads (vector other fuel) (VectorOf value) := by
  intro s
  apply readsAt_peek
  refine (readsAt_pendingMembers hother fuel s).bind fun read => ?_
  refine (reads_resolveMembers read.1 read.2).silent_bind fun members => ?_
  refine reads_pure fun Γ' Γ₁ hmembers Γ ts hgroup => ?_
  rw [List.append_nil]
  exact .mk hgroup hmembers

end Vectors

/-! ### Expressions -/

theorem operator_of_operator? {level : Level} {w : Reserved} {op : BinaryOp} {exchanged : Bool}
    (h : level.operator? w = some (op, exchanged)) : Operator level w op exchanged := by
  unfold Level.operator? at h
  split at h <;> cases h <;> constructor

theorem text_of_builtin? {w : Reserved} {f : Builtin} (h : builtin? w = some f) :
    w.text = f.text := by
  unfold builtin? at h
  split at h <;> cases h <;> rfl

theorem eq_nth_of_builtin? {w : Reserved} (h : builtin? w = some .nth) : w = .nth := by
  unfold builtin? at h
  split at h <;> cases h
  rfl

theorem reads_checkNumeric (e : Expr) : Reads (checkNumeric e) (Silent fun Γ _ Γ' => Γ' = Γ) :=
  reads_check _ _

theorem reads_checkList (e : Expr) : Reads (checkList e) (Silent fun Γ _ Γ' => Γ' = Γ) :=
  reads_check _ _

theorem reads_operation (op : BinaryOp) (lhs rhs : Expr) (span : Span) :
    Reads (operation op lhs rhs span)
      (Silent fun Γ e Γ' => e = .binary op lhs rhs span ∧ Γ' = Γ) := by
  intro s
  refine readsAt_ite (fun _ => reads_pure (fun _ => ⟨rfl, rfl, rfl⟩) s) fun _ => ?_
  refine (reads_checkNumeric lhs).silent_bind (fun _ => ?_) s
  refine (reads_checkNumeric rhs).silent_bind fun _ => reads_pure ?_
  rintro _ _ rfl _ rfl
  exact ⟨rfl, rfl, rfl⟩

section Expressions

variable {inner operand : Parse Expr}

theorem reads_chain {D : Category Expr} (level : Level) (hoperand : Reads operand D) (fuel : Nat)
    (lhs : Expr) : Reads (chain level operand fuel lhs) (Chain level D lhs) := by
  induction fuel generalizing lhs with
  | zero => exact reads_pure fun _ => .stop
  | succ fuel ih =>
    intro s
    apply readsAt_peek
    split
    · rename_i w hkind
      split
      · rename_i op exchanged hop
        have ht := is_of_kind hkind
        have hoperator := operator_of_operator? hop
        refine readsAt_advance (isEof_of_is ht) (hoperand.bind (fun rhs => ?_) _)
        cases exchanged with
        | true =>
          refine (reads_operation op rhs lhs _).silent_bind fun e => (ih e).mono ?_
          rintro Γ₁ us last Γ' hrest _ ⟨rfl, rfl⟩ Γ ts hrhs
          exact .step ht hoperator hrhs hrest
        | false =>
          refine (reads_operation op lhs rhs _).silent_bind fun e => (ih e).mono ?_
          rintro Γ₁ us last Γ' hrest _ ⟨rfl, rfl⟩ Γ ts hrhs
          exact .step ht hoperator hrhs hrest
      · exact reads_pure (fun _ => .stop) s
    · exact reads_pure (fun _ => .stop) s

theorem readsAt_builtinCall {w : Reserved} {f : Builtin} (hinner : Reads inner (ExprOf .or))
    (s : State) (ht : s.head.is w) (hf : builtin? w = some f) :
    ReadsAt s (builtinCall f inner) PrimaryOf := by
  have hclosing : ∀ e : Expr, f.arity = 1 →
      Reads (consume .closeParen >>= fun _ => pure (Expr.builtin f [e] s.head.span))
        fun Γ₁ vs read Γ' => ∀ Γ us, ExprOf .or Γ us e Γ₁ → ∀ o : Token, o.is .openParen →
          PrimaryOf Γ (s.head :: o :: (us ++ vs)) read Γ' := by
    intro e harity
    refine reads_consume_bind fun u => reads_pure fun Γ' hu Γ us he o ho => ?_
    exact .function ht (text_of_builtin? hf) harity ho he hu
  refine readsAt_advance (isEof_of_is ht) (reads_consume_bind (fun o => ?_) _)
  refine hinner.bind fun first => ?_
  cases f with
  | sqrt =>
    refine (reads_checkNumeric first).silent_bind fun _ => (hclosing first rfl).mono ?_
    rintro Γ₁ vs read Γ' hread _ rfl Γ us hfirst
    exact hread Γ us hfirst o
  | exp =>
    refine (reads_checkNumeric first).silent_bind fun _ => (hclosing first rfl).mono ?_
    rintro Γ₁ vs read Γ' hread _ rfl Γ us hfirst
    exact hread Γ us hfirst o
  | length =>
    refine (reads_checkList first).silent_bind fun _ => (hclosing first rfl).mono ?_
    rintro Γ₁ vs read Γ' hread _ rfl Γ us hfirst
    exact hread Γ us hfirst o
  | sum =>
    refine (reads_checkList first).silent_bind fun _ => (hclosing first rfl).mono ?_
    rintro Γ₁ vs read Γ' hread _ rfl Γ us hfirst
    exact hread Γ us hfirst o
  | nth =>
    cases eq_nth_of_builtin? hf
    refine (reads_checkNumeric first).silent_bind fun _ => reads_consume_bind fun c => ?_
    refine hinner.bind fun list => (reads_checkList list).silent_bind fun _ => ?_
    refine reads_consume_bind fun u => reads_pure ?_
    rintro Γ' hu _ rfl Γ₁ us hlist hc _ rfl Γ ts hfirst ho
    exact .nth ht ho hfirst hc hlist hu

theorem reads_list (hinner : Reads inner (ExprOf .or)) (fuel : Nat) :
    Reads (list inner fuel) PrimaryOf := by
  refine reads_consume_bind fun t => ?_
  refine (reads_items hinner .closeBracket fuel).bind fun elements => ?_
  refine reads_consume_bind fun u => reads_pure fun Γ' hu Γ ts hitems ht => ?_
  exact .list ht hitems hu

theorem readsAt_variableExpr {name : String} (s : State) (hkind : s.head.kind = .var name) :
    ReadsAt s (variableExpr name s.head.span) PrimaryOf := by
  refine readsAt_advance (isEof_of_kind hkind (by simp)) ?_
  apply readsAt_at?
  refine readsAt_ite (fun hcolon => ?_) fun _ => ?_
  · refine readsAt_advance (isEof_of_is hcolon) (reads_writtenType.bind (fun a => ?_) _)
    refine (reads_declare _ _ _ _ _ _).silent_bind fun v => ?_
    refine reads_pure fun Γ' Γ₁ hv Γ ts ha => ?_
    rw [List.append_nil]
    exact .declaration hkind hcolon ha hv
  · refine (reads_lookup name _).silent_bind (fun found => ?_) _
    cases found with
    | some w =>
      refine reads_pure ?_
      rintro Γ₁ Γ ⟨rfl, v, hv, hfound⟩
      cases hfound
      exact .variable hkind hv
    | none =>
      refine reads_pure ?_
      rintro Γ₁ Γ ⟨_, v, _, hfound⟩
      cases hfound

theorem readsAt_single {e : Expr} {D : Category Expr} (s : State) (heof : s.head.isEof = false)
    (h : ∀ Γ, D Γ [s.head] e Γ) : ReadsAt s (single e) D :=
  readsAt_advance heof (reads_pure h _)

theorem reads_noExpression {D : Category Expr} : Reads noExpression D :=
  reads_of_quiet_false (quiet_noExpression _)

theorem reads_primaryWith (hinner : Reads inner (ExprOf .or)) (fuel : Nat) :
    Reads (primaryWith inner fuel) PrimaryOf := by
  intro s
  apply readsAt_peek
  split
  · rename_i w hkind
    have ht := is_of_kind hkind
    have heof := isEof_of_is ht
    split
    · rename_i f hf
      exact readsAt_builtinCall hinner s ht hf
    · split
      · refine readsAt_advance heof (hinner.bind (fun e => ?_) _)
        refine reads_consume_bind fun u => reads_pure fun Γ' hu Γ ts he => ?_
        exact .parens ht he hu
      · exact reads_list hinner fuel s
      · refine (reads_vector hinner fuel s).mono fun _ _ _ _ => .vector
      · exact readsAt_single s heof fun _ => .trueWord ht
      · exact readsAt_single s heof fun _ => .falseWord ht
      · exact reads_noExpression s
  · rename_i hkind
    exact readsAt_single s (isEof_of_kind hkind (by simp)) fun _ => .number hkind
  · rename_i hkind
    exact readsAt_single s (isEof_of_kind hkind (by simp)) fun _ => .string hkind
  · rename_i hkind
    exact readsAt_single s (isEof_of_kind hkind (by simp)) fun _ => .atom hkind
  · rename_i hkind
    exact readsAt_variableExpr s hkind
  · exact reads_noExpression s
  · exact reads_noExpression s

/-- **An expression that is read without complaints is one of its level.** -/
theorem reads_exprAt (fuel : Nat) (level : Level) : Reads (exprAt fuel level) (ExprOf level) := by
  induction fuel generalizing level with
  | zero => exact reads_noExpression
  | succ fuel ih =>
    have hchain : ∀ {level : Level}, (∀ {Γ Γ₁ Γ' ts us first e},
        ExprOf level.tighter Γ ts first Γ₁ →
          Chain level (ExprOf level.tighter) first Γ₁ us e Γ' → ExprOf level Γ (ts ++ us) e Γ') →
        Reads (exprAt fuel level.tighter >>= chain level (exprAt fuel level.tighter) fuel)
          (ExprOf level) :=
      fun {level} hrule => (ih level.tighter).bind fun first =>
        (reads_chain level (ih _) fuel first).mono fun _ _ _ _ hrest _ _ hfirst =>
          hrule hfirst hrest
    cases level with
    | not =>
      intro s
      apply readsAt_peek
      refine readsAt_ite (fun ht => ?_) fun _ => (ih .equality s).mono fun _ _ _ _ => .positive
      refine readsAt_advance (isEof_of_is ht) (reads_consume_bind (fun o => ?_) _)
      refine (ih .or).bind fun e => reads_consume_bind fun u => ?_
      exact reads_pure fun Γ' hu Γ ts he ho => .not ht ho he hu
    | power =>
      refine (ih .unary).bind fun base s => ?_
      apply readsAt_peek
      refine readsAt_ite (fun ht => ?_) fun _ => ?_
      · refine readsAt_advance (isEof_of_is ht) ((ih .power).bind (fun exponent => ?_) _)
        refine (reads_operation .pow base exponent _).mono ?_
        rintro Γ₂ _ e Γ' ⟨rfl, rfl, rfl⟩ Γ₁ us hexponent Γ ts hbase
        rw [List.append_nil]
        exact .power hbase ht hexponent
      · refine reads_pure (fun Γ' Γ ts hbase => ?_) s
        rw [List.append_nil]
        exact .base hbase
    | unary =>
      intro s
      apply readsAt_peek
      refine readsAt_ite (fun ht => ?_) fun _ => ?_
      · refine readsAt_advance (isEof_of_is ht) ((ih .unary).bind (fun e => ?_) _)
        refine (reads_checkNumeric e).silent_bind fun _ => reads_pure ?_
        rintro Γ₁ _ rfl Γ ts he
        rw [List.append_nil]
        exact .minus ht he
      · exact (reads_primaryWith (ih .or) fuel s).mono fun _ _ _ _ => .primary
    | or => exact hchain .or
    | and => exact hchain .and
    | equality => exact hchain .equality
    | relational => exact hchain .relational
    | additive => exact hchain .additive
    | multiplicative => exact hchain .multiplicative

theorem readsAt_enough {D : Category Expr} {g : Nat → Parse Expr} {s : State}
    (h : ∀ fuel, ReadsAt s (g fuel) D) : ReadsAt s (enough >>= g) D := h _

theorem reads_expression : Reads expression (ExprOf .or) :=
  fun s => readsAt_enough fun fuel => reads_exprAt fuel .or s

theorem reads_primary : Reads primary PrimaryOf :=
  fun s => readsAt_enough fun fuel => reads_primaryWith (reads_exprAt fuel .or) fuel s

end Expressions

end CandidateSearch.Grammar
