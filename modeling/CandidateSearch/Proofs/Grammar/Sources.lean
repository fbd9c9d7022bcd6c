/-
  CandidateSearch/Proofs/Grammar/Sources.lean
  ===========================================
  **A source without complaints is derived from the grammar.**

  One lemma for each reader from right-hand sides to modules, and then the source as a whole:
  modules are read until the end token is met, each takes a token at least, so all tokens in
  front of it are read (`silent_parse_is_derived`).

  An argument of a call is read as a primary expression, and what is looked at is whether a
  vector has come out.  So an argument in parentheses is accepted,

      call(m, ({A}), {X})

  which the grammar does not have (`not_sourceOf_wrappedCall`).  There is no other difference
  to the grammar of `Derivation`, in which the vector type after a group may be empty.  With a
  production that asks for a type at least there is one more: `{}: {}` is accepted, but no
  other annotation without types (`GroupTypes.typed_or_empty`).
-/
import CandidateSearch.Proofs.Grammar.Arguments
import CandidateSearch.Proofs.Grammar.Phrases

namespace CandidateSearch.Grammar

open Source Syntax

/-! ### Right-hand sides -/

theorem reads_bound : Reads bound (ExprOf .or) := by
  refine reads_expression.bind fun e => (reads_checkNumeric e).silent_bind fun _ => reads_pure ?_
  rintro Γ₁ _ rfl Γ ts he
  rw [List.append_nil]
  exact he

theorem reads_arm : Reads arm ArmOf := by
  refine reads_expression.bind fun condition => reads_consume_bind fun a => ?_
  refine reads_expression.bind fun value => ?_
  refine reads_pure fun Γ' Γ₁ us hvalue ha Γ ts hcondition => ?_
  rw [List.append_nil]
  exact .mk hcondition ha hvalue

theorem reads_rhs : Reads rhs RhsOf := by
  intro s
  apply readsAt_peek
  split
  · rename_i hkind
    have ht := is_of_kind hkind
    refine readsAt_advance (isEof_of_is ht) (reads_consume_bind (fun o => ?_) _)
    refine reads_bound.bind fun first => reads_consume_bind fun c => ?_
    refine reads_bound.bind fun last => reads_consume_bind fun d => ?_
    refine reads_bound.bind fun step => reads_consume_bind fun u => ?_
    refine reads_pure fun Γ' hu Γ₂ vs hstep hd Γ₁ us hlast hc Γ ts hfirst ho => ?_
    exact .range ht ho hfirst hc hlast hd hstep hu
  · rename_i hkind
    have ht := is_of_kind hkind
    refine readsAt_advance (isEof_of_is ht) (reads_consume_bind (fun o => ?_) _)
    refine reads_expression.bind fun list => (reads_checkList list).silent_bind fun _ => ?_
    refine reads_consume_bind fun u => reads_pure ?_
    rintro Γ' hu _ rfl Γ ts hlist ho
    exact .select ht ho hlist hu
  · rename_i hkind
    have ht := is_of_kind hkind
    refine readsAt_advance (isEof_of_is ht) (reads_consume_bind (fun o s' => ?_) _)
    apply readsAt_remaining
    have harm : Quiet arm fun _ => True := (quiet_arm hereditary_whole).mono fun _ _ => trivial
    refine (readsAt_commaSeparated harm (fun s _ => reads_arm s)
      _ s' (Nat.lt_succ_self _) (Nat.lt_succ_self _)).bind fun arms => ?_
    refine reads_consume_bind fun u => reads_pure fun Γ' hu Γ ts harms ho => ?_
    exact .cases ht ho harms hu
  · refine reads_expression.bind (fun e => reads_pure fun Γ' Γ ts he => ?_) s
    rw [List.append_nil]
    exact .expr he

/-! ### Statements -/

theorem reads_checkConstraint (name : String) (value : Rhs) :
    Reads (checkConstraint name value) (Silent fun Γ _ Γ' => Γ' = Γ) := by
  intro s
  exact readsAt_ite (fun _ => reads_check _ _ s) fun _ => reads_pure (fun _ => ⟨rfl, rfl⟩) s

theorem reads_assigned (target : Expr) :
    Reads (do
      let _ ← consume .equals
      let value ← rhs
      match target with
      | .var v => checkConstraint v.name value
      | _ => pure ()
      return Action.assign target value) fun Γ ts read Γ' => ∃ q us value,
        ts = q :: us ∧ q.is .equals ∧ RhsOf Γ us value Γ' ∧ read = .assign target value := by
  refine reads_consume_bind fun q => reads_rhs.bind fun value => ?_
  have hgiven : Reads (pure (.assign target value) : Parse Action) fun Γ₁ vs read Γ' =>
      ∀ Γ us, RhsOf Γ us value Γ₁ → q.is .equals → ∃ q' us' value',
        q :: (us ++ vs) = q' :: us' ∧ q'.is .equals ∧ RhsOf Γ us' value' Γ' ∧
          read = .assign target value' := by
    refine reads_pure fun Γ' Γ us hvalue hq => ?_
    exact ⟨q, us, value, by simp, hq, hvalue, rfl⟩
  dsimp only
  split
  · refine (reads_checkConstraint _ value).silent_bind fun _ => hgiven.mono ?_
    rintro Γ₁ vs read Γ' hread _ rfl
    exact hread
  · exact hgiven

theorem reads_plainAssign (callables : List String) :
    Reads plainAssign (ActionOf false callables) := by
  intro s
  apply readsAt_peek
  refine (reads_primary.and_quiet (quiet_primary hereditary_whole)).bind (fun target => ?_) s
  have hassign : ∀ {target : Expr} (_ : target.isTarget = true) Γ₁ vs read Γ',
      (∃ q us value, vs = q :: us ∧ q.is .equals ∧ RhsOf Γ₁ us value Γ' ∧
        read = .assign target value) →
      ∀ Γ ts, PrimaryOf Γ ts target Γ₁ ∧ target.Whole →
        ActionOf false callables Γ (ts ++ vs) read Γ' := by
    rintro target hkind Γ₁ _ _ Γ' ⟨q, us, value, rfl, hq, hvalue, rfl⟩ Γ ts ⟨htarget, _⟩
    exact .assign htarget hkind hq hvalue
  dsimp only
  split
  · rename_i v
    exact (reads_assigned (.var v)).mono (hassign rfl)
  · rename_i members span
    exact (reads_assigned (.vector members span)).mono (hassign rfl)
  · rename_i span
    refine (reads_assigned (.missing span)).mono ?_
    rintro _ _ _ _ _ _ _ ⟨_, hwhole⟩
    exact hwhole.elim
  · exact fun _ => readsAt_complain_bind _ _
      ((quiet_assigned hereditary_whole target).mono fun _ _ => trivial)

theorem readsAt_declaringAssign (callables : List String) {name : String} (s : State)
    (hkind : s.head.kind = .var name) :
    ReadsAt s (declaringAssign name s.head.span) fun Γ ts read Γ' =>
      Γ.find? name = none → ActionOf false callables Γ ts read Γ' := by
  refine readsAt_advance (isEof_of_kind hkind (by simp)) (reads_consume_bind (fun q => ?_) _)
  refine reads_rhs.bind fun value => (reads_checkConstraint name value).silent_bind fun _ => ?_
  refine (reads_declare _ _ _ _ _ _).silent_bind fun v => reads_pure ?_
  rintro Γ' Γ₁ hv _ rfl Γ ts hvalue hq hnew
  rw [List.append_nil]
  exact .declaring hkind hnew hq hvalue hv

theorem reads_assign (callables : List String) : Reads assign (ActionOf false callables) := by
  intro s
  apply readsAt_peek
  apply readsAt_peekNext
  split
  · rename_i name hkind
    apply readsAt_get
    refine readsAt_ite (fun hdeclaring => ?_) fun _ => ?_
    · have hnew : s.find? name = none := by simpa using (Bool.and_eq_true_iff.mp hdeclaring).2
      refine (readsAt_declaringAssign callables s hkind).mono ?_
      rintro _ ts read Γ' hread rfl
      exact hread hnew
    · exact (reads_plainAssign callables s).mono fun _ _ _ _ hread _ => hread
  · exact reads_plainAssign callables s

/-- A primary expression that is a vector is one, or one in parentheses. -/
theorem argumentOf_of_primaryOf {Γ Γ' : Names} {ts : List Token} {members : List (Expr × Bool)}
    {span : Span} (h : PrimaryOf Γ ts (.vector members span) Γ') :
    ArgumentOf false Γ ts (.vector members span) Γ' := by
  cases h with
  | parens ht he hu => exact .parens rfl ht he hu rfl
  | vector he => exact .vector he

theorem reads_vectorArgument : Reads vectorArgument (ArgumentOf false) := by
  refine (reads_primary.and_quiet (quiet_primary hereditary_whole)).bind fun e => ?_
  split
  · refine reads_pure ?_
    rintro Γ' Γ ts ⟨he, _⟩
    rw [List.append_nil]
    exact argumentOf_of_primaryOf he
  · refine reads_pure ?_
    rintro Γ' Γ ts ⟨_, hwhole⟩
    exact hwhole.elim
  · exact fun _ => readsAt_complain_bind _ _ (quiet_pure trivial)

theorem namesModule_of_moduleName? {t : Token} {name : String} (h : moduleName? t = some name) :
    NamesModule t name := by
  unfold moduleName? at h
  split at h
  · rename_i hkind
    cases h
    exact .atom hkind
  · rename_i w hkind
    by_cases hw : w.isWord = true
    · rw [if_pos hw] at h
      cases h
      exact .word (is_of_kind hkind) (by simpa [Reserved.isWord] using hw)
    · rw [if_neg hw] at h
      cases h
  · cases h

theorem NamesModule.isEof {t : Token} {name : String} (h : NamesModule t name) :
    t.isEof = false := by
  cases h with
  | atom ht => exact isEof_of_kind ht (by simp)
  | word ht => exact isEof_of_is ht

theorem readsAt_call (callables : List String) (s : State) (ht : s.head.is .call) :
    ReadsAt s (call callables) (ActionOf false callables) := by
  refine readsAt_advance (isEof_of_is ht) (reads_consume_bind (fun o s' => ?_) _)
  apply readsAt_peek
  dsimp only
  split
  · rename_i name hname
    obtain ⟨hname, hcallee⟩ := Option.filter_eq_some_iff.mp hname
    have hm := namesModule_of_moduleName? hname
    apply readsAt_pure_bind
    refine readsAt_advance hm.isEof (reads_consume_bind (fun c => ?_) _)
    refine reads_vectorArgument.bind fun inputs => reads_consume_bind fun d => ?_
    refine reads_vectorArgument.bind fun outputs => reads_consume_bind fun u => ?_
    refine reads_pure fun Γ' hu Γ₁ us houtputs hd Γ ts hinputs hc ho => ?_
    exact .call ht ho hm (by simpa using hcallee) hc hinputs hd houtputs hu
  · have hname : Quiet (pure missingName : Parse String) fun _ => True := quiet_pure trivial
    refine readsAt_complain_bind _ _ (hname.andThen fun _ => ?_)
    have hargument := quiet_vectorArgument hereditary_whole fun _ => id
    refine quiet_advance.andThen fun _ => (quiet_consume .comma).andThen fun _ => ?_
    refine hargument.andThen fun _ => (quiet_consume .comma).andThen fun _ => ?_
    refine hargument.andThen fun _ => (quiet_consume .closeParen).andThen fun _ => ?_
    exact quiet_pure trivial

theorem readsAt_condition (s : State) (heof : s.head.isEof = false) :
    ReadsAt s condition fun Γ ts e Γ' => ∃ o us u, ts = s.head :: o :: (us ++ [u]) ∧
      o.is .openParen ∧ ExprOf .or Γ us e Γ' ∧ u.is .closeParen := by
  refine readsAt_advance heof (reads_consume_bind (fun o => ?_) _)
  refine reads_expression.bind fun e => reads_consume_bind fun u => ?_
  exact reads_pure fun Γ' hu Γ us he ho => ⟨o, us, u, rfl, ho, he, hu⟩

theorem reads_action (callables : List String) :
    Reads (action callables) (ActionOf false callables) := by
  intro s
  apply readsAt_peek
  split
  · rename_i hkind
    have ht := is_of_kind hkind
    refine (readsAt_condition s (isEof_of_is ht)).bind fun e => reads_pure ?_
    rintro Γ' Γ _ ⟨o, us, u, rfl, ho, he, hu⟩
    rw [List.append_nil]
    exact .test ht ho he hu
  · rename_i hkind
    have ht := is_of_kind hkind
    refine (readsAt_condition s (isEof_of_is ht)).bind fun e => reads_pure ?_
    rintro Γ' Γ _ ⟨o, us, u, rfl, ho, he, hu⟩
    rw [List.append_nil]
    exact .guard ht ho he hu
  · rename_i hkind
    exact readsAt_call callables s (is_of_kind hkind)
  · exact reads_assign callables s

/-- **A statement that is read without complaints is one of the grammar.** -/
theorem reads_stmt (callables : List String) :
    Reads (stmt callables) (StmtOf false callables) := by
  intro s
  apply ReadsAt.of_head
  apply readsAt_peek
  refine (reads_action callables).bind (fun read => reads_terminator_bind fun complete => ?_) s
  refine reads_pure fun Γ' u hu hcomplete Γ ts haction hhead => ?_
  have hfirst : (ts ++ [u]).head? = some s.head := by
    cases ts with
    | nil => exact congrArg some (hhead u rfl)
    | cons t ts => exact congrArg some (hhead t rfl)
  rw [if_pos hcomplete]
  exact .mk haction hu hfirst

/-! ### Parameters -/

theorem reads_noMember : Reads noMember fun _ _ _ _ => False :=
  reads_of_quiet_false (quiet_noMember _)

theorem reads_declareMembers (input : Bool) (members : List Pending) (tys : List (Ty × Span)) :
    Reads (declareMembers input members tys) (Silent fun Γ read Γ' =>
      (∀ m ∈ members, m.Of fun _ => False) → GroupIs input Γ members tys read Γ') := by
  induction members generalizing tys with
  | nil => exact reads_pure fun _ => ⟨rfl, fun _ => .nil⟩
  | cons pending rest ih =>
    have hrest : ∀ declared : List Var,
        Reads (declareMembers input rest tys.tail >>= fun others => pure (declared ++ others))
          (Silent fun Γ read Γ' => ∃ others, read = declared ++ others ∧
            ((∀ m ∈ rest, m.Of fun _ => False) → GroupIs input Γ rest tys.tail others Γ')) :=
      fun _ => (ih tys.tail).silent_bind fun others =>
        reads_pure fun _ _ hothers => ⟨rfl, others, rfl, hothers⟩
    cases pending with
    | value e =>
      refine (hrest []).mono ?_
      rintro Γ ts read Γ' ⟨rfl, _⟩
      exact ⟨rfl, fun hnames => (hnames _ List.mem_cons_self).elim⟩
    | name name span own =>
      unfold declareMembers
      dsimp only
      split
      · rename_i ty tySpan hty
        refine (reads_declare _ _ _ _ _ _).silent_bind fun v => (hrest [v]).mono ?_
        rintro Γ₁ ts read Γ' ⟨rfl, others, rfl, hothers⟩ Γ hv
        refine ⟨rfl, fun hnames => .declared hty hv (hothers ?_)⟩
        exact fun m hm => hnames m (List.mem_cons_of_mem _ hm)
      · intro s
        refine readsAt_complain_bind _ _ ?_
        exact (quiet_declareMembers input rest tys.tail).andThen fun _ => quiet_pure trivial

theorem reads_param (input : Bool) : Reads (param input) (ParamOf input) := by
  intro s
  apply readsAt_peek
  split
  · rename_i name hname
    have ht := namesModule_of_moduleName? hname
    exact readsAt_advance ht.isEof (reads_pure (fun _ => .callee ht) _)
  · refine readsAt_ite (fun _ => ?_) fun _ => ?_
    · apply readsAt_remaining
      refine ((readsAt_pendingMembers reads_noMember _ s).and_quiet
        (quiet_pendingMembers (quiet_noMember fun _ => False) _)).bind fun read => ?_
      refine (reads_declareMembers input read.1 read.2).silent_bind fun members => reads_pure ?_
      rintro Γ' Γ₁ hmembers Γ ts ⟨hgroup, hnames⟩
      rw [List.append_nil]
      exact .group hgroup (hmembers hnames)
    · exact readsAt_complain_bind _ _ (quiet_advance.andThen fun _ => quiet_pure trivial)

theorem readsAt_paramsFrom (fuel : Nat) (input : Bool) (s : State) (hfuel : s.rest.length < fuel) :
    ReadsAt s (paramsFrom input fuel) (ParamsOf input) := by
  induction fuel generalizing s input with
  | zero => exact absurd hfuel (Nat.not_lt_zero _)
  | succ fuel ih =>
    refine (reads_param input s).bind_of_quiet (fun first => ?_) fun first s' hle => ?_
    · refine (quiet_at? .comma).andThen fun _ => quiet_ite (fun _ => ?_) fun _ => quiet_pure trivial
      exact quiet_advance.andThen fun _ =>
        (quiet_paramsFrom fuel _).andThen fun _ => quiet_pure trivial
    · apply readsAt_at?
      refine readsAt_ite (fun hcomma => ?_) fun _ => ?_
      · have heof := isEof_of_is hcomma
        have hlength := congrArg List.length (s'.rest_eq heof)
        rw [List.length_cons] at hlength
        refine readsAt_advance heof ((ih _ s'.moved (by omega)).bind fun rest => ?_)
        refine reads_pure fun Γ' Γ₁ us hrest Γ ts hfirst => ?_
        rw [List.append_nil]
        exact .more hfirst hcomma hrest
      · refine reads_pure (fun Γ' Γ ts hfirst => ?_) s'
        rw [List.append_nil]
        exact .last hfirst

theorem reads_params : Reads params fun Γ ts read Γ' => ∃ o us c, ts = o :: (us ++ [c]) ∧
    o.is .openParen ∧ ParamListOf Γ us read Γ' ∧ c.is .closeParen := by
  refine reads_consume_bind fun o => ?_
  have hclosing : ∀ read : List Param, Reads (consume .closeParen >>= fun _ => pure read)
      fun Γ₁ vs given Γ' => ∀ Γ us, ParamListOf Γ us read Γ₁ → o.is .openParen →
        ∃ o' us' c, o :: (us ++ vs) = o' :: (us' ++ [c]) ∧ o'.is .openParen ∧
          ParamListOf Γ us' given Γ' ∧ c.is .closeParen :=
    fun read => reads_consume_bind fun c => reads_pure fun _ hc _ us hread ho =>
      ⟨o, us, c, rfl, ho, hread, hc⟩
  intro s
  apply readsAt_at?
  dsimp only
  refine readsAt_ite (fun _ => ?_) fun _ => ?_
  · exact Reads.bind (reads_pure fun _ => .none) hclosing s
  · apply readsAt_remaining
    exact ((readsAt_paramsFrom _ true s (Nat.lt_succ_self _)).mono
      fun _ _ _ _ => .some).bind hclosing

/-! ### Methods and modules -/

theorem reads_checkBody (body : List Stmt) : Reads (checkBody body) (Silent fun Γ _ Γ' => Γ' = Γ) := by
  induction body with
  | nil => exact reads_pure fun _ => ⟨rfl, rfl⟩
  | cons stmt rest ih =>
    refine fun s => readsAt_ite (fun _ => ?_) fun _ => ih s
    exact readsAt_complain_bind _ _ ((quiet_checkBody rest).mono fun _ _ => trivial)

theorem guarded_splitGuard {stmts : List Stmt} (hwhole : ∀ s ∈ stmts, s.action.Whole)
    (hbody : ∀ s ∈ (splitGuard stmts).2, s.guard? = none) :
    Guarded stmts (splitGuard stmts).1 (splitGuard stmts).2 := by
  cases stmts with
  | nil => exact .plain (by simp)
  | cons s rest =>
    obtain ⟨action, span⟩ := s
    have hfirst := hwhole _ List.mem_cons_self
    cases action with
    | guard condition => exact .guard hbody
    | missing => exact hfirst.elim
    | assign => exact .plain hbody
    | test => exact .plain hbody
    | call => exact .plain hbody

theorem reads_method (callables : List String) :
    Reads (method callables) (MethodOf false callables) := by
  refine reads_consume_bind fun t => ?_
  refine Reads.silent_bind (reads_modify (fun Γ => { Γ with locals := [] }) (fun _ => rfl)
    (fun _ => rfl) fun _ => rfl) fun _ s => ?_
  apply readsAt_remaining
  refine ((reads_untilEndWord (reads_stmt callables) _).and_quiet
    (quiet_untilEndWord (quiet_stmt callables) _)).bind (fun stmts => ?_) s
  refine reads_consume_bind fun e => reads_consume_bind fun m => reads_terminator_bind fun _ => ?_
  refine reads_get.silent_bind fun s' => ?_
  refine Reads.silent_bind (reads_modify (fun Γ => { Γ with locals := [] }) (fun _ => rfl)
    (fun _ => rfl) fun _ => rfl) fun _ => ?_
  refine ((reads_checkBody (splitGuard stmts).2).and_quiet
    (quiet_checkBody (splitGuard stmts).2)).bind fun _ => reads_pure ?_
  rintro Γ' Γ₄ _ ⟨⟨rfl, rfl⟩, hbody⟩ Γ₃ rfl Γ₂ ⟨rfl, rfl⟩ u hu _ hm he Γ₁ ts ⟨hstmts, hwhole⟩ Γ
    rfl ht
  exact .mk ht hstmts he hm hu (guarded_splitGuard hwhole hbody)

theorem reads_moduleHead : Reads moduleHead fun Γ ts read Γ' =>
    ∃ t, ts = [t] ∧ t.kind = .function read.1 ∧ read.2 = t.span ∧ Γ' = Γ := by
  intro s
  apply readsAt_peek
  dsimp only
  split
  · rename_i name hkind
    apply readsAt_pure_bind
    refine readsAt_advance (isEof_of_kind hkind (by simp)) (reads_pure (fun _ => ?_) _)
    exact ⟨s.head, rfl, hkind, rfl, rfl⟩
  · have hname : Quiet (pure missingName : Parse String) fun _ => True := quiet_pure trivial
    refine readsAt_complain_bind _ _ (hname.andThen fun _ => ?_)
    exact quiet_advance.andThen fun _ => quiet_pure trivial

/-- The end of a module. -/
theorem reads_moduleEnd (module : Module) :
    Reads (do
      let _ ← consume .endWord
      if ← expect .moduleWord then
        let _ ← advance
      let _ ← terminator
      return module) fun Γ ts read Γ' => ∃ e m u, ts = [e, m, u] ∧ e.is .endWord ∧
        m.is .moduleWord ∧ u.is .semicolon ∧ read = module ∧ Γ' = Γ := by
  have hquiet : Quiet (terminator >>= fun _ => pure module) fun _ => True :=
    quiet_terminator.andThen fun _ => quiet_pure trivial
  refine reads_consume_bind fun e s => ?_
  refine readsAt_expect (fun _ => quiet_ite (fun _ => ?_) fun _ => hquiet) fun hm => ?_
  · exact quiet_advance.andThen fun _ => hquiet
  · refine readsAt_advance (isEof_of_is hm) (reads_terminator_bind (fun _ => ?_) _)
    exact reads_pure fun Γ u hu _ he => ⟨e, s.head, u, rfl, he, hm, hu, rfl, rfl⟩

/-- **A module that is read without complaints is one of the grammar.** -/
theorem reads_wholeModule : Reads wholeModule (ModuleOf false) := by
  refine Reads.silent_bind (reads_modify (fun _ => {}) (fun _ => rfl) (fun _ => rfl)
    fun _ => rfl) fun _ => reads_moduleHead.bind fun head => ?_
  refine reads_params.bind fun params s => ?_
  apply readsAt_remaining
  refine (reads_untilEndWord (reads_method _) _).bind (fun methods s' => ?_) s
  refine readsAt_ite (fun _ => ?_) fun hsome => (reads_moduleEnd _ s').mono ?_
  · exact readsAt_complain_bind _ _ (reads_moduleEnd _).quiet
  · rintro Γ₃ _ _ Γ' ⟨e, m, u, rfl, he, hm, hu, rfl, rfl⟩ Γ₂ us hmethods Γ₁ _
      ⟨o, ts, c, rfl, ho, hparams, hc⟩ Γ₀ _ ⟨t, rfl, hkind, hspan, rfl⟩ Γ rfl
    have hmodule : ModuleOf false Γ (t :: o :: (ts ++ c :: (us ++ [e, m, u])))
        ⟨head.1, params, methods, t.span⟩ Γ' :=
      .mk hkind ho hparams hc hmethods (by simpa using hsome) he hm hu
    rw [hspan]
    simpa using hmodule

/-! ### Sources -/

theorem ModuleOf.ne_nil {strict : Bool} (Γ : Names) (ts : List Token) (module : Module)
    (Γ' : Names) (h : ModuleOf strict Γ ts module Γ') : ts ≠ [] := by
  cases h
  simp

/-- What is read up to the first end token is all that stands in front of it. -/
theorem eq_of_append_eof {body ts rest : List Token} {last : Token}
    (hbody : ∀ t ∈ body, t.isEof = false) (hts : ∀ t ∈ ts, t.isEof = false)
    (heq : body ++ [last] = ts ++ rest) (hrest : (rest.headD noToken).isEof = true)
    (hlast : last.isEof = true) : ts = body := by
  rcases List.append_eq_append_iff.mp heq with ⟨us, rfl, hus⟩ | ⟨us, rfl, hus⟩
  · cases us with
    | nil => simp
    | cons u us =>
      obtain ⟨rfl, _⟩ := List.cons.inj hus
      exact absurd hlast (by simp [hts])
  · cases us with
    | nil => simp
    | cons u us =>
      rw [hus] at hrest
      exact absurd hrest (by simp [hbody])

theorem exists_name_token {strict : Bool} {Γ Γ' : Names} {ts : List Token} {modules : List Module}
    (h : Repeated (ModuleOf strict) Γ ts modules Γ') :
    ∀ m ∈ modules, ∃ t ∈ ts, t.kind = .function m.name := by
  induction h with
  | none => simp
  | more hfirst _ ih =>
    intro m hm
    rcases List.mem_cons.mp hm with rfl | hm
    · cases hfirst with
      | mk ht _ _ _ _ _ _ _ _ => exact ⟨_, by simp, ht⟩
    · obtain ⟨t, ht, hkind⟩ := ih m hm
      exact ⟨t, List.mem_append_right _ ht, hkind⟩

/-- **A module that is read without complaints is named by one of the tokens.** -/
theorem exists_name_token_of_parse {tokens : List Token} (h : (parse tokens).complaints = []) :
    ∀ m ∈ (parse tokens).modules, ∃ t ∈ tokens, t.kind = .function m.name := by
  obtain ⟨_, ts, hrest, -, hread⟩ := reads_untilEnd reads_wholeModule (tokens.length + 1)
    { rest := tokens } (List.reverse_eq_nil_iff.mp h)
  have htokens : tokens = ts ++ _ := hrest
  intro m hm
  obtain ⟨t, ht, hkind⟩ := exists_name_token hread m hm
  refine ⟨t, ?_, hkind⟩
  rw [htokens]
  exact List.mem_append_left _ ht

/-- **A source without complaints is derived from the grammar**, completely and in order, and
    its modules are the tree of the derivation, if an argument of a call may be a vector in
    parentheses.  If no parenthesis is opened directly after a comma, arguments are as the
    grammar has them. -/
theorem silent_parse_is_derived {body : List Token} {last : Token}
    (hbody : ∀ t ∈ body, t.isEof = false) (hlast : last.isEof = true)
    (h : (parse (body ++ [last])).complaints = []) :
    SourceOf false body (parse (body ++ [last])).modules ∧
      (¬ ParenAfterComma body → SourceOf true body (parse (body ++ [last])).modules) := by
  have hs : ((untilEnd wholeModule ((body ++ [last]).length + 1)).run
      { rest := body ++ [last] }).2.complaints = [] := List.reverse_eq_nil_iff.mp h
  have hend := untilEnd_reaches_end reads_wholeModule ModuleOf.ne_nil _ { rest := body ++ [last] }
    (Nat.lt_succ_self _) hs
  obtain ⟨_, ts, hrest, hts, hread⟩ := reads_untilEnd reads_wholeModule _ _ hs
  obtain rfl := eq_of_append_eof hbody hts hrest hend hlast
  have hsource : SourceOf false ts (parse (ts ++ [last])).modules := ⟨_, hread⟩
  exact ⟨hsource, hsource.strict⟩

/-- `m({A: i}, {X: i}) method call(m, ({A}), {X}); end method; end module;` -/
def wrappedCall : List Token :=
  ([.function "m", .reserved .openParen,
      .reserved .openBrace, .var "A", .reserved .colon, .reserved .i, .reserved .closeBrace,
      .reserved .comma,
      .reserved .openBrace, .var "X", .reserved .colon, .reserved .i, .reserved .closeBrace,
      .reserved .closeParen,
    .reserved .method,
      .reserved .call, .reserved .openParen, .atom "m", .reserved .comma,
      .reserved .openParen, .reserved .openBrace, .var "A", .reserved .closeBrace,
      .reserved .closeParen, .reserved .comma,
      .reserved .openBrace, .var "X", .reserved .closeBrace, .reserved .closeParen,
      .reserved .semicolon,
    .reserved .endWord, .reserved .method, .reserved .semicolon,
    .reserved .endWord, .reserved .moduleWord, .reserved .semicolon] : List Token.Kind).map
  fun kind => ⟨kind, {}⟩

theorem not_sourceOf_wrappedCall (modules : List Module) : ¬ SourceOf true wrappedCall modules := by
  intro h
  obtain ⟨before, c, k, after, heq, hc, hk, hbrace⟩ := h.first_method (by decide)
  have hplace : ∀ n < wrappedCall.length, ∀ c ∈ wrappedCall[n]?, ∀ k ∈ wrappedCall[n + 1]?,
      c.is .closeParen → k.is .method → n = 13 := by decide
  have hlength : before.length < wrappedCall.length := by simp [heq]
  have hbefore : before.length = 13 :=
    hplace _ hlength c (by simp [heq]) k (by simp [heq]) hc hk
  have hafter : after = wrappedCall.drop 15 := by simp [heq, hbefore, List.drop_append]
  exact absurd (hbrace hafter (by decide)) (by decide)

/-- A call with an argument in parentheses is accepted, though it is not in the grammar. -/
theorem silent_parse_is_derived_wrappedCall :
    (parse (wrappedCall ++ [noToken])).complaints = [] ∧
      SourceOf false wrappedCall (parse (wrappedCall ++ [noToken])).modules ∧
      ∀ modules, ¬ SourceOf true wrappedCall modules := by
  have hsilent : (parse (wrappedCall ++ [noToken])).complaints = [] := by decide +kernel
  have hbody : ∀ t ∈ wrappedCall, t.isEof = false := by decide
  exact ⟨hsilent, (silent_parse_is_derived hbody rfl hsilent).1, not_sourceOf_wrappedCall⟩

end CandidateSearch.Grammar
