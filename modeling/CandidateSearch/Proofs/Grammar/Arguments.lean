/-
  CandidateSearch/Proofs/Grammar/Arguments.lean
  =============================================
  **Arguments of calls, with and without parentheses.**

  The strict grammar has vectors as the arguments of a call, the other one also vectors in
  parentheses.  In a call both arguments stand behind a comma, so without a parenthesis that
  is opened directly after a comma the two grammars agree (`SourceOf.strict`).

  And they differ: by the strict grammar the first argument of a call starts with a brace.
  This is shown for a call that is the first statement of a source, where a prefix of the
  tokens tells that there is a call (`SourceOf.first_method`).
-/
import CandidateSearch.Proofs.Grammar.Derivation

namespace CandidateSearch.Grammar

open Source Syntax

/-! ### Without parentheses -/

section Strict

variable {Γ Γ' : Names} {ts us : List Token} {callables : List String}

/-- Somewhere a parenthesis is opened directly after a comma. -/
def ParenAfterComma (ts : List Token) : Prop :=
  ∃ c p, [c, p] <:+: ts ∧ c.is .comma ∧ p.is .openParen

theorem ParenAfterComma.mono (h : ParenAfterComma us) (hwithin : us <:+: ts) :
    ParenAfterComma ts := by
  obtain ⟨c, p, hpair, hc, hp⟩ := h
  exact ⟨c, p, hpair.trans hwithin, hc, hp⟩

theorem Repeated.strict {α : Type} {item item' : Category α} {as : List α}
    (h : Repeated item Γ ts as Γ') (hno : ¬ ParenAfterComma ts)
    (hitem : ∀ {Γ Γ' us a}, item Γ us a Γ' → ¬ ParenAfterComma us → item' Γ us a Γ') :
    Repeated item' Γ ts as Γ' := by
  induction h with
  | none => exact .none
  | @more _ _ _ us vs _ _ ha _ ih =>
    refine .more (hitem ha fun h => hno (h.mono ?_)) (ih fun h => hno (h.mono ?_))
    · exact (List.prefix_append us vs).isInfix
    · exact (List.suffix_append us vs).isInfix

theorem ArgumentOf.strict {c : Token} {e : Expr} (h : ArgumentOf false Γ ts e Γ')
    (hc : c.is .comma) (hno : ¬ ParenAfterComma (c :: ts)) : ArgumentOf true Γ ts e Γ' := by
  cases h with
  | vector he => exact .vector he
  | @parens _ _ t u us _ _ ht => exact absurd ⟨c, t, ⟨[], us ++ [u], rfl⟩, hc, ht⟩ hno

theorem ActionOf.strict {action : Action} (h : ActionOf false callables Γ ts action Γ')
    (hno : ¬ ParenAfterComma ts) : ActionOf true callables Γ ts action Γ' := by
  cases h with
  | test ht ho he hu => exact .test ht ho he hu
  | guard ht ho he hu => exact .guard ht ho he hu
  | @call _ _ _ t o m c d u us vs _ _ _ ht ho hm hcallee hc hinputs hd houtputs hu =>
    have hfirst : c :: us <:+: t :: o :: m :: c :: (us ++ d :: (vs ++ [u])) :=
      ⟨[t, o, m], d :: (vs ++ [u]), by simp⟩
    have hsecond : d :: vs <:+: t :: o :: m :: c :: (us ++ d :: (vs ++ [u])) :=
      ⟨t :: o :: m :: c :: us, [u], by simp⟩
    exact .call ht ho hm hcallee hc (hinputs.strict hc fun h => hno (h.mono hfirst)) hd
      (houtputs.strict hd fun h => hno (h.mono hsecond)) hu
  | declaring ht hnew hq hvalue hv => exact .declaring ht hnew hq hvalue hv
  | assign htarget hkind hq hvalue => exact .assign htarget hkind hq hvalue

theorem StmtOf.strict {stmt : Stmt} (h : StmtOf false callables Γ ts stmt Γ')
    (hno : ¬ ParenAfterComma ts) : StmtOf true callables Γ ts stmt Γ' := by
  cases h with
  | @mk _ _ t u us _ haction hu ht =>
    exact .mk (haction.strict fun h => hno (h.mono (List.prefix_append us [u]).isInfix)) hu ht

theorem MethodOf.strict {method : Method} (h : MethodOf false callables Γ ts method Γ')
    (hno : ¬ ParenAfterComma ts) : MethodOf true callables Γ ts method Γ' := by
  cases h with
  | @mk _ _ t e m u us _ _ _ ht hstmts he hm hu hguard =>
    have hwithin : us <:+: t :: (us ++ [e, m, u]) := ⟨[t], [e, m, u], rfl⟩
    exact .mk ht (hstmts.strict (fun h => hno (h.mono hwithin)) StmtOf.strict) he hm hu hguard

theorem ModuleOf.strict {module : Module} (h : ModuleOf false Γ ts module Γ')
    (hno : ¬ ParenAfterComma ts) : ModuleOf true Γ ts module Γ' := by
  cases h with
  | @mk _ _ _ t o c e m u us vs _ _ _ ht ho hparams hc hmethods hsome he hm hu =>
    have hwithin : vs <:+: t :: o :: (us ++ c :: (vs ++ [e, m, u])) :=
      ⟨t :: o :: (us ++ [c]), [e, m, u], by simp⟩
    exact .mk ht ho hparams hc (hmethods.strict (fun h => hno (h.mono hwithin)) MethodOf.strict)
      hsome he hm hu

theorem SourceOf.strict {modules : List Module} (h : SourceOf false ts modules)
    (hno : ¬ ParenAfterComma ts) : SourceOf true ts modules := by
  obtain ⟨Γ, h⟩ := h
  exact ⟨Γ, Repeated.strict h hno ModuleOf.strict⟩

end Strict

/-! ### By the strict grammar -/

theorem not_is_of_is {t : Token} {w w' : Reserved} (h : t.is w) (hne : w ≠ w') : ¬ t.is w' := by
  intro h'
  simp only [Token.is, decide_eq_true_eq] at h h'
  exact hne (Token.Kind.reserved.inj (h.symm.trans h'))

theorem not_is_of_kind {t : Token} {w : Reserved} {kind : Token.Kind} (h : t.kind = kind)
    (hne : kind ≠ .reserved w) : ¬ t.is w := by
  simpa [Token.is, h] using hne

/-- No primary expression starts with the word `call`. -/
theorem PrimaryOf.head_not_call {Γ Γ' : Names} {ts : List Token} {e : Expr}
    (h : PrimaryOf Γ ts e Γ') : ∃ t us, ts = t :: us ∧ ¬ t.is .call := by
  cases h with
  | @function _ _ _ _ _ _ _ f _ ht hf =>
    refine ⟨_, _, rfl, not_is_of_is ht ?_⟩
    rintro rfl
    cases f <;> simp [Reserved.text, Builtin.text] at hf
  | nth ht => exact ⟨_, _, rfl, not_is_of_is ht (by simp)⟩
  | parens ht => exact ⟨_, _, rfl, not_is_of_is ht (by simp)⟩
  | list ht => exact ⟨_, _, rfl, not_is_of_is ht (by simp)⟩
  | vector he =>
    obtain ⟨⟨ht⟩⟩ := he
    exact ⟨_, _, rfl, not_is_of_is ht (by simp)⟩
  | trueWord ht => exact ⟨_, _, rfl, not_is_of_is ht (by simp)⟩
  | falseWord ht => exact ⟨_, _, rfl, not_is_of_is ht (by simp)⟩
  | number ht => exact ⟨_, _, rfl, not_is_of_kind ht (by simp)⟩
  | string ht => exact ⟨_, _, rfl, not_is_of_kind ht (by simp)⟩
  | atom ht => exact ⟨_, _, rfl, not_is_of_kind ht (by simp)⟩
  | «variable» ht => exact ⟨_, _, rfl, not_is_of_kind ht (by simp)⟩
  | declaration ht => exact ⟨_, _, rfl, not_is_of_kind ht (by simp)⟩

section FirstArgument

variable {Γ Γ' : Names} {ts more rest : List Token} {callables : List String} {t o m c p : Token}

/-- By the grammar the first argument of a call starts with a brace. -/
theorem ActionOf.brace_of_call {action : Action} (h : ActionOf true callables Γ ts action Γ')
    (hts : ts ++ more = t :: o :: m :: c :: p :: rest) (ht : t.is .call) : p.is .openBrace := by
  cases h with
  | test htest =>
    obtain ⟨rfl, _⟩ := List.cons.inj hts
    exact absurd ht (not_is_of_is htest (by simp))
  | guard hguard =>
    obtain ⟨rfl, _⟩ := List.cons.inj hts
    exact absurd ht (not_is_of_is hguard (by simp))
  | call _ _ _ _ _ hinputs =>
    cases hinputs with
    | vector he =>
      obtain ⟨⟨hbrace⟩⟩ := he
      cases hts
      exact hbrace
    | parens hstrict => cases hstrict
  | declaring hkind =>
    obtain ⟨rfl, _⟩ := List.cons.inj hts
    exact absurd ht (not_is_of_kind hkind (by simp))
  | assign htarget =>
    obtain ⟨u, us, rfl, hu⟩ := htarget.head_not_call
    obtain ⟨rfl, _⟩ := List.cons.inj hts
    exact absurd ht hu

theorem StmtOf.brace_of_call {stmt : Stmt} (h : StmtOf true callables Γ ts stmt Γ')
    (hts : ts ++ more = t :: o :: m :: c :: p :: rest) (ht : t.is .call) : p.is .openBrace := by
  cases h with
  | mk haction =>
    rw [List.append_assoc] at hts
    exact haction.brace_of_call hts ht

theorem MethodOf.brace_of_call {method : Method} {k : Token}
    (h : MethodOf true callables Γ ts method Γ')
    (hts : ts ++ more = k :: t :: o :: m :: c :: p :: rest) (ht : t.is .call) :
    p.is .openBrace := by
  cases h with
  | mk _ hstmts he =>
    cases hstmts with
    | none =>
      cases hts
      exact absurd ht (not_is_of_is he (by simp))
    | more hstmt =>
      simp only [List.append_assoc, List.cons_append, List.cons.injEq] at hts
      exact hstmt.brace_of_call hts.2 ht

theorem MethodOf.head {method : Method} (h : MethodOf true callables Γ ts method Γ') :
    ∃ k us, ts = k :: us ∧ k.is .method := by
  cases h with
  | mk ht => exact ⟨_, _, rfl, ht⟩

end FirstArgument

/-- A source by the grammar has a closing parenthesis with a method after it. -/
theorem SourceOf.first_method {ts : List Token} {modules : List Module}
    (h : SourceOf true ts modules) (hts : ts ≠ []) : ∃ before c k after,
      ts = before ++ c :: k :: after ∧ c.is .closeParen ∧ k.is .method ∧
        ∀ {t o m d p rest}, after = t :: o :: m :: d :: p :: rest → t.is .call → p.is .openBrace := by
  obtain ⟨Γ', hmodules⟩ := h
  cases hmodules with
  | none => exact absurd rfl hts
  | @more _ _ _ _ others _ _ hmodule =>
    cases hmodule with
    | @mk _ _ _ t o c e m u ps _ _ _ _ _ _ _ hc hmethods hsome =>
      cases hmethods with
      | none => exact absurd rfl hsome
      | @more _ _ _ _ us _ _ hmethod =>
        obtain ⟨k, ks, rfl, hk⟩ := hmethod.head
        refine ⟨t :: o :: ps, c, k, ks ++ (us ++ e :: m :: u :: others), by simp, hc, hk, ?_⟩
        intro t' o' m' d p rest hafter ht
        have hmore : (k :: ks) ++ (us ++ e :: m :: u :: others) =
            k :: t' :: o' :: m' :: d :: p :: rest := congrArg (k :: ·) hafter
        exact hmethod.brace_of_call hmore ht

end CandidateSearch.Grammar
