/-
  CandidateSearch/Proofs/Grammar/Quiet.lean
  =========================================
  **Reading without complaints.**

  Reading never takes a complaint back.  So if there is none at the end, there was none at
  any time, and everything that comes with a complaint did not happen: no placeholder was
  put in, no semicolon was missing.

  `Quiet x P` says this of a reader `x`: without complaints at its end there were none at
  its start, and what it read satisfies `P`.  To complain is quiet with anything, be it
  false.  The rules follow the way readers are put together; a repetition is quiet with
  what its items are quiet with.
-/
import CandidateSearch.Grammar.Annotation

namespace CandidateSearch.Grammar

open Source

variable {α β : Type} {x : Parse α} {f : α → Parse β} {P : α → Prop} {Q : β → Prop}

/-- If there is no complaint after the reader, there was none before it, and what it gives
    satisfies `P`. -/
def Quiet (x : Parse α) (P : α → Prop) : Prop :=
  ∀ s, (x.run s).2.complaints = [] → s.complaints = [] ∧ P (x.run s).1

/-! ### Rules -/

theorem quiet_pure {a : α} (h : P a) : Quiet (pure a) P := fun _ hs => ⟨hs, h⟩

theorem Quiet.mono {P' : α → Prop} (h : Quiet x P) (himp : ∀ a, P a → P' a) : Quiet x P' := by
  intro s hs
  obtain ⟨hbefore, hholds⟩ := h s hs
  exact ⟨hbefore, himp _ hholds⟩

/-- What the first reader is quiet with can be used for the second one, but not for its
    being quiet: complaints are looked at from the end. -/
theorem Quiet.bind (hx : Quiet x P) (hf : ∀ a, Quiet (f a) fun b => P a → Q b) :
    Quiet (x >>= f) Q := by
  intro s hs
  obtain ⟨hmiddle, hlater⟩ := hf (x.run s).1 (x.run s).2 hs
  obtain ⟨hbefore, hholds⟩ := hx s hmiddle
  exact ⟨hbefore, hlater hholds⟩

/-- A reader whose result does not matter. -/
theorem Quiet.andThen (hx : Quiet x P) (hf : ∀ a, Quiet (f a) Q) : Quiet (x >>= f) Q :=
  hx.bind fun a => (hf a).mono fun _ hb _ => hb

theorem quiet_ite {c : Prop} [Decidable c] {y : Parse α} (hx : c → Quiet x P)
    (hy : ¬ c → Quiet y P) : Quiet (if c then x else y) P :=
  iteInduction (motive := (Quiet · P)) hx hy

/-- A reader that only looks at the state. -/
theorem quiet_look (h : ∀ s, (x.run s).2 = s) : Quiet x fun _ => True := by
  intro s hs
  rw [h s] at hs
  exact ⟨hs, trivial⟩

theorem quiet_get : Quiet (get : Parse State) fun _ => True := quiet_look fun _ => rfl

theorem quiet_modify {g : State → State} (h : ∀ s, (g s).complaints = s.complaints) :
    Quiet (modify g) fun _ => True := by
  intro s hs
  refine ⟨?_, trivial⟩
  rw [← h s]
  exact hs

/-- After a complaint there is one. -/
theorem quiet_complain (problem : Problem) (span : Span) (P : Unit → Prop) :
    Quiet (complain problem span) P := fun _ hs => absurd hs (List.cons_ne_nil _ _)

/-- A check that complains or does nothing is quiet only where its condition holds. -/
theorem quiet_check {c : Prop} [Decidable c] (problem : Problem) (span : Span) :
    Quiet (unless c do complain problem span) fun _ => c :=
  quiet_ite (fun hc => quiet_pure hc) fun _ => quiet_complain problem span _

/-! ### The cursor -/

theorem quiet_peek : Quiet peek fun _ => True := quiet_look fun _ => rfl

theorem quiet_peekNext : Quiet peekNext fun _ => True := quiet_look fun _ => rfl

theorem quiet_advance : Quiet advance fun _ => True := by
  refine quiet_peek.andThen fun token => ?_
  cases token.isEof with
  | true => exact quiet_pure trivial
  | false =>
    refine Quiet.andThen (quiet_modify fun _ => rfl) fun _ => ?_
    exact quiet_pure trivial

/-- A reader that complains about the token at the cursor and skips it is never quiet. -/
theorem quiet_skip (problem : Token → Problem) (make : Token → α) (P : α → Prop) :
    Quiet (do
      let token ← peek
      complain (problem token) token.span
      let _ ← advance
      return make token) P := by
  refine quiet_peek.andThen fun token => (quiet_complain _ _ fun _ => False).bind fun _ => ?_
  exact quiet_advance.andThen fun _ => quiet_pure False.elim

theorem quiet_at? (w : Reserved) : Quiet (at? w) fun _ => True := quiet_look fun _ => rfl

theorem quiet_atEnd? : Quiet atEnd? fun _ => True := quiet_look fun _ => rfl

theorem quiet_remaining : Quiet remaining fun _ => True := quiet_look fun _ => rfl

theorem quiet_expect (w : Reserved) : Quiet (expect w) fun found => found = true := by
  refine quiet_peek.andThen fun token => quiet_ite (fun _ => quiet_pure rfl) fun _ => ?_
  exact (quiet_complain _ _ fun _ => False).bind fun _ => quiet_pure False.elim

theorem quiet_consume (w : Reserved) : Quiet (consume w) fun _ => True :=
  (quiet_expect w).andThen fun _ => quiet_advance

theorem quiet_terminator : Quiet terminator fun found => found = true := by
  refine quiet_peek.andThen fun token => quiet_ite (fun _ => ?_) fun _ => ?_
  · exact quiet_advance.andThen fun _ => quiet_pure rfl
  · refine quiet_ite (fun _ => ?_) fun _ => ?_
    · refine quiet_get.andThen fun s => quiet_ite (fun _ => ?_) fun _ => ?_
      · exact (quiet_complain _ _ fun _ => False).bind fun _ => quiet_pure False.elim
      · exact (quiet_complain _ _ fun _ => False).bind fun _ => quiet_pure False.elim
    · refine (quiet_complain _ _ fun _ => False).bind fun _ => ?_
      exact quiet_advance.andThen fun _ => quiet_pure False.elim

/-! ### Variables -/

theorem quiet_declare (name : String) (span : Span) (ty : Ty) (tySpan : Span)
    (scope : Syntax.Scope) (input : Bool) :
    Quiet (declare name span ty tySpan scope input) fun _ => True := by
  refine quiet_get.andThen fun s => ?_
  cases s.find? name with
  | some found =>
    refine quiet_ite (fun _ => quiet_pure trivial) fun _ => ?_
    exact (quiet_complain _ _ fun _ => True).andThen fun _ => quiet_pure trivial
  | none =>
    cases scope with
    | parameter =>
      refine Quiet.andThen (quiet_modify fun _ => rfl) fun _ => ?_
      exact quiet_pure trivial
    | body =>
      refine Quiet.andThen (quiet_modify fun _ => rfl) fun _ => ?_
      exact quiet_pure trivial

theorem quiet_lookup (name : String) (span : Span) :
    Quiet (lookup name span) fun found => ∃ v, found = some v := by
  refine quiet_get.andThen fun s => ?_
  cases s.find? name with
  | some found => exact quiet_pure ⟨_, rfl⟩
  | none => exact (quiet_complain _ _ fun _ => False).bind fun _ => quiet_pure False.elim

/-! ### Repetition -/

section Repetition

variable {item : Parse α}

theorem quiet_itemsFrom (hitem : Quiet item P) (close : Reserved) (fuel : Nat) :
    Quiet (itemsFrom close item fuel) fun read => ∀ a ∈ read, P a := by
  induction fuel with
  | zero => exact quiet_pure (by simp)
  | succ fuel ih =>
    refine hitem.bind fun first => (quiet_at? .comma).andThen fun comma => ?_
    refine quiet_ite (fun _ => ?_) fun _ => quiet_pure fun hfirst => by simpa using hfirst
    refine quiet_peekNext.andThen fun next => quiet_advance.andThen fun _ => ?_
    refine quiet_ite (fun _ => quiet_pure fun hfirst => by simpa using hfirst) fun _ => ?_
    refine ih.bind fun rest => quiet_pure fun hrest hfirst => ?_
    exact List.forall_mem_cons.mpr ⟨hfirst, hrest⟩

theorem quiet_items (hitem : Quiet item P) (close : Reserved) (fuel : Nat) :
    Quiet (items close item fuel) fun read => ∀ a ∈ read, P a :=
  (quiet_at? close).andThen fun _ =>
    quiet_ite (fun _ => quiet_pure (by simp)) fun _ => quiet_itemsFrom hitem close fuel

theorem quiet_commaSeparated (hitem : Quiet item P) (fuel : Nat) :
    Quiet (commaSeparated item fuel) fun read => ∀ a ∈ read, P a := by
  induction fuel with
  | zero => exact quiet_pure (by simp)
  | succ fuel ih =>
    refine hitem.bind fun first => (quiet_at? .comma).andThen fun comma => ?_
    refine quiet_ite (fun _ => ?_) fun _ => quiet_pure fun hfirst => by simpa using hfirst
    refine quiet_advance.andThen fun _ => ih.bind fun rest => quiet_pure fun hrest hfirst => ?_
    exact List.forall_mem_cons.mpr ⟨hfirst, hrest⟩

theorem quiet_untilEndWord (hitem : Quiet item P) (fuel : Nat) :
    Quiet (untilEndWord item fuel) fun read => ∀ a ∈ read, P a := by
  induction fuel with
  | zero => exact quiet_pure (by simp)
  | succ fuel ih =>
    refine quiet_peek.andThen fun token => ?_
    refine quiet_ite (fun _ => quiet_pure (by simp)) fun _ => ?_
    refine hitem.bind fun first => ih.bind fun rest => quiet_pure fun hrest hfirst => ?_
    exact List.forall_mem_cons.mpr ⟨hfirst, hrest⟩

theorem quiet_untilEnd (hitem : Quiet item P) (fuel : Nat) :
    Quiet (untilEnd item fuel) fun read => ∀ a ∈ read, P a := by
  induction fuel with
  | zero => exact quiet_pure (by simp)
  | succ fuel ih =>
    refine quiet_atEnd?.andThen fun atEnd => ?_
    refine quiet_ite (fun _ => quiet_pure (by simp)) fun _ => ?_
    refine hitem.bind fun first => ih.bind fun rest => quiet_pure fun hrest hfirst => ?_
    exact List.forall_mem_cons.mpr ⟨hfirst, hrest⟩

end Repetition

/-! ### Types -/

theorem quiet_noAnnotation (P : Annotation → Prop) : Quiet noAnnotation P := quiet_skip _ _ P

theorem quiet_annotationMembers {member : Parse Annotation}
    (hmember : Quiet member fun _ => True) (close : Reserved) (fuel : Nat) :
    Quiet (annotationMembers close member fuel) fun _ => True := by
  have hclosing : ∀ members : List Annotation,
      Quiet (consume close >>= fun _ => pure members) fun _ => True :=
    fun _ => (quiet_consume close).andThen fun _ => quiet_pure trivial
  have hnone : Quiet (pure [] : Parse (List Annotation)) fun _ => True := quiet_pure trivial
  refine quiet_peek.andThen fun token => ?_
  dsimp only
  split
  · exact quiet_ite (fun _ => (quiet_commaSeparated hmember fuel).andThen hclosing)
      fun _ => hnone.andThen hclosing
  · exact hnone.andThen hclosing

theorem quiet_annotationAt (depth : Nat) : Quiet (annotationAt depth) fun _ => True := by
  induction depth with
  | zero => exact quiet_noAnnotation _
  | succ depth ih =>
    refine quiet_peek.andThen fun token => ?_
    split
    · exact quiet_advance.andThen fun _ => (quiet_annotationMembers ih _ _).andThen fun _ =>
        quiet_pure trivial
    · exact quiet_advance.andThen fun _ => (quiet_annotationMembers ih _ _).andThen fun _ =>
        quiet_pure trivial
    · split
      · exact quiet_advance.andThen fun _ => quiet_pure trivial
      · exact quiet_noAnnotation _
    · exact quiet_noAnnotation _

theorem quiet_annotation : Quiet annotation fun _ => True :=
  quiet_remaining.andThen fun _ => quiet_annotationAt _

end CandidateSearch.Grammar
