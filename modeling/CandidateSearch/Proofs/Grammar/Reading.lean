/-
  CandidateSearch/Proofs/Grammar/Reading.lean
  ===========================================
  **What is read without complaints belongs to a category.**

  A reader goes on after a mistake: it skips tokens, puts in placeholders and complains.
  `Reads x D` looks at the runs that have not complained.  What such a run of `x` takes from
  the tokens, in order and without the end token, stands for its result by the category `D`.

  There is a rule for each way readers are put together.  Of two readers one after the
  other, the second has to read what completes the tokens of the first; to look at the next
  tokens reads nothing; after a complaint there is nothing to show.  What is left in the end
  is to give the rule of the grammar that puts the parts together.

  A repetition has a number of rounds that is taken from the tokens left, and would end
  silently if that number were too small.  Where this matters the rule has the bound as a
  hypothesis.
-/
import CandidateSearch.Proofs.Grammar.Derivation

namespace CandidateSearch.Grammar

open Source Syntax

variable {α β : Type} {s : State} {x : Parse α} {f : α → Parse β} {D D' : Category α}
  {E : Category β}

/-! ### Reading -/

def State.names (s : State) : Names := ⟨s.fields, s.locals⟩

/-- The token at the cursor. -/
def State.head (s : State) : Token := s.rest.headD noToken

/-- The state behind the token at the cursor. -/
def State.moved (s : State) : State := { s with rest := s.rest.tail, last := some s.head }

/-- If there is no complaint after the reader, there was none before it, and the tokens that
    it takes stand for what it gives. -/
def ReadsAt (s : State) (x : Parse α) (D : Category α) : Prop :=
  (x.run s).2.complaints = [] → s.complaints = [] ∧ ∃ ts, s.rest = ts ++ (x.run s).2.rest ∧
    (∀ t ∈ ts, t.isEof = false) ∧ D s.names ts (x.run s).1 (x.run s).2.names

/-- The reader reads what belongs to the category, wherever it starts. -/
def Reads (x : Parse α) (D : Category α) : Prop := ∀ s, ReadsAt s x D

/-- No tokens at all: only the known variables matter. -/
def Silent (R : Names → α → Names → Prop) : Category α := fun Γ ts a Γ' => ts = [] ∧ R Γ a Γ'

/-! ### Rules -/

theorem reads_pure {a : α} (h : ∀ Γ, D Γ [] a Γ) : Reads (pure a) D :=
  fun s hs => ⟨hs, [], rfl, by simp, h s.names⟩

theorem ReadsAt.mono (h : ReadsAt s x D) (himp : ∀ Γ ts a Γ', D Γ ts a Γ' → D' Γ ts a Γ') :
    ReadsAt s x D' := by
  intro hs
  obtain ⟨hbefore, ts, hrest, heof, hD⟩ := h hs
  exact ⟨hbefore, ts, hrest, heof, himp _ _ _ _ hD⟩

theorem Reads.mono (h : Reads x D) (himp : ∀ Γ ts a Γ', D Γ ts a Γ' → D' Γ ts a Γ') :
    Reads x D' := fun s => (h s).mono himp

/-- The second reader is used where the first one has brought it; if it is quiet in any
    case, then it may count on there being no more tokens left than before. -/
theorem ReadsAt.bind_of_quiet (hx : ReadsAt s x D) (hquiet : ∀ a, Quiet (f a) fun _ => True)
    (hf : ∀ a s', s'.rest.length ≤ s.rest.length →
      ReadsAt s' (f a) fun Γ₁ vs b Γ' => ∀ Γ us, D Γ us a Γ₁ → E Γ (us ++ vs) b Γ') :
    ReadsAt s (x >>= f) E := by
  intro hs
  have hmiddle : (x.run s).2.complaints = [] := (hquiet (x.run s).1 (x.run s).2 hs).1
  obtain ⟨hbefore, us, hus, heofUs, hD⟩ := hx hmiddle
  have hle : (x.run s).2.rest.length ≤ s.rest.length := by
    rw [hus, List.length_append]
    exact Nat.le_add_left _ _
  obtain ⟨_, vs, hvs, heofVs, hE⟩ := hf (x.run s).1 (x.run s).2 hle hs
  refine ⟨hbefore, us ++ vs, ?_, ?_, hE _ us hD⟩
  · rw [List.append_assoc, hus]
    exact congrArg _ hvs
  · intro t ht
    rcases List.mem_append.mp ht with hu | hv
    · exact heofUs t hu
    · exact heofVs t hv

theorem Reads.quiet (h : Reads x D) : Quiet x fun _ => True := fun s hs => ⟨(h s hs).1, trivial⟩

theorem ReadsAt.bind (hx : ReadsAt s x D)
    (hf : ∀ a, Reads (f a) fun Γ₁ vs b Γ' => ∀ Γ us, D Γ us a Γ₁ → E Γ (us ++ vs) b Γ') :
    ReadsAt s (x >>= f) E :=
  hx.bind_of_quiet (fun a => (hf a).quiet) fun a s' _ => hf a s'

theorem Reads.bind (hx : Reads x D)
    (hf : ∀ a, Reads (f a) fun Γ₁ vs b Γ' => ∀ Γ us, D Γ us a Γ₁ → E Γ (us ++ vs) b Γ') :
    Reads (x >>= f) E := fun s => (hx s).bind hf

theorem Reads.silent_bind {R : Names → α → Names → Prop} (hx : Reads x (Silent R))
    (hf : ∀ a, Reads (f a) fun Γ₁ ts b Γ' => ∀ Γ, R Γ a Γ₁ → E Γ ts b Γ') :
    Reads (x >>= f) E := by
  refine hx.bind fun a => (hf a).mono ?_
  rintro Γ₁ ts b Γ' hE Γ us ⟨rfl, hR⟩
  exact hE Γ hR

theorem ReadsAt.and_quiet {P : α → Prop} (hx : ReadsAt s x D) (hquiet : Quiet x P) :
    ReadsAt s x fun Γ ts a Γ' => D Γ ts a Γ' ∧ P a := by
  intro hs
  obtain ⟨hbefore, ts, hrest, heof, hD⟩ := hx hs
  exact ⟨hbefore, ts, hrest, heof, hD, (hquiet s hs).2⟩

theorem Reads.and_quiet {P : α → Prop} (hx : Reads x D) (hquiet : Quiet x P) :
    Reads x fun Γ ts a Γ' => D Γ ts a Γ' ∧ P a := fun s => (hx s).and_quiet hquiet

theorem readsAt_ite {c : Prop} [Decidable c] {y : Parse α} (hx : c → ReadsAt s x D)
    (hy : ¬ c → ReadsAt s y D) : ReadsAt s (if c then x else y) D :=
  iteInduction (motive := (ReadsAt s · D)) hx hy

/-- The first token that is read is the one at the cursor. -/
theorem ReadsAt.of_head
    (h : ReadsAt s x fun Γ ts a Γ' => (∀ t, ts.head? = some t → t = s.head) → D Γ ts a Γ') :
    ReadsAt s x D := by
  intro hs
  obtain ⟨hbefore, ts, hrest, heof, hD⟩ := h hs
  refine ⟨hbefore, ts, hrest, heof, hD fun t ht => ?_⟩
  obtain ⟨us, rfl⟩ := List.head?_eq_some_iff.mp ht
  simp [State.head, hrest]

/-- A reader that never ends without complaints reads anything. -/
theorem reads_of_quiet_false (h : Quiet x fun _ => False) : Reads x D :=
  fun s hs => (h s hs).2.elim

theorem readsAt_complain_bind {g : Unit → Parse α} (problem : Problem) (span : Span)
    (hquiet : Quiet (g ()) fun _ => True) : ReadsAt s (complain problem span >>= g) D :=
  fun hs => absurd (hquiet _ hs).1 (List.cons_ne_nil _ _)

/-- A check that complains or does nothing takes no tokens. -/
theorem reads_check {c : Prop} [Decidable c] (problem : Problem) (span : Span) :
    Reads (unless c do complain problem span) (Silent fun Γ _ Γ' => Γ' = Γ) := by
  intro s
  refine readsAt_ite (fun _ => reads_pure (fun _ => ⟨rfl, rfl⟩) s) fun _ => ?_
  exact reads_of_quiet_false (quiet_complain problem span _) s

theorem reads_modify {g : State → State} (names : Names → Names)
    (hrest : ∀ s, (g s).rest = s.rest) (hcomplaints : ∀ s, (g s).complaints = s.complaints)
    (hnames : ∀ s, (g s).names = names s.names) :
    Reads (modify g) (Silent fun Γ _ Γ' => Γ' = names Γ) := by
  intro s hs
  refine ⟨(hcomplaints s).symm.trans hs, [], (hrest s).symm, by simp, rfl, hnames s⟩

theorem readsAt_pure_bind {b : β} {g : β → Parse α} (h : ReadsAt s (g b) D) :
    ReadsAt s (pure b >>= g) D := h

/-! ### Looking at tokens -/

theorem readsAt_peek {g : Token → Parse α} (h : ReadsAt s (g s.head) D) :
    ReadsAt s (peek >>= g) D := h

theorem readsAt_peekNext {g : Token → Parse α} (h : ReadsAt s (g s.moved.head) D) :
    ReadsAt s (peekNext >>= g) D := h

theorem readsAt_at? {g : Bool → Parse α} {w : Reserved} (h : ReadsAt s (g (s.head.is w)) D) :
    ReadsAt s (at? w >>= g) D := h

theorem readsAt_remaining {g : Nat → Parse α} (h : ReadsAt s (g s.rest.length) D) :
    ReadsAt s (remaining >>= g) D := h

theorem readsAt_get {g : State → Parse α}
    (h : ReadsAt s (g s) fun Γ ts a Γ' => Γ = s.names → D Γ ts a Γ') :
    ReadsAt s (get >>= g) D := by
  intro hs
  obtain ⟨hbefore, ts, hrest, heof, hD⟩ := h hs
  exact ⟨hbefore, ts, hrest, heof, hD rfl⟩

theorem reads_get : Reads get (Silent fun Γ s Γ' => s.names = Γ ∧ Γ' = Γ) :=
  fun _ hs => ⟨hs, [], rfl, by simp, rfl, rfl, rfl⟩

theorem is_of_kind {t : Token} {w : Reserved} (h : t.kind = .reserved w) : t.is w := by
  simp [Token.is, h]

theorem isEof_of_kind {t : Token} {kind : Token.Kind} (h : t.kind = kind) (hkind : kind ≠ .eof) :
    t.isEof = false := by
  simpa [Token.isEof, h] using hkind

theorem isEof_of_is {t : Token} {w : Reserved} (h : t.is w) : t.isEof = false :=
  isEof_of_kind (by simpa [Token.is] using h) (by simp)

/-- A token other than the end token that is seen at the cursor is there. -/
theorem State.rest_eq (s : State) (h : s.head.isEof = false) : s.rest = s.head :: s.moved.rest := by
  cases hrest : s.rest with
  | nil => simp [State.head, hrest, noToken, Token.isEof] at h
  | cons t rest => simp [State.head, State.moved, hrest]

theorem run_advance (h : s.head.isEof = false) : advance.run s = (s.head, s.moved) := by
  show (if s.head.isEof = true then pure s.head else do
    modify fun s' => { s' with rest := s'.rest.tail, last := some s.head }
    pure s.head : Parse Token).run s = _
  rw [if_neg (by simp [h])]
  rfl

theorem run_advance_of_eof (h : s.head.isEof = true) : advance.run s = (s.head, s) := by
  show (if s.head.isEof = true then pure s.head else do
    modify fun s' => { s' with rest := s'.rest.tail, last := some s.head }
    pure s.head : Parse Token).run s = _
  rw [if_pos h]
  rfl

theorem readsAt_advance {g : Token → Parse α} (h : s.head.isEof = false)
    (hg : ReadsAt s.moved (g s.head) fun Γ ts a Γ' => D Γ (s.head :: ts) a Γ') :
    ReadsAt s (advance >>= g) D := by
  have hrun : (advance >>= g).run s = (g s.head).run s.moved := by
    show (g (advance.run s).1).run (advance.run s).2 = _
    rw [run_advance h]
  intro hs
  rw [hrun] at hs ⊢
  obtain ⟨hbefore, ts, hrest, heof, hD⟩ := hg hs
  refine ⟨hbefore, s.head :: ts, ?_, ?_, hD⟩
  · rw [s.rest_eq h, List.cons_append]
    exact congrArg _ hrest
  · intro t ht
    rcases List.mem_cons.mp ht with rfl | ht
    · exact h
    · exact heof t ht

theorem run_expect (w : Reserved) (s : State) : (expect w).run s =
    if s.head.is w = true then (true, s) else
      (false, { s with
        complaints := ⟨.expected w.text s.head.text, s.head.span⟩ :: s.complaints }) := by
  show (if s.head.is w = true then pure true else do
    complain (.expected w.text s.head.text) s.head.span
    pure false : Parse Bool).run s = _
  split <;> rfl

/-- If the word that is expected is not there, there is a complaint. -/
theorem readsAt_expect {g : Bool → Parse α} {w : Reserved}
    (hquiet : ∀ found, Quiet (g found) fun _ => True)
    (hg : s.head.is w → ReadsAt s (g true) D) : ReadsAt s (expect w >>= g) D := by
  have hrun : (expect w >>= g).run s = (g ((expect w).run s).1).run ((expect w).run s).2 := rfl
  rw [run_expect] at hrun
  intro hs
  rw [hrun] at hs ⊢
  by_cases hw : s.head.is w = true
  · rw [if_pos hw] at hs ⊢
    exact hg hw hs
  · rw [if_neg hw] at hs
    exact absurd (hquiet _ _ hs).1 (List.cons_ne_nil _ _)

theorem reads_consume (w : Reserved) :
    Reads (consume w) fun Γ ts t Γ' => ts = [t] ∧ t.is w ∧ Γ' = Γ := by
  intro s
  unfold consume
  apply readsAt_expect fun _ => quiet_advance
  intro hw
  exact readsAt_advance (g := pure) (isEof_of_is hw) (reads_pure (fun _ => ⟨rfl, hw, rfl⟩) _)

theorem reads_consume_bind {g : Token → Parse α} {w : Reserved}
    (hg : ∀ t, Reads (g t) fun Γ ts a Γ' => t.is w → D Γ (t :: ts) a Γ') :
    Reads (consume w >>= g) D := by
  refine (reads_consume w).bind fun t => (hg t).mono ?_
  rintro Γ ts a Γ' hD Γ₀ us ⟨rfl, hw, rfl⟩
  exact hD hw

theorem reads_terminator : Reads terminator fun Γ ts found Γ' =>
    found = true ∧ ∃ t, ts = [t] ∧ t.is .semicolon ∧ Γ' = Γ := by
  intro s
  apply readsAt_peek
  refine readsAt_ite (fun hsemicolon => ?_) fun _ => ?_
  · refine readsAt_advance (isEof_of_is hsemicolon) (reads_pure ?_ _)
    exact fun _ => ⟨rfl, _, rfl, hsemicolon, rfl⟩
  · refine readsAt_ite (fun _ => ?_) fun _ => ?_
    · refine reads_get.silent_bind (fun _ _ => readsAt_ite (fun _ => ?_) fun _ => ?_) s
      · exact readsAt_complain_bind _ _ (quiet_pure trivial)
      · exact readsAt_complain_bind _ _ (quiet_pure trivial)
    · exact readsAt_complain_bind _ _ (quiet_advance.andThen fun _ => quiet_pure trivial)

theorem reads_terminator_bind {g : Bool → Parse α}
    (hg : ∀ found, Reads (g found) fun Γ ts a Γ' =>
      ∀ t, t.is .semicolon → found = true → D Γ (t :: ts) a Γ') :
    Reads (terminator >>= g) D := by
  refine reads_terminator.bind fun found => (hg found).mono ?_
  rintro Γ ts a Γ' hD Γ₀ us ⟨hfound, t, rfl, ht, rfl⟩
  exact hD t ht hfound

/-! ### Variables -/

theorem reads_declare (name : String) (span : Span) (ty : Ty) (tySpan : Span) (scope : Scope)
    (input : Bool) : Reads (declare name span ty tySpan scope input)
      (Silent fun Γ v Γ' => Γ.Declares ⟨name, ty, tySpan, scope, input, span⟩ v Γ') := by
  refine reads_get.silent_bind fun s => ?_
  cases hfind : s.find? name with
  | some found =>
    intro s'
    refine readsAt_ite (fun hty => reads_pure ?_ s') fun _ => ?_
    · rintro Γ₁ Γ ⟨rfl, rfl⟩
      exact ⟨rfl, .again hfind hty⟩
    · exact readsAt_complain_bind _ _ (quiet_pure trivial)
  | none =>
    cases scope with
    | parameter =>
      refine Reads.silent_bind (reads_modify (fun Γ => { Γ with fields := Γ.fields ++ [_] })
        (fun _ => rfl) (fun _ => rfl) fun _ => rfl) fun _ => reads_pure ?_
      rintro _ Γ₁ rfl Γ ⟨rfl, rfl⟩
      exact ⟨rfl, .new hfind⟩
    | body =>
      refine Reads.silent_bind (reads_modify (fun Γ => { Γ with locals := Γ.locals ++ [_] })
        (fun _ => rfl) (fun _ => rfl) fun _ => rfl) fun _ => reads_pure ?_
      rintro _ Γ₁ rfl Γ ⟨rfl, rfl⟩
      exact ⟨rfl, .new hfind⟩

theorem reads_lookup (name : String) (span : Span) : Reads (lookup name span)
    (Silent fun Γ found Γ' =>
      Γ' = Γ ∧ ∃ v, Γ.find? name = some v ∧ found = some { v with span := span }) := by
  refine reads_get.silent_bind fun s => ?_
  cases hfind : s.find? name with
  | some found =>
    refine reads_pure ?_
    rintro Γ₁ Γ ⟨rfl, rfl⟩
    exact ⟨rfl, rfl, found, hfind, rfl⟩
  | none => exact fun _ => readsAt_complain_bind _ _ (quiet_pure trivial)

/-! ### Repetition -/

section Repetition

variable {item : Parse α}

/-- What comes after a comma may be missing. -/
theorem Bracketed.cons {Γ Γ₁ Γ' : Names} {ts us : List Token} {c : Token} {a : α} {as : List α}
    (ha : D Γ ts a Γ₁) (hc : c.is .comma) (has : Bracketed D Γ₁ us as Γ') :
    Bracketed D Γ (ts ++ c :: us) (a :: as) Γ' := by
  cases has with
  | plain has =>
    cases has with
    | none => exact .trailing (.last ha) hc
    | some has => exact .plain (.some (.more ha hc has))
  | @trailing _ _ vs d _ has hd =>
    have hmore : Bracketed D Γ ((ts ++ c :: vs) ++ [d]) (a :: as) Γ' :=
      .trailing (.more ha hc has) hd
    rw [List.append_assoc] at hmore
    exact hmore

/-- If the rounds are used up after a comma, it is one that stands after the last item. -/
theorem reads_itemsFrom (hitem : Reads item D) (close : Reserved) (fuel : Nat) :
    Reads (itemsFrom close item fuel) (Bracketed D) := by
  induction fuel with
  | zero => exact reads_pure fun _ => .plain .none
  | succ fuel ih =>
    refine hitem.bind fun first s => ?_
    apply readsAt_at?
    refine readsAt_ite (fun hcomma => ?_) fun _ => ?_
    · apply readsAt_peekNext
      refine readsAt_advance (isEof_of_is hcomma) ?_
      refine readsAt_ite (fun _ => ?_) fun _ => ?_
      · exact reads_pure (fun _ _ _ hfirst => .cons hfirst hcomma (.plain .none)) _
      · refine ih.bind (fun rest => reads_pure ?_) _
        intro Γ' Γ₁ us hrest Γ ts hfirst
        rw [List.append_nil]
        exact .cons hfirst hcomma hrest
    · refine reads_pure (fun Γ' Γ ts hfirst => ?_) s
      rw [List.append_nil]
      exact .plain (.some (.last hfirst))

theorem reads_items (hitem : Reads item D) (close : Reserved) (fuel : Nat) :
    Reads (items close item fuel) (Bracketed D) := by
  intro s
  apply readsAt_at?
  refine readsAt_ite (fun _ => ?_) fun _ => reads_itemsFrom hitem close fuel s
  exact reads_pure (fun _ => .plain .none) s

/-- Here the rounds must not be used up after a comma. -/
theorem readsAt_commaSeparated {bound : Nat} (hquiet : Quiet item fun _ => True)
    (hitem : ∀ s : State, s.rest.length < bound → ReadsAt s item D) (fuel : Nat) (s : State)
    (hfuel : s.rest.length < fuel) (hbound : s.rest.length < bound) :
    ReadsAt s (commaSeparated item fuel) (Listed D) := by
  induction fuel generalizing s with
  | zero => exact absurd hfuel (Nat.not_lt_zero _)
  | succ fuel ih =>
    refine (hitem s hbound).bind_of_quiet (fun first => ?_) fun first s' hle => ?_
    · refine (quiet_at? .comma).andThen fun _ => quiet_ite (fun _ => ?_) fun _ => quiet_pure trivial
      exact quiet_advance.andThen fun _ =>
        (quiet_commaSeparated hquiet fuel).andThen fun _ => quiet_pure trivial
    · apply readsAt_at?
      refine readsAt_ite (fun hcomma => ?_) fun _ => ?_
      · have heof := isEof_of_is hcomma
        have hlength := congrArg List.length (s'.rest_eq heof)
        rw [List.length_cons] at hlength
        refine readsAt_advance heof ((ih s'.moved (by omega) (by omega)).bind fun rest => ?_)
        refine reads_pure fun Γ' Γ₁ us hrest Γ ts hfirst => ?_
        rw [List.append_nil]
        exact .more hfirst hcomma hrest
      · refine reads_pure (fun Γ' Γ ts hfirst => ?_) s'
        rw [List.append_nil]
        exact .last hfirst

theorem reads_untilEndWord (hitem : Reads item D) (fuel : Nat) :
    Reads (untilEndWord item fuel) (Repeated D) := by
  induction fuel with
  | zero => exact reads_pure fun _ => .none
  | succ fuel ih =>
    intro s
    apply readsAt_peek
    refine readsAt_ite (fun _ => reads_pure (fun _ => .none) s) fun _ => ?_
    refine hitem.bind (fun first => ih.bind fun rest => reads_pure ?_) s
    intro Γ' Γ₁ us hrest Γ ts hfirst
    rw [List.append_nil]
    exact .more hfirst hrest

theorem reads_untilEnd (hitem : Reads item D) (fuel : Nat) :
    Reads (untilEnd item fuel) (Repeated D) := by
  induction fuel with
  | zero => exact reads_pure fun _ => .none
  | succ fuel ih =>
    intro s
    show ReadsAt s (if s.head.isEof = true then _ else _) _
    refine readsAt_ite (fun _ => reads_pure (fun _ => .none) s) fun _ => ?_
    refine hitem.bind (fun first => ih.bind fun rest => reads_pure ?_) s
    intro Γ' Γ₁ us hrest Γ ts hfirst
    rw [List.append_nil]
    exact .more hfirst hrest

/-- With enough rounds the end is reached, if each item has a token. -/
theorem untilEnd_reaches_end (hitem : Reads item D)
    (hsome : ∀ Γ ts a Γ', D Γ ts a Γ' → ts ≠ []) (fuel : Nat) (s : State)
    (hfuel : s.rest.length < fuel)
    (hs : ((untilEnd item fuel).run s).2.complaints = []) :
    ((untilEnd item fuel).run s).2.head.isEof = true := by
  induction fuel generalizing s with
  | zero => exact absurd hfuel (Nat.not_lt_zero _)
  | succ fuel ih =>
    by_cases heof : s.head.isEof = true
    · have hrun : (untilEnd item (fuel + 1)).run s = ([], s) := by
        show (if s.head.isEof = true then pure [] else _ : Parse (List α)).run s = _
        rw [if_pos heof]
        rfl
      rw [hrun]
      exact heof
    · have hrun : ((untilEnd item (fuel + 1)).run s).2 =
          ((untilEnd item fuel).run (item.run s).2).2 := by
        show ((if s.head.isEof = true then pure [] else do
          let first ← item
          return first :: (← untilEnd item fuel) : Parse (List α)).run s).2 = _
        rw [if_neg heof]
        rfl
      rw [hrun] at hs ⊢
      have hmiddle := (reads_untilEnd hitem fuel _ hs).1
      obtain ⟨_, ts, hrest, _, hD⟩ := hitem s hmiddle
      have hpos := List.length_pos_iff.mpr (hsome _ _ _ _ hD)
      have hlength := congrArg List.length hrest
      rw [List.length_append] at hlength
      exact ih _ (by omega) hs

end Repetition

end CandidateSearch.Grammar
