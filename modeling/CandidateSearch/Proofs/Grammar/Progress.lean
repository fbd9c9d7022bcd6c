/-
  CandidateSearch/Proofs/Grammar/Progress.lean
  ============================================
  **Reading goes forward, and not past the end.**

  A reader takes tokens from the front of what is left, and never an end token
  (`State.Forward`).  That is so for any tokens, be there no end token or several, and
  whatever there is to complain about:

      tokens     method  )  end  [eof]  end  method
      cursor     ^       ^  ^    ^                       goes as far as here

  A reader may leave the token that it is shown where it is, as one does that looks for an
  operator.  But a statement, a method and a module begin with a reader that takes whatever
  token it is shown, so there is one token less after each of them (`Progress`).  Hence a
  repetition of them gets to an end token, in no more rounds than there are tokens.
-/
import CandidateSearch.Proofs.Grammar.Reading
import CandidateSearch.Proofs.Grammar.Scopes

namespace CandidateSearch.Grammar

open Source Syntax

variable {α : Type} {x item : Parse α} {s s' : State}

/-! ### Forward -/

/-- What is left is what is left after some tokens have been read, none of them an end
    token. -/
def State.Forward (s s' : State) : Prop :=
  ∃ read, s.rest = read ++ s'.rest ∧ ∀ t ∈ read, t.isEof = false

theorem forward_of_rest_eq (h : s'.rest = s.rest) : s.Forward s' :=
  ⟨[], by rw [h, List.nil_append], by simp⟩

theorem permits_forward (scope : Scope) : Permits scope State.Forward where
  refl _ := forward_of_rest_eq rfl
  trans := by
    rintro s s' s'' ⟨read, hread, heof⟩ ⟨more, hmore, heof'⟩
    refine ⟨read ++ more, by rw [hread, hmore, List.append_assoc], ?_⟩
    exact List.forall_mem_append.mpr ⟨heof, heof'⟩
  advance s heof := ⟨[s.head], s.rest_eq heof, List.forall_mem_singleton.mpr heof⟩
  complain _ _ := forward_of_rest_eq rfl
  declare _ _ _ := forward_of_rest_eq (by cases scope <;> rfl)

theorem State.Forward.length_le (h : s.Forward s') : s'.rest.length ≤ s.rest.length := by
  obtain ⟨read, hread, -⟩ := h
  rw [hread, List.length_append]
  exact Nat.le_add_left _ _

/-- The tokens in front of the first end token are the same, but for those that are read. -/
theorem State.Forward.dropWhile_eq (h : s.Forward s') :
    s'.rest.dropWhile (fun t => !t.isEof) = s.rest.dropWhile fun t => !t.isEof := by
  obtain ⟨read, hread, heof⟩ := h
  rw [hread, List.dropWhile_append_of_pos (by simpa using heof)]

/-- Where the cursor is at an end token, nothing is left to be dropped. -/
theorem State.dropWhile_eq_self (h : s.head.isEof = true) :
    s.rest.dropWhile (fun t => !t.isEof) = s.rest := by
  cases hrest : s.rest with
  | nil => rfl
  | cons t rest =>
    have ht : t.isEof = true := by simpa [State.head, hrest] using h
    simp [ht]

theorem forward_modify {g : State → State} (h : ∀ s, (g s).rest = s.rest) :
    Keeps State.Forward (modify g : Parse Unit) := fun s => forward_of_rest_eq (h s)

/-! ### At least one token -/

/-- The reader goes forward, and unless it starts at the end there is a token less after it. -/
structure Progress (x : Parse α) : Prop where
  forward : Keeps State.Forward x
  moves : ∀ s : State, s.head.isEof = false → (x.run s).2.rest.length < s.rest.length

theorem Moves.progress (h : Moves State.Forward x) : Progress x := by
  refine ⟨h.keeps, fun s heof => ?_⟩
  obtain ⟨taken, hrest, hforward⟩ := h.moves s heof
  have hle := hforward.length_le
  rw [hrest] at hle
  rw [s.rest_eq heof, List.length_cons]
  exact Nat.lt_succ_of_le hle

theorem moves_modify {h : State → State} {g : Unit → Parse α} (hg : Moves State.Forward (g ()))
    (hrest : ∀ s, (h s).rest = s.rest) : Moves State.Forward (modify h >>= g) := by
  have := permits_forward .body
  refine ⟨(forward_modify hrest).bind fun _ => hg.keeps, fun s heof => ?_⟩
  have hhead : (h s).head = s.head := by simp only [State.head, hrest]
  have hmoved : (h s).moved.rest = s.moved.rest := by simp only [State.moved, hrest]
  rw [← hmoved]
  exact hg.moves (h s) (by rwa [hhead])

theorem progress_stmt (callables : List String) : Progress (stmt callables) :=
  have := permits_forward .body
  (moves_stmt callables).progress

theorem moves_method (callables : List String) : Moves State.Forward (method callables) := by
  have := permits_forward .body
  have hforget : Keeps State.Forward (modify fun s => { s with locals := [] } : Parse Unit) :=
    forward_modify fun _ => rfl
  refine (moves_consume .method).bind fun token => hforget.bind fun _ => ?_
  refine keeps_remaining.bind fun left => ?_
  refine (keeps_untilEndWord (moves_stmt callables).keeps (left + 1)).bind fun stmts => ?_
  refine (keeps_consume .endWord).bind fun _ => (keeps_consume .method).bind fun _ => ?_
  refine keeps_terminator.bind fun _ => keeps_get.bind fun _ => hforget.bind fun _ => ?_
  exact (keeps_checkBody _).bind fun _ => keeps_pure _

theorem moves_moduleHead : Moves State.Forward moduleHead := by
  have := permits_forward .parameter
  have hnamed : ∀ (token : Token) (name : String),
      Moves State.Forward (advance >>= fun _ => pure (name, token.span)) :=
    fun _ _ => moves_advance.bind fun _ => keeps_pure _
  refine moves_peek fun token => ?_
  dsimp only
  split
  · exact hnamed token _
  · exact moves_complain (hnamed token _) _ _

theorem forward_params : Keeps State.Forward params :=
  have := permits_forward .parameter
  keeps_params

theorem moves_wholeModule : Moves State.Forward wholeModule := by
  have := permits_forward .body
  have hend : ∀ module : Module, Keeps State.Forward (do
      let _ ← consume .endWord
      if ← expect .moduleWord then
        let _ ← advance
      let _ ← terminator
      return module) := by
    intro module
    have hlast : Keeps State.Forward (terminator >>= fun _ => pure module) :=
      keeps_terminator.bind fun _ => keeps_pure _
    refine (keeps_consume .endWord).bind fun _ => (keeps_expect .moduleWord).bind fun found => ?_
    exact keeps_ite (keeps_advance.bind fun _ => hlast) hlast
  refine moves_modify (moves_moduleHead.bind fun head => ?_) fun _ => rfl
  refine forward_params.bind fun params => keeps_remaining.bind fun left => ?_
  refine (keeps_untilEndWord (moves_method _).keeps (left + 1)).bind fun methods => ?_
  exact keeps_ite ((keeps_complain _ _).bind fun _ => hend _) (hend _)

/-! ### Up to the end -/

theorem forward_untilEnd (hitem : Keeps State.Forward item) (fuel : Nat) :
    Keeps State.Forward (untilEnd item fuel) := by
  have := permits_forward .body
  induction fuel with
  | zero => exact keeps_pure _
  | succ fuel ih =>
    refine Keeps.bind (fun _ => forward_of_rest_eq rfl) fun ends => ?_
    exact keeps_ite (keeps_pure _) (hitem.bind fun _ => ih.bind fun _ => keeps_pure _)

/-- Items that take a token each are read until there is none. -/
theorem isEof_after_untilEnd (hitem : Progress item) (fuel : Nat) (s : State)
    (hfuel : s.rest.length < fuel) : ((untilEnd item fuel).run s).2.head.isEof = true := by
  induction fuel generalizing s with
  | zero => exact absurd hfuel (Nat.not_lt_zero _)
  | succ fuel ih =>
    have hround : (untilEnd item (fuel + 1)).run s =
        (if s.head.isEof then pure [] else do
          let first ← item
          return first :: (← untilEnd item fuel) : Parse (List α)).run s := rfl
    rw [hround]
    cases heof : s.head.isEof with
    | true => exact heof
    | false => exact ih _ (Nat.lt_of_lt_of_le (hitem.moves s heof) (Nat.le_of_lt_succ hfuel))

/-- **Where the cursor rests**: at the first end token, or behind the last token if there is
    none. -/
theorem rest_after_untilEnd (hitem : Progress item) (s : State) :
    ((untilEnd item (s.rest.length + 1)).run s).2.rest = s.rest.dropWhile fun t => !t.isEof := by
  have hforward := forward_untilEnd hitem.forward (s.rest.length + 1) s
  rw [← hforward.dropWhile_eq]
  exact (State.dropWhile_eq_self
    (isEof_after_untilEnd hitem _ s (Nat.lt_succ_self _))).symm

end CandidateSearch.Grammar
