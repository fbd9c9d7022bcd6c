/-
  CandidateSearch/Proofs/Grammar/Unbounded.lean
  =============================================
  **Reading comes to an end by itself.**

  A reader that calls itself has a bound on how deep it may go or how often it may repeat,
  which is taken from the number of tokens left; where the bound is met, it makes do with
  what it has.  Here the same readers are written without such bounds, and call themselves
  as often as the grammar says:

      annotation = "[" [annotation {"," annotation}] "]" | …       read as it stands

  Each call takes one from a number of steps, and if there is none left, all is given up and
  nothing is read.  A reader that went on for ever would be given up with any number of
  steps.  That never happens (`Agrees`).  Whatever the tokens are, from some number of steps
  on there is an answer, and it is the one of the reader with a bound, so the bound is never
  met.

  What gets less is the number of tokens left, and where no token is read the level of the
  expression gets tighter.  There are nine levels, and a token makes up for sixteen.
-/
import CandidateSearch.Proofs.Grammar.Progress
import CandidateSearch.Proofs.Grammar.Rendering

namespace CandidateSearch.Grammar

open Source Syntax

/-- Reading that is given up if there are not enough steps. -/
abbrev Attempt (α : Type) := StateT State Option α

namespace Unbounded

variable {α β : Type}

/-- A reader that is known to come to an end. -/
def once (x : Parse α) : Attempt α := fun s => some (x.run s)

/-! ### Readers without bounds -/

mutual

def annotation : Nat → Attempt Annotation
  | 0 => failure
  | steps + 1 => do
      let token ← once peek
      match token.kind with
      | .reserved .openBracket =>
          let _ ← once advance
          let members ← annotationMembers steps .closeBracket
          return ⟨.list (members.map (·.ty)), token.span, []⟩
      | .reserved .openBrace =>
          let _ ← once advance
          let members ← annotationMembers steps .closeBrace
          let tys := members.map fun m => (m.ty, m.span)
          return ⟨.vector (members.map (·.ty)), token.span, tys⟩
      | .reserved w =>
          match simpleTy? w with
          | some ty =>
              let _ ← once advance
              return ⟨ty, token.span, []⟩
          | none => once noAnnotation
      | _ => once noAnnotation

def annotationMembers : Nat → Reserved → Attempt (List Annotation)
  | 0, _ => failure
  | steps + 1, close => do
      let token ← once peek
      let members ← match token.kind with
        | .reserved w => if startsTy w then annotations steps else pure []
        | _ => pure []
      let _ ← once (consume close)
      return members

/-- One type or more with commas between them. -/
def annotations : Nat → Attempt (List Annotation)
  | 0 => failure
  | steps + 1 => do
      let first ← annotation steps
      if ← once (at? .comma) then
        let _ ← once advance
        return first :: (← annotations steps)
      return [first]

end

mutual

/-- An expression of a level. -/
def exprAt : Nat → Level → Attempt Expr
  | 0, _ => failure
  | steps + 1, .not => do
      let token ← once peek
      if token.is .not then
        let _ ← once advance
        let _ ← once (consume .openParen)
        let operand ← exprAt steps .or
        let _ ← once (consume .closeParen)
        return .unary .not operand token.span
      exprAt steps .equality
  | steps + 1, .power => do
      let base ← exprAt steps .unary
      let token ← once peek
      if token.is .power then
        let _ ← once advance
        let exponent ← exprAt steps .power
        once (operation .pow base exponent token.span)
      else return base
  | steps + 1, .unary => do
      let token ← once peek
      if token.is .minus then
        let _ ← once advance
        let operand ← exprAt steps .unary
        once (checkNumeric operand)
        return .unary .neg operand token.span
      primary steps
  | steps + 1, level => do
      let first ← exprAt steps level.tighter
      chain steps level first

def chain : Nat → Level → Expr → Attempt Expr
  | 0, _, _ => failure
  | steps + 1, level, lhs => do
      let token ← once peek
      match token.kind with
      | .reserved w =>
          match level.operator? w with
          | some (op, exchanged) =>
              let _ ← once advance
              let rhs ← exprAt steps level.tighter
              let (a, b) := if exchanged then (rhs, lhs) else (lhs, rhs)
              chain steps level (← once (operation op a b token.span))
          | none => return lhs
      | _ => return lhs

def primary : Nat → Attempt Expr
  | 0 => failure
  | steps + 1 => do
      let token ← once peek
      match token.kind with
      | .reserved w =>
          match builtin? w with
          | some f => builtinCall steps f
          | none =>
              match w with
              | .openParen => do
                  let _ ← once advance
                  let e ← exprAt steps .or
                  let _ ← once (consume .closeParen)
                  return e
              | .openBracket => list steps
              | .openBrace => vector steps
              | .trueWord => once (single (.bool true token.span))
              | .falseWord => once (single (.bool false token.span))
              | _ => once noExpression
      | .number digits => once (single (.number digits token.span))
      | .string content => once (single (.string content token.span))
      | .atom name => once (single (.atom name token.span))
      | .var name => once (variableExpr name token.span)
      | .function _ | .eof => once noExpression

def builtinCall : Nat → Builtin → Attempt Expr
  | 0, _ => failure
  | steps + 1, f => do
      let token ← once advance
      let _ ← once (consume .openParen)
      let first ← exprAt steps .or
      let args ← match f with
        | .sqrt | .exp => do
            once (checkNumeric first)
            pure [first]
        | .length | .sum => do
            once (checkList first)
            pure [first]
        | .nth => do
            once (checkNumeric first)
            let _ ← once (consume .comma)
            let list ← exprAt steps .or
            once (checkList list)
            pure [first, list]
      let _ ← once (consume .closeParen)
      return .builtin f args token.span

def list : Nat → Attempt Expr
  | 0 => failure
  | steps + 1 => do
      let token ← once (consume .openBracket)
      let elements ← elements steps
      let _ ← once (consume .closeBracket)
      return .list elements token.span

def elements : Nat → Attempt (List Expr)
  | 0 => failure
  | steps + 1 => do
      if ← once (at? .closeBracket) then return []
      elementsFrom steps

def elementsFrom : Nat → Attempt (List Expr)
  | 0 => failure
  | steps + 1 => do
      let first ← exprAt steps .or
      if ← once (at? .comma) then
        let next ← once peekNext
        let _ ← once advance
        if next.is .closeBracket then return [first]
        return first :: (← elementsFrom steps)
      return [first]

def vector : Nat → Attempt Expr
  | 0 => failure
  | steps + 1 => do
      let token ← once peek
      let (members, tys) ← pendingMembers steps
      return .vector (← once (resolveMembers members tys)) token.span

def pendingMembers : Nat → Attempt (List Pending × List (Ty × Span))
  | 0 => failure
  | steps + 1 => do
      let _ ← once (consume .openBrace)
      let members ← members steps
      let _ ← once (consume .closeBrace)
      return (members, ← once (groupTys members))

def members : Nat → Attempt (List Pending)
  | 0 => failure
  | steps + 1 => do
      if ← once (at? .closeBrace) then return []
      membersFrom steps

def member : Nat → Attempt Pending
  | 0 => failure
  | steps + 1 => do
      let token ← once peek
      let next ← once peekNext
      match token.kind with
      | .var name =>
          if next.is .colon then
            let _ ← once advance
            let _ ← once advance
            let ty ← once Grammar.annotation
            return .name name token.span (some (ty.ty, ty.span))
          if next.is .comma || next.is .closeBrace then
            let _ ← once advance
            return .name name token.span none
          return .value (← exprAt steps .or)
      | _ => return .value (← exprAt steps .or)

def membersFrom : Nat → Attempt (List Pending)
  | 0 => failure
  | steps + 1 => do
      let first ← member steps
      if ← once (at? .comma) then
        let next ← once peekNext
        let _ ← once advance
        if next.is .closeBrace then return [first]
        return first :: (← membersFrom steps)
      return [first]

end

/-! The repetitions outside of expressions; what is repeated comes to an end itself. -/

section Repetition

variable (item : Parse α)

def itemsFrom (close : Reserved) : Nat → Attempt (List α)
  | 0 => failure
  | steps + 1 => do
      let first ← once item
      if ← once (at? .comma) then
        let next ← once peekNext
        let _ ← once advance
        if next.is close then return [first]
        return first :: (← itemsFrom close steps)
      return [first]

def commaSeparated : Nat → Attempt (List α)
  | 0 => failure
  | steps + 1 => do
      let first ← once item
      if ← once (at? .comma) then
        let _ ← once advance
        return first :: (← commaSeparated steps)
      return [first]

def untilEndWord : Nat → Attempt (List α)
  | 0 => failure
  | steps + 1 => do
      let token ← once peek
      if token.is .endWord || token.isEof then return []
      let first ← once item
      return first :: (← untilEndWord steps)

def untilEnd : Nat → Attempt (List α)
  | 0 => failure
  | steps + 1 => do
      if ← once atEnd? then return []
      let first ← once item
      return first :: (← untilEnd steps)

end Repetition

def paramsFrom : Nat → Bool → Attempt (List Param)
  | 0, _ => failure
  | steps + 1, input => do
      let first ← once (param input)
      if ← once (at? .comma) then
        let _ ← once advance
        return first :: (← paramsFrom steps (input && first.group?.isNone))
      return [first]

/-! ### Agreement -/

section Agreement

variable {u : Nat → Attempt α} {x : Parse α} {f : α → Nat → Attempt β} {g : α → Parse β}
  {s : State}

/-- Reading without a bound comes to an end, with so many steps or more, and gives what
    reading with one gives. -/
def Agrees (u : Nat → Attempt α) (x : Parse α) (s : State) : Prop :=
  ∃ least, ∀ steps, least ≤ steps → (u steps).run s = some (x.run s)

theorem agrees_of_eq (h : ∀ steps, (u steps).run s = some (x.run s)) : Agrees u x s :=
  ⟨0, fun steps _ => h steps⟩

theorem agrees_once (x : Parse α) (s : State) : Agrees (fun _ => once x) x s :=
  agrees_of_eq fun _ => rfl

/-- A call takes one step. -/
theorem agrees_call {v : Nat → Attempt α} (hcall : ∀ steps, u (steps + 1) = v steps)
    (h : Agrees v x s) : Agrees u x s := by
  obtain ⟨least, hleast⟩ := h
  refine ⟨least + 1, fun steps hsteps => ?_⟩
  cases steps with
  | zero => exact absurd hsteps (Nat.not_succ_le_zero _)
  | succ steps =>
    rw [hcall]
    exact hleast steps (Nat.le_of_succ_le_succ hsteps)

theorem Agrees.bind (hu : Agrees u x s)
    (hf : Agrees (f (x.run s).1) (g (x.run s).1) (x.run s).2) :
    Agrees (fun steps => u steps >>= fun a => f a steps) (x >>= g) s := by
  obtain ⟨least, hleast⟩ := hu
  obtain ⟨later, hlater⟩ := hf
  refine ⟨max least later, fun steps hsteps => ?_⟩
  show ((u steps).run s >>= fun read => (f read.1 steps).run read.2) = _
  rw [hleast steps (by omega)]
  exact hlater steps (by omega)

/-- What follows calls nothing that would need steps. -/
theorem Agrees.done (hu : Agrees u x s) {f : α → Attempt β}
    (hf : ∀ a s', (f a).run s' = some ((g a).run s')) :
    Agrees (fun steps => u steps >>= f) (x >>= g) s :=
  hu.bind (agrees_of_eq fun _ => hf _ _)

/-- The second reader starts with no more tokens than the first. -/
theorem Agrees.andThen (hu : Agrees u x s) (hx : Keeps State.Forward x)
    (hf : ∀ a s', s'.rest.length ≤ s.rest.length → Agrees (f a) (g a) s') :
    Agrees (fun steps => u steps >>= fun a => f a steps) (x >>= g) s :=
  hu.bind (hf _ _ (hx s).length_le)

/-- Behind a reader that takes a token there is a token less. -/
theorem agrees_moves {y : Parse α} (hy : Progress y) (heof : s.head.isEof = false)
    (hf : ∀ a s', s'.rest.length < s.rest.length → Agrees (f a) (g a) s') :
    Agrees (fun steps => once y >>= fun a => f a steps) (y >>= g) s :=
  (agrees_once y s).bind (hf _ _ (hy.moves s heof))

theorem agrees_peek {f : Token → Nat → Attempt β} {g : Token → Parse β}
    (h : Agrees (f s.head) (g s.head) s) :
    Agrees (fun steps => once peek >>= fun t => f t steps) (peek >>= g) s := h

theorem agrees_peekNext {f : Token → Nat → Attempt β} {g : Token → Parse β}
    (h : Agrees (f s.moved.head) (g s.moved.head) s) :
    Agrees (fun steps => once peekNext >>= fun t => f t steps) (peekNext >>= g) s := h

theorem agrees_at? {f : Bool → Nat → Attempt β} {g : Bool → Parse β} {w : Reserved}
    (h : Agrees (f (s.head.is w)) (g (s.head.is w)) s) :
    Agrees (fun steps => once (at? w) >>= fun found => f found steps) (at? w >>= g) s := h

theorem agrees_atEnd? {f : Bool → Nat → Attempt β} {g : Bool → Parse β}
    (h : Agrees (f s.head.isEof) (g s.head.isEof) s) :
    Agrees (fun steps => once atEnd? >>= fun ends => f ends steps) (atEnd? >>= g) s := h

theorem agrees_remaining {g : Nat → Parse α} (h : Agrees u (g s.rest.length) s) :
    Agrees u (remaining >>= g) s := h

theorem agrees_enough {g : Nat → Parse α} (h : Agrees u (g (16 * (s.rest.length + 1))) s) :
    Agrees u (enough >>= g) s := h

theorem agrees_ite {c : Prop} [Decidable c] {v : Nat → Attempt α} {y : Parse α}
    (hu : c → Agrees u x s) (hv : ¬ c → Agrees v y s) :
    Agrees (fun steps => if c then u steps else v steps) (if c then x else y) s := by
  by_cases hc : c
  · simp only [if_pos hc]
    exact hu hc
  · simp only [if_neg hc]
    exact hv hc

end Agreement

/-! ### Repetition -/

section Repetition

variable {u : Nat → Attempt α} {x : Parse α} {loop : Nat → Attempt (List α)} {count : Nat}

/-- Items with commas between them: what one of them is, and what comes after it. -/
def commaRound (u : Attempt α) (later : Attempt (List α)) : Attempt (List α) := do
  let first ← u
  if ← once (at? .comma) then
    let _ ← once advance
    return first :: (← later)
  return [first]

/-- The same up to a closing symbol, where a comma may stand after the last item. -/
def itemRound (close : Reserved) (u : Attempt α) (later : Attempt (List α)) :
    Attempt (List α) := do
  let first ← u
  if ← once (at? .comma) then
    let next ← once peekNext
    let _ ← once advance
    if next.is close then return [first]
    return first :: (← later)
  return [first]

/-- A round after the first one follows a comma, so there is a token less for it. -/
theorem agrees_commaSeparated
    (hloop : ∀ steps, loop (steps + 1) = commaRound (u steps) (loop steps))
    (hx : Keeps State.Forward x) (hitem : ∀ s, s.rest.length < count → Agrees u x s) (fuel : Nat)
    (s : State) (hs : s.rest.length < count) (hfuel : s.rest.length < fuel) :
    Agrees loop (Grammar.commaSeparated x fuel) s := by
  have := permits_forward .body
  induction fuel generalizing s with
  | zero => exact absurd hfuel (Nat.not_lt_zero _)
  | succ fuel ih =>
    refine agrees_call hloop ((hitem s hs).andThen hx fun first s₁ h₁ => ?_)
    refine agrees_at? (agrees_ite (fun hcomma => ?_) fun _ => agrees_of_eq fun _ => rfl)
    refine agrees_moves moves_advance.progress (isEof_of_is hcomma) fun _ s₂ h₂ => ?_
    exact (ih s₂ (by omega) (by omega)).done fun _ _ => rfl

theorem agrees_itemsFrom {close : Reserved}
    (hloop : ∀ steps, loop (steps + 1) = itemRound close (u steps) (loop steps))
    (hx : Keeps State.Forward x) (hitem : ∀ s, s.rest.length < count → Agrees u x s) (fuel : Nat)
    (s : State) (hs : s.rest.length < count) (hfuel : s.rest.length < fuel) :
    Agrees loop (Grammar.itemsFrom close x fuel) s := by
  have := permits_forward .body
  induction fuel generalizing s with
  | zero => exact absurd hfuel (Nat.not_lt_zero _)
  | succ fuel ih =>
    refine agrees_call hloop ((hitem s hs).andThen hx fun first s₁ h₁ => ?_)
    refine agrees_at? (agrees_ite (fun hcomma => agrees_peekNext ?_) fun _ => ?_)
    · refine agrees_moves moves_advance.progress (isEof_of_is hcomma) fun _ s₂ h₂ => ?_
      refine agrees_ite (fun _ => agrees_of_eq fun _ => rfl) fun _ => ?_
      exact (ih s₂ (by omega) (by omega)).done fun _ _ => rfl
    · exact agrees_of_eq fun _ => rfl

end Repetition

/-! ### Types -/

theorem agrees_annotationAt (depth : Nat) (s : State) (hdepth : s.rest.length < depth) :
    Agrees annotation (annotationAt depth) s := by
  have := permits_forward .body
  induction depth generalizing s with
  | zero => exact absurd hdepth (Nat.not_lt_zero _)
  | succ depth ih =>
    have hseveral : ∀ s', s'.rest.length < depth →
        Agrees annotations (Grammar.commaSeparated (annotationAt depth) depth) s' :=
      fun s' hs' => agrees_commaSeparated (fun _ => rfl) (keeps_annotationAt depth) ih
        depth s' hs' hs'
    have hmembers : ∀ close s', s'.rest.length < s.rest.length →
        Agrees (fun steps => annotationMembers steps close)
          (Grammar.annotationMembers close (annotationAt depth) depth) s' := by
      intro close s' hs'
      refine agrees_call (fun steps => annotationMembers.eq_2 close steps) (agrees_peek ?_)
      dsimp only
      generalize s'.head.kind = kind
      cases kind with
      | reserved w =>
        refine agrees_ite (fun _ => ?_) fun _ => agrees_of_eq fun _ => rfl
        exact (hseveral s' (by omega)).done fun _ _ => rfl
      | _ => exact agrees_of_eq fun _ => rfl
    refine agrees_call annotation.eq_2 (agrees_peek ?_)
    generalize hkind : s.head.kind = kind
    cases kind with
    | reserved w =>
      have heof : s.head.isEof = false := isEof_of_kind hkind (by simp)
      cases w with
      | openBracket | openBrace =>
        refine agrees_moves moves_advance.progress heof fun _ s₁ h₁ => ?_
        exact (hmembers _ s₁ h₁).done fun _ _ => rfl
      | _ => exact agrees_of_eq fun _ => rfl
    | _ => exact agrees_of_eq fun _ => rfl

theorem agrees_annotation (s : State) : Agrees annotation Grammar.annotation s :=
  agrees_remaining (agrees_annotationAt (s.rest.length + 1) s (Nat.lt_succ_self _))

/-! ### Expressions -/

section Expressions

variable {fuel count : Nat}

/-- Wherever there are less tokens left, expressions are read alike. -/
def AgreesBelow (fuel : Nat) (count : Nat) : Prop :=
  ∀ level s, s.rest.length < count →
    Agrees (fun steps => exprAt steps level) (Grammar.exprAt fuel level) s

theorem agrees_chain (h : AgreesBelow fuel count) (level : Level) (rounds : Nat) (lhs : Expr)
    (s : State) (hs : s.rest.length ≤ count) (hrounds : s.rest.length < rounds) :
    Agrees (fun steps => chain steps level lhs)
      (Grammar.chain level (Grammar.exprAt fuel level.tighter) rounds lhs) s := by
  have := permits_forward .body
  induction rounds generalizing lhs s with
  | zero => exact absurd hrounds (Nat.not_lt_zero _)
  | succ rounds ih =>
    refine agrees_call (fun steps => chain.eq_2 level lhs steps) (agrees_peek ?_)
    generalize hkind : s.head.kind = kind
    cases kind with
    | reserved w =>
      dsimp only
      cases level.operator? w with
      | none => exact agrees_of_eq fun _ => rfl
      | some found =>
        have heof : s.head.isEof = false := isEof_of_kind hkind (by simp)
        refine agrees_moves moves_advance.progress heof fun _ s₁ h₁ => ?_
        refine (h _ s₁ (by omega)).andThen (keeps_exprAt _ _) fun rhs s₂ h₂ => ?_
        refine (agrees_once _ s₂).andThen (keeps_operation _ _ _ _) fun e s₃ h₃ => ?_
        exact ih e s₃ (by omega) (by omega)
    | _ => exact agrees_of_eq fun _ => rfl

theorem agrees_member (h : AgreesBelow fuel count) (s : State) (hs : s.rest.length < count) :
    Agrees member (Grammar.member (Grammar.exprAt fuel .or)) s := by
  have hvalue : Agrees (fun steps => exprAt steps .or >>= fun e => pure (Pending.value e))
      (Grammar.exprAt fuel .or >>= fun e => pure (Pending.value e)) s :=
    (h _ s hs).done fun _ _ => rfl
  refine agrees_call member.eq_2 (agrees_peek (agrees_peekNext ?_))
  generalize s.head.kind = kind
  cases kind with
  | var name =>
    refine agrees_ite (fun _ => agrees_of_eq fun _ => rfl) fun _ => ?_
    exact agrees_ite (fun _ => agrees_of_eq fun _ => rfl) fun _ => hvalue
  | _ => exact hvalue

theorem agrees_builtinCall (h : AgreesBelow fuel count) (f : Builtin) (s : State)
    (hs : s.rest.length ≤ count) (heof : s.head.isEof = false) :
    Agrees (fun steps => builtinCall steps f)
      (Grammar.builtinCall f (Grammar.exprAt fuel .or)) s := by
  have := permits_forward .body
  refine agrees_call (fun steps => builtinCall.eq_2 f steps) ?_
  refine agrees_moves moves_advance.progress heof fun token s₁ h₁ => ?_
  refine (agrees_once _ s₁).andThen (keeps_consume .openParen) fun _ s₂ h₂ => ?_
  refine (h _ s₂ (by omega)).andThen (keeps_exprAt _ _) fun first s₃ h₃ => ?_
  cases f with
  | sqrt | exp | length | sum => exact agrees_of_eq fun _ => rfl
  | nth =>
    refine (agrees_once _ s₃).andThen (keeps_checkNumeric _) fun _ s₄ h₄ => ?_
    refine (agrees_once _ s₄).andThen (keeps_consume .comma) fun _ s₅ h₅ => ?_
    exact (h _ s₅ (by omega)).done fun _ _ => rfl

theorem agrees_list (h : AgreesBelow fuel count) (s : State) (hs : s.rest.length ≤ count)
    (hfuel : s.rest.length ≤ fuel) (heof : s.head.isEof = false) :
    Agrees list (Grammar.list (Grammar.exprAt fuel .or) fuel) s := by
  have := permits_forward .body
  refine agrees_call list.eq_2 ?_
  refine agrees_moves (moves_consume .openBracket).progress heof fun token s₁ h₁ => ?_
  have helements : Agrees elements (items .closeBracket (Grammar.exprAt fuel .or) fuel) s₁ := by
    refine agrees_call elements.eq_2 (agrees_at? ?_)
    refine agrees_ite (fun _ => agrees_of_eq fun _ => rfl) fun _ => ?_
    exact agrees_itemsFrom (fun _ => rfl) (keeps_exprAt _ _) (h .or) fuel s₁ (by omega)
      (by omega)
  exact helements.done fun _ _ => rfl

theorem agrees_vector (h : AgreesBelow fuel count) (s : State) (hs : s.rest.length ≤ count)
    (hfuel : s.rest.length ≤ fuel) (heof : s.head.isEof = false) :
    Agrees vector (Grammar.vector (Grammar.exprAt fuel .or) fuel) s := by
  have := permits_forward .body
  have hpending : Agrees pendingMembers
      (Grammar.pendingMembers (Grammar.exprAt fuel .or) fuel) s := by
    refine agrees_call pendingMembers.eq_2 ?_
    refine agrees_moves (moves_consume .openBrace).progress heof fun _ s₁ h₁ => ?_
    have hmembers : Agrees members
        (items .closeBrace (Grammar.member (Grammar.exprAt fuel .or)) fuel) s₁ := by
      refine agrees_call members.eq_2 (agrees_at? ?_)
      refine agrees_ite (fun _ => agrees_of_eq fun _ => rfl) fun _ => ?_
      exact agrees_itemsFrom (fun _ => rfl) (keeps_member (keeps_exprAt _ _)) (agrees_member h)
        fuel s₁ (by omega) (by omega)
    exact hmembers.done fun _ _ => rfl
  refine agrees_call vector.eq_2 (agrees_peek ?_)
  exact hpending.done fun _ _ => rfl

theorem agrees_primaryWith (h : AgreesBelow fuel count) (s : State) (hs : s.rest.length ≤ count)
    (hfuel : s.rest.length ≤ fuel) :
    Agrees primary (primaryWith (Grammar.exprAt fuel .or) fuel) s := by
  have := permits_forward .body
  refine agrees_call primary.eq_2 (agrees_peek ?_)
  generalize hkind : s.head.kind = kind
  cases kind with
  | reserved w =>
    have heof : s.head.isEof = false := isEof_of_kind hkind (by simp)
    cases w with
    | sqrt | exp | length | nth | sum => exact agrees_builtinCall h _ s hs heof
    | openParen =>
      refine agrees_moves moves_advance.progress heof fun _ s₁ h₁ => ?_
      exact (h .or s₁ (by omega)).done fun _ _ => rfl
    | openBracket => exact agrees_list h s hs hfuel heof
    | openBrace => exact agrees_vector h s hs hfuel heof
    | _ => exact agrees_of_eq fun _ => rfl
  | _ => exact agrees_of_eq fun _ => rfl

/-- **Expressions of every level.**  A level is left for a tighter one, or a token is read. -/
theorem agrees_exprAt (fuel : Nat) (level : Level) (s : State)
    (hfuel : 16 * s.rest.length + 9 < fuel + level.rank) :
    Agrees (fun steps => exprAt steps level) (Grammar.exprAt fuel level) s := by
  have := permits_forward .body
  induction fuel generalizing level s with
  | zero =>
    have hrank := level.rank_le
    omega
  | succ fuel ih =>
    have hrank := level.rank_le
    have hbelow : AgreesBelow fuel s.rest.length := fun level' s' hs' => ih level' s' (by omega)
    have hlevel : ∀ level : Level, level ≠ .unary →
        16 * s.rest.length + 9 < fuel + 1 + level.rank →
        Agrees (fun steps => exprAt steps level.tighter >>= fun first => chain steps level first)
          (Grammar.exprAt fuel level.tighter >>=
            Grammar.chain level (Grammar.exprAt fuel level.tighter) fuel) s := by
      intro level hne hlevel
      have htighter := Level.rank_tighter hne
      refine (ih _ s (by omega)).andThen (keeps_exprAt _ _) fun first s₁ h₁ => ?_
      exact agrees_chain hbelow level fuel first s₁ h₁ (by omega)
    cases level with
    | not =>
      refine agrees_call (fun _ => rfl) (agrees_peek (agrees_ite (fun hnot => ?_) fun _ => ?_))
      · refine agrees_moves moves_advance.progress (isEof_of_is hnot) fun _ s₁ h₁ => ?_
        refine (agrees_once _ s₁).andThen (keeps_consume .openParen) fun _ s₂ h₂ => ?_
        exact (hbelow .or s₂ (by omega)).done fun _ _ => rfl
      · refine ih _ s ?_
        simp only [Level.rank] at hfuel ⊢
        omega
    | power =>
      have hbase : 16 * s.rest.length + 9 < fuel + Level.unary.rank := by
        simp only [Level.rank] at hfuel ⊢
        omega
      refine agrees_call (fun _ => rfl) ?_
      refine (ih .unary s hbase).andThen (keeps_exprAt _ _) fun base s₁ h₁ => ?_
      refine agrees_peek (agrees_ite (fun hpower => ?_) fun _ => agrees_of_eq fun _ => rfl)
      refine agrees_moves moves_advance.progress (isEof_of_is hpower) fun _ s₂ h₂ => ?_
      exact (hbelow .power s₂ (by omega)).done fun _ _ => rfl
    | unary =>
      refine agrees_call (fun _ => rfl) (agrees_peek (agrees_ite (fun hminus => ?_) fun _ => ?_))
      · refine agrees_moves moves_advance.progress (isEof_of_is hminus) fun _ s₁ h₁ => ?_
        exact (hbelow .unary s₁ h₁).done fun _ _ => rfl
      · exact agrees_primaryWith hbelow s (Nat.le_refl _) (by omega)
    | or => exact agrees_call (fun _ => rfl) (hlevel .or (by simp) hfuel)
    | and => exact agrees_call (fun _ => rfl) (hlevel .and (by simp) hfuel)
    | equality => exact agrees_call (fun _ => rfl) (hlevel .equality (by simp) hfuel)
    | relational => exact agrees_call (fun _ => rfl) (hlevel .relational (by simp) hfuel)
    | additive => exact agrees_call (fun _ => rfl) (hlevel .additive (by simp) hfuel)
    | multiplicative => exact agrees_call (fun _ => rfl) (hlevel .multiplicative (by simp) hfuel)

end Expressions

theorem agrees_primary (s : State) : Agrees primary Grammar.primary s := by
  have hbelow : AgreesBelow (16 * (s.rest.length + 1)) s.rest.length :=
    fun level s' hs' => agrees_exprAt _ level s' (by omega)
  exact agrees_enough (agrees_primaryWith hbelow s (Nat.le_refl _) (by omega))

/-! ### Parameters, statements, methods and modules -/

theorem agrees_paramsFrom (fuel : Nat) (input : Bool) (s : State) (hfuel : s.rest.length < fuel) :
    Agrees (fun steps => paramsFrom steps input) (Grammar.paramsFrom input fuel) s := by
  have hparam := permits_forward .parameter
  induction fuel generalizing input s with
  | zero => exact absurd hfuel (Nat.not_lt_zero _)
  | succ fuel ih =>
    refine agrees_call (fun steps => paramsFrom.eq_2 input steps) ?_
    refine (agrees_once _ s).andThen (keeps_param input) fun first s₁ h₁ => ?_
    refine agrees_at? (agrees_ite (fun hcomma => ?_) fun _ => agrees_of_eq fun _ => rfl)
    refine agrees_moves moves_advance.progress (isEof_of_is hcomma) fun _ s₂ h₂ => ?_
    exact (ih _ s₂ (by omega)).done fun _ _ => rfl

section Repetition

variable {item : Parse α}

theorem agrees_untilEndWord (hitem : Progress item) (fuel : Nat) (s : State)
    (hfuel : s.rest.length < fuel) :
    Agrees (untilEndWord item) (Grammar.untilEndWord item fuel) s := by
  induction fuel generalizing s with
  | zero => exact absurd hfuel (Nat.not_lt_zero _)
  | succ fuel ih =>
    refine agrees_call (untilEndWord.eq_2 item) (agrees_peek ?_)
    refine agrees_ite (fun _ => agrees_of_eq fun _ => rfl) fun hmore => ?_
    have heof : s.head.isEof = false := by
      rw [Bool.or_eq_true, not_or] at hmore
      simpa using hmore.2
    refine agrees_moves hitem heof fun first s₁ h₁ => ?_
    exact (ih s₁ (by omega)).done fun _ _ => rfl

theorem agrees_untilEnd (hitem : Progress item) (fuel : Nat) (s : State)
    (hfuel : s.rest.length < fuel) : Agrees (untilEnd item) (Grammar.untilEnd item fuel) s := by
  induction fuel generalizing s with
  | zero => exact absurd hfuel (Nat.not_lt_zero _)
  | succ fuel ih =>
    refine agrees_call (untilEnd.eq_2 item) (agrees_atEnd? ?_)
    refine agrees_ite (fun _ => agrees_of_eq fun _ => rfl) fun hmore => ?_
    refine agrees_moves hitem (by simpa using hmore) fun first s₁ h₁ => ?_
    exact (ih s₁ (by omega)).done fun _ _ => rfl

end Repetition

/-- Every reader that calls itself and every repetition comes to an end without its bound, and
    gives what it gives with it.  A repetition has a bound that is above the number of tokens
    left. -/
structure Ends : Prop where
  annotation : ∀ s, Agrees annotation Grammar.annotation s
  exprAt : ∀ level s, Agrees (fun steps => exprAt steps level)
    (enough >>= fun fuel => Grammar.exprAt fuel level) s
  primary : ∀ s, Agrees primary Grammar.primary s
  arms : ∀ (s : State) fuel, s.rest.length < fuel →
    Agrees (commaSeparated arm) (Grammar.commaSeparated arm fuel) s
  members : ∀ (s : State) fuel, s.rest.length < fuel →
    Agrees (itemsFrom (Grammar.member noMember) .closeBrace)
      (Grammar.itemsFrom .closeBrace (Grammar.member noMember) fuel) s
  params : ∀ input (s : State) fuel, s.rest.length < fuel →
    Agrees (fun steps => paramsFrom steps input) (Grammar.paramsFrom input fuel) s
  stmts : ∀ callables (s : State) fuel, s.rest.length < fuel →
    Agrees (untilEndWord (stmt callables)) (Grammar.untilEndWord (stmt callables) fuel) s
  methods : ∀ callables (s : State) fuel, s.rest.length < fuel →
    Agrees (untilEndWord (method callables)) (Grammar.untilEndWord (method callables) fuel) s
  modules : ∀ (s : State) fuel, s.rest.length < fuel →
    Agrees (untilEnd wholeModule) (Grammar.untilEnd wholeModule fuel) s

theorem ends : Ends where
  annotation := agrees_annotation
  exprAt level s := agrees_enough (agrees_exprAt _ level s (by omega))
  primary := agrees_primary
  arms s fuel hfuel := by
    have := permits_forward .body
    exact agrees_commaSeparated (fun _ => rfl) keeps_arm (fun s _ => agrees_once _ s)
      fuel s (Nat.lt_succ_self _) hfuel
  members s fuel hfuel := by
    have := permits_forward .parameter
    exact agrees_itemsFrom (fun _ => rfl) (keeps_member keeps_noMember)
      (fun s _ => agrees_once _ s) fuel s (Nat.lt_succ_self _) hfuel
  params input s fuel := agrees_paramsFrom fuel input s
  stmts callables s fuel := agrees_untilEndWord (progress_stmt callables) fuel s
  methods callables s fuel := agrees_untilEndWord (moves_method callables).progress fuel s
  modules s fuel := agrees_untilEnd moves_wholeModule.progress fuel s

end Unbounded

/-- **Reading always comes to an end, at the end of the text.**  Nothing that repeats or calls
    itself needs its bound.  All the modules of any tokens are read, and then the cursor rests
    at the first end token, or behind the last token if there is none.  On the way each module,
    each method and each statement takes some tokens from what is left, one of them at least
    unless it starts at the end, and never an end token. -/
theorem reading_rests_at_the_end :
    Unbounded.Ends ∧
    (∀ tokens : List Token, ∃ (after : State) (least : Nat),
      (∀ steps, least ≤ steps →
        (Unbounded.untilEnd wholeModule steps).run { rest := tokens } =
          some ((parse tokens).modules, after)) ∧
      (parse tokens).complaints = after.complaints.reverse ∧
      after.rest = tokens.dropWhile fun t => !t.isEof) ∧
    Progress wholeModule ∧
    ∀ callables, Progress (method callables) ∧ Progress (stmt callables) := by
  refine ⟨Unbounded.ends, fun tokens => ?_, moves_wholeModule.progress,
    fun callables => ⟨(moves_method callables).progress, progress_stmt callables⟩⟩
  obtain ⟨least, hleast⟩ := Unbounded.ends.modules { rest := tokens } (tokens.length + 1)
    (Nat.lt_succ_self _)
  refine ⟨_, least, hleast, rfl, ?_⟩
  exact rest_after_untilEnd moves_wholeModule.progress { rest := tokens }

end CandidateSearch.Grammar
