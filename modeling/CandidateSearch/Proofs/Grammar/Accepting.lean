/-
  CandidateSearch/Proofs/Grammar/Accepting.lean
  =============================================
  **What a reader takes from tokens of known kinds.**

  `Accepts s x kinds later P` says of a reader `x`: in front of tokens of the kinds `kinds`
  and `later` it takes the former and leaves the latter.  It complains of nothing and
  declares nothing, and what it gives satisfies `P`.

  Other than with `Quiet` and `Reads`, nothing is assumed of how the reader ends; the tokens
  are known instead.  There is a rule for each way readers are put together.  Of two readers
  one after the other, the first has the tokens of the second in front of what it leaves.
-/
import CandidateSearch.Proofs.Grammar.Rendering

namespace CandidateSearch.Grammar

open Source Syntax
open Token (Kind)

variable {α β γ : Type} {s : State} {x y : Parse α} {f : α → Parse β} {P P' : α → Prop}
  {Q : β → Prop} {kinds more later : List Kind}

/-- The state with the cursor at other tokens. -/
def State.facing (s : State) (last : Option Token) (rest : List Token) : State :=
  { s with last, rest }

/-- The reader takes the tokens of the first kinds, and nothing else changes. -/
def Accepts (s : State) (x : Parse α) (kinds later : List Kind) (P : α → Prop) : Prop :=
  ∀ (ts us : List Token) (last : Option Token),
    ts.map (·.kind) = kinds → us.map (·.kind) = later →
      ∃ a, P a ∧ x.run (s.facing last (ts ++ us)) = (a, s.facing (ts.getLast?.or last) us)

/-- The kind of the token at the cursor. -/
def firstKind (kinds : List Kind) : Kind := kinds.headD .eof

theorem kind_headD (ts : List Token) :
    (ts.headD noToken).kind = firstKind (ts.map (·.kind)) := by
  cases ts <;> rfl

/-! ### Rules -/

theorem accepts_pure {a : α} (h : P a) : Accepts s (pure a) [] later P := by
  intro ts us last hts _
  rw [List.map_eq_nil_iff.mp hts]
  exact ⟨a, h, rfl⟩

theorem Accepts.mono (h : Accepts s x kinds later P) (himp : ∀ a, P a → P' a) :
    Accepts s x kinds later P' := by
  intro ts us last hts hus
  obtain ⟨a, ha, hrun⟩ := h ts us last hts hus
  exact ⟨a, himp a ha, hrun⟩

theorem Accepts.bind (hx : Accepts s x kinds (more ++ later) P)
    (hf : ∀ a, P a → Accepts s (f a) more later Q) :
    Accepts s (x >>= f) (kinds ++ more) later Q := by
  intro ts us last hts hus
  obtain ⟨ts₁, ts₂, rfl, hts₁, hts₂⟩ := List.map_eq_append_iff.mp hts
  obtain ⟨a, ha, hrun⟩ := hx ts₁ (ts₂ ++ us) last hts₁ (by rw [List.map_append, hts₂, hus])
  obtain ⟨b, hb, hrun'⟩ := hf a ha ts₂ us (ts₁.getLast?.or last) hts₂ hus
  refine ⟨b, hb, ?_⟩
  have hstep : (x >>= f).run (s.facing last (ts₁ ++ ts₂ ++ us)) =
      (f (x.run (s.facing last (ts₁ ++ (ts₂ ++ us)))).1).run
        (x.run (s.facing last (ts₁ ++ (ts₂ ++ us)))).2 := by
    rw [List.append_assoc]
    rfl
  rw [hstep, hrun, hrun', List.getLast?_append, Option.or_assoc]

/-- A reader that takes nothing. -/
theorem Accepts.silent_bind (hx : Accepts s x [] (kinds ++ later) P)
    (hf : ∀ a, P a → Accepts s (f a) kinds later Q) : Accepts s (x >>= f) kinds later Q :=
  hx.bind hf

/-- A second reader that takes nothing. -/
theorem Accepts.then_silent (hx : Accepts s x kinds later P)
    (hf : ∀ a, P a → Accepts s (f a) [] later Q) : Accepts s (x >>= f) kinds later Q := by
  rw [← List.append_nil kinds]
  exact hx.bind hf

theorem accepts_if_pos {c : Prop} [Decidable c] (hc : c) (h : Accepts s x kinds later P) :
    Accepts s (if c then x else y) kinds later P := by
  rw [if_pos hc]
  exact h

theorem accepts_if_neg {c : Prop} [Decidable c] (hc : ¬ c) (h : Accepts s y kinds later P) :
    Accepts s (if c then x else y) kinds later P := by
  rw [if_neg hc]
  exact h

/-! ### Looking at tokens -/

theorem accepts_peek {g : Token → Parse β}
    (h : ∀ t : Token, t.kind = firstKind (kinds ++ later) → Accepts s (g t) kinds later Q) :
    Accepts s (peek >>= g) kinds later Q := by
  intro ts us last hts hus
  have hkind : ((ts ++ us).headD noToken).kind = firstKind (kinds ++ later) := by
    rw [kind_headD, List.map_append, hts, hus]
  exact h _ hkind ts us last hts hus

theorem accepts_peek_cons {g : Token → Parse β} {kind : Kind}
    (h : ∀ span, Accepts s (g ⟨kind, span⟩) (kind :: kinds) later Q) :
    Accepts s (peek >>= g) (kind :: kinds) later Q := by
  apply accepts_peek
  intro t ht
  obtain ⟨other, span⟩ := t
  obtain rfl : other = kind := ht
  exact h span

theorem accepts_peekNext {g : Token → Parse β}
    (h : ∀ t : Token, t.kind = firstKind (kinds ++ later).tail → Accepts s (g t) kinds later Q) :
    Accepts s (peekNext >>= g) kinds later Q := by
  intro ts us last hts hus
  have hkind : ((ts ++ us).tail.headD noToken).kind = firstKind (kinds ++ later).tail := by
    rw [kind_headD, List.map_tail, List.map_append, hts, hus]
  exact h _ hkind ts us last hts hus

theorem is_iff_kind {t : Token} {w : Reserved} : t.is w = true ↔ t.kind = .reserved w := by
  simp [Token.is]

theorem accepts_at? {g : Bool → Parse β} {w : Reserved} (found : Bool)
    (hfound : found = true ↔ firstKind (kinds ++ later) = .reserved w)
    (h : Accepts s (g found) kinds later Q) : Accepts s (at? w >>= g) kinds later Q := by
  show Accepts s (peek >>= fun t => g (t.is w)) kinds later Q
  apply accepts_peek
  intro t ht
  have his : t.is w = found := by
    rw [Bool.eq_iff_iff, hfound, is_iff_kind, ht]
  rw [his]
  exact h

theorem accepts_advance {g : Token → Parse β} {kind : Kind} (hkind : kind ≠ .eof)
    (h : ∀ t : Token, t.kind = kind → Accepts s (g t) kinds later Q) :
    Accepts s (advance >>= g) (kind :: kinds) later Q := by
  intro ts us last hts hus
  obtain ⟨t, rest, rfl, ht, hrest⟩ := List.map_eq_cons_iff.mp hts
  obtain ⟨b, hb, hrun⟩ := h t ht rest us (some t) hrest hus
  refine ⟨b, hb, ?_⟩
  have hstep : (advance >>= g).run (s.facing last (t :: rest ++ us)) =
      (g (advance.run (s.facing last (t :: rest ++ us))).1).run
        (advance.run (s.facing last (t :: rest ++ us))).2 := rfl
  have heof : (s.facing last (t :: rest ++ us)).head.isEof = false :=
    isEof_of_kind (t := t) ht hkind
  rw [hstep, run_advance heof]
  refine hrun.trans ?_
  cases hlast : rest.getLast? <;> simp [List.getLast?_cons, hlast]

theorem accepts_consume {g : Token → Parse β} {w : Reserved}
    (h : ∀ t : Token, t.kind = .reserved w → Accepts s (g t) kinds later Q) :
    Accepts s (consume w >>= g) (.reserved w :: kinds) later Q := by
  intro ts us last hts hus
  obtain ⟨t, rest, rfl, ht, -⟩ := List.map_eq_cons_iff.mp hts
  have hstep : (consume w >>= g).run (s.facing last (t :: rest ++ us)) =
      (advance >>= g).run ((expect w).run (s.facing last (t :: rest ++ us))).2 := rfl
  have hexpect : (expect w).run (s.facing last (t :: rest ++ us)) =
      (true, s.facing last (t :: rest ++ us)) := by
    rw [run_expect]
    exact if_pos (is_iff_kind.mpr ht)
  rw [hstep, hexpect]
  exact accepts_advance (by simp) h (t :: rest) us last hts hus

/-! ### Variables and checks -/

theorem accepts_get {g : State → Parse β}
    (h : ∀ s' : State, s'.names = s.names → Accepts s (g s') kinds later Q) :
    Accepts s (get >>= g) kinds later Q :=
  fun ts us last => h (s.facing last (ts ++ us)) rfl ts us last

theorem accepts_lookup {name : String} {found : Var} (hfound : s.names.find? name = some found)
    (span : Span) :
    Accepts s (lookup name span) [] later fun v => v = some { found with span := span } := by
  apply accepts_get
  intro s' hnames
  have hfind : s'.find? name = some found := by
    rw [← hfound, ← hnames]
    rfl
  rw [hfind]
  exact accepts_pure rfl

/-- A check that complains or does nothing, where its condition holds. -/
theorem accepts_check {c : Prop} [Decidable c] (hc : c) (problem : Problem) (span : Span) :
    Accepts s (unless c do complain problem span) [] later fun _ => True :=
  accepts_if_pos hc (accepts_pure trivial)

theorem accepts_checkNumeric {e : Expr} (h : e.ty.MayBeNumber) :
    Accepts s (checkNumeric e) [] later fun _ => True :=
  accepts_check (by simpa [Ty.MayBeNumber] using h) _ _

theorem accepts_checkList {e : Expr} (h : e.ty.MayBeList) :
    Accepts s (checkList e) [] later fun _ => True :=
  accepts_check (by simpa [Ty.MayBeList] using h) _ _

theorem accepts_operation {op : BinaryOp} {lhs rhs : Expr} {span : Span}
    (htys : op.isLogical = false → lhs.ty.MayBeNumber ∧ rhs.ty.MayBeNumber) :
    Accepts s (operation op lhs rhs span) [] later fun e => e = .binary op lhs rhs span := by
  cases hlogical : op.isLogical with
  | true => exact accepts_if_pos hlogical (accepts_pure rfl)
  | false =>
    obtain ⟨hlhs, hrhs⟩ := htys hlogical
    refine accepts_if_neg (by simp [hlogical]) ?_
    refine (accepts_checkNumeric hlhs).silent_bind fun _ _ => ?_
    exact (accepts_checkNumeric hrhs).silent_bind fun _ _ => accepts_pure rfl

/-! ### Repetition -/

theorem elements_cons_cons (trailing : Bool) (part next : List Kind) (rest : List (List Kind)) :
    elements trailing (part :: next :: rest) =
      part ++ .reserved .comma :: elements trailing (next :: rest) := by
  simp [elements, commas]

theorem elements_cons (trailing : Bool) (kind : Kind) (more : List Kind) (rest : List (List Kind)) :
    ∃ others, elements trailing ((kind :: more) :: rest) = kind :: others := by
  cases rest <;> exact ⟨_, rfl⟩

section Repetition

variable {item : Parse α} {close : Reserved} {write : γ → List Kind} {R : γ → α → Prop}

/-- Items as they are written are read one by one.  The token after a comma tells whether
    there is another one. -/
theorem accepts_itemsFrom (hclose : close ≠ .comma) (trailing : Bool) (first : γ) (rest : List γ)
    (hitem : ∀ x ∈ first :: rest, ∀ after,
      firstKind after = .reserved .comma ∨ firstKind after = .reserved close →
        Accepts s item (write x) after (R x))
    (hbegins : ∀ x ∈ first :: rest, ∃ kind more,
      write x = kind :: more ∧ kind ≠ .reserved close)
    {fuel : Nat} (hfuel : rest.length < fuel) :
    Accepts s (itemsFrom close item fuel) (elements trailing ((first :: rest).map write))
      (.reserved close :: later) (List.Forall₂ R (first :: rest)) := by
  induction rest generalizing first fuel with
  | nil =>
    obtain ⟨rounds, rfl⟩ : ∃ n, fuel = n + 1 := ⟨fuel - 1, by omega⟩
    have hfirst := hitem first List.mem_cons_self
    cases trailing with
    | false =>
      rw [show elements false ([first].map write) = write first ++ [] from rfl]
      refine (hfirst _ (.inr rfl)).bind fun a ha => ?_
      refine accepts_at? false (by simp [firstKind, hclose]) ?_
      exact accepts_if_neg (by simp) (accepts_pure (.cons ha .nil))
    | true =>
      rw [show elements true ([first].map write) = write first ++ [.reserved .comma] from rfl]
      refine (hfirst _ (.inl rfl)).bind fun a ha => ?_
      refine accepts_at? true (by simp [firstKind]) (accepts_if_pos rfl ?_)
      refine accepts_peekNext fun t ht => accepts_advance (by simp) fun _ _ => ?_
      exact accepts_if_pos (is_iff_kind.mpr ht) (accepts_pure (.cons ha .nil))
  | cons next rest ih =>
    obtain ⟨rounds, rfl⟩ : ∃ n, fuel = n + 1 := ⟨fuel - 1, by omega⟩
    rw [List.length_cons] at hfuel
    have hothers := ih next (fun x hx => hitem x (.tail _ hx)) (fun x hx => hbegins x (.tail _ hx))
      (Nat.lt_of_succ_lt_succ hfuel)
    rw [List.map_cons, List.map_cons, elements_cons_cons]
    refine (hitem first List.mem_cons_self _ (.inl rfl)).bind fun a ha => ?_
    refine accepts_at? true (by simp [firstKind]) (accepts_if_pos rfl ?_)
    refine accepts_peekNext fun t ht => accepts_advance (by simp) fun _ _ => ?_
    have hnext : ¬ t.is close = true := by
      obtain ⟨kind, more, hwrite, hkind⟩ := hbegins next (by simp)
      obtain ⟨others, helements⟩ := elements_cons trailing kind more (rest.map write)
      rw [hwrite, helements] at ht
      rw [is_iff_kind, ht]
      exact hkind
    exact accepts_if_neg hnext (hothers.then_silent fun as has => accepts_pure (.cons ha has))

theorem accepts_items (hclose : close ≠ .comma) (trailing : Bool) (xs : List γ)
    (hitem : ∀ x ∈ xs, ∀ after,
      firstKind after = .reserved .comma ∨ firstKind after = .reserved close →
        Accepts s item (write x) after (R x))
    (hbegins : ∀ x ∈ xs, ∃ kind more, write x = kind :: more ∧ kind ≠ .reserved close)
    {fuel : Nat} (hfuel : xs.length ≤ fuel) :
    Accepts s (items close item fuel) (elements trailing (xs.map write))
      (.reserved close :: later) (List.Forall₂ R xs) := by
  cases xs with
  | nil =>
    rw [show elements trailing (([] : List γ).map write) = [] by cases trailing <;> rfl]
    exact accepts_at? true (by simp [firstKind]) (accepts_if_pos rfl (accepts_pure .nil))
  | cons first rest =>
    obtain ⟨kind, more, hwrite, hkind⟩ := hbegins first List.mem_cons_self
    obtain ⟨others, helements⟩ := elements_cons trailing kind more (rest.map write)
    refine accepts_at? false ?_ (accepts_if_neg (by simp) ?_)
    · rw [List.map_cons, hwrite, helements]
      simpa [firstKind] using hkind
    · exact accepts_itemsFrom hclose trailing first rest hitem hbegins hfuel

end Repetition

end CandidateSearch.Grammar
