/-
  CandidateSearch/Proofs/Grammar/WrittenTypes.lean
  ================================================
  **A type is read back from its text.**

  Three parts that know nothing of each other have to agree: the text of a type, the rules
  that cut a text into tokens, and the reader of types.

      text       {[integer], []}
      kinds      "{"  "["  "integer"  "]"  ","  "["  "]"  "}"
      type       vector [list [integer], list []]

  The kinds stand between them.  `Lexes` says which kinds a stretch of text gives in front
  of what follows it: a word goes on as long as there are letters, and a blank takes the
  blanks behind it, so what follows matters.  From the kinds on, the reader is followed with
  `Accepts`.
-/
import CandidateSearch.Proofs.Grammar.Accepting
import CandidateSearch.Proofs.Token.Rules
import CandidateSearch.Source.Document

namespace CandidateSearch

/-- No part of the type is unknown. -/
inductive Ty.Known : Ty → Prop
  | integer : Known .integer
  | real : Known .real
  | bool : Known .bool
  | atom : Known .atom
  | list {members : List Ty} (hmembers : ∀ m ∈ members, Known m) : Known (.list members)
  | vector {members : List Ty} (hmembers : ∀ m ∈ members, Known m) : Known (.vector members)

/-! ### Texts that are cut into tokens -/

namespace Token

variable {us vs after : List Char} {kinds more : List Kind}

/-- In front of `after` the characters are tokens of these kinds, perhaps with blanks between
    them; nothing is complained about. -/
def Lexes (written : List Char) (kinds : List Kind) (after : List Char) : Prop :=
  ∀ fuel place, (written ++ after).length ≤ fuel → ∃ row left place',
    piecesFrom fuel place (written ++ after) = row ++ piecesFrom left place' after ∧
    after.length ≤ left ∧ (row.filterMap Piece.token?).map (·.kind) = kinds ∧
    row.filterMap Piece.complaint? = []

theorem lexes_nil (after : List Char) : Lexes [] [] after :=
  fun fuel place hfuel => ⟨[], fuel, place, rfl, hfuel, rfl, rfl⟩

theorem Lexes.append (hu : Lexes us kinds (vs ++ after)) (hv : Lexes vs more after) :
    Lexes (us ++ vs) (kinds ++ more) after := by
  intro fuel place hfuel
  rw [List.append_assoc] at hfuel ⊢
  obtain ⟨row, left, place', hrow, hleft, hkinds, hsilent⟩ := hu fuel place hfuel
  obtain ⟨row', left', place'', hrow', hleft', hkinds', hsilent'⟩ := hv left place' hleft
  refine ⟨row ++ row', left', place'', ?_, hleft', ?_, ?_⟩
  · rw [hrow, hrow', List.append_assoc]
  · rw [List.filterMap_append, List.map_append, hkinds, hkinds']
  · rw [List.filterMap_append, hsilent, hsilent', List.append_nil]

/-- One round of the scanner, if it finds a token or something blank. -/
theorem lexes_front {c : Char} {rest : List Char} {content : Content}
    (hfront : front c (rest ++ after) = (content, rest.length + 1))
    (hkinds : content = .blank ∧ kinds = [] ∨ ∃ kind, content = .token kind ∧ kinds = [kind]) :
    Lexes (c :: rest) kinds after := by
  intro fuel place hfuel
  rw [List.cons_append, List.length_cons] at hfuel
  obtain ⟨left, rfl⟩ : ∃ left, fuel = left + 1 := ⟨fuel - 1, by omega⟩
  have hround : piecesFrom (left + 1) place (c :: rest ++ after) =
      ⟨content, c :: rest, place.to (place.advance (c :: rest))⟩ ::
        piecesFrom left (place.advance (c :: rest)) after := by
    rw [List.cons_append, piecesFrom, hfront]
    dsimp only
    rw [List.drop_succ_cons, List.drop_left, List.take_succ_cons, List.take_left]
  refine ⟨[_], left, _, hround, ?_, ?_, ?_⟩
  · rw [List.length_append] at hfuel
    omega
  · rcases hkinds with ⟨rfl, rfl⟩ | ⟨kind, rfl, rfl⟩ <;> rfl
  · rcases hkinds with ⟨rfl, -⟩ | ⟨kind, rfl, -⟩ <;> rfl

theorem run_eq_zero {p : Char → Bool} (h : ∀ c ∈ after.head?, p c = false) : run p after = 0 := by
  cases after with
  | nil => rfl
  | cons c rest => simp [run, h c rfl]

theorem lexes_blank (h : ∀ c ∈ after.head?, isBlank c = false) : Lexes [' '] [] after := by
  have hlength : triviaLength (' ' :: after) = 1 := by
    show run isBlank (' ' :: after) = 1
    rw [run_cons_of_true rfl, run_eq_zero h]
  refine lexes_front ?_ (.inl ⟨rfl, rfl⟩)
  unfold front
  dsimp only
  rw [List.nil_append, if_pos (by omega), hlength]
  rfl

/-- Of the rules, a lower-case letter leaves that for words only. -/
theorem front_lower {c : Char} (hc : isLower c = true) (rest : List Char) :
    front c rest = (.token (wordKind ((c :: rest).take (1 + run isWordChar rest))
      ((c :: rest).drop (1 + run isWordChar rest))), 1 + run isWordChar rest) := by
  have hother : ∀ d, isLower d = false → c ≠ d := by
    rintro d hd rfl
    rw [hc] at hd
    cases hd
  have hleast : 'a' ≤ c := by
    simp only [isLower, Bool.and_eq_true, decide_eq_true_eq] at hc
    exact hc.1
  have htrivia : triviaLength (c :: rest) = 0 := by
    have hblank : isBlank c = false := by
      simp [isBlank, hother ' ' rfl, hother '\t' rfl, hother '\r' rfl, hother '\n' rfl]
    unfold triviaLength
    split
    · rename_i heq
      exact absurd (List.cons.inj heq).1 (hother '%' rfl)
    · exact run_eq_zero fun d hd => by rwa [← Option.some.inj hd]
  have hlong : symbol? Reserved.longSymbols (c :: rest) = none := by
    have hheads : ∀ w ∈ Reserved.longSymbols, w.text.toList.head?.any isLower = false ∧
        w.text.toList ≠ [] := by decide +kernel
    rw [symbol?, Option.map_eq_none_iff, List.find?_eq_none]
    intro w hw hstarts
    obtain ⟨hhead, hsome⟩ := hheads w hw
    obtain ⟨d, tail, htext⟩ := List.exists_cons_of_ne_nil hsome
    rw [htext, List.isPrefixOf_iff_prefix, List.cons_prefix_cons] at hstarts
    rw [htext, List.head?_cons, Option.any_some, hstarts.1, hc] at hhead
    cases hhead
  have hdigit : Number.isDigit c = false := by
    have hmost : ¬ c ≤ '9' := fun hle => absurd (Char.le_trans hleast hle) (by decide)
    simp [Number.isDigit, hmost]
  have hnumber : numberLength (c :: rest) = 0 := by
    unfold numberLength
    rw [run_eq_zero (by simpa using hdigit)]
    rfl
  have hupper : (c == '_' || isUpper c) = false := by
    have hmost : ¬ c ≤ 'Z' := fun hle => absurd (Char.le_trans hleast hle) (by decide)
    simp [isUpper, hmost, hother '_' rfl]
  unfold front
  dsimp only
  rw [htrivia, if_neg (by simp), string?_of_ne_quote (hother '"' rfl), hlong, hnumber,
    if_neg (by simp), hupper, hc]
  rfl

/-- A reserved word is found as far as the word goes. -/
theorem lexes_word {w : Reserved} (hw : w ∈ Reserved.words)
    (h : ∀ c ∈ after.head?, isWordChar c = false) : Lexes w.text.toList [.reserved w] after := by
  have hfacts : ∀ w ∈ Reserved.words, Reserved.ofWord? w.text.toList = some w ∧
      w.text.toList.head?.any isLower = true ∧ w.text.toList.tail.all isWordChar = true := by
    decide +kernel
  obtain ⟨hword, hlower, htail⟩ := hfacts w hw
  cases htext : w.text.toList with
  | nil =>
    rw [htext] at hlower
    cases hlower
  | cons c rest =>
    rw [htext] at hword hlower htail
    have hrun : 1 + run isWordChar (rest ++ after) = rest.length + 1 := by
      have hafter : (after.takeWhile isWordChar).length = 0 := run_eq_zero h
      have hrest : ∀ d ∈ rest, isWordChar d = true := List.all_eq_true.mp htail
      rw [run, List.takeWhile_append_of_pos hrest, List.length_append]
      omega
    have hfront : front c (rest ++ after) = (.token (.reserved w), rest.length + 1) := by
      rw [front_lower hlower, hrun, List.take_succ_cons, List.take_left, wordKind, hword]
    exact lexes_front hfront (.inr ⟨_, rfl, rfl⟩)

/-- A text that gives tokens of these kinds up to its end. -/
theorem scan_of_lexes {text : List Char} (h : Lexes text kinds []) :
    (scan text).complaints = [] ∧ ∃ tokens, tokens.map (·.kind) = kinds ∧
      (scan text).tokens = tokens ++ [endToken text tokens.getLast?] := by
  obtain ⟨row, left, place, hrow, -, hkinds, hsilent⟩ :=
    h text.length {} (by rw [List.append_nil])
  have hend : piecesFrom left place [] = [] := by cases left <;> rfl
  rw [List.append_nil, hend, List.append_nil] at hrow
  have hpieces : pieces text = row := hrow
  unfold scan
  rw [hpieces]
  exact ⟨hsilent, _, hkinds, rfl⟩

end Token

/-! ### The tokens of a type -/

namespace Ty

open Grammar (enclosed commas)
open Token (Kind Lexes)

theorem texts_eq (members : List Ty) : texts members = members.map text := by
  induction members with
  | nil => rfl
  | cons member rest ih => rw [texts, ih, List.map_cons]

mutual

def kinds : Ty → List Kind
  | .integer => [.reserved .integer]
  | .real => [.reserved .real]
  | .bool => [.reserved .bool]
  | .atom => [.reserved .atom]
  | .unknown => [.atom "dummy"]
  | .list members => enclosed .openBracket .closeBracket (commas (kindsEach members))
  | .vector members => enclosed .openBrace .closeBrace (commas (kindsEach members))

def kindsEach : List Ty → List (List Kind)
  | [] => []
  | member :: rest => kinds member :: kindsEach rest

end

theorem kindsEach_eq (members : List Ty) : kindsEach members = members.map kinds := by
  induction members with
  | nil => rfl
  | cons member rest ih => rw [kindsEach, ih, List.map_cons]

/-- The text between the brackets of a type. -/
def memberChars (members : List Ty) : List Char :=
  [',', ' '].intercalate (members.map fun m => m.text.toList)

theorem toList_list (members : List Ty) :
    (list members).text.toList = '[' :: (memberChars members ++ [']']) := by
  simp [text, texts_eq, memberChars, String.toList_intercalate, Function.comp_def]

theorem toList_vector (members : List Ty) :
    (vector members).text.toList = '\x7b' :: (memberChars members ++ ['\x7d']) := by
  simp [text, texts_eq, memberChars, String.toList_intercalate, Function.comp_def]

theorem exists_head_text (ty : Ty) :
    ∃ c rest, ty.text.toList = c :: rest ∧ Token.isBlank c = false := by
  cases ty with
  | list members => exact ⟨_, _, toList_list members, rfl⟩
  | vector members => exact ⟨_, _, toList_vector members, rfl⟩
  | integer | real | bool | atom | unknown => exact ⟨_, _, rfl, rfl⟩

theorem memberChars_cons_cons (first next : Ty) (others : List Ty) :
    memberChars (first :: next :: others) =
      first.text.toList ++ ([','] ++ ([' '] ++ memberChars (next :: others))) := by
  simp [memberChars, List.intercalate_cons_cons]

/-- Members in a row, if each of them is cut into its tokens by itself. -/
theorem lexes_memberChars {members : List Ty} {close : Char} {later : List Char}
    (hclose : Token.isWordChar close = false)
    (h : ∀ m ∈ members, ∀ after : List Char, (∀ c ∈ after.head?, Token.isWordChar c = false) →
      Lexes m.text.toList m.kinds after) :
    Lexes (memberChars members) (commas (members.map kinds)) (close :: later) := by
  induction members with
  | nil => exact Token.lexes_nil _
  | cons first rest ih =>
    obtain ⟨hfirst, hrest⟩ := List.forall_mem_cons.mp h
    cases rest with
    | nil =>
      have hlast := hfirst (close :: later) (by simpa using hclose)
      simpa [memberChars, commas] using hlast
    | cons next others =>
      obtain ⟨c, tail, htext, hblank⟩ := exists_head_text next
      have hcomma : Lexes [','] [.reserved .comma]
          ([' '] ++ memberChars (next :: others) ++ close :: later) :=
        Token.lexes_front rfl (.inr ⟨_, rfl, rfl⟩)
      have hspace : Lexes [' '] [] (memberChars (next :: others) ++ close :: later) := by
        apply Token.lexes_blank
        cases others <;> simp [memberChars, List.intercalate_cons_cons, htext, hblank]
      rw [memberChars_cons_cons]
      refine (hfirst _ ?_).append (hcomma.append (hspace.append (ih hrest)))
      intro c hc
      obtain rfl : ',' = c := Option.some.inj hc
      rfl

/-- A type in brackets of either sort. -/
theorem lexes_enclosed {opens closes : Char} {opening closing : Reserved}
    (hopens : ∀ rest, Token.front opens rest = (.token (.reserved opening), 1))
    (hcloses : ∀ rest, Token.front closes rest = (.token (.reserved closing), 1))
    (hword : Token.isWordChar closes = false) {members : List Ty} {after : List Char}
    (h : ∀ m ∈ members, ∀ after : List Char, (∀ c ∈ after.head?, Token.isWordChar c = false) →
      Lexes m.text.toList m.kinds after) :
    Lexes (opens :: (memberChars members ++ [closes]))
      (enclosed opening closing (commas (kindsEach members))) after := by
  rw [kindsEach_eq]
  have hopening : Lexes [opens] [.reserved opening] (memberChars members ++ [closes] ++ after) :=
    Token.lexes_front (hopens _) (.inr ⟨_, rfl, rfl⟩)
  have hclosing : Lexes [closes] [.reserved closing] after :=
    Token.lexes_front (hcloses _) (.inr ⟨_, rfl, rfl⟩)
  exact hopening.append ((lexes_memberChars hword h).append hclosing)

/-- **The text of a known type is cut into the tokens of the type.** -/
theorem Known.lexes {ty : Ty} (h : ty.Known) {after : List Char}
    (hafter : ∀ c ∈ after.head?, Token.isWordChar c = false) :
    Lexes ty.text.toList ty.kinds after := by
  induction h generalizing after with
  | integer => exact Token.lexes_word (w := .integer) (by decide) hafter
  | real => exact Token.lexes_word (w := .real) (by decide) hafter
  | bool => exact Token.lexes_word (w := .bool) (by decide) hafter
  | atom => exact Token.lexes_word (w := .atom) (by decide) hafter
  | list _ ih =>
    rw [toList_list, kinds]
    exact lexes_enclosed (fun _ => rfl) (fun _ => rfl) rfl fun m hm _ => ih m hm
  | vector _ ih =>
    rw [toList_vector, kinds]
    exact lexes_enclosed (fun _ => rfl) (fun _ => rfl) rfl fun m hm _ => ih m hm

/-- The text of a known type is in normal form. -/
theorem Known.plain {ty : Ty} (h : ty.Known) : ∀ c ∈ ty.text.toList, c ≠ '\r' ∧ c ≠ '\t' := by
  have hword : ∀ cs : List Char, (cs.all fun c => c != '\r' && c != '\t') = true →
      ∀ c ∈ cs, c ≠ '\r' ∧ c ≠ '\t' := by
    intro cs hcs c hc
    simpa using List.all_eq_true.mp hcs c hc
  have hmembers : ∀ members : List Ty, (∀ m ∈ members, ∀ c ∈ m.text.toList, c ≠ '\r' ∧ c ≠ '\t') →
      ∀ c ∈ memberChars members, c ≠ '\r' ∧ c ≠ '\t' := by
    intro members hplain
    induction members with
    | nil => simp [memberChars]
    | cons first rest ih =>
      obtain ⟨hfirst, hrest⟩ := List.forall_mem_cons.mp hplain
      cases rest with
      | nil => simpa [memberChars] using hfirst
      | cons next others =>
        rw [memberChars_cons_cons]
        simp only [List.forall_mem_append]
        exact ⟨hfirst, by simp, by simp, ih hrest⟩
  induction h with
  | integer | real | bool | atom => exact hword _ rfl
  | list _ ih =>
    rw [toList_list, List.forall_mem_cons, List.forall_mem_append]
    exact ⟨by decide, hmembers _ ih, by simp⟩
  | vector _ ih =>
    rw [toList_vector, List.forall_mem_cons, List.forall_mem_append]
    exact ⟨by decide, hmembers _ ih, by simp⟩

theorem Known.kinds_ne_nil {ty : Ty} (h : ty.Known) : ty.kinds ≠ [] := by
  cases h <;> simp [kinds, enclosed]

end Ty

/-! ### Reading -/

theorem Source.normalize_of_plain {cs : List Char} (h : ∀ c ∈ cs, c ≠ '\r' ∧ c ≠ '\t') :
    normalize cs = cs := by
  have hjoin : joinLineEnds cs = cs := by
    induction cs with
    | nil => rfl
    | cons c rest ih =>
      obtain ⟨hc, hrest⟩ := List.forall_mem_cons.mp h
      rw [joinLineEnds, ih hrest]
      intro tail heq
      exact absurd heq hc.1
  rw [normalize, hjoin]
  refine (List.map_congr_left fun c hc => if_neg (h c hc).2).trans (List.map_id _)

namespace Grammar

open Token (Kind)

variable {s : State} {later : List Kind}

/-- A known type begins with a word or symbol that types begin with. -/
theorem exists_head_kinds {ty : Ty} (h : ty.Known) :
    ∃ w rest, ty.kinds = .reserved w :: rest ∧ startsTy w = true := by
  cases h with
  | integer | real | bool | atom => exact ⟨_, _, rfl, rfl⟩
  | list | vector => exact ⟨_, _, by rw [Ty.kinds, enclosed], rfl⟩

theorem commas_cons (kind : Kind) (more : List Kind) (rest : List (List Kind)) :
    ∃ others, commas ((kind :: more) :: rest) = kind :: others := by
  cases rest <;> exact ⟨_, rfl⟩

theorem accepts_commaSeparated {α γ : Type} {item : Parse α} {write : γ → List Kind}
    {R : γ → α → Prop} (first : γ) (rest : List γ)
    (hitem : ∀ x ∈ first :: rest, ∀ after, Accepts s item (write x) after (R x))
    (hlater : firstKind later ≠ .reserved .comma) {fuel : Nat} (hfuel : rest.length < fuel) :
    Accepts s (commaSeparated item fuel) (commas ((first :: rest).map write)) later
      (List.Forall₂ R (first :: rest)) := by
  induction rest generalizing first fuel with
  | nil =>
    obtain ⟨rounds, rfl⟩ : ∃ n, fuel = n + 1 := ⟨fuel - 1, by omega⟩
    refine (hitem first List.mem_cons_self _).then_silent fun a ha => ?_
    refine accepts_at? false (by simpa using hlater) (accepts_if_neg (by simp) ?_)
    exact accepts_pure (.cons ha .nil)
  | cons next rest ih =>
    obtain ⟨rounds, rfl⟩ : ∃ n, fuel = n + 1 := ⟨fuel - 1, by omega⟩
    rw [List.length_cons] at hfuel
    have hothers := ih next (fun x hx => hitem x (.tail _ hx)) (Nat.lt_of_succ_lt_succ hfuel)
    refine (hitem first List.mem_cons_self _).bind fun a ha => ?_
    refine accepts_at? true (by simp [firstKind]) (accepts_if_pos rfl ?_)
    refine accepts_advance (by simp) fun _ _ => ?_
    exact hothers.then_silent fun as has => accepts_pure (.cons ha has)

theorem map_ty_of_forall₂ {members : List Ty} {read : List Annotation}
    (h : List.Forall₂ (fun ty a => a.ty = ty) members read) : read.map (·.ty) = members := by
  induction h with
  | nil => rfl
  | cons hfirst _ ih => rw [List.map_cons, hfirst, ih]

/-- The members of a type, the closing symbol included. -/
theorem accepts_annotationMembers {member : Parse Annotation} {close : Reserved}
    (hclose : startsTy close = false) (hcomma : close ≠ .comma) {members : List Ty}
    (hknown : ∀ m ∈ members, m.Known)
    (hmember : ∀ m ∈ members, ∀ after, Accepts s member m.kinds after fun a => a.ty = m)
    {fuel : Nat} (hfuel : members.length ≤ fuel) :
    Accepts s (annotationMembers close member fuel)
      (commas (members.map Ty.kinds) ++ [.reserved close]) later
      fun read => read.map (·.ty) = members := by
  have hclosing : ∀ read : List Annotation, read.map (·.ty) = members →
      Accepts s (consume close >>= fun _ => pure read) [.reserved close] later
        fun read => read.map (·.ty) = members :=
    fun read hread => accepts_consume fun _ _ => accepts_pure hread
  unfold annotationMembers
  cases members with
  | nil =>
    refine accepts_peek_cons fun span => ?_
    dsimp only
    rw [hclose]
    exact hclosing [] rfl
  | cons first rest =>
    obtain ⟨w, more, hkinds, hstarts⟩ := exists_head_kinds (hknown first List.mem_cons_self)
    obtain ⟨others, hcommas⟩ := commas_cons (.reserved w) more (rest.map Ty.kinds)
    have hstop : firstKind (.reserved close :: later) ≠ .reserved .comma := by
      simpa [firstKind] using hcomma
    have hall := accepts_commaSeparated first rest hmember hstop hfuel
    have hread := hall.bind fun read hread => hclosing read (map_ty_of_forall₂ hread)
    rw [List.map_cons, hkinds, hcommas, List.cons_append] at hread ⊢
    refine accepts_peek_cons fun span => ?_
    dsimp only
    rw [hstarts]
    exact hread

theorem accepts_members {close : Reserved} (hclose : startsTy close = false)
    (hcomma : close ≠ .comma) {members : List Ty} (hknown : ∀ m ∈ members, m.Known)
    (hmember : ∀ m ∈ members, ∀ {later : List Kind} {depth : Nat}, m.kinds.length ≤ depth →
      Accepts s (annotationAt depth) m.kinds later fun a => a.ty = m)
    {depth : Nat} (hdepth : (commas (members.map Ty.kinds)).length ≤ depth) :
    Accepts s (annotationMembers close (annotationAt depth) depth)
      (commas (members.map Ty.kinds) ++ [.reserved close]) later
      fun read => read.map (·.ty) = members := by
  have hparts : ∀ part ∈ members.map Ty.kinds, part ≠ [] := by
    intro part hpart
    obtain ⟨m, hm, rfl⟩ := List.mem_map.mp hpart
    exact (hknown m hm).kinds_ne_nil
  rw [← elements_false] at hdepth
  refine accepts_annotationMembers hclose hcomma hknown (fun m hm _ => hmember m hm ?_) ?_
  · exact Nat.le_trans (length_le_elements false (List.mem_map_of_mem hm)) hdepth
  · rw [← List.length_map (f := Ty.kinds)]
    exact Nat.le_trans (count_le_elements false hparts) hdepth

theorem exists_inner {opening closing : Reserved} {kinds : List Kind} {depth : Nat}
    (h : (enclosed opening closing kinds).length ≤ depth) :
    ∃ inner, depth = inner + 1 ∧ kinds.length ≤ inner := by
  rw [length_enclosed] at h
  exact ⟨depth - 1, by omega, by omega⟩

/-- **A known type is read from its tokens**, if it is not nested too deep. -/
theorem accepts_annotationAt {ty : Ty} (h : ty.Known) {depth : Nat}
    (hdepth : ty.kinds.length ≤ depth) :
    Accepts s (annotationAt depth) ty.kinds later fun a => a.ty = ty := by
  induction h generalizing depth later with
  | integer | real | bool | atom =>
    obtain ⟨inner, rfl⟩ : ∃ n, depth = n + 1 := ⟨depth - 1, (Nat.sub_add_cancel hdepth).symm⟩
    exact accepts_peek_cons fun _ => accepts_advance (by simp) fun _ _ => accepts_pure rfl
  | list hmembers ih =>
    rw [Ty.kinds, Ty.kindsEach_eq] at hdepth ⊢
    obtain ⟨inner, rfl, hinner⟩ := exists_inner hdepth
    refine accepts_peek_cons fun _ => accepts_advance (by simp) fun _ _ => ?_
    refine (accepts_members rfl (by simp) hmembers ih hinner).then_silent fun read hread => ?_
    exact accepts_pure (by rw [hread])
  | vector hmembers ih =>
    rw [Ty.kinds, Ty.kindsEach_eq] at hdepth ⊢
    obtain ⟨inner, rfl, hinner⟩ := exists_inner hdepth
    refine accepts_peek_cons fun _ => accepts_advance (by simp) fun _ _ => ?_
    refine (accepts_members rfl (by simp) hmembers ih hinner).then_silent fun read hread => ?_
    exact accepts_pure (by rw [hread])

/-! ### The whole way -/

/-- The text, taken as a source of its own, is a type and nothing else: there is no complaint
    about it, and the type ends where the text does. -/
structure ReadsAs (text : String) (ty : Ty) : Prop where
  scanned : (Token.scan (Source.Document.ofText Source.inlineName text).chars).complaints = []
  read : ∃ written after last, written.ty = ty ∧ after.complaints = [] ∧
    after.rest = [last] ∧ last.isEof = true ∧
    annotation.run
      { rest := (Token.scan (Source.Document.ofText Source.inlineName text).chars).tokens } =
        (written, after)

/-- Said of any reader, so that nothing is looked for inside of it. -/
theorem run_remaining {α : Type} (g : Nat → Parse α) (s : State) :
    (remaining >>= g).run s = (g s.rest.length).run s := rfl

theorem readsAs_text {ty : Ty} (h : ty.Known) : ReadsAs ty.text ty := by
  have hchars : (Source.Document.ofText Source.inlineName ty.text).chars = ty.text.toList :=
    Source.normalize_of_plain h.plain
  obtain ⟨hsilent, tokens, hkinds, htokens⟩ := Token.scan_of_lexes (h.lexes (by simp))
  refine ⟨by rw [hchars, hsilent], ?_⟩
  rw [hchars, htokens]
  have hlast : (Token.endToken ty.text.toList tokens.getLast?).isEof = true := rfl
  generalize Token.endToken ty.text.toList tokens.getLast? = last at hlast
  have hdepth : ty.kinds.length ≤ (tokens ++ [last]).length + 1 := by
    rw [← hkinds, List.length_map, List.length_append]
    omega
  have hlater : [last].map (·.kind) = [.eof] := by simpa [Token.isEof] using hlast
  obtain ⟨written, hwritten, hrun⟩ := accepts_annotationAt (s := { rest := [] }) h hdepth
    tokens [last] none hkinds hlater
  exact ⟨written, _, last, hwritten, rfl, rfl, hlast, (run_remaining _ _).trans hrun⟩

end Grammar

end CandidateSearch
