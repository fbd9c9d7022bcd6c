/-
  CandidateSearch/Proofs/Token/Rules.lean
  =======================================
  **What stands at the front of a text.**

  The rules of the scanner compete: a comment is tried before a text in quotes, a long
  symbol before a number, a single symbol last, and what no rule takes is given up one
  character at a time.  `Stands content written after` says without any rule what a stretch
  of text may be, given what follows it; `front_spec` says that the rules find such a
  stretch in front of every text, and that it is never empty.

  A carriage return ends a line only with a line feed behind it.  One that stands by itself
  comes in the way of the two rules that take the rest of a line: a comment is then its `%`
  alone, and a quote without its partner is an unexpected character.
-/
import Mathlib.Data.List.TakeWhile
import CandidateSearch.Token.Scan

namespace CandidateSearch.Token

open Source Number

/-! ### Stretches of text -/

/-- The stretch goes to the end of its line. -/
def EndsLine (body after : List Char) : Prop :=
  (∀ c ∈ body, c ≠ '\r' ∧ c ≠ '\n') ∧
    (after = [] ∨ (∃ rest, after = '\n' :: rest) ∨ ∃ rest, after = '\r' :: '\n' :: rest)

/-- Before the line ends there is a carriage return by itself. -/
def LoneReturn (cs : List Char) : Prop :=
  ∃ body rest, cs = body ++ '\r' :: rest ∧ (∀ c ∈ body, c ≠ '\r' ∧ c ≠ '\n') ∧
    ∀ tail, rest ≠ '\n' :: tail

/-- There is no second quote on the line. -/
def Unclosed (cs : List Char) : Prop :=
  ∀ body rest, cs = body ++ '"' :: rest → '\n' ∈ body

/-- A comment goes from `%` to the end of its line; it is `%` alone in front of a carriage
    return by itself. -/
def IsComment (written after : List Char) : Prop :=
  ∃ body, written = '%' :: body ∧ (EndsLine body after ∨ body = [] ∧ LoneReturn after)

/-- The character is neither blank nor the start of a comment, and no token begins with it;
    if it is a quote, its partner is missing and the line is cut by a carriage return. -/
def Unreadable (c : Char) (after : List Char) : Prop :=
  isBlank c = false ∧ c ≠ '%' ∧ isWordChar c = false ∧
    (∀ w : Reserved, ¬ w.text.toList <+: c :: after) ∧
    (c = '"' → Unclosed after ∧ LoneReturn after)

/-- How a token is written: its text, and a string between its quotes. -/
def Kind.written : Kind → List Char
  | .string content => '"' :: (content.toList ++ ['"'])
  | kind => kind.text.toList

/-- What a stretch of text may be, in front of what follows it. -/
inductive Stands : Content → List Char → List Char → Prop
  | blank {written after : List Char} (hsome : written ≠ [])
      (hblank : ∀ c ∈ written, isBlank c = true) : Stands .blank written after
  | comment {written after : List Char} (hcomment : IsComment written after) :
      Stands .blank written after
  | token {kind : Kind} {after : List Char} (heof : kind ≠ .eof) (hsome : kind.written ≠ []) :
      Stands (.token kind) kind.written after
  | unterminated {body after : List Char} (hline : EndsLine body after) (hquote : '"' ∉ body) :
      Stands .unterminated ('"' :: body) after
  | unexpected {c : Char} {after : List Char} (hforeign : Unreadable c after) :
      Stands .unexpected [c] after

theorem Stands.ne_nil {content : Content} {written after : List Char}
    (h : Stands content written after) : written ≠ [] := by
  cases h with
  | blank hsome _ => exact hsome
  | comment hcomment =>
    obtain ⟨body, rfl, _⟩ := hcomment
    exact List.cons_ne_nil _ _
  | token _ hsome => exact hsome
  | unterminated _ _ => exact List.cons_ne_nil _ _
  | unexpected _ => exact List.cons_ne_nil _ _

theorem Stands.blank_cases {written after : List Char} (h : Stands .blank written after) :
    (∀ c ∈ written, isBlank c = true) ∨ IsComment written after := by
  cases h with
  | blank _ hblank => exact .inl hblank
  | comment hcomment => exact .inr hcomment

/-! ### Runs of characters -/

/-- A run is as long as it can be: it ends with the text or in front of a character that is
    not of its class. -/
theorem run_spec (p : Char → Bool) (cs : List Char) :
    ∃ body after, cs = body ++ after ∧ run p cs = body.length ∧ (∀ c ∈ body, p c = true) ∧
      ∀ c rest, after = c :: rest → p c = false := by
  refine ⟨cs.takeWhile p, cs.dropWhile p, List.takeWhile_append_dropWhile.symm, rfl, ?_, ?_⟩
  · intro c hc
    exact List.mem_takeWhile_imp hc
  · intro c rest hafter
    have hhead := List.head_dropWhile_not p (l := cs) (by simp [hafter])
    simpa [hafter] using hhead

theorem run_le (p : Char → Bool) (cs : List Char) : run p cs ≤ cs.length :=
  (List.takeWhile_prefix p).length_le

theorem run_cons_of_true {p : Char → Bool} {c : Char} (h : p c = true) (cs : List Char) :
    run p (c :: cs) = run p cs + 1 := by simp [run, h]

/-! ### The rules -/

theorem restOfLine_spec (cs : List Char) :
    (∃ body after, cs = body ++ after ∧ restOfLine cs = some body.length ∧ EndsLine body after) ∨
      restOfLine cs = none ∧ LoneReturn cs := by
  obtain ⟨body, after, rfl, hrun, hbody, hafter⟩ :=
    run_spec (fun c => c != '\r' && c != '\n') cs
  have hplain : ∀ c ∈ body, c ≠ '\r' ∧ c ≠ '\n' := by
    intro c hc
    simpa using hbody c hc
  simp only [restOfLine, hrun, List.drop_left]
  cases after with
  | nil => exact .inl ⟨body, [], rfl, rfl, hplain, .inl rfl⟩
  | cons c rest =>
    have hend : c = '\r' ∨ c = '\n' := by
      have := hafter c rest rfl
      simp only [Bool.and_eq_false_iff, bne_eq_false_iff_eq] at this
      exact this
    rcases hend with rfl | rfl
    · by_cases hfeed : ∃ tail, rest = '\n' :: tail
      · obtain ⟨tail, rfl⟩ := hfeed
        exact .inl ⟨body, _, rfl, rfl, hplain, .inr (.inr ⟨tail, rfl⟩)⟩
      · refine .inr ⟨?_, body, rest, rfl, hplain, fun tail htail => hfeed ⟨tail, htail⟩⟩
        split
        · next h => exact absurd ⟨_, (List.cons.inj h).2⟩ hfeed
        · rfl
        · next h => exact absurd rfl (h rest)
    · exact .inl ⟨body, _, rfl, rfl, hplain, .inr (.inl ⟨rest, rfl⟩)⟩

theorem triviaLength_spec (cs : List Char) :
    (∃ written after, cs = written ++ after ∧ triviaLength cs = written.length ∧
      Stands .blank written after) ∨
      triviaLength cs = 0 ∧ ∀ c rest, cs = c :: rest → isBlank c = false ∧ c ≠ '%' := by
  by_cases hcomment : ∃ rest, cs = '%' :: rest
  · obtain ⟨rest, rfl⟩ := hcomment
    left
    rcases restOfLine_spec rest with ⟨body, after, rfl, hlength, hline⟩ | ⟨hnone, hlone⟩
    · refine ⟨'%' :: body, after, rfl, ?_, .comment ⟨body, rfl, .inl hline⟩⟩
      simp [triviaLength, hlength, Nat.add_comm]
    · refine ⟨['%'], rest, rfl, ?_, .comment ⟨[], rfl, .inr ⟨rfl, hlone⟩⟩⟩
      simp [triviaLength, hnone]
  · have hrun : triviaLength cs = run isBlank cs := by
      unfold triviaLength
      split
      · next rest => exact absurd ⟨rest, rfl⟩ hcomment
      · rfl
    obtain ⟨body, after, rfl, hlength, hbody, hafter⟩ := run_spec isBlank cs
    by_cases hnone : body = []
    · subst hnone
      right
      refine ⟨hrun.trans hlength, fun c rest hcs => ⟨hafter c rest hcs, ?_⟩⟩
      rintro rfl
      exact hcomment ⟨rest, hcs⟩
    · exact .inl ⟨body, after, rfl, hrun.trans hlength, .blank hnone hbody⟩

theorem string?_of_ne_quote {c : Char} (h : c ≠ '"') (rest : List Char) :
    string? (c :: rest) = none := by
  unfold string?
  split
  · next heq => exact absurd (List.cons.inj heq).1 h
  · rfl

theorem string?_quote (rest : List Char) :
    (∃ written after content, '"' :: rest = written ++ after ∧
      string? ('"' :: rest) = some (content, written.length) ∧ Stands content written after) ∨
      string? ('"' :: rest) = none ∧ Unclosed rest ∧ LoneReturn rest := by
  obtain ⟨body, after, rfl, hlength, hbody, hafter⟩ :=
    run_spec (fun c => c != '"' && c != '\n') rest
  by_cases hclosed : ∃ tail, after = '"' :: tail
  · obtain ⟨tail, rfl⟩ := hclosed
    left
    refine ⟨'"' :: (body ++ ['"']), tail, .token (.string (String.ofList body)), by simp, ?_, ?_⟩
    · simp [string?, hlength]
    · have hwritten : '"' :: (body ++ ['"']) = (Kind.string (String.ofList body)).written := by
        simp [Kind.written]
      rw [hwritten]
      exact .token (by simp) (by simp [Kind.written])
  -- without a second quote the rest of the line decides
  · have hopen : string? ('"' :: (body ++ after)) =
        (restOfLine (body ++ after)).map fun m => (.unterminated, m + 1) := by
      simp only [string?, hlength, List.drop_left]
      split
      · next tail => exact absurd ⟨tail, rfl⟩ hclosed
      · rfl
    have hunclosed : Unclosed (body ++ after) := by
      intro left right hsplit
      rcases List.append_eq_append_iff.mp hsplit with ⟨more, rfl, hmore⟩ | ⟨more, rfl, hmore⟩
      · cases more with
        | nil => exact absurd ⟨right, hmore⟩ hclosed
        | cons d tail =>
          have hd : d = '"' ∨ d = '\n' := by
            have := hafter d (tail ++ '"' :: right) hmore
            simp only [Bool.and_eq_false_iff, bne_eq_false_iff_eq] at this
            exact this
          rcases hd with rfl | rfl
          · exact absurd ⟨_, hmore⟩ hclosed
          · simp
      · cases more with
        | nil => exact absurd ⟨right, hmore.symm⟩ hclosed
        | cons d tail =>
          have hd : d = '"' := (List.cons.inj hmore).1.symm
          have := hbody d (by simp)
          simp [hd] at this
    rcases restOfLine_spec (body ++ after) with ⟨line, beyond, hline, hsome, hends⟩ | ⟨hnone, hlone⟩
    · left
      refine ⟨'"' :: line, beyond, .unterminated, by rw [hline]; rfl, ?_, .unterminated hends ?_⟩
      · rw [hopen, hsome]
        rfl
      · intro hquote
        obtain ⟨left, right, rfl⟩ := List.append_of_mem hquote
        have := hunclosed left (right ++ beyond) (by rw [hline]; simp)
        exact (hends.1 '\n' (by simp [this])).2 rfl
    · right
      exact ⟨by rw [hopen, hnone]; rfl, hunclosed, hlone⟩

theorem string?_spec (c : Char) (rest : List Char) :
    (∃ written after content, c :: rest = written ++ after ∧
      string? (c :: rest) = some (content, written.length) ∧ Stands content written after) ∨
      string? (c :: rest) = none ∧ (c = '"' → Unclosed rest ∧ LoneReturn rest) := by
  by_cases hquote : c = '"'
  · subst hquote
    rcases string?_quote rest with hfound | ⟨hnone, hopen⟩
    · exact .inl hfound
    · exact .inr ⟨hnone, fun _ => hopen⟩
  · exact .inr ⟨string?_of_ne_quote hquote rest, fun hc => absurd hc hquote⟩

theorem symbol?_spec (symbols : List Reserved) (cs : List Char) :
    (∃ w after, cs = w.text.toList ++ after ∧
      symbol? symbols cs = some (.token (.reserved w), w.text.toList.length)) ∨
      symbol? symbols cs = none ∧ ∀ w ∈ symbols, ¬ w.text.toList <+: cs := by
  cases hfound : symbols.find? fun w => w.text.toList.isPrefixOf cs with
  | some w =>
    have hstarts : w.text.toList.isPrefixOf cs = true := by simpa using List.find?_some hfound
    obtain ⟨after, hafter⟩ := List.isPrefixOf_iff_prefix.mp hstarts
    refine .inl ⟨w, after, hafter.symm, ?_⟩
    simp [symbol?, hfound, String.length_toList]
  | none =>
    refine .inr ⟨by simp [symbol?, hfound], fun w hw hstarts => ?_⟩
    exact List.find?_eq_none.mp hfound w hw (List.isPrefixOf_iff_prefix.mpr hstarts)

theorem fractionLength_le (cs : List Char) : fractionLength cs ≤ cs.length := by
  unfold fractionLength
  split
  · next rest =>
    have := run_le isDigit rest
    rw [List.length_cons]
    omega
  · exact Nat.zero_le _

theorem exponentLength_le (cs : List Char) : exponentLength cs ≤ cs.length := by
  cases cs with
  | nil => exact Nat.le_refl 0
  | cons c rest =>
    have hany : ∀ sign, (if (c == 'e' || c == 'E') && run isDigit (rest.drop sign) != 0
        then 1 + sign + run isDigit (rest.drop sign) else 0) ≤ (c :: rest).length := by
      intro sign
      split
      · next hdigits =>
        simp only [Bool.and_eq_true, bne_iff_ne] at hdigits
        have hrun := run_le isDigit (rest.drop sign)
        rw [List.length_drop] at hrun
        rw [List.length_cons]
        omega
      · exact Nat.zero_le _
    exact hany _

theorem numberLength_le (cs : List Char) : numberLength cs ≤ cs.length := by
  simp only [numberLength]
  split
  · exact Nat.zero_le _
  · have hwhole := run_le isDigit cs
    have hfraction := fractionLength_le (cs.drop (run isDigit cs))
    have hexponent := exponentLength_le
      ((cs.drop (run isDigit cs)).drop (fractionLength (cs.drop (run isDigit cs))))
    simp only [List.length_drop] at hfraction hexponent
    omega

theorem isDigit_of_numberLength {c : Char} {rest : List Char}
    (h : numberLength (c :: rest) = 0) : isDigit c = false := by
  rw [Bool.eq_false_iff]
  intro hdigit
  have hrun := run_cons_of_true hdigit rest
  unfold numberLength at h
  dsimp only at h
  rw [if_neg (by omega)] at h
  omega

theorem written_wordKind (word rest : List Char) : (wordKind word rest).written = word := by
  unfold wordKind
  cases hword : Reserved.ofWord? word with
  | some w =>
    have := List.find?_some hword
    simpa [Kind.written, Kind.text] using this
  | none =>
    dsimp only
    split <;> simp [Kind.written, Kind.text]

theorem wordKind_ne_eof (word rest : List Char) : wordKind word rest ≠ .eof := by
  unfold wordKind
  split
  · simp
  · split <;> simp

/-- A character with which no word, number or variable begins. -/
theorem isWordChar_eq_false {c : Char} (hdigit : isDigit c = false)
    (hupper : (c == '_' || isUpper c) = false) (hlower : isLower c = false) :
    isWordChar c = false := by
  simp only [Bool.or_eq_false_iff] at hupper
  simp [isWordChar, hdigit, hupper, hlower]

/-- Every reserved word starts with a letter. -/
theorem head_word {w : Reserved} (hw : w ∈ Reserved.words) :
    ∃ c rest, w.text.toList = c :: rest ∧ isWordChar c = true := by
  have hall : ∀ w ∈ Reserved.words, w.text.toList.head?.any isWordChar = true := by
    decide +kernel
  have hhead := hall w hw
  cases htext : w.text.toList with
  | nil => simp [htext] at hhead
  | cons c rest => exact ⟨c, rest, rfl, by simpa [htext] using hhead⟩

/-- Rules that fail one after the other leave a character with which nothing begins. -/
theorem unreadable_of_rules {c : Char} {rest : List Char} (hblank : isBlank c = false)
    (hcomment : c ≠ '%') (hquote : c = '"' → Unclosed rest ∧ LoneReturn rest)
    (hlong : ∀ w ∈ Reserved.longSymbols, ¬ w.text.toList <+: c :: rest)
    (hword : isWordChar c = false)
    (hshort : ∀ w ∈ Reserved.shortSymbols, ¬ w.text.toList <+: c :: rest) :
    Unreadable c rest := by
  refine ⟨hblank, hcomment, hword, fun w hstarts => ?_, hquote⟩
  have hall : w ∈ Reserved.words ∨ w ∈ Reserved.longSymbols ∨ w ∈ Reserved.shortSymbols := by
    cases w <;> decide
  rcases hall with hw | hw | hw
  · obtain ⟨d, tail, htext, hd⟩ := head_word hw
    rw [htext, List.cons_prefix_cons] at hstarts
    rw [hstarts.1, hword] at hd
    exact Bool.false_ne_true hd
  · exact hlong w hw hstarts
  · exact hshort w hw hstarts

theorem stands_reserved (w : Reserved) (after : List Char) :
    Stands (.token (.reserved w)) w.text.toList after := by
  have hsome : (Kind.reserved w).written ≠ [] := by
    cases w <;> simp [Kind.written, Kind.text, Reserved.text]
  exact @Stands.token (.reserved w) after (by simp) hsome

/-- A token that is written as the first characters of a text stands in front of it. -/
theorem stands_taken {kind : Kind} {cs : List Char} {n : Nat} (heof : kind ≠ .eof)
    (hwritten : kind.written = cs.take n) (hsome : n ≠ 0) (hle : n ≤ cs.length) :
    ∃ written after, cs = written ++ after ∧ n = written.length ∧
      Stands (.token kind) written after := by
  have hlength : (cs.take n).length = n := List.length_take_of_le hle
  refine ⟨kind.written, cs.drop n, ?_, ?_, .token heof ?_⟩
  · rw [hwritten, List.take_append_drop]
  · rw [hwritten, hlength]
  · rw [hwritten, ← List.length_pos_iff]
    omega

/-- What the rules find in front of a text is what stands there. -/
theorem front_spec (c : Char) (rest : List Char) :
    ∃ written after, c :: rest = written ++ after ∧ (front c rest).2 = written.length ∧
      Stands (front c rest).1 written after := by
  simp only [front]
  rcases triviaLength_spec (c :: rest) with
    ⟨written, after, hsplit, hlength, hstands⟩ | ⟨hnone, hplain⟩
  · have hsome := List.length_pos_iff.mpr hstands.ne_nil
    rw [if_pos (by omega)]
    exact ⟨written, after, hsplit, hlength, hstands⟩
  obtain ⟨hblank, hcomment⟩ := hplain c rest rfl
  rw [if_neg (by omega)]
  rcases string?_spec c rest with
    ⟨written, after, content, hsplit, hfound, hstands⟩ | ⟨hnone, hquote⟩
  · rw [hfound]
    exact ⟨written, after, hsplit, rfl, hstands⟩
  rw [hnone]
  dsimp only
  rcases symbol?_spec Reserved.longSymbols (c :: rest) with
    ⟨w, after, hsplit, hfound⟩ | ⟨hnone, hlong⟩
  · rw [hfound]
    exact ⟨_, after, hsplit, rfl, stands_reserved w after⟩
  rw [hnone]
  dsimp only
  by_cases hnumber : numberLength (c :: rest) ≠ 0
  · rw [if_pos hnumber]
    exact stands_taken (by simp) (by simp [Kind.written, Kind.text]) hnumber (numberLength_le _)
  rw [if_neg hnumber]
  have hdigit := isDigit_of_numberLength (not_not.mp hnumber)
  by_cases hupper : (c == '_' || isUpper c) = true
  · rw [if_pos hupper]
    have hle := run_le isVariableChar rest
    exact stands_taken (by simp) (by simp [Kind.written, Kind.text]) (by omega)
      (by rw [List.length_cons]; omega)
  rw [if_neg hupper]
  by_cases hlower : isLower c = true
  · rw [if_pos hlower]
    have hle := run_le isWordChar rest
    exact stands_taken (wordKind_ne_eof _ _) (written_wordKind _ _) (by omega)
      (by rw [List.length_cons]; omega)
  rw [if_neg hlower]
  rcases symbol?_spec Reserved.shortSymbols (c :: rest) with
    ⟨w, after, hsplit, hfound⟩ | ⟨hnone, hshort⟩
  · rw [hfound]
    exact ⟨_, after, hsplit, rfl, stands_reserved w after⟩
  · rw [hnone]
    have hword := isWordChar_eq_false hdigit (by simpa using hupper) (by simpa using hlower)
    exact ⟨[c], rest, rfl, rfl,
      .unexpected (unreadable_of_rules hblank hcomment hquote hlong hword hshort)⟩

/-! ### Names of functions -/

/-- A lower-case letter, and then letters, digits and underscores. -/
def IsLowerWord (name : String) : Prop :=
  ∃ c cs, name.toList = c :: cs ∧ isLower c = true ∧ ∀ d ∈ cs, isWordChar d = true

theorem string?_ne_function {cs : List Char} {piece : Content × Nat} (h : string? cs = some piece)
    (name : String) : piece.1 ≠ .token (.function name) := by
  unfold string? at h
  split at h
  · dsimp only at h
    split at h
    · cases h
      simp
    · obtain ⟨n, -, rfl⟩ := Option.map_eq_some_iff.mp h
      simp
  · cases h

theorem symbol?_ne_function {symbols : List Reserved} {cs : List Char} {piece : Content × Nat}
    (h : symbol? symbols cs = some piece) (name : String) :
    piece.1 ≠ .token (.function name) := by
  obtain ⟨w, -, rfl⟩ := Option.map_eq_some_iff.mp h
  simp

theorem isLowerWord_of_wordKind {c : Char} {rest after : List Char} {name : String}
    (hc : isLower c = true)
    (h : wordKind ((c :: rest).take (1 + run isWordChar rest)) after = .function name) :
    IsLowerWord name := by
  obtain ⟨body, later, rfl, hrun, hbody, -⟩ := run_spec isWordChar rest
  have hword : (c :: (body ++ later)).take (1 + run isWordChar (body ++ later)) = c :: body := by
    rw [hrun, Nat.add_comm, List.take_succ_cons, List.take_left]
  rw [hword] at h
  unfold wordKind at h
  split at h
  · cases h
  · split at h
    · cases h
      exact ⟨c, body, String.toList_ofList, hc, hbody⟩
    · cases h

/-- Of all the rules only the one for lower-case words gives the name of a function. -/
theorem isLowerWord_of_front {c : Char} {rest : List Char} {name : String}
    (h : (front c rest).1 = .token (.function name)) : IsLowerWord name := by
  unfold front at h
  dsimp only at h
  split at h
  · cases h
  split at h
  · rename_i piece hpiece
    exact absurd h (string?_ne_function hpiece name)
  split at h
  · rename_i piece hpiece
    exact absurd h (symbol?_ne_function hpiece name)
  split at h
  · cases h
  split at h
  · cases h
  split at h
  · rename_i hlower
    exact isLowerWord_of_wordKind hlower (Content.token.inj h)
  · cases hpiece : symbol? Reserved.shortSymbols (c :: rest) with
    | none =>
      rw [hpiece] at h
      cases h
    | some piece =>
      rw [hpiece] at h
      exact absurd h (symbol?_ne_function hpiece name)

end CandidateSearch.Token
