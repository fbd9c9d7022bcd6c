/-
  CandidateSearch/Proofs/Token/WithinLine.lean
  ============================================
  **No token goes over the end of its line.**

  Blanks and line ends may make one piece together, but a token lies on one line, and so does
  a stretch that is complained about.  A text in quotes may have a carriage return in it,

      "a⇠b"        with ⇠ for a carriage return by itself,

  as that does not end a line; but it ends with its quote.  So the carriage return that
  belongs to the end of a line is never the last character of a token.
-/
import CandidateSearch.Proofs.Token.Lossless

namespace CandidateSearch.Token

open Source Number

variable {c : Char} {cs rest text : List Char} {kind : Kind}

/-- There is no line feed in the stretch, and no carriage return at its end. -/
def WithinLine (written : List Char) : Prop := '\n' ∉ written ∧ written.getLast? ≠ some '\r'

/-! ### Characters that are no part of a line end -/

def isPlain (c : Char) : Bool := c != '\n' && c != '\r'

/-- All characters of the stretch are plain. -/
def Plain (cs : List Char) : Prop := ∀ c ∈ cs, isPlain c = true

theorem Plain.withinLine (h : Plain cs) : WithinLine cs := by
  refine ⟨fun hmem => ?_, fun hlast => ?_⟩
  · exact absurd (h _ hmem) (by decide)
  · exact absurd (h _ (List.mem_of_getLast? hlast)) (by decide)

theorem Plain.cons (hc : isPlain c = true) (h : Plain cs) : Plain (c :: cs) :=
  List.forall_mem_cons.mpr ⟨hc, h⟩

theorem Plain.append {ds : List Char} (h : Plain cs) (h' : Plain ds) : Plain (cs ++ ds) :=
  List.forall_mem_append.mpr ⟨h, h'⟩

theorem plain_nil : Plain [] := by simp [Plain]

/-- A class without the two characters of a line end has plain characters only. -/
theorem isPlain_of_class {p : Char → Bool} (hfeed : p '\n' = false) (hreturn : p '\r' = false)
    (h : p c = true) : isPlain c = true := by
  have hne : ∀ d, p d = false → c ≠ d := by
    rintro d hd rfl
    rw [h] at hd
    cases hd
  simp [isPlain, hne _ hfeed, hne _ hreturn]

theorem plain_run {p : Char → Bool} (hfeed : p '\n' = false) (hreturn : p '\r' = false)
    (cs : List Char) : Plain (cs.take (run p cs)) := by
  obtain ⟨body, after, rfl, hrun, hbody, -⟩ := run_spec p cs
  rw [hrun, List.take_left]
  exact fun c hc => isPlain_of_class hfeed hreturn (hbody c hc)

theorem plain_digits (cs : List Char) : Plain (cs.take (run isDigit cs)) :=
  plain_run (by decide) (by decide) cs

/-! ### Numbers -/

theorem plain_fraction (cs : List Char) : Plain (cs.take (fractionLength cs)) := by
  unfold fractionLength
  split
  · rw [Nat.add_comm, List.take_succ_cons]
    exact .cons (by decide) (plain_digits _)
  · exact plain_nil

theorem plain_exponent (cs : List Char) : Plain (cs.take (exponentLength cs)) := by
  cases cs with
  | nil => exact plain_nil
  | cons c rest =>
    have hany : ∀ sign, Plain (rest.take sign) →
        Plain ((c :: rest).take (if (c == 'e' || c == 'E') && run isDigit (rest.drop sign) != 0
          then 1 + sign + run isDigit (rest.drop sign) else 0)) := by
      intro sign hsign
      split
      · next hmark =>
        have hc : (c == 'e' || c == 'E') = true := (Bool.and_eq_true_iff.mp hmark).1
        have hplain := isPlain_of_class (p := fun d => d == 'e' || d == 'E') rfl rfl hc
        rw [Nat.add_assoc, Nat.add_comm 1, List.take_succ_cons, List.take_add]
        exact .cons hplain (hsign.append (plain_digits _))
      · exact plain_nil
    apply hany
    split
    · exact .cons (by decide) plain_nil
    · exact .cons (by decide) plain_nil
    · exact plain_nil

theorem plain_number (cs : List Char) : Plain (cs.take (numberLength cs)) := by
  simp only [numberLength]
  split
  · exact plain_nil
  · rw [List.take_add, List.take_add, ← List.drop_drop]
    exact ((plain_digits _).append (plain_fraction _)).append (plain_exponent _)

/-! ### Tokens -/

theorem withinLine_reserved (w : Reserved) : WithinLine (Kind.reserved w).written := by
  have hall : w.text.toList.all isPlain = true := by cases w <;> decide +kernel
  exact Plain.withinLine (List.all_eq_true.mp hall)

theorem withinLine_of_symbol? {symbols : List Reserved} {piece : Content × Nat}
    (h : symbol? symbols cs = some piece) (hkind : piece.1 = .token kind) :
    WithinLine kind.written := by
  obtain ⟨w, -, rfl⟩ := Option.map_eq_some_iff.mp h
  obtain rfl := Content.token.inj hkind
  exact withinLine_reserved w

/-- A text in quotes has no line feed between them, and it ends with the second one. -/
theorem withinLine_of_string? {piece : Content × Nat} (h : string? cs = some piece)
    (hkind : piece.1 = .token kind) : WithinLine kind.written := by
  unfold string? at h
  split at h
  · rename_i rest
    obtain ⟨body, after, rfl, hrun, hbody, -⟩ := run_spec (fun c => c != '"' && c != '\n') rest
    simp only [hrun, List.drop_left, List.take_left] at h
    split at h
    · cases h
      obtain rfl := Content.token.inj hkind
      have hfeed : '\n' ∉ body := fun hmem => by simpa using hbody _ hmem
      exact ⟨by simp [Kind.written, hfeed], by simp [Kind.written, List.getLast?_cons]⟩
    · obtain ⟨n, -, rfl⟩ := Option.map_eq_some_iff.mp h
      cases hkind
  · cases h

/-- Whichever rule finds a token, the token lies on one line. -/
theorem withinLine_of_front (h : (front c rest).1 = .token kind) : WithinLine kind.written := by
  unfold front at h
  dsimp only at h
  split at h
  · cases h
  split at h
  · rename_i piece hpiece
    exact withinLine_of_string? hpiece h
  split at h
  · rename_i piece hpiece
    exact withinLine_of_symbol? hpiece h
  split at h
  · obtain rfl := Content.token.inj h
    apply Plain.withinLine
    show Plain (String.ofList _).toList
    rw [String.toList_ofList]
    exact plain_number _
  split at h
  · rename_i hupper
    obtain rfl := Content.token.inj h
    apply Plain.withinLine
    show Plain (String.ofList _).toList
    rw [String.toList_ofList, Nat.add_comm, List.take_succ_cons]
    refine .cons ?_ (plain_run (by decide) (by decide) _)
    exact isPlain_of_class (p := fun d => d == '_' || isUpper d) (by decide) (by decide) hupper
  split at h
  · rename_i hlower
    obtain rfl := Content.token.inj h
    apply Plain.withinLine
    rw [written_wordKind, Nat.add_comm, List.take_succ_cons]
    refine .cons ?_ (plain_run (by decide) (by decide) _)
    exact isPlain_of_class (by decide) (by decide) hlower
  · cases hpiece : symbol? Reserved.shortSymbols (c :: rest) with
    | none =>
      rw [hpiece] at h
      cases h
    | some piece =>
      rw [hpiece] at h
      exact withinLine_of_symbol? hpiece h

/-! ### Pieces -/

/-- **All that is read or complained about lies on one line.** -/
theorem withinLine_of_piece {piece : Piece} (hpiece : piece ∈ pieces text)
    (hread : piece.content ≠ .blank) : WithinLine piece.chars := by
  obtain ⟨c, rest, hfront⟩ := exists_front hpiece
  obtain ⟨before, after, -, hstands, -⟩ := (row_pieces text).stands hpiece
  generalize piece.content = content, piece.chars = written at hread hfront hstands
  cases hstands with
  | blank => exact absurd rfl hread
  | comment => exact absurd rfl hread
  | token => exact withinLine_of_front hfront.symm
  | unterminated hline =>
    apply Plain.withinLine
    refine .cons (by decide) fun d hd => ?_
    obtain ⟨hreturn, hfeed⟩ := hline.1 d hd
    simp [isPlain, hreturn, hfeed]
  | unexpected hforeign =>
    apply Plain.withinLine
    refine .cons ?_ plain_nil
    exact isPlain_of_class (p := fun d => !isBlank d) rfl rfl (by simp [hforeign.1])

end CandidateSearch.Token
