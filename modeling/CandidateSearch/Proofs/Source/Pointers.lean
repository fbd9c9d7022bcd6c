/-
  CandidateSearch/Proofs/Source/Pointers.lean
  ===========================================
  **What diagnostics point at.**

  A diagnostic shows the line that its complaint is on, with carets under it.  Columns count
  characters and carets count bytes, so there are too many carets where a stretch is not all
  ASCII, unless the end of the line cuts them off:

      é x            X = 1 + "é"
      ^^                     ^^^

  The character on the left has two bytes and two carets.  The string on the right has four
  bytes for its three characters, but the line is over after three carets.

  The end of a text is one caret.  It is at the column of the end, but where the text ends
  with a line feed that column is taken from the last token, while the line to be shown is
  the empty one below: there is no such column, and the caret is moved to the first one.
  Only a missing semicolon is looked for on the line above, and found there if that is the
  line of the last token.
-/
import CandidateSearch.Proofs.Declarative.Entry
import CandidateSearch.Proofs.Grammar.Located
import CandidateSearch.Proofs.Source.Lines
import CandidateSearch.Proofs.Token.WithinLine

namespace CandidateSearch.Source

open Token (Piece bytes stretch lineAfter columnAfter)

/-! ### What a diagnostic shows -/

namespace Diagnostic

/-- The column of the first caret: what is in front of it is blank. -/
def firstCaret (d : Diagnostic) : Nat := (d.pointer.toList.takeWhile fun c => c == ' ').length + 1

def carets (d : Diagnostic) : Nat := d.pointer.toList.count '^'

/-- The carets are under a stretch of the line, and start where it starts.  There is one for
    each of its bytes, as far as the line goes on. -/
def Underlines (d : Diagnostic) (text : List Char) (span : Span) : Prop :=
  ∃ before written after left right, text = before ++ written ++ after ∧ written ≠ [] ∧
    span = stretch before written ∧ d.snippet.toList = left ++ written ++ right ∧
    d.column = left.length + 1 ∧ d.firstCaret = d.column ∧
    d.carets = min (bytes written) (written.length + right.length) ∧
    (d.carets = written.length ↔ bytes written = written.length ∨ right = [])

/-- The diagnostic is on the last line of the text; `last` is the last token.  The caret is in
    its column, unless that was taken from a token on a line above. -/
def OnLastLine (d : Diagnostic) (text : List Char) (last : Option Token) : Prop :=
  d.line = lineAfter text ∧
    (d.firstCaret = d.column ↔ last = none ∨ text.getLast? ≠ some '\n')

/-- The diagnostic is on the line above; where its column was taken from a token on that line,
    the caret is in it. -/
def OnLineAbove (d : Diagnostic) (text : List Char) (last : Option Token) : Prop :=
  d.line + 1 = lineAfter text ∧
    ∀ t ∈ last, text.getLast? = some '\n' → t.span.line = d.line → d.firstCaret = d.column

/-- One caret shows the end of the text. -/
structure ShowsEnd (d : Diagnostic) (text : List Char) (last : Option Token) (span : Span) :
    Prop where
  start : span.start = bytes text
  stop : span.stop = bytes text
  single : d.carets = 1
  column_of_feed : ∀ t ∈ last, text.getLast? = some '\n' → d.column = t.span.column + 1
  column_of_end : last = none ∨ text.getLast? ≠ some '\n' → d.column = columnAfter text
  line : d.OnLastLine text last ∨ d.OnLineAbove text last

/-- How a diagnostic points at a span of a text. -/
structure PointsAt (d : Diagnostic) (text : List Char) (last : Option Token) (span : Span) :
    Prop where
  shown : IsLine text d.line d.snippet.toList
  pointer : d.pointer.toList = List.replicate (d.firstCaret - 1) ' ' ++ List.replicate d.carets '^'
  /-- The first caret is in the column of the diagnostic, as far as the line has one. -/
  caret : d.firstCaret = min d.column (d.snippet.toList.length + 1)
  target : d.Underlines text span ∨ d.ShowsEnd text last span

end Diagnostic

/-! ### Carets -/

section Carets

variable {document : Document} {complaint : Complaint}

/-- Blanks and then carets. -/
theorem caret_of_pointer {d : Diagnostic} {indent marks : Nat} (hsome : 0 < marks)
    (h : d.pointer.toList = List.replicate indent ' ' ++ List.replicate marks '^') :
    d.firstCaret = indent + 1 ∧ d.carets = marks := by
  obtain ⟨marks, rfl⟩ := Nat.exists_eq_add_one_of_ne_zero hsome.ne'
  have hblanks : (List.replicate indent ' ' ++ List.replicate (marks + 1) '^').takeWhile
      (fun c => c == ' ') = List.replicate indent ' ' := by
    rw [List.takeWhile_append_of_pos (by simp), List.replicate_succ]
    simp
  constructor
  · rw [Diagnostic.firstCaret, h, hblanks, List.length_replicate]
  · simp [Diagnostic.carets, h, List.count_replicate]

theorem snippet_diagnose :
    (document.diagnose complaint).snippet.toList = lineAt document.chars complaint.span.line :=
  String.toList_ofList

/-- The parts of a pointer that do not depend on what it points at. -/
theorem pointer_diagnose (document : Document) (hcolumn : 0 < complaint.span.column) :
    (document.diagnose complaint).firstCaret =
        min complaint.span.column ((lineAt document.chars complaint.span.line).length + 1) ∧
      (document.diagnose complaint).carets = min (max complaint.span.length 1)
        (max ((lineAt document.chars complaint.span.line).length + 1 - complaint.span.column) 1) ∧
      (document.diagnose complaint).pointer.toList =
        List.replicate ((document.diagnose complaint).firstCaret - 1) ' ' ++
          List.replicate (document.diagnose complaint).carets '^' := by
  have hpointer : (document.diagnose complaint).pointer.toList =
      List.replicate (min (complaint.span.column - 1)
          (lineAt document.chars complaint.span.line).length) ' ' ++
        List.replicate (min (max complaint.span.length 1)
          (max ((lineAt document.chars complaint.span.line).length -
            min (complaint.span.column - 1)
              (lineAt document.chars complaint.span.line).length) 1)) '^' := by
    simp [Document.diagnose, Diagnostic.ofSpan, Text.rule, lineAt]
  obtain ⟨hfirst, hcarets⟩ := caret_of_pointer (by omega) hpointer
  refine ⟨by rw [hfirst]; omega, by rw [hcarets]; omega, ?_⟩
  rw [hfirst, hcarets, Nat.add_sub_cancel]
  exact hpointer

/-- A pointer that has a target, on a line that the text has. -/
theorem pointsAt_of_target {last : Option Token} {before rest : List Char}
    (hcolumn : 0 < complaint.span.column) (htext : document.chars = before ++ rest)
    (hline : lineAfter before = complaint.span.line)
    (htarget : (document.diagnose complaint).Underlines document.chars complaint.span ∨
      (document.diagnose complaint).ShowsEnd document.chars last complaint.span) :
    (document.diagnose complaint).PointsAt document.chars last complaint.span where
  shown := by
    rw [snippet_diagnose, ← hline]
    show IsLine _ complaint.span.line _
    rw [← hline]
    exact isLine_lineAt htext
  pointer := (pointer_diagnose document hcolumn).2.2
  caret := by
    rw [snippet_diagnose]
    exact (pointer_diagnose document hcolumn).1
  target := htarget

end Carets

/-! ### Stretches of the text -/

theorem length_le_bytes (cs : List Char) : cs.length ≤ bytes cs := by
  induction cs with
  | nil => exact Nat.le_refl 0
  | cons c cs ih =>
    have hsplit : bytes (c :: cs) = c.utf8Size + bytes cs := by
      rw [← List.singleton_append, Token.bytes_append, Token.bytes_singleton]
    have := c.utf8Size_pos
    rw [hsplit, List.length_cons]
    omega

/-- The number of carets is right if a character is a byte, or if the line is over. -/
theorem min_bytes_eq_iff (written right : List Char) :
    min (bytes written) (written.length + right.length) = written.length ↔
      bytes written = written.length ∨ right = [] := by
  have := length_le_bytes written
  rw [← List.length_eq_zero_iff]
  omega

section Targets

variable {document : Document} {complaint : Complaint}

/-- **What is read or not accepted is underlined.** -/
theorem pointsAt_of_piece {piece : Piece} (hpiece : piece ∈ Token.pieces document.chars)
    (hread : piece.content ≠ .blank) (hspan : piece.span = complaint.span)
    (last : Option Token) :
    (document.diagnose complaint).PointsAt document.chars last complaint.span := by
  obtain ⟨before, after, htext, hstands, hstretch⟩ :=
    (Token.row_pieces document.chars).stands hpiece
  obtain ⟨hfeed, hreturn⟩ := Token.withinLine_of_piece hpiece hread
  have hsome := hstands.ne_nil
  rw [hspan] at hstretch
  generalize piece.chars = written at htext hfeed hreturn hsome hstretch
  have hline : complaint.span.line = lineAfter before := by rw [hstretch]; rfl
  have hcolumn : complaint.span.column = columnAfter before := by rw [hstretch]; rfl
  obtain ⟨left, right, hshown, hleft⟩ := lineAt_stretch htext hfeed hreturn hsome
  have hpositive : 0 < complaint.span.column := by omega
  have hlength : complaint.span.length = bytes written := by
    rw [hstretch]
    simp [Span.length, stretch]
  have hsnippet : (lineAt document.chars complaint.span.line).length =
      left.length + written.length + right.length := by
    rw [hline, hshown, List.length_append, List.length_append]
  have hwritten := List.length_pos_iff.mpr hsome
  have hbytes := Token.bytes_pos hsome
  obtain ⟨hfirst, hcarets, -⟩ := pointer_diagnose document hpositive
  have hmarks : (document.diagnose complaint).carets =
      min (bytes written) (written.length + right.length) := by
    rw [hcarets, hlength, hsnippet]
    omega
  refine pointsAt_of_target hpositive (htext.trans (List.append_assoc ..)) hline.symm (.inl ?_)
  refine ⟨before, written, after, left, right, htext, hsome, hstretch, ?_, hcolumn.trans hleft,
    ?_, hmarks, ?_⟩
  · rw [snippet_diagnose, hline, hshown]
  · rw [hfirst, hsnippet]
    show _ = complaint.span.column
    omega
  · rw [hmarks]
    exact min_bytes_eq_iff written right

/-! ### The end of the text -/

/-- A token that was read has a column in the line that is shown for it. -/
theorem column_le_length {text : List Char} {piece : Piece} (hpiece : piece ∈ Token.pieces text)
    (hread : piece.content ≠ .blank) : 0 < piece.span.line ∧ 0 < piece.span.column ∧
      piece.span.column ≤ (lineAt text piece.span.line).length := by
  obtain ⟨before, after, htext, hstands, hstretch⟩ := (Token.row_pieces text).stands hpiece
  obtain ⟨hfeed, hreturn⟩ := Token.withinLine_of_piece hpiece hread
  obtain ⟨left, right, hshown, hleft⟩ := lineAt_stretch htext hfeed hreturn hstands.ne_nil
  have hwritten := List.length_pos_iff.mpr hstands.ne_nil
  have hline : 0 < lineAfter before := Nat.add_pos_left Nat.one_pos _
  rw [hstretch]
  show 0 < lineAfter before ∧ 0 < columnAfter before ∧
    columnAfter before ≤ (lineAt text (lineAfter before)).length
  rw [hshown, hleft, List.length_append, List.length_append]
  omega

/-- The token was found in the text. -/
def FoundIn (text : List Char) (t : Token) : Prop :=
  ∃ piece ∈ Token.pieces text, piece.content = .token t.kind ∧ piece.span = t.span

theorem FoundIn.column_le {text : List Char} {t : Token} (h : FoundIn text t) :
    0 < t.span.line ∧ 0 < t.span.column ∧
      t.span.column ≤ (lineAt text t.span.line).length := by
  obtain ⟨piece, hpiece, hcontent, hspan⟩ := h
  rw [← hspan]
  exact column_le_length hpiece (by rw [hcontent]; simp)

/-- The end token has the column of the end of the text, or it follows the last token. -/
theorem column_endToken (text : List Char) (last : Option Token) :
    (∀ t ∈ last, text.getLast? = some '\n' →
        (Token.endToken text last).span.column = t.span.column + 1) ∧
      (last = none ∨ text.getLast? ≠ some '\n' →
        (Token.endToken text last).span.column = columnAfter text) := by
  cases last with
  | none => simp [Token.endToken, Place.to, Token.advance_start]
  | some t =>
    by_cases hfed : text.getLast? = some '\n'
    · simp [Token.endToken, hfed]
    · simp [Token.endToken, Place.to, Token.advance_start, hfed]

theorem line_endToken (text : List Char) (last : Option Token) :
    (Token.endToken text last).span.line = lineAfter text := by
  simp [Token.endToken, Place.to, Token.advance_start]

theorem column_endToken_pos (text : List Char) (last : Option Token) :
    0 < (Token.endToken text last).span.column := by
  obtain ⟨hfeed, hend⟩ := column_endToken text last
  by_cases hlast : last = none ∨ text.getLast? ≠ some '\n'
  · rw [hend hlast]
    exact Nat.add_pos_left Nat.one_pos _
  · obtain ⟨hsome, hfed⟩ := not_or.mp hlast
    obtain ⟨t, rfl⟩ := Option.ne_none_iff_exists'.mp hsome
    rw [hfeed t rfl (not_not.mp hfed)]
    exact Nat.succ_pos _

variable {last : Option Token}

theorem column_of_end_span {line : Nat}
    (hspan : complaint.span = (Token.endToken document.chars last).span.onLine line) :
    complaint.span.column = (Token.endToken document.chars last).span.column ∧
      0 < complaint.span.column := by
  rw [hspan]
  exact ⟨rfl, column_endToken_pos _ _⟩

theorem showsEnd_of_line (line : Nat)
    (hspan : complaint.span = (Token.endToken document.chars last).span.onLine line)
    (hline : (document.diagnose complaint).OnLastLine document.chars last ∨
      (document.diagnose complaint).OnLineAbove document.chars last) :
    (document.diagnose complaint).ShowsEnd document.chars last complaint.span := by
  obtain ⟨hstart, hstop⟩ := Token.endToken_span document.chars last
  obtain ⟨hfeed, hend⟩ := column_endToken document.chars last
  obtain ⟨hcolumn, hpositive⟩ := column_of_end_span hspan
  have hempty : complaint.span.length = 0 := by
    rw [hspan, Span.length]
    exact Nat.sub_eq_zero_of_le (hstop.trans hstart.symm).le
  refine ⟨by rw [hspan]; exact hstart, by rw [hspan]; exact hstop, ?_, ?_, ?_, hline⟩
  · rw [(pointer_diagnose document hpositive).2.1, hempty]
    omega
  · intro t ht hfed
    exact hcolumn.trans (hfeed t ht hfed)
  · intro hplain
    exact hcolumn.trans (hend hplain)

/-- **On its own line the end is shown at its column**, unless the column comes from a token:
    then the line is empty, and the caret is in its first column. -/
theorem pointsAt_of_end (hlast : ∀ t ∈ last, FoundIn document.chars t)
    (hspan : complaint.span = (Token.endToken document.chars last).span) :
    (document.diagnose complaint).PointsAt document.chars last complaint.span := by
  have hline : complaint.span.line = lineAfter document.chars := by
    rw [hspan, line_endToken]
  have hsame : complaint.span =
      (Token.endToken document.chars last).span.onLine complaint.span.line := by
    rw [hspan]
    rfl
  obtain ⟨hcolumn, hpositive⟩ := column_of_end_span hsame
  obtain ⟨hfeed, hend⟩ := column_endToken document.chars last
  refine pointsAt_of_target hpositive (List.append_nil _).symm hline.symm (.inr ?_)
  refine showsEnd_of_line _ hsame (.inl ⟨hline, ?_⟩)
  rw [(pointer_diagnose document hpositive).1, hline, length_lineAt_end]
  show min complaint.span.column _ = complaint.span.column ↔ _
  constructor
  · intro hright
    by_contra hwrong
    obtain ⟨hsome, hfed⟩ := not_or.mp hwrong
    obtain ⟨t, rfl⟩ := Option.ne_none_iff_exists'.mp hsome
    obtain ⟨front, hfront⟩ := List.getLast?_eq_some_iff.mp (not_not.mp hfed)
    have hfirst : columnAfter document.chars = 1 := by simp [columnAfter, hfront]
    have := (hlast t rfl).column_le.2.1
    rw [hcolumn, hfeed t rfl (not_not.mp hfed), hfirst] at hright
    omega
  · intro hplain
    rw [hcolumn, hend hplain, Nat.min_self]

/-- **On the line above the end is shown behind the last token**, if that is its line. -/
theorem pointsAt_above (hlast : ∀ t ∈ last, FoundIn document.chars t)
    (habove : 1 < lineAfter document.chars)
    (hspan : complaint.span = (Token.endToken document.chars last).span.onLine
      (lineAfter document.chars - 1)) :
    (document.diagnose complaint).PointsAt document.chars last complaint.span := by
  have hline : complaint.span.line = lineAfter document.chars - 1 := by
    rw [hspan]
    rfl
  obtain ⟨hcolumn, hpositive⟩ := column_of_end_span hspan
  obtain ⟨before, rest, htext, hbefore⟩ := exists_line_above habove
  refine pointsAt_of_target hpositive htext (hbefore.trans hline.symm) (.inr ?_)
  refine showsEnd_of_line _ hspan (.inr ⟨?_, ?_⟩)
  · show complaint.span.line + 1 = _
    omega
  · intro t ht hfed (hsame : t.span.line = complaint.span.line)
    have hroom := (hlast t ht).column_le.2.2
    have hnext := (column_endToken document.chars last).1 t ht hfed
    rw [(pointer_diagnose document hpositive).1, ← hsame]
    show min complaint.span.column _ = complaint.span.column
    rw [hcolumn, hnext]
    omega

end Targets

/-! ### All complaints about a document -/

/-- What scanning and reading a document complain about. -/
def Document.complaints (document : Document) : List Complaint :=
  (Token.scan document.chars).complaints ++
    (Grammar.parse (Token.scan document.chars).tokens).complaints

/-- The token in front of the end token. -/
def Document.lastToken (document : Document) : Option Token :=
  (Token.scan document.chars).tokens.dropLast.getLast?

theorem FoundIn.isEof_eq {text : List Char} {t : Token} (h : FoundIn text t) :
    t.isEof = false := by
  obtain ⟨piece, hpiece, hcontent, -⟩ := h
  obtain ⟨before, after, -, hstands, -⟩ := (Token.row_pieces text).stands hpiece
  rw [hcontent] at hstands
  generalize piece.chars = written at hstands
  cases hstands with
  | token heof _ => exact decide_eq_false heof

section Documents

variable {document : Document}

/-- The tokens of a document are found in it, and after them comes the end token. -/
theorem tokens_eq (document : Document) : ∃ read,
    (Token.scan document.chars).tokens =
      read ++ [Token.endToken document.chars document.lastToken] ∧
    document.lastToken = read.getLast? ∧ ∀ t ∈ read, FoundIn document.chars t := by
  have hlast : document.lastToken =
      ((Token.pieces document.chars).filterMap Piece.token?).getLast? := by
    rw [Document.lastToken, Token.scan, List.dropLast_concat]
  refine ⟨(Token.pieces document.chars).filterMap Piece.token?, by rw [hlast]; rfl, hlast, ?_⟩
  intro t ht
  obtain ⟨piece, hpiece, htoken⟩ := List.mem_filterMap.mp ht
  exact ⟨piece, hpiece, Token.token?_eq_some.mp htoken⟩

theorem foundIn_lastToken {t : Token} (h : t ∈ document.lastToken) : FoundIn document.chars t := by
  obtain ⟨read, -, hlast, hread⟩ := tokens_eq document
  rw [hlast] at h
  exact hread t (List.mem_of_getLast? h)

theorem mem_tokens_cases {t : Token} (h : t ∈ (Token.scan document.chars).tokens) :
    FoundIn document.chars t ∨ t = Token.endToken document.chars document.lastToken := by
  obtain ⟨read, htokens, -, hread⟩ := tokens_eq document
  rw [htokens] at h
  rcases List.mem_append.mp h with h | h
  · exact .inl (hread t h)
  · exact .inr (List.mem_singleton.mp h)

/-- Scanning complains about pieces. -/
theorem pointsAt_of_scan {complaint : Complaint}
    (h : complaint ∈ (Token.scan document.chars).complaints) :
    (document.diagnose complaint).PointsAt document.chars document.lastToken complaint.span := by
  obtain ⟨piece, hpiece, hspan, hcontent⟩ := Token.mem_complaints h
  refine pointsAt_of_piece hpiece ?_ hspan _
  rcases hcontent with ⟨hcontent, -⟩ | ⟨hcontent, -⟩
  · rw [hcontent]
    simp
  · rw [hcontent]
    simp

theorem pointsAt_of_token {complaint : Complaint}
    (h : Grammar.Covers (Token.scan document.chars).tokens complaint.span) :
    (document.diagnose complaint).PointsAt document.chars document.lastToken complaint.span := by
  obtain ⟨t, ht, hspan⟩ := h
  rcases mem_tokens_cases ht with ⟨piece, hpiece, hcontent, hplace⟩ | rfl
  · exact pointsAt_of_piece hpiece (by rw [hcontent]; simp) (hplace.trans hspan) _
  · exact pointsAt_of_end (fun _ => foundIn_lastToken) hspan.symm

/-- Reading complains about tokens, or about the end on the line above. -/
theorem pointsAt_of_parse {complaint : Complaint}
    (h : complaint ∈ (Grammar.parse (Token.scan document.chars).tokens).complaints) :
    (document.diagnose complaint).PointsAt document.chars document.lastToken complaint.span := by
  have hend : ∃ t ∈ (Token.scan document.chars).tokens, t.isEof = true := by
    obtain ⟨read, htokens, -⟩ := tokens_eq document
    refine ⟨Token.endToken document.chars document.lastToken, ?_, rfl⟩
    rw [htokens]
    exact List.mem_append_right _ List.mem_cons_self
  have hblamed := Grammar.blamed_of_parse hend h
  generalize hspan : complaint.span = span at hblamed
  cases hblamed with
  | token hcovers =>
    rw [← hspan] at hcovers ⊢
    exact pointsAt_of_token hcovers
  | @above last previous hlast heof hprevious hline =>
    have his : last = Token.endToken document.chars document.lastToken := by
      rcases mem_tokens_cases hlast with hfound | hend
      · rw [hfound.isEof_eq] at heof
        cases heof
      · exact hend
    rw [his, line_endToken] at hline
    have hfirst : 0 < previous.span.line := by
      rcases mem_tokens_cases hprevious with hfound | rfl
      · exact hfound.column_le.1
      · rw [line_endToken]
        exact Nat.add_pos_left Nat.one_pos _
    rw [his, line_endToken] at hspan
    rw [his, line_endToken, ← hspan]
    exact pointsAt_above (fun _ => foundIn_lastToken) (Nat.lt_of_le_of_lt hfirst hline) hspan

/-- **The diagnostics of a document that cannot be read** are those of its complaints. -/
theorem exists_complaint_of_read {diagnostics : List Diagnostic}
    (h : (Library.read document).result = .error diagnostics) {d : Diagnostic}
    (hd : d ∈ diagnostics) :
    ∃ complaint ∈ document.complaints, document.diagnose complaint = d := by
  rcases Logged.result_bind_eq_error.mp h with hscan | ⟨tokens, hscan, hparse⟩
  · have hstage : (Logged.finish .lex document.name
        ((Token.scan document.chars).complaints.map document.diagnose)
        (Token.scan document.chars).tokens).result = .error diagnostics := hscan
    rw [Logged.result_finish_eq_error hstage] at hd
    obtain ⟨complaint, hcomplaint, rfl⟩ := List.mem_map.mp hd
    exact ⟨complaint, List.mem_append_left _ hcomplaint, rfl⟩
  · have hstage : (Logged.finish .lex document.name
        ((Token.scan document.chars).complaints.map document.diagnose)
        (Token.scan document.chars).tokens).result = .ok tokens := hscan
    obtain ⟨-, rfl⟩ := Logged.result_finish_eq_ok.mp hstage
    have hlater : (Logged.finish .parse document.name
        ((Grammar.parse (Token.scan document.chars).tokens).complaints.map document.diagnose)
        (Grammar.parse (Token.scan document.chars).tokens).modules).result =
          .error diagnostics := hparse
    rw [Logged.result_finish_eq_error hlater] at hd
    obtain ⟨complaint, hcomplaint, rfl⟩ := List.mem_map.mp hd
    exact ⟨complaint, List.mem_append_right _ hcomplaint, rfl⟩

end Documents

/-- **Diagnostics point at what they report**, with one caret for each byte and not for each
    character; a caret is in the column of its diagnostic as far as the line has that column,
    which it may lack only where the end of the text is shown.  These are the diagnostics of
    a document that cannot be read. -/
theorem diagnostics_point_at_spans (name text : String) :
    (∀ complaint ∈ (Document.ofText name text).complaints,
      ((Document.ofText name text).diagnose complaint).PointsAt (Document.ofText name text).chars
        (Document.ofText name text).lastToken complaint.span) ∧
    ∀ diagnostics, (Library.read (Document.ofText name text)).result = .error diagnostics →
      ∀ d ∈ diagnostics, ∃ complaint ∈ (Document.ofText name text).complaints,
        (Document.ofText name text).diagnose complaint = d := by
  constructor
  · intro complaint hcomplaint
    rcases List.mem_append.mp hcomplaint with hscan | hparse
    · exact pointsAt_of_scan hscan
    · exact pointsAt_of_parse hparse
  · intro diagnostics hread d hd
    exact exists_complaint_of_read hread hd

/-- A character of two bytes that is not accepted. -/
def accented : Document := .ofText inlineName "é x"

/-- A text that is cut off behind a line feed. -/
def cutOff : Document := .ofText inlineName "main(\n"

/-- Two carets are under the one character, and the caret for the end of the text is not in
    column 6, as the line that it is under is empty. -/
theorem diagnostics_point_at_spans_slips :
    (∃ complaint ∈ accented.complaints, complaint.span = stretch [] ['é'] ∧
      (accented.diagnose complaint).PointsAt accented.chars accented.lastToken complaint.span ∧
      (accented.diagnose complaint).carets = 2) ∧
    ∃ complaint ∈ cutOff.complaints, complaint.problem = .expected ")" "" ∧
      (cutOff.diagnose complaint).PointsAt cutOff.chars cutOff.lastToken complaint.span ∧
      (cutOff.diagnose complaint).column = 6 ∧ (cutOff.diagnose complaint).firstCaret = 1 := by
  have haccent : ⟨.unexpectedCharacter, stretch [] ['é']⟩ ∈ accented.complaints := by
    decide +kernel
  have hparen : ⟨.expected ")" "", ⟨6, 6, 2, 6⟩⟩ ∈ cutOff.complaints := by decide +kernel
  refine ⟨⟨_, haccent, rfl, ?_, by decide +kernel⟩, _, hparen, rfl, ?_, rfl, by decide +kernel⟩
  · exact (diagnostics_point_at_spans inlineName "é x").1 _ haccent
  · exact (diagnostics_point_at_spans inlineName "main(\n").1 _ hparen

end CandidateSearch.Source
