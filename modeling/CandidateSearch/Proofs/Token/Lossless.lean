/-
  CandidateSearch/Proofs/Token/Lossless.lean
  ==========================================
  **Nothing is lost between a text and its tokens.**

  The pieces of a text follow one another without a gap, so each byte lies in one of them:
  in a token, in a stretch that is complained about, in blanks or in a comment.  In

      A = "x" % y
      $

  the bytes of ` % y` and of the line feeds are in no token; `$` is the range of the only
  complaint, which points to line 2, column 1.

  Positions are counted from the text in front: a line for each line feed, a column for each
  character since the last one, whatever its size in bytes.
-/
import Mathlib.Data.List.Induction
import Mathlib.Data.List.Pairwise
import CandidateSearch.Proofs.Token.Rules
import CandidateSearch.Source.Document

namespace CandidateSearch.Token

open Source

/-! ### Places -/

/-- The number of bytes that a text takes. -/
def bytes (cs : List Char) : Nat := (String.ofList cs).utf8ByteSize

@[simp] theorem bytes_nil : bytes [] = 0 := rfl

@[simp] theorem bytes_append (cs ds : List Char) : bytes (cs ++ ds) = bytes cs + bytes ds := by
  simp [bytes]

@[simp] theorem bytes_singleton (c : Char) : bytes [c] = c.utf8Size := by simp [bytes]

theorem bytes_pos {cs : List Char} (h : cs ≠ []) : 0 < bytes cs := by
  cases cs with
  | nil => exact absurd rfl h
  | cons c rest =>
    have hsplit : bytes (c :: rest) = c.utf8Size + bytes rest := by
      rw [← List.singleton_append, bytes_append, bytes_singleton]
    have := c.utf8Size_pos
    omega

/-- The line that a text ends on, counted from one. -/
def lineAfter (before : List Char) : Nat := 1 + before.count '\n'

/-- The column that a text ends in, counted from one. -/
def columnAfter (before : List Char) : Nat :=
  1 + (before.reverse.takeWhile fun c => c != '\n').length

theorem advance_append (p : Place) (cs ds : List Char) :
    p.advance (cs ++ ds) = (p.advance cs).advance ds := List.foldl_append

/-- Walking over a text counts its bytes, its lines and the characters of its last line. -/
theorem advance_start (before : List Char) :
    Place.advance {} before = ⟨bytes before, lineAfter before, columnAfter before⟩ := by
  induction before using List.reverseRecOn with
  | nil => rfl
  | append_singleton before c ih =>
    rw [advance_append, ih]
    by_cases hline : c = '\n'
    · simp [Place.advance, Place.step, hline, lineAfter, columnAfter, Nat.add_assoc]
    · simp [Place.advance, Place.step, hline, lineAfter, columnAfter, Nat.add_assoc]

/-- The span of a stretch of text, from what stands in front of it. -/
def stretch (before written : List Char) : Span :=
  ⟨bytes before, bytes (before ++ written), lineAfter before, columnAfter before⟩

/-- The byte lies in the span. -/
def holds (span : Span) (i : Nat) : Bool := decide (span.start ≤ i ∧ i < span.stop)

@[simp] theorem holds_eq_true {span : Span} {i : Nat} :
    holds span i = true ↔ span.start ≤ i ∧ i < span.stop := by simp [holds]

/-! ### What a lossless scan is -/

/-- The byte lies in a blank character. -/
def InBlank (text : List Char) (i : Nat) : Prop :=
  ∃ before c after, text = before ++ [c] ++ after ∧ isBlank c = true ∧
    holds (stretch before [c]) i = true

/-- The byte lies in no token and in nothing that is complained about. -/
def Scanned.Spares (scanned : Scanned) (i : Nat) : Prop :=
  (∀ t ∈ scanned.tokens, holds t.span i = false) ∧
    ∀ complaint ∈ scanned.complaints, holds complaint.span i = false

/-- The byte lies in a comment, of which no byte is in a token or complained about. -/
def Scanned.InComment (scanned : Scanned) (text : List Char) (i : Nat) : Prop :=
  ∃ before written after, text = before ++ written ++ after ∧ IsComment written after ∧
    holds (stretch before written) i = true ∧
    ∀ j, holds (stretch before written) j = true → scanned.Spares j

/-- What a complaint lets the scanner skip: a character with which nothing begins, or a quote
    and the rest of its line. -/
def Skips : Problem → List Char → List Char → Prop
  | .unexpectedCharacter, written, after => ∃ c, written = [c] ∧ Unreadable c after
  | .unterminatedString, written, after =>
      ∃ body, written = '"' :: body ∧ '"' ∉ body ∧ EndsLine body after
  | _, _, _ => False

/-- The tokens and the complaints account for every byte of a document. -/
structure Lossless (document : Document) (scanned : Scanned) : Prop where
  /-- One end token, after all others, empty, at the end of the text. -/
  ending : ∃ tokens last, scanned.tokens = tokens ++ [last] ∧ last.kind = .eof ∧
    (∀ t ∈ tokens, t.kind ≠ .eof) ∧
    last.span.start = bytes document.chars ∧ last.span.stop = bytes document.chars
  /-- Under each other token stands what the token says, and its line and column are right. -/
  marked : ∀ t ∈ scanned.tokens, t.kind ≠ .eof → t.span.start < t.span.stop ∧
    ∃ before after, document.chars = before ++ t.kind.written ++ after ∧
      t.span = stretch before t.kind.written
  ordered : scanned.tokens.Pairwise fun t u => t.span.stop ≤ u.span.start
  /-- A byte outside of the tokens is complained about once, or it is blank or in a comment. -/
  covered : ∀ i < bytes document.chars, (∀ t ∈ scanned.tokens, holds t.span i = false) →
    scanned.complaints.countP (fun complaint => holds complaint.span i) = 1 ∨
      scanned.complaints.countP (fun complaint => holds complaint.span i) = 0 ∧
        (InBlank document.chars i ∨ scanned.InComment document.chars i)
  /-- A complaint is about what it lets skip, and is shown where that starts. -/
  located : ∀ complaint ∈ scanned.complaints, ∃ before written after,
    document.chars = before ++ written ++ after ∧ Skips complaint.problem written after ∧
      complaint.span = stretch before written ∧
      (document.diagnose complaint).line = lineAfter before ∧
      (document.diagnose complaint).column = columnAfter before

/-! ### Pieces in a row -/

/-- The pieces make up what is left of a text after what stands in front. -/
inductive Row (text : List Char) : List Char → List Piece → Prop
  | done : Row text text []
  | piece {before written after : List Char} {content : Content} {rest : List Piece}
      (hsplit : text = before ++ written ++ after) (hstands : Stands content written after)
      (hrest : Row text (before ++ written) rest) :
      Row text before (⟨content, written, stretch before written⟩ :: rest)

/-- A round of the scanner takes the front of what is left; each piece has a character at
    least, so that the rounds are enough. -/
theorem row_piecesFrom {text : List Char} (fuel : Nat) {before cs : List Char}
    (hfuel : cs.length ≤ fuel) (htext : text = before ++ cs) :
    Row text before (piecesFrom fuel (Place.advance {} before) cs) := by
  induction fuel generalizing before cs with
  | zero =>
    obtain rfl : cs = [] := List.length_eq_zero_iff.mp (Nat.le_zero.mp hfuel)
    rw [htext, List.append_nil]
    exact .done
  | succ fuel ih =>
    cases cs with
    | nil =>
      rw [htext, List.append_nil]
      exact .done
    | cons c rest =>
      obtain ⟨written, after, hfront, hlength, hstands⟩ := front_spec c rest
      have hsome := List.length_pos_iff.mpr hstands.ne_nil
      have hleft : after.length ≤ fuel := by
        have := congrArg List.length hfront
        rw [List.length_append, List.length_cons] at this
        rw [List.length_cons] at hfuel
        omega
      have hsplit : text = before ++ written ++ after := by
        rw [htext, hfront, List.append_assoc]
      have htail := ih hleft hsplit
      have hstretch : (Place.advance {} before).to (Place.advance {} (before ++ written)) =
          stretch before written := by
        simp only [advance_start, Place.to, stretch]
      simp only [piecesFrom]
      rw [hlength, hfront, List.take_left, List.drop_left, ← advance_append, hstretch]
      exact .piece hsplit hstands htail

theorem row_pieces (text : List Char) : Row text [] (pieces text) :=
  row_piecesFrom text.length (Nat.le_refl _) rfl

section Row

variable {text before : List Char} {row : List Piece}

/-- Each piece stands in the text where its span says. -/
theorem Row.stands (h : Row text before row) {piece : Piece} (hpiece : piece ∈ row) :
    ∃ before after, text = before ++ piece.chars ++ after ∧
      Stands piece.content piece.chars after ∧ piece.span = stretch before piece.chars := by
  induction h with
  | done => simp at hpiece
  | piece hsplit hstands _ ih =>
    rcases List.mem_cons.mp hpiece with rfl | hlater
    · exact ⟨_, _, hsplit, hstands, rfl⟩
    · exact ih hlater

theorem Row.start_le (h : Row text before row) {piece : Piece} (hpiece : piece ∈ row) :
    bytes before ≤ piece.span.start := by
  induction h with
  | done => simp at hpiece
  | piece hsplit hstands _ ih =>
    rcases List.mem_cons.mp hpiece with rfl | hlater
    · exact Nat.le_refl _
    · have := ih hlater
      rw [bytes_append] at this
      omega

/-- No piece starts before the one in front of it has ended. -/
theorem Row.ordered (h : Row text before row) :
    row.Pairwise fun a b => a.span.stop ≤ b.span.start := by
  induction h with
  | done => exact .nil
  | piece hsplit hstands hrest ih =>
    exact List.pairwise_cons.mpr ⟨fun _ hlater => hrest.start_le hlater, ih⟩

/-- There are no gaps between the pieces. -/
theorem Row.exists_holds (h : Row text before row) {i : Nat} (hfrom : bytes before ≤ i)
    (hto : i < bytes text) : ∃ piece ∈ row, holds piece.span i = true := by
  induction h with
  | done => omega
  | @piece before written after content rest hsplit hstands hrest ih =>
    by_cases hhere : i < bytes (before ++ written)
    · exact ⟨_, List.mem_cons_self, by simpa [stretch] using ⟨hfrom, by simpa using hhere⟩⟩
    · obtain ⟨piece, hpiece, hholds⟩ := ih (Nat.le_of_not_lt hhere)
      exact ⟨piece, List.mem_cons_of_mem _ hpiece, hholds⟩

end Row

/-- A byte lies in one piece only. -/
theorem eq_of_holds {text : List Char} {a b : Piece} (ha : a ∈ pieces text) (hb : b ∈ pieces text)
    {i : Nat} (hai : holds a.span i = true) (hbi : holds b.span i = true) : a = b := by
  have hapart : (pieces text).Pairwise fun a b =>
      holds a.span i = true → holds b.span i = true → a = b := by
    apply (row_pieces text).ordered.imp
    intro a b hab hai hbi
    rw [holds_eq_true] at hai hbi
    omega
  have : Std.Symm fun a b : Piece => holds a.span i = true → holds b.span i = true → a = b :=
    ⟨fun _ _ hab hbi hai => (hab hai hbi).symm⟩
  exact hapart.forall_of_forall (fun _ _ _ _ => rfl) ha hb hai hbi

/-- A byte of a stretch lies in one of its characters. -/
theorem exists_char_holds {before written : List Char} {i : Nat}
    (h : holds (stretch before written) i = true) :
    ∃ left c right, written = left ++ [c] ++ right ∧
      holds (stretch (before ++ left) [c]) i = true := by
  induction written generalizing before with
  | nil =>
    simp only [stretch, List.append_nil, holds_eq_true] at h
    omega
  | cons c rest ih =>
    by_cases hhere : i < bytes (before ++ [c])
    · refine ⟨[], c, rest, rfl, ?_⟩
      simp only [stretch, List.append_nil, holds_eq_true] at h ⊢
      exact ⟨h.1, hhere⟩
    · have hlater : holds (stretch (before ++ [c]) rest) i = true := by
        have hsame : before ++ c :: rest = before ++ [c] ++ rest := List.append_cons ..
        simp only [stretch, hsame, holds_eq_true] at h ⊢
        exact ⟨Nat.le_of_not_lt hhere, h.2⟩
      obtain ⟨left, d, right, rfl, hd⟩ := ih hlater
      exact ⟨c :: left, d, right, rfl, by simpa using hd⟩

/-! ### Tokens and complaints of the pieces -/

theorem token?_eq_some {piece : Piece} {t : Token} :
    piece.token? = some t ↔ piece.content = .token t.kind ∧ piece.span = t.span := by
  obtain ⟨content, chars, span⟩ := piece
  obtain ⟨kind, place⟩ := t
  cases content <;> simp [Piece.token?]

theorem complaint?_eq_some {piece : Piece} {complaint : Complaint}
    (h : piece.complaint? = some complaint) :
    piece.span = complaint.span ∧
      (piece.content = .unterminated ∧ complaint.problem = .unterminatedString ∨
        piece.content = .unexpected ∧ complaint.problem = .unexpectedCharacter) := by
  obtain ⟨content, chars, span⟩ := piece
  cases content with
  | blank => simp [Piece.complaint?] at h
  | token kind => simp [Piece.complaint?] at h
  | unterminated =>
    obtain rfl := Option.some.inj h
    exact ⟨rfl, .inl ⟨rfl, rfl⟩⟩
  | unexpected =>
    obtain rfl := Option.some.inj h
    exact ⟨rfl, .inr ⟨rfl, rfl⟩⟩

theorem endToken_span (text : List Char) (last : Option Token) :
    (endToken text last).span.start = bytes text ∧ (endToken text last).span.stop = bytes text := by
  simp [endToken, Place.to, advance_start]

theorem mem_tokens {text : List Char} {t : Token} (h : t ∈ (scan text).tokens) :
    (∃ piece ∈ pieces text, piece.content = .token t.kind ∧ piece.span = t.span) ∨
      t.kind = .eof ∧ t.span.start = bytes text ∧ t.span.stop = bytes text := by
  rcases List.mem_append.mp h with hpiece | hend
  · obtain ⟨piece, hpiece, htoken⟩ := List.mem_filterMap.mp hpiece
    exact .inl ⟨piece, hpiece, token?_eq_some.mp htoken⟩
  · obtain rfl := List.mem_singleton.mp hend
    exact .inr ⟨rfl, endToken_span _ _⟩

theorem exists_front {fuel : Nat} {place : Place} {cs : List Char} {piece : Piece}
    (h : piece ∈ piecesFrom fuel place cs) : ∃ c rest, piece.content = (front c rest).1 := by
  induction fuel generalizing place cs with
  | zero => cases h
  | succ fuel ih =>
    cases cs with
    | nil => cases h
    | cons c rest =>
      rcases List.mem_cons.mp h with rfl | hlater
      · exact ⟨c, rest, rfl⟩
      · exact ih hlater

/-- **The name of a function is a lower-case word.** -/
theorem isLowerWord_of_scan {text : List Char} {t : Token} (ht : t ∈ (scan text).tokens)
    {name : String} (hkind : t.kind = .function name) : IsLowerWord name := by
  rcases mem_tokens ht with ⟨piece, hpiece, hcontent, -⟩ | ⟨heof, -⟩
  · obtain ⟨c, rest, hfront⟩ := exists_front hpiece
    have hfound : (front c rest).1 = .token (.function name) := by rw [← hfront, hcontent, hkind]
    exact isLowerWord_of_front hfound
  · rw [hkind] at heof
    cases heof

theorem mem_complaints {text : List Char} {complaint : Complaint}
    (h : complaint ∈ (scan text).complaints) :
    ∃ piece ∈ pieces text, piece.span = complaint.span ∧
      (piece.content = .unterminated ∧ complaint.problem = .unterminatedString ∨
        piece.content = .unexpected ∧ complaint.problem = .unexpectedCharacter) := by
  obtain ⟨piece, hpiece, hcomplaint⟩ := List.mem_filterMap.mp h
  exact ⟨piece, hpiece, complaint?_eq_some hcomplaint⟩

/-- Nothing but the piece that a byte lies in has to say something about it. -/
theorem spares_of_blank {text : List Char} {piece : Piece} (hpiece : piece ∈ pieces text)
    (hblank : piece.content = .blank) {i : Nat} (hi : holds piece.span i = true) :
    (scan text).Spares i := by
  constructor
  · intro t ht
    rw [Bool.eq_false_iff]
    intro hholds
    rcases mem_tokens ht with ⟨other, hother, hcontent, hspan⟩ | ⟨_, hstart, hstop⟩
    · rw [← hspan] at hholds
      obtain rfl := eq_of_holds hpiece hother hi hholds
      rw [hblank] at hcontent
      exact Content.noConfusion hcontent
    · rw [holds_eq_true] at hholds
      omega
  · intro complaint hcomplaint
    rw [Bool.eq_false_iff]
    intro hholds
    obtain ⟨other, hother, hspan, hcontent⟩ := mem_complaints hcomplaint
    rw [← hspan] at hholds
    obtain rfl := eq_of_holds hpiece hother hi hholds
    rw [hblank] at hcontent
    simp at hcontent

theorem countP_le_one {complaints : List Complaint}
    (h : complaints.Pairwise fun a b => a.span.stop ≤ b.span.start) (i : Nat) :
    complaints.countP (fun complaint => holds complaint.span i) ≤ 1 := by
  induction h with
  | nil => exact Nat.zero_le 1
  | @cons first rest hfirst hrest ih =>
    by_cases hhere : holds first.span i = true
    · have hnone : rest.countP (fun complaint => holds complaint.span i) = 0 := by
        rw [List.countP_eq_zero]
        intro later hlater hholds
        have := hfirst later hlater
        rw [holds_eq_true] at hhere hholds
        omega
      rw [List.countP_cons, hnone, if_pos hhere]
    · rw [List.countP_cons, if_neg hhere]
      exact ih

/-- A piece that is complained about is complained about once. -/
theorem countP_complaints {text : List Char} {complaint : Complaint}
    (h : complaint ∈ (scan text).complaints) {i : Nat} (hi : holds complaint.span i = true) :
    (scan text).complaints.countP (fun complaint => holds complaint.span i) = 1 := by
  have hordered : (scan text).complaints.Pairwise fun a b => a.span.stop ≤ b.span.start := by
    apply (row_pieces text).ordered.filterMap
    intro a b hab c hc d hd
    rw [← (complaint?_eq_some hc).1, ← (complaint?_eq_some hd).1]
    exact hab
  have hsome : 0 < (scan text).complaints.countP (fun complaint => holds complaint.span i) :=
    List.countP_pos_iff.mpr ⟨complaint, h, hi⟩
  have := countP_le_one hordered i
  omega

/-! ### The parts of the result -/

theorem tokens_ordered (text : List Char) :
    (scan text).tokens.Pairwise fun t u => t.span.stop ≤ u.span.start := by
  refine List.pairwise_append.mpr ⟨?_, List.pairwise_singleton _ _, ?_⟩
  · apply (row_pieces text).ordered.filterMap
    intro a b hab t ht u hu
    rw [← (token?_eq_some.mp ht).2, ← (token?_eq_some.mp hu).2]
    exact hab
  · intro t ht last hlast
    obtain ⟨piece, hpiece, htoken⟩ := List.mem_filterMap.mp ht
    obtain rfl := List.mem_singleton.mp hlast
    obtain ⟨before, after, htext, _, hspan⟩ := (row_pieces text).stands hpiece
    rw [← (token?_eq_some.mp htoken).2, hspan, (endToken_span _ _).1, htext, bytes_append]
    exact Nat.le_add_right _ _

theorem token_marked {text : List Char} {t : Token} (ht : t ∈ (scan text).tokens)
    (heof : t.kind ≠ .eof) : t.span.start < t.span.stop ∧
      ∃ before after, text = before ++ t.kind.written ++ after ∧
        t.span = stretch before t.kind.written := by
  rcases mem_tokens ht with ⟨piece, hpiece, hcontent, hspan⟩ | ⟨hkind, _⟩
  · obtain ⟨before, after, htext, hstands, hstretch⟩ := (row_pieces text).stands hpiece
    have hsome := bytes_pos hstands.ne_nil
    have hwritten : piece.chars = t.kind.written := by
      rw [hcontent] at hstands
      generalize piece.chars = written at hstands
      cases hstands
      rfl
    rw [← hspan, hstretch]
    refine ⟨by simpa [stretch] using hsome, before, after, ?_, by rw [hwritten]⟩
    rw [← hwritten]
    exact htext
  · exact absurd hkind heof

theorem byte_covered {text : List Char} {i : Nat} (hi : i < bytes text)
    (houtside : ∀ t ∈ (scan text).tokens, holds t.span i = false) :
    (scan text).complaints.countP (fun complaint => holds complaint.span i) = 1 ∨
      (scan text).complaints.countP (fun complaint => holds complaint.span i) = 0 ∧
        (InBlank text i ∨ (scan text).InComment text i) := by
  obtain ⟨piece, hpiece, hholds⟩ := (row_pieces text).exists_holds (Nat.zero_le i) hi
  obtain ⟨before, after, htext, hstands, hspan⟩ := (row_pieces text).stands hpiece
  have hskipped : ∀ problem, piece.complaint? = some ⟨problem, piece.span⟩ →
      (scan text).complaints.countP (fun complaint => holds complaint.span i) = 1 := by
    intro problem hcomplaint
    exact countP_complaints (List.mem_filterMap.mpr ⟨piece, hpiece, hcomplaint⟩) hholds
  have hspared : piece.content = .blank →
      (scan text).complaints.countP (fun complaint => holds complaint.span i) = 0 := by
    intro hblank
    rw [List.countP_eq_zero]
    intro complaint hcomplaint
    rw [(spares_of_blank hpiece hblank hholds).2 complaint hcomplaint]
    exact Bool.false_ne_true
  cases hcontent : piece.content with
  | blank =>
    right
    refine ⟨hspared hcontent, ?_⟩
    rw [hcontent] at hstands
    rcases hstands.blank_cases with hblank | hcomment
    · left
      rw [hspan] at hholds
      obtain ⟨left, c, right, hchars, hc⟩ := exists_char_holds hholds
      refine ⟨before ++ left, c, right ++ after, ?_, hblank c (by simp [hchars]), hc⟩
      rw [htext, hchars]
      simp only [List.append_assoc]
    · right
      refine ⟨before, piece.chars, after, htext, hcomment, ?_⟩
      rw [← hspan]
      exact ⟨hholds, fun j hj => spares_of_blank hpiece hcontent hj⟩
  | token kind =>
    have htoken : (⟨kind, piece.span⟩ : Token) ∈ (scan text).tokens := by
      apply List.mem_append_left
      exact List.mem_filterMap.mpr ⟨piece, hpiece, token?_eq_some.mpr ⟨hcontent, rfl⟩⟩
    have := houtside _ htoken
    rw [hholds] at this
    exact absurd this (by simp)
  | unterminated => exact .inl (hskipped .unterminatedString (by simp [Piece.complaint?, hcontent]))
  | unexpected => exact .inl (hskipped .unexpectedCharacter (by simp [Piece.complaint?, hcontent]))

theorem complaint_located (document : Document) {complaint : Complaint}
    (h : complaint ∈ (scan document.chars).complaints) : ∃ before written after,
      document.chars = before ++ written ++ after ∧ Skips complaint.problem written after ∧
        complaint.span = stretch before written ∧
        (document.diagnose complaint).line = lineAfter before ∧
        (document.diagnose complaint).column = columnAfter before := by
  obtain ⟨piece, hpiece, hspan, hcontent⟩ := mem_complaints h
  obtain ⟨before, after, htext, hstands, hstretch⟩ := (row_pieces document.chars).stands hpiece
  refine ⟨before, piece.chars, after, htext, ?_, hspan.symm.trans hstretch, ?_, ?_⟩
  · generalize piece.chars = written at hstands
    rcases hcontent with ⟨hcontent, hproblem⟩ | ⟨hcontent, hproblem⟩
    · rw [hcontent] at hstands
      rw [hproblem]
      cases hstands with
      | unterminated hline hquote => exact ⟨_, rfl, hquote, hline⟩
    · rw [hcontent] at hstands
      rw [hproblem]
      cases hstands with
      | unexpected hforeign => exact ⟨_, rfl, hforeign⟩
  · show complaint.span.line = _
    rw [← hspan, hstretch]
    rfl
  · show complaint.span.column = _
    rw [← hspan, hstretch]
    rfl

/-- Scanning accounts for every byte of every text. -/
theorem scan_is_lossless (name text : String) :
    Lossless (Document.ofText name text) (scan (Document.ofText name text).chars) where
  ending := by
    refine ⟨_, _, rfl, rfl, ?_, endToken_span _ _⟩
    intro t ht heof
    obtain ⟨piece, hpiece, htoken⟩ := List.mem_filterMap.mp ht
    obtain ⟨hcontent, _⟩ := token?_eq_some.mp htoken
    obtain ⟨before, after, _, hstands, _⟩ := (row_pieces _).stands hpiece
    rw [hcontent, heof] at hstands
    generalize piece.chars = written at hstands
    cases hstands with
    | token hkind _ => exact hkind rfl
  marked := fun _ ht heof => token_marked ht heof
  ordered := tokens_ordered _
  covered := fun _ hi houtside => byte_covered hi houtside
  located := fun _ h => complaint_located _ h

end CandidateSearch.Token
