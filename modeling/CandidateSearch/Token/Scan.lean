/-
  CandidateSearch/Token/Scan.lean
  ===============================
  **From text to tokens.**

  `pieces` cuts a text into consecutive pieces without losing a character: blanks and
  comments, tokens, and stretches that no rule accepts.  The tokens are those of the
  pieces, with an end token after them; each stretch that is not accepted gives one
  complaint and is skipped.

  A rule looks at the front of the text and gives the length of what it accepts, zero if
  it accepts nothing.
-/
import CandidateSearch.Number.Digits
import CandidateSearch.Source.Problem
import CandidateSearch.Token.Basic

namespace CandidateSearch.Token

open Source Number

/-! ### Character classes -/

def isBlank (c : Char) : Bool := c == ' ' || c == '\t' || c == '\r' || c == '\n'

def isUpper (c : Char) : Bool := 'A' ≤ c && c ≤ 'Z'

def isLower (c : Char) : Bool := 'a' ≤ c && c ≤ 'z'

def isWordChar (c : Char) : Bool := c == '_' || isUpper c || isLower c || isDigit c

/-- The scripts besides ASCII in which a variable may go on. -/
def scripts : List (Nat × Nat) :=
  [(0x3040, 0x309f),                                      -- Hiragana
   (0x30a0, 0x30ff), (0x31f0, 0x31ff), (0xff66, 0xff9f),  -- Katakana
   (0x3400, 0x4dbf), (0x4e00, 0x9fff), (0xf900, 0xfaff), (0x3005, 0x3005), (0x3007, 0x3007),
                                                          -- Han
   (0x0370, 0x03ff), (0x1f00, 0x1fff)]                    -- Greek

def isScriptChar (c : Char) : Bool :=
  scripts.any fun (low, high) => low ≤ c.toNat && c.toNat ≤ high

def isVariableChar (c : Char) : Bool := isWordChar c || isScriptChar c

/-- How many characters at the front are in a class. -/
def run (p : Char → Bool) (cs : List Char) : Nat := (cs.takeWhile p).length

/-! ### Rules -/

/-- The length of what is left of the line, up to a line feed, alone or after a carriage
    return; there is no such stretch if a carriage return stands by itself first. -/
def restOfLine (cs : List Char) : Option Nat :=
  let n := run (fun c => c != '\r' && c != '\n') cs
  match cs.drop n with
  | '\r' :: '\n' :: _ => some n
  | '\r' :: _ => none
  | _ => some n

/-- Blanks, or a comment from `%` to the end of the line. -/
def triviaLength (cs : List Char) : Nat :=
  match cs with
  | '%' :: rest => 1 + (restOfLine rest).getD 0
  | _ => run isBlank cs

/-- A point and the digits after it. -/
def fractionLength (cs : List Char) : Nat :=
  match cs with
  | '.' :: rest => 1 + run isDigit rest
  | _ => 0

/-- An exponent needs a digit at least. -/
def exponentLength (cs : List Char) : Nat :=
  match cs with
  | c :: rest =>
      let sign := match rest with
        | '+' :: _ | '-' :: _ => 1
        | _ => 0
      let digits := run isDigit (rest.drop sign)
      if (c == 'e' || c == 'E') && digits != 0 then 1 + sign + digits else 0
  | [] => 0

/-- A number: digits, perhaps a point and more digits, perhaps an exponent. -/
def numberLength (cs : List Char) : Nat :=
  let whole := run isDigit cs
  if whole = 0 then 0
  else
    let fraction := fractionLength (cs.drop whole)
    whole + fraction + exponentLength ((cs.drop whole).drop fraction)

/-- What a piece of text is. -/
inductive Content where
  | blank
  | token (kind : Kind)
  | unterminated               -- a quote without its partner on the same line
  | unexpected                 -- a character that no rule accepts
deriving DecidableEq, Repr

/-- The symbol at the front of a text. -/
def symbol? (symbols : List Reserved) (cs : List Char) : Option (Content × Nat) :=
  (symbols.find? fun w => w.text.toList.isPrefixOf cs).map fun w =>
    (.token (.reserved w), w.text.length)

/-- A text in quotes, or what is left of the line if the second quote is missing. -/
def string? : List Char → Option (Content × Nat)
  | '"' :: rest =>
      let n := run (fun c => c != '"' && c != '\n') rest
      match rest.drop n with
      | '"' :: _ => some (.token (.string (String.ofList (rest.take n))), n + 2)
      | _ => (restOfLine rest).map fun m => (.unterminated, m + 1)
  | _ => none

/-- A lower-case word: reserved, the name of something that takes arguments, or an
    atom. -/
def wordKind (word rest : List Char) : Kind :=
  match Reserved.ofWord? word with
  | some w => .reserved w
  | none =>
      if (rest.dropWhile (· == ' ')).head? == some '(' then .function (String.ofList word)
      else .atom (String.ofList word)

/-- The piece at the front of a text that starts with `c`. -/
def front (c : Char) (rest : List Char) : Content × Nat :=
  let cs := c :: rest
  if triviaLength cs ≠ 0 then (.blank, triviaLength cs)
  else match string? cs with
  | some piece => piece
  | none => match symbol? Reserved.longSymbols cs with
  | some piece => piece
  | none =>
    if numberLength cs ≠ 0 then
      (.token (.number (String.ofList (cs.take (numberLength cs)))), numberLength cs)
    else if c == '_' || isUpper c then
      let n := 1 + run isVariableChar rest
      (.token (.var (String.ofList (cs.take n))), n)
    else if isLower c then
      let n := 1 + run isWordChar rest
      (.token (wordKind (cs.take n) (cs.drop n)), n)
    else (symbol? Reserved.shortSymbols cs).getD (.unexpected, 1)

/-! ### Pieces -/

/-- A stretch of text and what it is. -/
structure Piece where
  content : Content
  chars : List Char
  span : Span
deriving DecidableEq, Repr

/-- The pieces of a text that starts at a place.  Every piece takes a character at least,
    so as many rounds as there are characters are enough. -/
def piecesFrom : Nat → Place → List Char → List Piece
  | 0, _, _ => []
  | _, _, [] => []
  | fuel + 1, place, c :: rest =>
      let (content, n) := front c rest
      let chars := (c :: rest).take n
      let after := place.advance chars
      ⟨content, chars, place.to after⟩ :: piecesFrom fuel after ((c :: rest).drop n)

def pieces (cs : List Char) : List Piece := piecesFrom cs.length {} cs

def Piece.token? (piece : Piece) : Option Token :=
  match piece.content with
  | .token kind => some ⟨kind, piece.span⟩
  | _ => none

def Piece.complaint? (piece : Piece) : Option Complaint :=
  match piece.content with
  | .unterminated => some ⟨.unterminatedString, piece.span⟩
  | .unexpected => some ⟨.unexpectedCharacter, piece.span⟩
  | _ => none

/-! ### Tokens -/

/-- The end token: empty, at the end of the text.  Where the text ends with a line feed
    its column is one past the start of the last token. -/
def endToken (cs : List Char) (last : Option Token) : Token :=
  let place := Place.advance {} cs
  let span := place.to place
  let column := match last with
    | some token => if cs.getLast? = some '\n' then token.span.column + 1 else span.column
    | none => span.column
  ⟨.eof, { span with column := column }⟩

/-- The tokens of a text and the complaints about it. -/
structure Scanned where
  tokens : List Token
  complaints : List Complaint

def scan (cs : List Char) : Scanned :=
  let pieces := pieces cs
  let tokens := pieces.filterMap Piece.token?
  ⟨tokens ++ [endToken cs tokens.getLast?], pieces.filterMap Piece.complaint?⟩

end CandidateSearch.Token
