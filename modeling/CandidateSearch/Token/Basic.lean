/-
  CandidateSearch/Token/Basic.lean
  ================================
  **Tokens of the module language.**

  Reserved words and symbols are an enumeration of their own, so that the grammar can
  match on them; every other token carries its text.
-/
import CandidateSearch.Source.Span

namespace CandidateSearch

open Source (Span)

/-! ### Reserved words and symbols -/

inductive Reserved where
  -- words
  | trueWord | falseWord | method | moduleWord | endWord | select | forWord | caseWord
  | sqrt | exp | call | whenWord | test | integer | real | atom | bool | length | nth | sum
  | or | and | not | mod
  | i | r | a | b                     -- the types by their first letters
  -- symbols
  | doubleEquals | notEquals | atMost | atLeast | arrow
  | plus | minus | times | divide | power | openParen | closeParen | less | greater
  | semicolon | colon | equals | openBrace | closeBrace | openBracket | closeBracket
  | comma | dot
deriving DecidableEq, Repr

namespace Reserved

/-- How a reserved word or symbol is written. -/
def text : Reserved → String
  | trueWord => "true"
  | falseWord => "false"
  | method => "method"
  | moduleWord => "module"
  | endWord => "end"
  | select => "select"
  | forWord => "for"
  | caseWord => "case"
  | sqrt => "sqrt"
  | exp => "exp"
  | call => "call"
  | whenWord => "when"
  | test => "test"
  | integer => "integer"
  | real => "real"
  | atom => "atom"
  | bool => "bool"
  | length => "length"
  | nth => "nth"
  | sum => "sum"
  | or => "or"
  | and => "and"
  | not => "not"
  | mod => "mod"
  | i => "i"
  | r => "r"
  | a => "a"
  | b => "b"
  | doubleEquals => "=="
  | notEquals => "\\="
  | atMost => "=<"
  | atLeast => ">="
  | arrow => "->"
  | plus => "+"
  | minus => "-"
  | times => "*"
  | divide => "/"
  | power => "^"
  | openParen => "("
  | closeParen => ")"
  | less => "<"
  | greater => ">"
  | semicolon => ";"
  | colon => ":"
  | equals => "="
  | openBrace => "\x7b"
  | closeBrace => "\x7d"
  | openBracket => "["
  | closeBracket => "]"
  | comma => ","
  | dot => "."

/-- The reserved words. -/
def words : List Reserved :=
  [trueWord, falseWord, method, moduleWord, endWord, select, forWord, caseWord, sqrt, exp,
   call, whenWord, test, integer, real, atom, bool, length, nth, sum, or, and, not, mod,
   i, r, a, b]

/-- The symbols of two characters; they are looked for before the single ones. -/
def longSymbols : List Reserved := [doubleEquals, notEquals, atMost, atLeast, arrow]

/-- The symbols of one character. -/
def shortSymbols : List Reserved :=
  [plus, minus, times, divide, power, openParen, closeParen, less, greater, semicolon, colon,
   equals, openBrace, closeBrace, openBracket, closeBracket, comma, dot]

def isWord (w : Reserved) : Bool := words.contains w

/-- The reserved word of a text. -/
def ofWord? (cs : List Char) : Option Reserved := words.find? fun w => w.text.toList == cs

end Reserved

/-! ### Tokens -/

inductive Token.Kind where
  | reserved (w : Reserved)
  | var (name : String)                -- starts with an upper-case letter or `_`
  | function (name : String)           -- a lower-case word in front of `(`
  | atom (name : String)               -- any other lower-case word
  | string (content : String)          -- the text between the quotes
  | number (digits : String)
  | eof
deriving DecidableEq, Repr

structure Token where
  kind : Token.Kind
  span : Span
deriving DecidableEq, Repr

namespace Token

/-- The name of a kind of token. -/
def Kind.label : Kind → String
  | .reserved _ => "reserved"
  | .var _ => "variable"
  | .function _ => "function"
  | .atom _ => "atom"
  | .string _ => "string"
  | .number _ => "number"
  | .eof => "end of file"

def Kind.text : Kind → String
  | .reserved w => w.text
  | .var s | .function s | .atom s | .string s | .number s => s
  | .eof => ""

def text (t : Token) : String := t.kind.text

def is (t : Token) (w : Reserved) : Bool := t.kind = .reserved w

def isEof (t : Token) : Bool := t.kind = .eof

end Token

end CandidateSearch
