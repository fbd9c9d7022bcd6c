/-
  CandidateSearch/Text/Quoted.lean
  ================================
  **Text quoted for a reader.**

  `quoted` puts double quotes around a text and escapes the quote, the backslash, the
  usual controls and every character that does not show by itself, the last ones by
  their number: an accent that stands alone becomes `\u{301}`.
-/
import CandidateSearch.Text.Hidden

namespace CandidateSearch.Text

/-- A number in hexadecimal. -/
def hex (n : Nat) : String := String.ofList (Nat.toDigits 16 n)

/-- What stands for a character inside quotes. -/
def quotedChar (c : Char) : String :=
  if c == '"' then "\\\""
  else if c == '\\' then "\\\\"
  else if c == '\n' then "\\n"
  else if c == '\r' then "\\r"
  else if c == '\t' then "\\t"
  else if c.toNat == 0 then "\\0"
  else if isHidden c then "\\u\x7b" ++ hex c.toNat ++ "\x7d"
  else c.toString

/-- A text between double quotes. -/
def quoted (s : String) : String :=
  "\"" ++ String.join (s.toList.map quotedChar) ++ "\""

/-- Text with spaces in front of it so that it is at least `width` characters wide. -/
def padLeft (width : Nat) (s : String) : String :=
  String.ofList (List.replicate (width - s.length) ' ') ++ s

/-- `n` copies of a character. -/
def rule (n : Nat) (c : Char) : String := String.ofList (List.replicate n c)

end CandidateSearch.Text
