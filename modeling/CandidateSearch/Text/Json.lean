/-
  CandidateSearch/Text/Json.lean
  ==============================
  **JSON documents.**

  A document as a tree, and its two texts: `compact` on one line, `pretty` with one item
  a line and two spaces for each level.  Numbers are kept as the text that is to be
  written, since what a number looks like is decided elsewhere.
-/
import CandidateSearch.Text.Quoted

namespace CandidateSearch.Text

inductive Json where
  | null
  | bool (b : Bool)
  | number (text : String)
  | string (s : String)
  | array (items : List Json)
  | object (fields : List (String × Json))

namespace Json

/-- What stands for a character inside a JSON string. -/
def escapedChar (c : Char) : String :=
  if c == '"' then "\\\""
  else if c == '\\' then "\\\\"
  else if c == '\n' then "\\n"
  else if c == '\r' then "\\r"
  else if c == '\t' then "\\t"
  else if c.toNat == 0x08 then "\\b"
  else if c.toNat == 0x0c then "\\f"
  else if c.toNat < 0x20 then
    "\\u" ++ String.ofList (List.replicate (4 - (hex c.toNat).length) '0') ++ hex c.toNat
  else c.toString

def escaped (s : String) : String :=
  "\"" ++ String.join (s.toList.map escapedChar) ++ "\""

/-! ### On one line -/

mutual

def compact : Json → String
  | .null => "null"
  | .bool b => if b then "true" else "false"
  | .number text => text
  | .string s => escaped s
  | .array items => "[" ++ ",".intercalate (compactItems items) ++ "]"
  | .object fields => "\x7b" ++ ",".intercalate (compactFields fields) ++ "\x7d"

def compactItems : List Json → List String
  | [] => []
  | item :: rest => compact item :: compactItems rest

def compactFields : List (String × Json) → List String
  | [] => []
  | (name, value) :: rest => (escaped name ++ ":" ++ compact value) :: compactFields rest

end

/-! ### One item a line -/

/-- The lines of a bracketed group: nothing between the brackets if it is empty. -/
def grouped (opening closing : String) (depth : Nat) (items : List String) : String :=
  if items.isEmpty then opening ++ closing
  else
    let inner := rule (2 * (depth + 1)) ' '
    opening ++ "\n" ++ ",\n".intercalate (items.map (inner ++ ·)) ++ "\n"
      ++ rule (2 * depth) ' ' ++ closing

mutual

/-- The text of a document whose first character stands at the given level. -/
def prettyAt (depth : Nat) : Json → String
  | .null => "null"
  | .bool b => if b then "true" else "false"
  | .number text => text
  | .string s => escaped s
  | .array items => grouped "[" "]" depth (prettyItems (depth + 1) items)
  | .object fields => grouped "\x7b" "\x7d" depth (prettyFields (depth + 1) fields)

def prettyItems (depth : Nat) : List Json → List String
  | [] => []
  | item :: rest => prettyAt depth item :: prettyItems depth rest

def prettyFields (depth : Nat) : List (String × Json) → List String
  | [] => []
  | (name, value) :: rest =>
      (escaped name ++ ": " ++ prettyAt depth value) :: prettyFields depth rest

end

def pretty (document : Json) : String := prettyAt 0 document

end Json

end CandidateSearch.Text
