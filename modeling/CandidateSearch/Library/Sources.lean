/-
  CandidateSearch/Library/Sources.lean
  ====================================
  **Sources by name.**

  The texts in which modules are looked up that a source calls and does not define.  They
  are kept in the order of their names, and a later text replaces an earlier one of the
  same name.
-/

namespace CandidateSearch

structure Sources where
  entries : List (String × String) := []
deriving DecidableEq, Repr

namespace Sources

def insertSorted (name text : String) : List (String × String) → List (String × String)
  | [] => [(name, text)]
  | (n, t) :: rest =>
      if name = n then (name, text) :: rest
      else if name < n then (name, text) :: (n, t) :: rest
      else (n, t) :: insertSorted name text rest

def insert (s : Sources) (name text : String) : Sources := ⟨insertSorted name text s.entries⟩

def ofList (entries : List (String × String)) : Sources :=
  entries.foldl (fun s (name, text) => s.insert name text) {}

def get? (s : Sources) (name : String) : Option String :=
  (s.entries.find? fun entry => entry.1 == name).map (·.2)

def contains (s : Sources) (name : String) : Bool := (s.get? name).isSome

def size (s : Sources) : Nat := s.entries.length

end Sources

end CandidateSearch
