/-
  CandidateSearch/Store.lean
  ==========================
  **The variables of a run.**

  A store is a sequence of cells.  A cell has a name, which is there to be shown, and is
  unbound until it is written for the first time.  What refers to a cell can be shared:
  a module that is called writes into the cells of its caller.

  Nothing is undone when a search backtracks; a cell keeps what was written into it last.
-/
import CandidateSearch.Value

namespace CandidateSearch

structure Cell where
  name : String
  value : Option Value := none
deriving Repr

/-- The place of a cell in its store. -/
abbrev Ref := Nat

structure Store where
  cells : Array Cell := #[]
deriving Repr

namespace Store

def size (s : Store) : Nat := s.cells.size

def cell (s : Store) (r : Ref) : Cell := s.cells[r]?.getD ⟨"", none⟩

def name (s : Store) (r : Ref) : String := (s.cell r).name

def value? (s : Store) (r : Ref) : Option Value := (s.cell r).value

def isBound (s : Store) (r : Ref) : Bool := (s.value? r).isSome

/-- The value of a cell that has to be bound. -/
def read (s : Store) (r : Ref) : Except Fault Value :=
  match s.value? r with
  | some v => .ok v
  | none => .error (.unbound (s.name r))

def write (s : Store) (r : Ref) (v : Value) : Store :=
  ⟨s.cells.modify r fun cell => { cell with value := some v }⟩

def writeAll (s : Store) : List (Ref × Value) → Store
  | [] => s
  | (r, v) :: rest => (s.write r v).writeAll rest

/-- A new cell. -/
def alloc (s : Store) (name : String) (value : Option Value) : Ref × Store :=
  (s.size, ⟨s.cells.push ⟨name, value⟩⟩)

/-- New cells, none of them bound. -/
def allocAll (s : Store) : List String → List Ref × Store
  | [] => ([], s)
  | name :: rest =>
      let (r, s) := s.alloc name none
      let (rs, s) := s.allocAll rest
      (r :: rs, s)

/-- A variable and its value; an underscore stands for no value. -/
def describe (s : Store) (r : Ref) : String :=
  s.name r ++ " = " ++ ((s.value? r).map Value.text).getD "_"

/-! ### What the operations do to cells -/

@[simp] theorem size_write (s : Store) (r : Ref) (v : Value) : (s.write r v).size = s.size := by
  simp [write, size]

theorem cell_write_self {s : Store} {r : Ref} (v : Value) (h : r < s.size) :
    (s.write r v).cell r = { s.cell r with value := some v } := by
  have bound : r < s.cells.size := h
  simp [write, cell, bound, Array.getElem_modify_self]

theorem cell_write_of_ne (s : Store) {q r : Ref} (v : Value) (h : q ≠ r) :
    (s.write r v).cell q = s.cell q := by
  simp [write, cell, Array.getElem?_modify, h.symm]

@[simp] theorem size_alloc (s : Store) (name : String) (value : Option Value) :
    (s.alloc name value).2.size = s.size + 1 := by
  simp [alloc, size]

theorem cell_alloc_self (s : Store) (name : String) (value : Option Value) :
    (s.alloc name value).2.cell (s.alloc name value).1 = ⟨name, value⟩ := by
  simp [alloc, cell, size]

/-- A new cell leaves those before it alone. -/
theorem cell_alloc_of_lt {s : Store} {r : Ref} (name : String) (value : Option Value)
    (h : r < s.size) : (s.alloc name value).2.cell r = s.cell r := by
  have bound : r < s.cells.size := h
  simp [alloc, cell, Array.getElem?_push, Nat.ne_of_lt bound]

end Store

/-! ### Effects on the store -/

/-- Something that is done with the store and can end with a fault.  What it has written
    before that stays. -/
abbrev Effect := EStateM Fault Store

namespace Effect

variable {α : Type}

/-- A result that does not need the store. -/
def ofExcept : Except Fault α → Effect α
  | .ok a => pure a
  | .error fault => throw fault

/-- A result that needs the store and leaves it as it is. -/
def reading (f : Store → Except Fault α) : Effect α := do ofExcept (f (← get))

section Bind

variable {β : Type} {x : Effect α} {f : α → Effect β} {s s' : Store}

theorem bind_of_ok {a : α} (h : x s = .ok a s') : (x >>= f) s = f a s' := by
  simp [bind, EStateM.bind, h]

theorem bind_of_error {fault : Fault} (h : x s = .error fault s') :
    (x >>= f) s = .error fault s' := by
  simp [bind, EStateM.bind, h]

end Bind

end Effect

/-! ### Binding -/

/-- Where a value goes: into one variable, or a vector into one variable for each of its
    members. -/
inductive Binder where
  | single (r : Ref)
  | destructure (rs : List Ref)
deriving DecidableEq, Repr

namespace Binder

/-- The writes that put a value where it has to go. -/
def writes : Binder → Value → Except Fault (List (Ref × Value))
  | .single r, v => .ok [(r, v)]
  | .destructure rs, .vector items =>
      if items.length = rs.length then .ok (rs.zip items)
      else .error (.arity rs.length items.length)
  | .destructure _, v => .error (v.mismatch "vector")

def bind (b : Binder) (v : Value) : Effect Unit := do
  let writes ← Effect.ofExcept (b.writes v)
  modify (·.writeAll writes)

/-- A binder with the values that its variables have. -/
def describe (s : Store) : Binder → String
  | .single r => "Var(" ++ s.describe r ++ ")"
  | .destructure rs => "Destructure([" ++ ", ".intercalate (rs.map s.describe) ++ "])"

end Binder

end CandidateSearch
