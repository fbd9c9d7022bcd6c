/-
  CandidateSearch/Syntax/Ty.lean
  ==============================
  **Types of variables and expressions.**

  A list type names the type of its elements, `[integer]`, or none, `[]`; a vector type
  names the types of its members, `{integer, [atom]}`.  The type `unknown` stands in for
  one that could not be found out; it agrees with every type, so that one mistake is
  reported once.
-/

namespace CandidateSearch

inductive Ty where
  | integer
  | real
  | bool
  | atom
  | list (members : List Ty)
  | vector (members : List Ty)
  | unknown
deriving Repr, Inhabited

namespace Ty

/-! ### Equality -/

mutual

def same : Ty → Ty → Bool
  | .integer, .integer => true
  | .real, .real => true
  | .bool, .bool => true
  | .atom, .atom => true
  | .unknown, .unknown => true
  | .list a, .list b => sameAll a b
  | .vector a, .vector b => sameAll a b
  | _, _ => false

def sameAll : List Ty → List Ty → Bool
  | [], [] => true
  | a :: as, b :: bs => same a b && sameAll as bs
  | _, _ => false

end

mutual

theorem eq_of_same : ∀ {a b : Ty}, same a b = true → a = b
  | .integer, b, h => by cases b <;> simp_all [same]
  | .real, b, h => by cases b <;> simp_all [same]
  | .bool, b, h => by cases b <;> simp_all [same]
  | .atom, b, h => by cases b <;> simp_all [same]
  | .unknown, b, h => by cases b <;> simp_all [same]
  | .list as, b, h => by
      cases b with
      | list bs => rw [show as = bs from eq_of_sameAll (by simpa [same] using h)]
      | _ => simp [same] at h
  | .vector as, b, h => by
      cases b with
      | vector bs => rw [show as = bs from eq_of_sameAll (by simpa [same] using h)]
      | _ => simp [same] at h

theorem eq_of_sameAll : ∀ {as bs : List Ty}, sameAll as bs = true → as = bs
  | [], bs, h => by cases bs <;> simp_all [sameAll]
  | a :: as, bs, h => by
      cases bs with
      | nil => simp [sameAll] at h
      | cons b bs =>
        simp only [sameAll, Bool.and_eq_true] at h
        rw [eq_of_same h.1, eq_of_sameAll h.2]

end

mutual

theorem same_self : ∀ a : Ty, same a a = true
  | .integer | .real | .bool | .atom | .unknown => by simp [same]
  | .list as => by simpa [same] using sameAll_self as
  | .vector as => by simpa [same] using sameAll_self as

theorem sameAll_self : ∀ as : List Ty, sameAll as as = true
  | [] => by simp [sameAll]
  | a :: as => by simp [sameAll, same_self a, sameAll_self as]

end

instance : DecidableEq Ty := fun a b =>
  if h : same a b = true then isTrue (eq_of_same h)
  else isFalse fun e => h (e ▸ same_self a)

/-! ### Views -/

def isNumeric : Ty → Bool
  | .integer | .real => true
  | _ => false

/-- The type of the elements of a list, where it is known. -/
def element : Ty → Option Ty
  | .list members => members.head?
  | _ => none

/-- Whether two declarations may be of one variable. -/
def compatible (a b : Ty) : Bool := a = .unknown || b = .unknown || a = b

/-! ### Text -/

mutual

/-- The type as it is written in a source. -/
def text : Ty → String
  | .integer => "integer"
  | .real => "real"
  | .bool => "bool"
  | .atom => "atom"
  | .unknown => "dummy"
  | .list members => "[" ++ ", ".intercalate (texts members) ++ "]"
  | .vector members => "\x7b" ++ ", ".intercalate (texts members) ++ "\x7d"

def texts : List Ty → List String
  | [] => []
  | member :: rest => text member :: texts rest

end

end Ty

end CandidateSearch
