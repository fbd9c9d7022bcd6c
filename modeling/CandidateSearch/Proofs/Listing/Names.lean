/-
  CandidateSearch/Proofs/Listing/Names.lean
  =========================================
  **When names in a listing are the same.**

  The names of the items of a module start with the name of the module itself, and all but
  that one end with a number:

      HeatLoss   HeatLossAlternative2   HeatLossMethod1   HeatLossMethod1Unit3

  The number can be taken off again, and so can the word in front of it.  So two of the
  numbered names are the same only if they belong to one module name and are the same item
  of it (`Part.name_inj`), and none of them is imported.  What is left is the name of a
  module, which is anything:  `heat_loss` and `heatLoss` are both `HeatLoss`, `value` is
  `Value`, which is imported, and `fMethod1` is the first method of `f`.

  Fields go by the names of their variables, but for `Self`, which is listed as `Self_`.
-/
import Mathlib.Data.List.Basic
import Mathlib.Data.List.Nodup
import CandidateSearch.Listing.Program
import CandidateSearch.Proofs.Token.Rules

namespace CandidateSearch.Listing

/-! ### The items of a module -/

/-- What a module is listed as. -/
inductive Part where
  | whole
  | alternative (number : Nat)
  | method (number : Nat)
  | unit (of number : Nat)             -- of the method with a number
deriving DecidableEq, Repr

namespace Part

def name (owner : String) : Part → String
  | .whole => owner
  | .alternative number => alternativeName owner number
  | .method number => methodName owner number
  | .unit of number => unitName (methodName owner of) number

/-- The number at the end of a name. -/
def number? : Part → Option Nat
  | .whole => none
  | .alternative number | .method number | .unit _ number => some number

/-- What comes in front of the number. -/
def stem (owner : List Char) : Part → List Char
  | .whole => owner
  | .alternative _ => owner ++ "Alternative".toList
  | .method _ => owner ++ "Method".toList
  | .unit of _ => owner ++ "Method".toList ++ Nat.toDigits 10 of ++ "Unit".toList

theorem eq_whole_or_numbered (p : Part) : p = .whole ∨ ∃ n, p.number? = some n := by
  cases p with
  | whole => exact .inl rfl
  | alternative number | method number | unit of number => exact .inr ⟨number, rfl⟩

theorem toList_name (owner : String) {p : Part} {n : Nat} (h : p.number? = some n) :
    (p.name owner).toList = p.stem owner.toList ++ Nat.toDigits 10 n := by
  cases p with
  | whole => cases h
  | alternative number =>
    cases h
    simp [name, stem, alternativeName, toString]
  | method number =>
    cases h
    simp [name, stem, methodName, toString]
  | unit of number =>
    cases h
    simp [name, stem, methodName, unitName, toString]

end Part

/-! ### Taking numbers off -/

/-- The text does not end with a digit. -/
def EndsPlain (cs : List Char) : Prop := ∀ c, cs.getLast? = some c → c.isDigit = false

theorem isDigit_of_mem_digits {n : Nat} {c : Char} (h : c ∈ Nat.toDigits 10 n) :
    c.isDigit = true :=
  Nat.isDigit_of_mem_toDigits (by decide) (by decide) h

theorem digits_inj {m n : Nat} (h : Nat.toDigits 10 m = Nat.toDigits 10 n) : m = n := by
  have hread := congrArg (fun digits => Nat.ofDigitChars 10 digits 0) h
  simpa using hread

/-- Nothing but digits can be moved from the end of one text to the start of another. -/
theorem eq_nil_of_endsPlain {xs zs ds : List Char} (hplain : EndsPlain (xs ++ zs))
    (hdigits : ∀ c ∈ zs ++ ds, c.isDigit = true) : zs = [] := by
  rcases List.eq_nil_or_concat zs with rfl | ⟨before, c, rfl⟩
  · rfl
  · have hc : c.isDigit = true := hdigits c (by simp)
    rw [hplain c (by simp)] at hc
    cases hc

theorem append_digits_inj {xs ys : List Char} {m n : Nat} (hxs : EndsPlain xs)
    (hys : EndsPlain ys) (h : xs ++ Nat.toDigits 10 m = ys ++ Nat.toDigits 10 n) :
    xs = ys ∧ m = n := by
  rcases List.append_eq_append_iff.mp h with ⟨zs, rfl, hdigits⟩ | ⟨zs, rfl, hdigits⟩
  · have hnil : zs = [] := eq_nil_of_endsPlain hys fun c hc =>
      isDigit_of_mem_digits (hdigits ▸ hc)
    subst hnil
    exact ⟨(List.append_nil xs).symm, digits_inj hdigits⟩
  · have hnil : zs = [] := eq_nil_of_endsPlain hxs fun c hc =>
      isDigit_of_mem_digits (hdigits ▸ hc)
    subst hnil
    exact ⟨List.append_nil ys, digits_inj hdigits.symm⟩

namespace Part

/-- The last letter in front of the number tells what the number counts. -/
theorem getLast?_stem (owner : List Char) {p : Part} {n : Nat} (h : p.number? = some n) :
    (p.stem owner).getLast? = some (match p with
      | .alternative _ => 'e'
      | .method _ => 'd'
      | _ => 't') := by
  cases p with
  | whole => cases h
  | alternative number | method number | unit of number =>
    rw [stem, List.getLast?_append_of_ne_nil _ (by decide)]
    rfl

theorem endsPlain_stem (owner : List Char) {p : Part} {n : Nat} (h : p.number? = some n) :
    EndsPlain (p.stem owner) := by
  intro c hc
  rw [getLast?_stem owner h] at hc
  cases hc
  cases p with
  | whole => cases h
  | alternative number | method number | unit of number => rfl

/-- **Numbered names are the same only for one item of one module name.** -/
theorem name_inj {owner owner' : String} {p q : Part} {m n : Nat} (hp : p.number? = some m)
    (hq : q.number? = some n) (h : p.name owner = q.name owner') : owner = owner' ∧ p = q := by
  have hchars := congrArg String.toList h
  rw [toList_name owner hp, toList_name owner' hq] at hchars
  obtain ⟨hstem, rfl⟩ := append_digits_inj (endsPlain_stem _ hp) (endsPlain_stem _ hq) hchars
  have hlast := congrArg List.getLast? hstem
  rw [getLast?_stem _ hp, getLast?_stem _ hq] at hlast
  cases p with
  | whole => cases hp
  | alternative number =>
    cases q with
    | alternative number' =>
      cases hp
      cases hq
      exact ⟨String.toList_injective (List.append_cancel_right hstem), rfl⟩
    | whole => cases hq
    | method number' => simp at hlast
    | unit of' number' => simp at hlast
  | method number =>
    cases q with
    | method number' =>
      cases hp
      cases hq
      exact ⟨String.toList_injective (List.append_cancel_right hstem), rfl⟩
    | whole => cases hq
    | alternative number' => simp at hlast
    | unit of' number' => simp at hlast
  | unit of number =>
    cases q with
    | unit of' number' =>
      cases hp
      cases hq
      have hmethod : (Part.method of).stem owner.toList ++ Nat.toDigits 10 of =
          (Part.method of').stem owner'.toList ++ Nat.toDigits 10 of' :=
        List.append_cancel_right hstem
      obtain ⟨howner, rfl⟩ :=
        append_digits_inj (endsPlain_stem _ rfl) (endsPlain_stem _ rfl) hmethod
      exact ⟨String.toList_injective (List.append_cancel_right howner), rfl⟩
    | whole => cases hq
    | alternative number' => simp at hlast
    | method number' => simp at hlast

/-- A numbered name is longer than that of the module. -/
theorem length_lt_name (owner : String) {p : Part} {n : Nat} (h : p.number? = some n) :
    owner.toList.length < (p.name owner).toList.length := by
  have hdigits := List.length_pos_iff.mpr (Nat.toDigits_ne_nil (n := n) (b := 10))
  rw [toList_name owner h, List.length_append]
  have hstem : owner.toList.length ≤ (p.stem owner.toList).length := by
    cases p <;> simp [stem]
  omega

/-- Within a module each item has a name of its own. -/
theorem name_injective (owner : String) : Function.Injective (name owner) := by
  have hlonger : ∀ {p : Part} {n : Nat}, p.number? = some n → p.name owner ≠ owner := by
    intro p n hp heq
    have hlength := length_lt_name owner hp
    rw [heq] at hlength
    exact absurd hlength (Nat.lt_irrefl _)
  intro p q h
  rcases eq_whole_or_numbered p with rfl | ⟨m, hp⟩
  · rcases eq_whole_or_numbered q with rfl | ⟨n, hq⟩
    · rfl
    · exact absurd h.symm (hlonger hq)
  · rcases eq_whole_or_numbered q with rfl | ⟨n, hq⟩
    · exact absurd h (hlonger hp)
    · exact (name_inj hp hq h).2

end Part

/-! ### Names are words -/

/-- Letters, digits and underscores only. -/
def Plain (name : String) : Prop := ∀ c ∈ name.toList, Token.isWordChar c = true

theorem Plain.not_mem {name : String} (h : Plain name) {c : Char}
    (hc : Token.isWordChar c = false) : c ∉ name.toList := by
  intro hmem
  rw [h c hmem] at hc
  cases hc

theorem isUpper_toUpper {c : Char} (h : Token.isLower c = true) :
    Token.isUpper c.toUpper = true := by
  have hletters : ∀ n < 123, 97 ≤ n → Token.isUpper (Char.ofNat n).toUpper = true := by
    decide +kernel
  simp only [Token.isLower, Bool.and_eq_true, decide_eq_true_eq] at h
  have hupper := hletters c.toNat (Nat.lt_succ_of_le h.2) h.1
  rwa [Char.ofNat_toNat] at hupper

theorem isWordChar_toUpper {c : Char} (h : Token.isWordChar c = true) :
    Token.isWordChar c.toUpper = true := by
  by_cases hc : Token.isLower c = true
  · simp [Token.isWordChar, isUpper_toUpper hc]
  · have heq : c.toUpper = c := by
      unfold Char.toUpper
      rw [dif_neg]
      intro hletter
      apply hc
      simp only [Token.isLower, Bool.and_eq_true, decide_eq_true_eq]
      exact hletter
    rw [heq]
    exact h

theorem isWordChar_camelCase {cs : List Char} (h : ∀ c ∈ cs, Token.isWordChar c = true)
    (capital : Bool) : ∀ c ∈ camelCase capital cs, Token.isWordChar c = true := by
  induction cs generalizing capital with
  | nil => simp [camelCase]
  | cons d rest ih =>
    have hrest := fun c hc => h c (List.mem_cons_of_mem _ hc)
    rw [camelCase]
    split
    · exact ih hrest true
    · refine List.forall_mem_cons.mpr ⟨?_, ih hrest false⟩
      cases capital with
      | true => exact isWordChar_toUpper (h d List.mem_cons_self)
      | false => exact h d List.mem_cons_self

theorem plain_typeName {name : String} (h : Token.IsLowerWord name) : Plain (typeName name) := by
  obtain ⟨c, cs, hname, hc, hcs⟩ := h
  unfold Plain typeName
  rw [String.toList_ofList, hname]
  apply isWordChar_camelCase
  exact List.forall_mem_cons.mpr ⟨by simp [Token.isWordChar, hc], hcs⟩

theorem typeName_ne_empty {name : String} (h : Token.IsLowerWord name) : typeName name ≠ "" := by
  obtain ⟨c, cs, hname, hc, -⟩ := h
  have hletter : c ≠ '_' := by
    rintro rfl
    exact absurd hc (by decide)
  intro hempty
  have hchars := congrArg String.toList hempty
  rw [typeName, String.toList_ofList, hname, camelCase, if_neg hletter] at hchars
  cases hchars

/-- The name of an item of a module is a word if that of the module is. -/
theorem Plain.part {owner : String} (h : Plain owner) (p : Part) : Plain (p.name owner) := by
  have hdigits : ∀ n, ∀ c ∈ Nat.toDigits 10 n, Token.isWordChar c = true := by
    intro n c hc
    have hdigit : Number.isDigit c = true := isDigit_of_mem_digits hc
    simp [Token.isWordChar, hdigit]
  have halternative := List.all_eq_true.mp
    (show "Alternative".toList.all Token.isWordChar = true by decide)
  have hmethod := List.all_eq_true.mp (show "Method".toList.all Token.isWordChar = true by decide)
  have hunit := List.all_eq_true.mp (show "Unit".toList.all Token.isWordChar = true by decide)
  cases p with
  | whole => exact h
  | alternative number =>
    rw [Plain, Part.toList_name owner rfl, Part.stem]
    simp only [List.forall_mem_append]
    exact ⟨⟨h, halternative⟩, hdigits number⟩
  | method number =>
    rw [Plain, Part.toList_name owner rfl, Part.stem]
    simp only [List.forall_mem_append]
    exact ⟨⟨h, hmethod⟩, hdigits number⟩
  | unit of number =>
    rw [Plain, Part.toList_name owner rfl, Part.stem]
    simp only [List.forall_mem_append]
    exact ⟨⟨⟨⟨h, hmethod⟩, hdigits of⟩, hunit⟩, hdigits number⟩

theorem Part.name_ne_empty {owner : String} (h : owner ≠ "") (p : Part) :
    p.name owner ≠ "" := by
  rcases p.eq_whole_or_numbered with rfl | ⟨n, hp⟩
  · exact h
  · intro hempty
    have hlength := length_lt_name owner hp
    rw [hempty] at hlength
    exact absurd hlength (Nat.not_lt_zero _)

/-! ### Imported names -/

/-- The words of a text. -/
def words (cs : List Char) : List String :=
  ((cs.splitOnP fun c => !Token.isWordChar c).filter (· ≠ [])).map String.ofList

/-- The names that a line brings in: all words inside a group, and the last one of a path. -/
def importsIn (text : List Char) : List String :=
  match text with
  | ' ' :: _ => words text
  | 'u' :: _ => if text.getLast? = some ';' then (words text).getLast?.toList else []
  | _ => []

/-- The names that every listing imports. -/
def imports : List String := header.flatMap fun l => importsIn l.text.toList

theorem imports_eq : imports = ["Binder", "Bindings", "Case", "For", "Goal", "Member",
    "Predicate", "RuntimeError", "Solution", "Step", "Value", "Variable", "Vm", "decimal", "nth",
    "sum", "BigDecimal", "Rc"] := by
  decide +kernel

theorem name_not_mem_imports (owner : String) {p : Part} {n : Nat} (h : p.number? = some n) :
    p.name owner ∉ imports := by
  have hplain : ∀ name ∈ imports, (name.toList.getLast?.all fun c => !c.isDigit) = true := by
    rw [imports_eq]
    decide +kernel
  intro hmem
  have hlast := hplain _ hmem
  have hne : Nat.toDigits 10 n ≠ [] := Nat.toDigits_ne_nil
  rw [Part.toList_name owner h, List.getLast?_append_of_ne_nil _ hne,
    List.getLast?_eq_getLast_of_ne_nil hne] at hlast
  have hdigit := isDigit_of_mem_digits (List.getLast_mem hne)
  simp [hdigit] at hlast

/-! ### Names of fields -/

theorem ident_eq_ident_iff {a b : String} : ident a = ident b ↔
    a = b ∨ a = "Self" ∧ b = "Self_" ∨ a = "Self_" ∧ b = "Self" := by
  unfold ident
  by_cases ha : a = "Self"
  · by_cases hb : b = "Self"
    · simp [ha, hb]
    · simp [ha, hb, eq_comm]
  · by_cases hb : b = "Self"
    · simp [ha, hb]
    · simp [ha, hb]

/-- **When identifiers are distinct.** -/
theorem nodup_ident_iff {names : List String} : (names.map ident).Nodup ↔
    names.Nodup ∧ ¬ ("Self" ∈ names ∧ "Self_" ∈ names) := by
  constructor
  · intro h
    refine ⟨h.of_map ident, ?_⟩
    rintro ⟨hself, hother⟩
    have heq := List.inj_on_of_nodup_map h hself hother (ident_eq_ident_iff.mpr (by simp))
    exact absurd heq (by decide)
  · rintro ⟨hnodup, hapart⟩
    apply hnodup.map_on
    intro a ha b hb heq
    rcases ident_eq_ident_iff.mp heq with rfl | ⟨rfl, rfl⟩ | ⟨rfl, rfl⟩
    · rfl
    · exact absurd ⟨ha, hb⟩ hapart
    · exact absurd ⟨hb, ha⟩ hapart

end CandidateSearch.Listing
