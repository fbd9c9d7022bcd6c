/-
  CandidateSearch/Proofs/Listing/Items.lean
  =========================================
  **The items that a listing defines.**

  `items` reads a listing back: an item starts on a line at the outermost level with its
  visibility and its name, and its fields stand on the lines further in:

      pub struct HeatLoss {            HeatLoss with fields Area and cont
          pub Area: Variable,
          pub cont: Predicate,
      }

  All other outermost lines start with another letter, so nothing else is read as an item,
  whatever the statements and expressions in it.  A name is read up to a blank or a
  parenthesis; since names are words, that is all of it.  So the items of a listing are
  those that its modules stand for (`items_lines`).
-/
import CandidateSearch.Proofs.Listing.Names

namespace CandidateSearch.Listing

open Text (quoted)

/-! ### Reading a listing -/

/-- An item with the names of its fields. -/
structure Item where
  name : String
  fields : List String
deriving DecidableEq, Repr

/-- The name at the front of a text, up to a blank or a parenthesis. -/
def itemName (cs : List Char) : String :=
  String.ofList (cs.takeWhile fun c => c != ' ' && c != '(')

/-- The name of the item that a line starts, and whether it is public. -/
def Line.item? (l : Line) : Option (Bool × String) :=
  if l.level ≠ 0 then none
  else if "pub struct ".toList.isPrefixOf l.text.toList then
    some (true, itemName (l.text.toList.drop "pub struct ".length))
  else if "struct ".toList.isPrefixOf l.text.toList then
    some (false, itemName (l.text.toList.drop "struct ".length))
  else none

/-- What comes before the last colon. -/
def beforeColon (cs : List Char) : List Char := ((cs.reverse.dropWhile (· != ':')).drop 1).reverse

/-- The name of the field on a line; the fields of a public item are public. -/
def fieldName (isPublic : Bool) (cs : List Char) : String :=
  String.ofList (beforeColon (if isPublic then cs.drop "pub ".length else cs))

/-- The items that the lines define.  The fields stand on the lines that are further in. -/
def items : List Line → List Item
  | [] => []
  | l :: rest =>
      match l.item? with
      | some (isPublic, name) =>
          let inner := rest.takeWhile fun l => l.level != 0
          ⟨name, inner.map fun l => fieldName isPublic l.text.toList⟩ :: items rest
      | none => items rest

/-- The lines start at the outermost level, if at all. -/
def StartsOut (lines : List Line) : Prop := ∀ l, lines.head? = some l → l.level = 0

theorem items_append (xs : List Line) {ys : List Line} (h : StartsOut ys) :
    items (xs ++ ys) = items xs ++ items ys := by
  have hinner : ∀ rest : List Line, (rest ++ ys).takeWhile (fun l => l.level != 0) =
      rest.takeWhile fun l => l.level != 0 := by
    intro rest
    have hnone : ys.takeWhile (fun l => l.level != 0) = [] := by
      cases ys with
      | nil => rfl
      | cons l later => simp [h l rfl]
    rw [List.takeWhile_append, hnone, List.append_nil]
    split
    · rename_i hall
      exact ((List.takeWhile_prefix _).eq_of_length hall).symm
    · rfl
  induction xs with
  | nil => rfl
  | cons l rest ih =>
    simp only [List.cons_append, items]
    split
    · rw [hinner, ih, List.cons_append]
    · exact ih

theorem startsOut_flatten {blocks : List (List Line)} (h : ∀ block ∈ blocks, StartsOut block) :
    StartsOut blocks.flatten := by
  induction blocks with
  | nil => exact nofun
  | cons block rest ih =>
    intro l hl
    cases block with
    | nil => exact ih (fun b hb => h b (List.mem_cons_of_mem _ hb)) l hl
    | cons first others => exact h _ List.mem_cons_self l hl

theorem items_flatten {blocks : List (List Line)} (h : ∀ block ∈ blocks, StartsOut block) :
    items blocks.flatten = blocks.flatMap items := by
  induction blocks with
  | nil => rfl
  | cons block rest ih =>
    have hrest := fun b hb => h b (List.mem_cons_of_mem _ hb)
    rw [List.flatten_cons, items_append _ (startsOut_flatten hrest), ih hrest, List.flatMap_cons]

theorem startsOut_flatMap {α : Type} {f : α → List Line} (h : ∀ a, StartsOut (f a))
    (as : List α) : StartsOut (as.flatMap f) := by
  rw [List.flatMap_def]
  exact startsOut_flatten (List.forall_mem_map.mpr fun a _ => h a)

theorem items_flatMap {α : Type} {f : α → List Line} (h : ∀ a, StartsOut (f a)) (as : List α) :
    items (as.flatMap f) = as.flatMap fun a => items (f a) := by
  rw [List.flatMap_def, items_flatten (List.forall_mem_map.mpr fun a _ => h a), List.flatMap_map]

theorem items_of_none {lines : List Line} (h : ∀ l ∈ lines, l.item? = none) :
    items lines = [] := by
  induction lines with
  | nil => rfl
  | cons l rest ih =>
    rw [items, h l List.mem_cons_self]
    exact ih fun l hl => h l (List.mem_cons_of_mem _ hl)

theorem item?_of_level {l : Line} (h : l.level ≠ 0) : l.item? = none := by
  unfold Line.item?
  rw [if_pos h]

/-- Only a line that starts with `p` or `s` starts an item. -/
theorem item?_of_head {text : String} {c : Char} (h : text.toList.head? = some c) (hp : c ≠ 'p')
    (hs : c ≠ 's') : (line text).item? = none := by
  unfold Line.item? line
  cases hchars : text.toList with
  | nil => simp [hchars] at h
  | cons d rest =>
    rw [hchars] at h
    cases h
    simp [List.isPrefixOf, hp.symm, hs.symm]

theorem startsOut_line (text : String) (rest : List Line) : StartsOut (line text :: rest) := by
  rintro l ⟨⟩
  rfl

theorem startsOut_enclosed (opening : String) (body : List Line) (closing : String) :
    StartsOut (enclosed opening body closing) :=
  startsOut_line _ _

theorem startsOut_blank (rest : List Line) : StartsOut (blank :: rest) := startsOut_line _ _

theorem items_blank (rest : List Line) : items (blank :: rest) = items rest := rfl

theorem items_derive (rest : List Line) : items (line "#[derive(Clone)]" :: rest) = items rest :=
  rfl

theorem items_append_blank (lines : List Line) : items (lines ++ [blank]) = items lines := by
  rw [items_append _ (startsOut_blank []), items_blank, items, List.append_nil]

theorem item?_none_of_mem_raised {body : List Line} {l : Line}
    (h : l ∈ body.map fun l => (⟨l.level + 1, l.text⟩ : Line)) : l.item? = none := by
  obtain ⟨inner, -, rfl⟩ := List.mem_map.mp h
  exact item?_of_level (Nat.succ_ne_zero _)

/-- An item between an opening and a closing line. -/
theorem items_enclosed {opening closing : String} {isPublic : Bool} {name : String}
    (hopening : (line opening).item? = some (isPublic, name))
    (hclosing : (line closing).item? = none) (body : List Line) :
    items (enclosed opening body closing) =
      [⟨name, body.map fun l => fieldName isPublic l.text.toList⟩] := by
  have hinner : (body.map fun l => (⟨l.level + 1, l.text⟩ : Line)).takeWhile
      (fun l => l.level != 0) = body.map fun l => ⟨l.level + 1, l.text⟩ := by
    apply List.takeWhile_eq_self_iff.mpr
    intro l hl
    obtain ⟨inner, -, rfl⟩ := List.mem_map.mp hl
    rfl
  have hend : items [line closing] = [] := items_of_none (by simpa using hclosing)
  rw [enclosed, items_append _ (startsOut_line _ _), hend, List.append_nil, items, hopening]
  dsimp only
  rw [hinner, List.map_map, items_of_none fun _ => item?_none_of_mem_raised]
  rfl

theorem items_enclosed_of_none {opening closing : String} (hopening : (line opening).item? = none)
    (hclosing : (line closing).item? = none) (body : List Line) :
    items (enclosed opening body closing) = [] := by
  apply items_of_none
  intro l hl
  rw [enclosed, List.cons_append, List.mem_cons, List.mem_append, List.mem_singleton] at hl
  rcases hl with rfl | hl | rfl
  · exact hopening
  · exact item?_none_of_mem_raised hl
  · exact hclosing

/-! ### Reading names -/

theorem itemName_append {name : String} (h : Plain name) {c : Char} (hc : c = ' ' ∨ c = '(')
    (rest : List Char) : itemName (name.toList ++ c :: rest) = name := by
  have hall : ∀ d ∈ name.toList, (d != ' ' && d != '(') = true := by
    intro d hd
    have hblank : d ≠ ' ' := fun heq => h.not_mem (c := ' ') (by decide) (heq ▸ hd)
    have hparen : d ≠ '(' := fun heq => h.not_mem (c := '(') (by decide) (heq ▸ hd)
    simp [hblank, hparen]
  have hstop : (c != ' ' && c != '(') = false := by
    rcases hc with rfl | rfl <;> rfl
  rw [itemName, List.takeWhile_append_of_pos hall, List.takeWhile_cons_of_neg (by simp [hstop]),
    List.append_nil, String.ofList_toList]

theorem item?_pubStruct {name : String} (h : Plain name) :
    (line s!"pub struct {name} \x7b").item? = some (true, name) := by
  have htext : (s!"pub struct {name} \x7b").toList =
      "pub struct ".toList ++ (name.toList ++ [' ', '\x7b']) := by
    simp [toString]
  unfold Line.item? line
  dsimp only
  rw [htext, if_neg (by simp), if_pos (by simp), List.drop_left' (by rfl),
    itemName_append h (Or.inl rfl)]

theorem item?_struct {name : String} (h : Plain name) {c : Char} (hc : c = ' ' ∨ c = '(')
    {text : String} {rest : List Char}
    (htext : text.toList = "struct ".toList ++ (name.toList ++ c :: rest)) :
    (line text).item? = some (false, name) := by
  unfold Line.item? line
  dsimp only
  rw [htext, if_neg (by simp), if_neg (by simp), if_pos (by simp), List.drop_left' (by rfl),
    itemName_append h hc]

theorem beforeColon_append {xs ys : List Char} (h : ':' ∉ ys) :
    beforeColon (xs ++ ':' :: ys) = xs := by
  have hall : ∀ c ∈ ys.reverse, (c != ':') = true := by
    intro c hc
    have hne : c ≠ ':' := fun heq => h (heq ▸ List.mem_reverse.mp hc)
    simp [hne]
  rw [beforeColon, List.reverse_append, List.reverse_cons, List.append_assoc,
    List.dropWhile_append_of_pos hall]
  simp

theorem fieldName_private {text name : String} {type : List Char} (h : ':' ∉ type)
    (htext : text.toList = name.toList ++ ':' :: type) : fieldName false text.toList = name := by
  rw [fieldName, htext, if_neg (by decide), beforeColon_append h, String.ofList_toList]

theorem fieldName_public {text name : String} {type : List Char} (h : ':' ∉ type)
    (htext : text.toList = "pub ".toList ++ (name.toList ++ ':' :: type)) :
    fieldName true text.toList = name := by
  rw [fieldName, htext, if_pos rfl, List.drop_left' (by rfl), beforeColon_append h,
    String.ofList_toList]

/-! ### What a module defines -/

/-- The items of a method: its locals, and what each unit holds. -/
def methodItems (owner : String) (m : Schedule.Method) : List Item :=
  let name := methodName owner m.resolved.number
  ⟨name, m.resolved.locals.map fun v => ident v.name⟩
    :: (List.range m.blocks.length).map fun i => ⟨unitName name (i + 1), ["outer", "method"]⟩

/-- The items of a module: its fields with what follows it, the methods that are tried
    later, and the items of all methods. -/
def moduleItemsOf (m : Schedule.Module) : List Item :=
  let owner := typeName m.resolved.name
  ⟨owner, m.resolved.fields.map (fun v => ident v.name) ++ ["cont"]⟩
    :: ((List.range m.methods.length).drop 1).map (fun i => ⟨alternativeName owner (i + 1), []⟩)
    ++ m.methods.flatMap (methodItems owner)

theorem item?_brace : (line "\x7d").item? = none := rfl

theorem items_goal (name machine : String) (body : List Line) :
    items (goal name machine body) = [] := by
  have hopening : (s!"impl Goal for {name} \x7b").toList.head? = some 'i' := by
    simp [toString]
  exact items_enclosed_of_none (item?_of_head hopening (by decide) (by decide)) item?_brace _

theorem startsOut_goal (name machine : String) (body : List Line) :
    StartsOut (goal name machine body) :=
  startsOut_line _ _

theorem items_unit (modules : List Resolved.Module) {owner method : String} (howner : Plain owner)
    (hmethod : Plain method) {number : Nat} (hunit : Plain (unitName method number)) (count : Nat)
    (stmts : List Resolved.Stmt) :
    items (unit modules owner method number count stmts) =
      [⟨unitName method number, ["outer", "method"]⟩] := by
  have hopening : (s!"struct {unitName method number} \x7b").toList =
      "struct ".toList ++ ((unitName method number).toList ++ [' ', '\x7b']) := by
    simp [toString]
  have houter : (s!"outer: {owner},").toList =
      "outer".toList ++ ':' :: (' ' :: owner.toList ++ [',']) := by
    simp [toString]
  have hown : (s!"method: {method},").toList =
      "method".toList ++ ':' :: (' ' :: method.toList ++ [',']) := by
    simp [toString]
  have hcolon : Token.isWordChar ':' = false := by decide
  unfold unit
  dsimp only
  rw [items_append _ (startsOut_goal _ _ _), items_goal, List.append_nil, items_append_blank,
    items_enclosed (item?_struct hunit (Or.inl rfl) hopening) item?_brace, List.map_cons,
    List.map_cons, List.map_nil]
  dsimp only [line]
  rw [fieldName_private (by simpa using howner.not_mem hcolon) houter,
    fieldName_private (by simpa using hmethod.not_mem hcolon) hown]

theorem startsOut_units (modules : List Resolved.Module) (owner method : String) (count : Nat)
    (blocks : List Schedule.Block) :
    ∀ lines ∈ blocks.mapIdx (fun index block =>
      blank :: unit modules owner method (index + 1) count block.stmts), StartsOut lines := by
  intro lines hlines
  obtain ⟨i, hi, rfl⟩ := List.mem_mapIdx.mp hlines
  exact startsOut_blank _

theorem items_units (modules : List Resolved.Module) {owner : String} (howner : Plain owner)
    (of count : Nat) (blocks : List Schedule.Block) :
    items (blocks.mapIdx fun index block =>
        blank :: unit modules owner (methodName owner of) (index + 1) count block.stmts).flatten =
      (List.range blocks.length).map fun i =>
        ⟨unitName (methodName owner of) (i + 1), ["outer", "method"]⟩ := by
  have heach : (blocks.mapIdx fun index block =>
        blank :: unit modules owner (methodName owner of) (index + 1) count block.stmts).map items =
      (List.range blocks.length).map fun i =>
        [⟨unitName (methodName owner of) (i + 1), ["outer", "method"]⟩] := by
    apply List.ext_getElem
    · simp
    · intro i hi hi'
      rw [List.getElem_map, List.getElem_mapIdx, List.getElem_map, List.getElem_range, items_blank]
      have hunit := howner.part (.unit of (i + 1))
      exact items_unit modules howner (howner.part (.method of)) hunit _ _
  rw [items_flatten (startsOut_units _ _ _ _ _), List.flatMap_def, heach, ← List.flatMap_def,
    ← List.map_eq_flatMap]

theorem items_method (modules : List Resolved.Module) {owner : String} (howner : Plain owner)
    (alternatives : Bool) (m : Schedule.Method) :
    items (method modules owner alternatives m) = methodItems owner m := by
  have hopening : (s!"struct {methodName owner m.resolved.number} \x7b").toList =
      "struct ".toList ++ ((methodName owner m.resolved.number).toList ++ [' ', '\x7b']) := by
    simp [toString]
  have himpl : (s!"impl {methodName owner m.resolved.number} \x7b").toList.head? = some 'i' := by
    simp [toString]
  have hlocal : ∀ v : Resolved.Var, fieldName false (s!"{ident v.name}: Variable,").toList =
      ident v.name := by
    intro v
    have htext : (s!"{ident v.name}: Variable,").toList =
        (ident v.name).toList ++ ':' :: " Variable,".toList := by
      simp [toString]
    exact fieldName_private (by decide) htext
  unfold method
  dsimp only
  rw [items_append _ (startsOut_flatten (startsOut_units _ _ _ _ _)),
    items_append _ (startsOut_enclosed _ _ _),
    items_enclosed_of_none (item?_of_head himpl (by decide) (by decide)) item?_brace,
    items_append_blank, items_units modules howner, items_derive,
    items_enclosed (item?_struct (howner.part (.method _)) (Or.inl rfl) hopening) item?_brace,
    List.map_map]
  unfold methodItems
  simp only [Function.comp_def, line, hlocal]
  rfl

theorem items_dispatch (owner : String) (count : Nat) : items (dispatch owner count) = [] := by
  unfold dispatch
  dsimp only
  split
  · exact items_goal _ _ _
  · exact items_goal _ _ _

theorem startsOut_dispatch (owner : String) (count : Nat) : StartsOut (dispatch owner count) := by
  unfold dispatch
  dsimp only
  split
  · exact startsOut_goal _ _ _
  · exact startsOut_goal _ _ _

theorem items_alternative {owner : String} (howner : Plain owner) (number : Nat) :
    items (alternative owner number) = [⟨alternativeName owner number, []⟩] := by
  have hopening : (s!"struct {alternativeName owner number}({owner});").toList =
      "struct ".toList ++ ((alternativeName owner number).toList ++
        '(' :: (owner.toList ++ ");".toList)) := by
    simp [toString]
  have hitem := item?_struct (howner.part (.alternative number)) (Or.inr rfl) hopening
  unfold alternative
  dsimp only
  rw [items_append _ (startsOut_goal _ _ _), items_goal, List.append_nil, items_blank, items,
    hitem]
  rfl

theorem items_moduleItems (modules : List Resolved.Module) {m : Schedule.Module}
    (hname : Plain (typeName m.resolved.name)) :
    items (moduleItems modules m) = moduleItemsOf m := by
  have hfield : ∀ v : Resolved.Var, fieldName true (s!"pub {ident v.name}: Variable,").toList =
      ident v.name := by
    intro v
    have htext : (s!"pub {ident v.name}: Variable,").toList =
        "pub ".toList ++ ((ident v.name).toList ++ ':' :: " Variable,".toList) := by
      simp [toString]
    exact fieldName_public (by decide) htext
  have hcont : fieldName true "pub cont: Predicate,".toList = "cont" := by decide +kernel
  have halternatives : ∀ index, StartsOut (alternative (typeName m.resolved.name) (index + 1)) :=
    fun _ => startsOut_blank _
  have hmethods : ∀ each, StartsOut (blank ::
      method modules (typeName m.resolved.name) (1 < m.methods.length) each) :=
    fun _ => startsOut_blank _
  unfold moduleItems
  dsimp only
  rw [items_append _ (startsOut_flatMap hmethods _), items_flatMap hmethods,
    items_append _ (startsOut_flatMap halternatives _), items_flatMap halternatives,
    items_append _ (startsOut_dispatch _ _), items_dispatch, items_append_blank, items_derive,
    items_enclosed (item?_pubStruct hname) item?_brace]
  simp only [items_blank, items_method modules hname, items_alternative hname]
  rw [← List.map_eq_flatMap, List.map_append, List.map_map]
  unfold moduleItemsOf
  simp only [Function.comp_def, line, hfield, List.map_cons, List.map_nil, hcont]
  simp

theorem items_mainFunction (entry : Resolved.Module) : items (mainFunction entry) = [] := by
  have hcomment : (s!"/// Runs `{entry.name}` and collects every solution.").toList.head? =
      some '/' := by
    simp [toString]
  have hopening : (line ("pub fn main(bindings: &Bindings) -> " ++
      "Result<Vec<Solution>, RuntimeError> \x7b")).item? = none := by
    decide +kernel
  unfold mainFunction
  dsimp only
  rw [items, item?_of_head hcomment (by decide) (by decide)]
  exact items_enclosed_of_none hopening item?_brace _

theorem items_header : items header = [] := by decide +kernel

/-- **The items of a listing** are those of its modules. -/
theorem items_lines (name : String) {scheduled : List Schedule.Module}
    (h : ∀ m ∈ scheduled, Plain (typeName m.resolved.name)) :
    items (lines name scheduled) = scheduled.flatMap moduleItemsOf := by
  have hcomment : (s!"// Generated by backtrack-dsl from {quoted name}.").toList.head? =
      some '/' := by
    simp [toString]
  have hmodules : ∀ m, StartsOut (blank :: moduleItems (scheduled.map (·.resolved)) m) :=
    fun _ => startsOut_blank _
  have hheader : items (line s!"// Generated by backtrack-dsl from {quoted name}." :: header) =
      [] := by
    rw [items, item?_of_head hcomment (by decide) (by decide)]
    exact items_header
  have hfront : items (line s!"// Generated by backtrack-dsl from {quoted name}." :: header ++
      scheduled.flatMap fun m => blank :: moduleItems (scheduled.map (·.resolved)) m) =
        scheduled.flatMap moduleItemsOf := by
    rw [items_append _ (startsOut_flatMap hmodules _), hheader, List.nil_append,
      items_flatMap hmodules]
    apply List.flatMap_congr
    intro m hm
    rw [items_blank, items_moduleItems _ (h m hm)]
  unfold lines
  dsimp only
  split
  · rw [items_append _ (startsOut_blank _), hfront, items_blank, items_mainFunction,
      List.append_nil]
  · rw [List.append_nil, hfront]

end CandidateSearch.Listing
