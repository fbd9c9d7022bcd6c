/-
  CandidateSearch/Proofs/Listing/Conversions.lean
  ===============================================
  **What a listing converts.**

  Where a listed expression is used as a decimal, as a truth value or as a list, a value is
  converted, and anything else is taken as it is.  To say where this happens, an expression
  is listed once more, together with the operands that are converted on the way:

      sum(L) < X + 1      L as a list, X and 1 as numbers, and both sides to be ordered

  The text is the same (`value_traceExpr`, `value_traceStmt`).  An operand that is neither a
  value nor of the kind that is wanted is refused by the plan as well: whatever it evaluates
  to, it is not what the use takes (`refuses_of_misfit`).
-/
import CandidateSearch.Listing.Program
import CandidateSearch.Proofs.Typing.Soundness

namespace CandidateSearch.Listing

open Text (quoted)
open Syntax (BinaryOp)

/-! ### Conversions -/

/-- What an operand is listed for. -/
inductive Use where
  | condition
  | number               -- of arithmetic or a function, an index, or a bound
  | ordered              -- by `<` or `=<`
  | equated              -- with a decimal
  | list
deriving DecidableEq, Repr

/-- The kind that is wanted. -/
def Use.kind : Use → Kind
  | .condition => .bool
  | .number | .ordered | .equated => .decimal
  | .list => .list

def Use.convert : Use → Listed → String
  | .condition => Listed.boolean
  | .number | .ordered | .equated => Listed.decimal
  | .list => Listed.list

structure Conversion where
  use : Use
  operand : Resolved.Expr

namespace Conversion

/-- The operand is a value, which is converted, or of the kind that is wanted. -/
def Fits (c : Conversion) : Prop :=
  (expr c.operand).kind = .value ∨ (expr c.operand).kind = c.use.kind

instance (c : Conversion) : Decidable c.Fits := inferInstanceAs (Decidable (_ ∨ _))

end Conversion

/-- A part of a listing with the conversions in it. -/
structure Traced (α : Type) where
  value : α
  conversions : List Conversion

namespace Traced

variable {α β : Type}

instance : Monad Traced where
  pure a := ⟨a, []⟩
  bind x f := ⟨(f x.value).value, x.conversions ++ (f x.value).conversions⟩

/-- One part after the other. -/
def each (f : α → Traced β) (items : List α) : Traced (List β) :=
  ⟨items.map fun a => (f a).value, items.flatMap fun a => (f a).conversions⟩

@[simp] theorem value_pure (a : α) : (pure a : Traced α).value = a := rfl

@[simp] theorem conversions_pure (a : α) : (pure a : Traced α).conversions = [] := rfl

@[simp] theorem value_bind (x : Traced α) (f : α → Traced β) :
    (x >>= f).value = (f x.value).value := rfl

@[simp] theorem conversions_bind (x : Traced α) (f : α → Traced β) :
    (x >>= f).conversions = x.conversions ++ (f x.value).conversions := rfl

@[simp] theorem value_each (f : α → Traced β) (items : List α) :
    (each f items).value = items.map fun a => (f a).value := rfl

@[simp] theorem conversions_each (f : α → Traced β) (items : List α) :
    (each f items).conversions = items.flatMap fun a => (f a).conversions := rfl

end Traced

/-! ### Expressions -/

/-- The operand of a function. -/
def converted (use : Use) (e : Resolved.Expr) (listed : Listed) : Traced String :=
  ⟨use.convert listed, [⟨use, e⟩]⟩

/-- The operand of an operator, in parentheses if it is a bare comparison or connective. -/
def bracketed (use : Use) (e : Resolved.Expr) (listed : Listed) : Traced String :=
  ⟨listed.operand use.convert, [⟨use, e⟩]⟩

section Binary

variable (a b : Resolved.Expr) (first second : Listed)

def traceBetween (symbol : String) (use : Use) : Traced Listed := do
  let left ← bracketed use a first
  let right ← bracketed use b second
  return ⟨s!"{left} {symbol} {right}", .bool, true⟩

def traceFunction (name ending : String) : Traced Listed := do
  let left ← converted .number a first
  let right ← converted .number b second
  return ⟨s!"decimal::{name}(&{left}, &{right}){ending}", .decimal, false⟩

def traceEquality (symbol : String) : Traced Listed :=
  if first.kind = .decimal ∨ second.kind = .decimal then
    traceBetween a b first second symbol .equated
  else return between symbol Listed.value first second

def traceBinary : BinaryOp → Traced Listed
  | .and => traceBetween a b first second "&&" .condition
  | .or => traceBetween a b first second "||" .condition
  | .eq => traceEquality a b first second "=="
  | .ne => traceEquality a b first second "!="
  | .lt => traceBetween a b first second "<" .ordered
  | .le => traceBetween a b first second "<=" .ordered
  | .add => traceFunction a b first second "add" ""
  | .sub => traceFunction a b first second "sub" ""
  | .mul => traceFunction a b first second "mul" ""
  | .div => traceFunction a b first second "div" "?"
  | .mod => traceFunction a b first second "rem" "?"
  | .pow => traceFunction a b first second "pow" "?"

theorem value_traceEquality (symbol : String) :
    (traceEquality a b first second symbol).value = equality symbol first second := by
  unfold traceEquality equality
  split <;> rfl

theorem value_traceBinary (op : BinaryOp) :
    (traceBinary a b first second op).value = binary op first second := by
  cases op with
  | eq | ne => exact value_traceEquality a b first second _
  | _ => rfl

/-- An operator converts both of its operands, or none; to numbers only in arithmetic. -/
theorem use_of_mem_traceBinary {op : BinaryOp} {c : Conversion}
    (h : c ∈ (traceBinary a b first second op).conversions) :
    (c.operand = a ∨ c.operand = b) ∧ c.use ≠ .list ∧ (c.use = .number → op.isLogical = false) := by
  have hbetween : ∀ symbol use, c ∈ (traceBetween a b first second symbol use).conversions →
      (c.operand = a ∨ c.operand = b) ∧ c.use = use := by
    intro symbol use hc
    have hpair : c ∈ [⟨use, a⟩, ⟨use, b⟩] := hc
    simp only [List.mem_cons, List.not_mem_nil, or_false] at hpair
    rcases hpair with rfl | rfl
    · exact ⟨.inl rfl, rfl⟩
    · exact ⟨.inr rfl, rfl⟩
  have hfunction : ∀ name ending, c ∈ (traceFunction a b first second name ending).conversions →
      (c.operand = a ∨ c.operand = b) ∧ c.use = .number := by
    intro name ending hc
    have hpair : c ∈ [⟨.number, a⟩, ⟨.number, b⟩] := hc
    simp only [List.mem_cons, List.not_mem_nil, or_false] at hpair
    rcases hpair with rfl | rfl
    · exact ⟨.inl rfl, rfl⟩
    · exact ⟨.inr rfl, rfl⟩
  have hequality : ∀ symbol, c ∈ (traceEquality a b first second symbol).conversions →
      (c.operand = a ∨ c.operand = b) ∧ c.use = .equated := by
    intro symbol hc
    unfold traceEquality at hc
    split at hc
    · exact hbetween symbol .equated hc
    · cases hc
  cases op with
  | and | or | lt | le =>
    obtain ⟨hoperand, huse⟩ := hbetween _ _ h
    simp [hoperand, huse]
  | eq | ne =>
    obtain ⟨hoperand, huse⟩ := hequality _ h
    simp [hoperand, huse]
  | add | sub | mul | div | mod | pow =>
    obtain ⟨hoperand, huse⟩ := hfunction _ _ h
    simp [hoperand, huse, BinaryOp.isLogical]

end Binary

mutual

/-- The listing of an expression with its conversions. -/
def traceExpr : Resolved.Expr → Traced Listed
  | .number digits => return ⟨s!"decimal::parse({quoted digits})?", .decimal, false⟩
  | .atom name => return ⟨s!"Value::Atom({quoted name}.to_string())", .value, false⟩
  | .bool value => return ⟨if value then "true" else "false", .bool, false⟩
  | .var v => return ⟨access v ++ ".get()?", .value, false⟩
  | .list items => do
      let parts ← traceValues items
      return ⟨"vec![" ++ ", ".intercalate parts ++ "]", .list, false⟩
  | .vector items => do
      let parts ← traceValues items
      return ⟨"Value::Vector(vec![" ++ ", ".intercalate parts ++ "])", .value, false⟩
  | .unary .neg e => do
      let operand ← converted .number e (← traceExpr e)
      return ⟨"-" ++ operand, .decimal, false⟩
  | .unary .not e => do
      let operand ← bracketed .condition e (← traceExpr e)
      return ⟨"!" ++ operand, .bool, false⟩
  | .binary op a b => do
      let first ← traceExpr a
      let second ← traceExpr b
      traceBinary a b first second op
  | .sqrt e => do
      let operand ← converted .number e (← traceExpr e)
      return ⟨"decimal::sqrt(&" ++ operand ++ ")?", .decimal, false⟩
  | .exp e => do
      let operand ← converted .number e (← traceExpr e)
      return ⟨"decimal::exp(&" ++ operand ++ ")", .decimal, false⟩
  | .length e => do
      let operand ← converted .list e (← traceExpr e)
      return ⟨"BigDecimal::from(" ++ operand ++ ".len() as u64)", .decimal, false⟩
  | .sum e => do
      let operand ← converted .list e (← traceExpr e)
      return ⟨"sum(&" ++ operand ++ ")?", .decimal, false⟩
  | .nth index list => do
      let items ← converted .list list (← traceExpr list)
      let place ← converted .number index (← traceExpr index)
      return ⟨"nth(&" ++ items ++ ", &" ++ place ++ ")?", .value, false⟩

def traceValues : List Resolved.Expr → Traced (List String)
  | [] => return []
  | e :: rest => do
      let first ← traceExpr e
      let others ← traceValues rest
      return first.value :: others

end

mutual

/-- **Tracing the conversions leaves the text of an expression as it is.** -/
@[simp] theorem value_traceExpr : ∀ e, (traceExpr e).value = expr e
  | .number _ | .atom _ | .bool _ | .var _ => rfl
  | .list items | .vector items => by
    unfold traceExpr expr
    simp [value_traceValues items]
  | .unary .neg e => by
    unfold traceExpr expr
    simp [value_traceExpr e, converted, Use.convert]
  | .unary .not e => by
    unfold traceExpr expr
    simp [value_traceExpr e, bracketed, Use.convert]
  | .binary op a b => by
    unfold traceExpr expr
    simp [value_traceExpr a, value_traceExpr b, value_traceBinary]
  | .sqrt e | .exp e | .length e | .sum e => by
    unfold traceExpr expr
    simp [value_traceExpr e, converted, Use.convert]
  | .nth index list => by
    unfold traceExpr expr
    simp [value_traceExpr index, value_traceExpr list, converted, Use.convert]

@[simp] theorem value_traceValues : ∀ items, (traceValues items).value = values items
  | [] => rfl
  | e :: rest => by
    unfold traceValues values
    simp [value_traceExpr e, value_traceValues rest]

end

@[simp] theorem conversions_list (items : List Resolved.Expr) :
    (traceExpr (.list items)).conversions = (traceValues items).conversions := List.append_nil _

@[simp] theorem conversions_vector (items : List Resolved.Expr) :
    (traceExpr (.vector items)).conversions = (traceValues items).conversions := List.append_nil _

theorem mem_traceValues {items : List Resolved.Expr} {c : Conversion} :
    c ∈ (traceValues items).conversions ↔ ∃ e ∈ items, c ∈ (traceExpr e).conversions := by
  induction items with
  | nil =>
    unfold traceValues
    simp
  | cons e rest ih =>
    unfold traceValues
    simp [ih]

/-! ### Statements -/

/-- The condition of a test or of a method. -/
def traceCondition (condition : Resolved.Expr) : Traced String := do
  bracketed .condition condition (← traceExpr condition)

def traceArm (arm : Resolved.Expr × Resolved.Expr) : Traced Line := do
  let holds ← converted .condition arm.1 (← traceExpr arm.1)
  let chosen ← traceExpr arm.2
  return line s!".arm(|| Ok({holds}), || Ok({chosen.value}))"

def traceAssign (s : Resolved.Stmt) (target : Resolved.Target) (value : Resolved.Expr) :
    Traced (List Line) := do
  let listed ← traceExpr value
  let check := match target with
    | .single v => if s.isConstraint then failUnless s!"{access v}.get()?.boolean()?" else []
    | .destructure _ => []
  return bind target listed.value :: check

def traceCases (target : Resolved.Target) (arms : List (Resolved.Expr × Resolved.Expr)) :
    Traced (List Line) := do
  let listed ← Traced.each traceArm arms
  let chosen := match target with
    | .single v => s!"Some(value) => {access v}.set(value),"
    | .destructure _ => s!"Some(value) => {binder target}.bind(value)?,"
  return enclosed "let selected = Case::new()" (listed ++ [line ".select()?;"]) ""
    ++ enclosed "match selected \x7b"
      [line chosen, line "None => return Ok(Predicate::Failure),"] "\x7d"

def traceRange (target : Resolved.Var) (first last step : Resolved.Expr) (next : String) :
    Traced (List Line) := do
  let from_ ← converted .number first (← traceExpr first)
  let to_ ← converted .number last (← traceExpr last)
  let by_ ← converted .number step (← traceExpr step)
  return enclosed "For::start("
    [line s!"{access target}.clone(),", line s!"{from_},", line s!"{to_},", line s!"{by_},",
     line s!"{next},"] ")"

def traceArgument (field : Resolved.Var) (e : Resolved.Expr) : Traced String :=
  match e with
  | .var v => return access v ++ ".clone()"
  | e => do
      let listed ← traceExpr e
      return s!"Variable::bound({quoted field.name}, {listed.value})"

def traceCall (modules : List Resolved.Module) (callee : String) (inputs : List Resolved.Expr)
    (outputs : List Resolved.Var) (next : String) : Traced (List Line) :=
  match modules.find? fun m => m.name == callee with
  | none => return [line "Ok(Predicate::Failure)"]
  | some target => do
      let given ← Traced.each (fun (field, e) => do
        let passed ← traceArgument field e
        return line s!"{ident field.name}: {passed},") (target.fields.zip inputs)
      let taken := ((target.fields.drop inputs.length).zip outputs).map fun (field, v) =>
        line s!"{ident field.name}: {access v}.clone(),"
      return enclosed s!"Ok(Predicate::Next(Step::Native(Rc::new({typeName callee} \x7b"
        (given ++ taken ++ [line s!"cont: {next},"]) "\x7d))))"

/-- The listing of a statement with its conversions. -/
def traceStmt (modules : List Resolved.Module) (next : String) (s : Resolved.Stmt) :
    Traced (List Line × Bool) :=
  match s.action with
  | .assign target value => return (← traceAssign s target value, false)
  | .cases target arms => return (← traceCases target arms, false)
  | .test condition | .guard condition => return (failUnless (← traceCondition condition), false)
  | .range target first last step => return (← traceRange target first last step next, true)
  | .select target list => do
      let items ← converted .list list (← traceExpr list)
      return ([line s!"Ok(Member::start({binder target}, {items}, {next}))"], true)
  | .call callee inputs outputs => return (← traceCall modules callee inputs outputs next, true)
  | .malformed => return ([], false)

@[simp] theorem value_traceCondition (condition : Resolved.Expr) :
    (traceCondition condition).value = (expr condition).operand Listed.boolean := by
  simp [traceCondition, bracketed, Use.convert]

theorem value_traceArgument (field : Resolved.Var) (e : Resolved.Expr) :
    (traceArgument field e).value = argument field e := by
  unfold traceArgument argument
  split <;> simp

theorem value_traceCall (modules : List Resolved.Module) (callee : String)
    (inputs : List Resolved.Expr) (outputs : List Resolved.Var) (next : String) :
    (traceCall modules callee inputs outputs next).value =
      call modules callee inputs outputs next := by
  unfold traceCall call
  cases modules.find? fun m => m.name == callee with
  | none => rfl
  | some target => simp [value_traceArgument]

/-- **Tracing the conversions leaves the lines of a statement as they are.** -/
theorem value_traceStmt (modules : List Resolved.Module) (next : String) (s : Resolved.Stmt) :
    (traceStmt modules next s).value = stmt modules next s := by
  obtain ⟨action, span⟩ := s
  unfold traceStmt stmt
  cases action with
  | assign target value => cases target <;> simp [traceAssign, assign]
  | cases target arms =>
    cases target <;> simp [traceCases, cases, traceArm, arm, converted, Use.convert]
  | test condition | guard condition => simp
  | range target first last step => simp [traceRange, range, converted, Use.convert]
  | select target list => simp [converted, Use.convert]
  | call callee inputs outputs => simp [value_traceCall]
  | malformed => rfl

/-- The statement converts the operand: in one of its expressions, or that as a whole. -/
def Converts (s : Resolved.Stmt) (c : Conversion) : Prop :=
  match s.action with
  | .assign _ value => c ∈ (traceExpr value).conversions
  | .cases _ arms => ∃ arm ∈ arms, c ∈ (traceExpr arm.1).conversions ∨
      c = ⟨.condition, arm.1⟩ ∨ c ∈ (traceExpr arm.2).conversions
  | .test condition | .guard condition =>
      c ∈ (traceExpr condition).conversions ∨ c = ⟨.condition, condition⟩
  | .range _ first last step =>
      ∃ e ∈ [first, last, step], c ∈ (traceExpr e).conversions ∨ c = ⟨.number, e⟩
  | .select _ list => c ∈ (traceExpr list).conversions ∨ c = ⟨.list, list⟩
  | .call _ inputs _ => ∃ e ∈ inputs, c ∈ (traceExpr e).conversions
  | .malformed => False

theorem mem_traceCondition {condition : Resolved.Expr} {c : Conversion} :
    c ∈ (traceCondition condition).conversions ↔
      c ∈ (traceExpr condition).conversions ∨ c = ⟨.condition, condition⟩ := by
  simp [traceCondition, bracketed]

theorem exists_of_mem_traceCall {modules : List Resolved.Module} {callee : String}
    {inputs : List Resolved.Expr} {outputs : List Resolved.Var} {next : String} {c : Conversion}
    (h : c ∈ (traceCall modules callee inputs outputs next).conversions) :
    ∃ e ∈ inputs, c ∈ (traceExpr e).conversions := by
  unfold traceCall at h
  split at h
  · cases h
  · simp only [Traced.conversions_bind, Traced.conversions_each, Traced.conversions_pure,
      List.append_nil, List.mem_flatMap] at h
    obtain ⟨⟨field, e⟩, hpair, hc⟩ := h
    refine ⟨e, (List.of_mem_zip hpair).2, ?_⟩
    unfold traceArgument at hc
    split at hc
    · cases hc
    · simpa using hc

theorem converts_of_mem {modules : List Resolved.Module} {next : String} {s : Resolved.Stmt}
    {c : Conversion} (h : c ∈ (traceStmt modules next s).conversions) : Converts s c := by
  obtain ⟨action, span⟩ := s
  unfold traceStmt at h
  cases action with
  | assign target value => simpa [traceAssign, Converts] using h
  | cases target arms => simpa [traceCases, traceArm, converted, Converts, or_assoc] using h
  | test condition | guard condition => simpa [mem_traceCondition, Converts] using h
  | range target first last step =>
    simpa [traceRange, converted, Converts, or_assoc] using h
  | select target list => simpa [converted, Converts] using h
  | call callee inputs outputs =>
    apply exists_of_mem_traceCall
    simpa using h
  | malformed => cases h

/-! ### What the plan refuses -/

/-- The kinds of operands that a listed expression of a kind may evaluate to.  Two atoms can
    be added like two numbers. -/
def Kind.Holds : Kind → Operand → Prop
  | .decimal, a => a.kind = "number" ∨ a.kind = "atom"
  | .bool, a => a.kind = "bool"
  | .list, a => a.kind = "list"
  | .value, _ => True

/-- The use does not take the operand: it is a mismatch, or different from all that it can
    be compared with. -/
def Use.Refuses : Use → Operand → Prop
  | .condition, a => a.bool? = .error (a.mismatch "bool")
  | .number, a => a.number? = .error (a.mismatch "number")
  | .list, a => a.list? = .error (a.mismatch "list")
  | .ordered, a => ∀ b,
      (∃ expected found, a.compare? b = .error (.typeMismatch expected found)) ∧
      ∃ expected found, b.compare? a = .error (.typeMismatch expected found)
  | .equated, a => ∀ b, Kind.decimal.Holds b → a.same b = false ∧ b.same a = false

theorem Use.refuses_of_holds {use : Use} {kind : Kind} {a : Operand} (hvalue : kind ≠ .value)
    (hkind : kind ≠ use.kind) (h : kind.Holds a) : use.Refuses a := by
  cases use with
  | condition | number | list =>
    cases kind <;> cases a <;> simp_all [Kind.Holds, Use.kind, Use.Refuses, Operand.kind,
      Operand.bool?, Operand.number?, Operand.list?]
  | ordered =>
    intro b
    cases kind <;> cases a <;> cases b <;> simp_all [Kind.Holds, Use.kind, Operand.kind,
      Operand.compare?, Operand.mismatch]
  | equated =>
    intro b hb
    cases kind <;> cases a <;> cases b <;> simp_all [Kind.Holds, Use.kind, Operand.kind,
      Operand.same]

theorem kind_equality (symbol : String) (a b : Listed) : (equality symbol a b).kind = .bool := by
  unfold equality
  split <;> rfl

theorem kind_binary (op : BinaryOp) (a b : Listed) :
    (binary op a b).kind = if op.isLogical then .bool else .decimal := by
  cases op with
  | eq | ne => exact kind_equality _ a b
  | _ => rfl

theorem kind_add {a b c : Operand} (h : Operand.add a b = .ok c) : Kind.decimal.Holds c := by
  unfold Operand.add at h
  split at h
  · cases h
    exact .inr rfl
  · simp only [bind_eq_ok, pure_eq_ok] at h
    obtain ⟨_, _, _, _, rfl⟩ := h
    exact .inl rfl

theorem holds_binary {op : BinaryOp} {lhs rhs : Plan.Expr} {read : Plan.Reader} {a : Operand}
    (h : Plan.Expr.eval read (.binary op lhs rhs) = .ok a) :
    (if op.isLogical then Kind.bool else .decimal).Holds a := by
  cases op with
  | and =>
    simp only [Plan.Expr.eval, bind_eq_ok] at h
    obtain ⟨_, _, decided, _, h⟩ := h
    cases decided with
    | true =>
      simp only [if_true, bind_eq_ok, pure_eq_ok] at h
      obtain ⟨_, _, _, _, rfl⟩ := h
      rfl
    | false =>
      cases h
      rfl
  | or =>
    simp only [Plan.Expr.eval, bind_eq_ok] at h
    obtain ⟨_, _, decided, _, h⟩ := h
    cases decided with
    | true =>
      cases h
      rfl
    | false =>
      simp only [Bool.false_eq_true, if_false, bind_eq_ok, pure_eq_ok] at h
      obtain ⟨_, _, _, _, rfl⟩ := h
      rfl
  | eq | ne | lt | le =>
    simp only [Plan.Expr.eval, Plan.demandsNumbers, Bool.false_eq_true, if_false, bind_eq_ok] at h
    obtain ⟨x, _, y, _, h⟩ := h
    obtain ⟨truth, rfl⟩ := Syntax.Expr.exists_bool_of_relation (by rfl) (by decide) (by decide) h
    rfl
  | add =>
    simp only [Plan.Expr.eval, Plan.demandsNumbers, Bool.false_eq_true, if_false, bind_eq_ok] at h
    obtain ⟨x, _, y, _, h⟩ := h
    exact kind_add h
  | sub | mul | div | mod | pow =>
    simp only [Plan.Expr.eval, Plan.demandsNumbers, if_true, bind_eq_ok, pure_eq_ok] at h
    obtain ⟨_, _, _, _, _, _, _, _, _, _, rfl⟩ := h
    exact .inl rfl

/-- **What a listed expression evaluates to is of its kind.** -/
theorem holds_of_eval {e : Resolved.Expr} {q : Plan.Expr} (hq : Plan.Expr.ofResolved e = .ok q)
    {read : Plan.Reader} {a : Operand} (ha : q.eval read = .ok a) : (expr e).kind.Holds a := by
  cases e with
  | atom | var | vector | nth => trivial
  | number digits =>
    rw [Plan.Expr.ofResolved] at hq
    split at hq
    · cases hq
      cases ha
      exact .inl rfl
    · cases hq
  | bool value =>
    cases hq
    cases ha
    rfl
  | list items =>
    simp only [Plan.Expr.ofResolved, bind_eq_ok, pure_eq_ok] at hq
    obtain ⟨_, -, rfl⟩ := hq
    simp only [Plan.Expr.eval, bind_eq_ok, pure_eq_ok] at ha
    obtain ⟨_, -, rfl⟩ := ha
    rfl
  | unary op operand =>
    simp only [Plan.Expr.ofResolved, bind_eq_ok, pure_eq_ok] at hq
    obtain ⟨_, -, rfl⟩ := hq
    cases op with
    | neg =>
      simp only [Plan.Expr.eval, bind_eq_ok, pure_eq_ok] at ha
      obtain ⟨_, _, _, _, rfl⟩ := ha
      exact .inl rfl
    | not =>
      simp only [Plan.Expr.eval, bind_eq_ok, pure_eq_ok] at ha
      obtain ⟨_, _, _, _, rfl⟩ := ha
      rfl
  | binary op lhs rhs =>
    simp only [Plan.Expr.ofResolved, bind_eq_ok, pure_eq_ok] at hq
    obtain ⟨_, -, _, -, rfl⟩ := hq
    have hholds := holds_binary ha
    rw [← kind_binary op (expr lhs) (expr rhs)] at hholds
    exact hholds
  | sqrt arg | sum arg =>
    simp only [Plan.Expr.ofResolved, bind_eq_ok, pure_eq_ok] at hq
    obtain ⟨_, -, rfl⟩ := hq
    simp only [Plan.Expr.eval, bind_eq_ok, pure_eq_ok] at ha
    obtain ⟨_, _, _, _, _, _, rfl⟩ := ha
    exact .inl rfl
  | exp arg | length arg =>
    simp only [Plan.Expr.ofResolved, bind_eq_ok, pure_eq_ok] at hq
    obtain ⟨_, -, rfl⟩ := hq
    simp only [Plan.Expr.eval, bind_eq_ok, pure_eq_ok] at ha
    obtain ⟨_, _, _, _, rfl⟩ := ha
    exact .inl rfl

/-- **An operand that does not fit is refused**, whatever it evaluates to. -/
theorem Conversion.refuses_of_misfit {c : Conversion} (h : ¬ c.Fits) {q : Plan.Expr}
    (hq : Plan.Expr.ofResolved c.operand = .ok q) {read : Plan.Reader} {a : Operand}
    (ha : q.eval read = .ok a) : c.use.Refuses a :=
  Use.refuses_of_holds (fun hvalue => h (.inl hvalue)) (fun hkind => h (.inr hkind))
    (holds_of_eval hq ha)

end CandidateSearch.Listing
