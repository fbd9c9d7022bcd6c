/-
  CandidateSearch/Listing/Program.lean
  ====================================
  **The listing of a program.**

  Scheduled modules as program text: each module an item that holds its fields and what
  follows it, each method an item of its locals, each block a unit that holds both.  The
  first module is driven by a main function that collects all solutions.
-/
import CandidateSearch.Listing.Expr
import CandidateSearch.Listing.Lines
import CandidateSearch.Plan.OfSchedule

namespace CandidateSearch.Listing

open Text (quoted)

/-! ### Statements -/

/-- What follows a unit: the unit of the next number, or what follows the module. -/
def nextUnit (owner : String) (number count : Nat) : String :=
  if number ≤ count then
    let unit := unitName owner number ++ " \x7b outer: outer.clone(), method: method.clone() \x7d"
    s!"Predicate::Next(Step::Native(Rc::new({unit})))"
  else "outer.cont.clone()"

/-- Leaves the unit without success unless a condition holds. -/
def failUnless (condition : String) : List Line :=
  enclosed s!"if !{condition} \x7b" [line "return Ok(Predicate::Failure);"] "\x7d"

def bind (target : Resolved.Target) (value : String) : Line :=
  match target with
  | .single v => line s!"{access v}.set({value});"
  | .destructure _ => line s!"{binder target}.bind({value})?;"

def assign (s : Resolved.Stmt) (target : Resolved.Target) (value : Resolved.Expr) : List Line :=
  let check := match target with
    | .single v => if s.isConstraint then failUnless s!"{access v}.get()?.boolean()?" else []
    | .destructure _ => []
  bind target (expr value).value :: check

def arm (condition value : Resolved.Expr) : Line :=
  line s!".arm(|| Ok({(expr condition).boolean}), || Ok({(expr value).value}))"

def cases (target : Resolved.Target) (arms : List (Resolved.Expr × Resolved.Expr)) : List Line :=
  let chosen := match target with
    | .single v => s!"Some(value) => {access v}.set(value),"
    | .destructure _ => s!"Some(value) => {binder target}.bind(value)?,"
  enclosed "let selected = Case::new()"
      (arms.map (fun (condition, value) => arm condition value) ++ [line ".select()?;"]) ""
    ++ enclosed "match selected \x7b"
      [line chosen, line "None => return Ok(Predicate::Failure),"] "\x7d"

def range (target : Resolved.Var) (first last step : Resolved.Expr) (next : String) : List Line :=
  enclosed "For::start("
    [line s!"{access target}.clone(),", line s!"{(expr first).decimal},",
     line s!"{(expr last).decimal},", line s!"{(expr step).decimal},", line s!"{next},"] ")"

/-- How an input is passed: a variable as itself, anything else as a new variable. -/
def argument (field : Resolved.Var) : Resolved.Expr → String
  | .var v => access v ++ ".clone()"
  | e => s!"Variable::bound({quoted field.name}, {(expr e).value})"

def call (modules : List Resolved.Module) (callee : String) (inputs : List Resolved.Expr)
    (outputs : List Resolved.Var) (next : String) : List Line :=
  match modules.find? fun m => m.name == callee with
  | none => [line "Ok(Predicate::Failure)"]
  | some target =>
      let given := (target.fields.zip inputs).map fun (field, e) =>
        line s!"{ident field.name}: {argument field e},"
      let taken := ((target.fields.drop inputs.length).zip outputs).map fun (field, v) =>
        line s!"{ident field.name}: {access v}.clone(),"
      enclosed s!"Ok(Predicate::Next(Step::Native(Rc::new({typeName callee} \x7b"
        (given ++ taken ++ [line s!"cont: {next},"]) "\x7d))))"

/-- The lines of a statement, and whether they end the unit. -/
def stmt (modules : List Resolved.Module) (next : String) (s : Resolved.Stmt) :
    List Line × Bool :=
  match s.action with
  | .assign target value => (assign s target value, false)
  | .cases target arms => (cases target arms, false)
  | .test condition | .guard condition =>
      (failUnless ((expr condition).operand Listed.boolean), false)
  | .range target first last step => (range target first last step next, true)
  | .select target list =>
      ([line s!"Ok(Member::start({binder target}, {(expr list).list}, {next}))"], true)
  | .call callee inputs outputs => (call modules callee inputs outputs next, true)
  | .malformed => ([], false)

/-! ### Units and methods -/

def execHead (machine : String) : String :=
  s!"fn exec(&self, {machine}: &mut Vm) -> Result<Predicate, RuntimeError> \x7b"

/-- The item that does the work of a module, an alternative or a unit. -/
def goal (name machine : String) (body : List Line) : List Line :=
  enclosed s!"impl Goal for {name} \x7b" (enclosed (execHead machine) body "\x7d") "\x7d"

def unit (modules : List Resolved.Module) (owner method : String) (number count : Nat)
    (stmts : List Resolved.Stmt) : List Line :=
  let name := unitName method number
  let next := nextUnit method (number + 1) count
  let listed := stmts.map (stmt modules next)
  let ending := if listed.any (·.2) then [] else [line s!"Ok({next})"]
  enclosed s!"struct {name} \x7b" [line s!"outer: {owner},", line s!"method: {method},"] "\x7d"
    ++ [blank]
    ++ goal name "_vm" (line "let (outer, method) = (&self.outer, &self.method);"
        :: listed.flatMap (·.1) ++ ending)

def method (modules : List Resolved.Module) (owner : String) (alternatives : Bool)
    (m : Schedule.Method) : List Line :=
  let name := methodName owner m.resolved.number
  let count := m.blocks.length
  let locals := m.resolved.locals
  let guard := match m.resolved.guard with
    | some condition =>
        if alternatives then
          let holds := (expr condition).operand Listed.boolean
          enclosed s!"if !{holds} \x7b" [line "return Ok(None);"] "\x7d"
        else []
    | none => []
  let enter := enclosed s!"let method = {name} \x7b"
      (locals.map fun v => line s!"{ident v.name}: Variable::new({quoted v.name}),") "\x7d;"
    ++ guard ++ [line s!"Ok(Some({nextUnit name 1 count}))"]
  let units := m.blocks.mapIdx fun index block =>
    blank :: unit modules owner name (index + 1) count block.stmts
  line "#[derive(Clone)]"
    :: enclosed s!"struct {name} \x7b"
        (locals.map fun v => line s!"{ident v.name}: Variable,") "\x7d"
    ++ [blank]
    ++ enclosed s!"impl {name} \x7b"
        (enclosed s!"fn try_enter(outer: {owner}) -> Result<Option<Predicate>, RuntimeError> \x7b"
          enter "\x7d") "\x7d"
    ++ units.flatten

/-! ### Modules -/

/-- Enters the first method whose guard holds; the later ones become choice points, the
    nearest on top. -/
def tryMethod (owner : String) (count number : Nat) : List Line :=
  let later := (List.range count).map (· + 1) |>.filter fun n => number < n
  enclosed s!"if let Some(entered) = {methodName owner number}::try_enter(self.clone())? \x7b"
    (later.reverse.map (fun n =>
        line s!"vm.push(Step::Native(Rc::new({alternativeName owner n}(self.clone()))));")
      ++ [line "return Ok(entered);"]) "\x7d"

def dispatch (owner : String) (count : Nat) : List Line :=
  let numbers := (List.range count).map (· + 1)
  if count = 1 then
    let entered := methodName owner 1 ++ "::try_enter(self.clone())?"
    goal owner "_vm" [line s!"Ok({entered}.unwrap_or(Predicate::Failure))"]
  else goal owner "vm" (numbers.flatMap (tryMethod owner count) ++ [line "Ok(Predicate::Failure)"])

def alternative (owner : String) (number : Nat) : List Line :=
  let name := alternativeName owner number
  let entered := methodName owner number ++ "::try_enter(self.0.clone())?"
  [blank, line s!"struct {name}({owner});", blank]
    ++ goal name "_vm" [line s!"Ok({entered}.unwrap_or(Predicate::Failure))"]

def moduleItems (modules : List Resolved.Module) (m : Schedule.Module) : List Line :=
  let name := typeName m.resolved.name
  let count := m.methods.length
  let fields := m.resolved.fields.map fun v => line s!"pub {ident v.name}: Variable,"
  let alternatives := (List.range count).drop 1 |>.flatMap fun index => alternative name (index + 1)
  line "#[derive(Clone)]"
    :: enclosed s!"pub struct {name} \x7b" (fields ++ [line "pub cont: Predicate,"]) "\x7d"
    ++ [blank]
    ++ dispatch name count
    ++ alternatives
    ++ m.methods.flatMap fun each => blank :: method modules name (1 < count) each

/-! ### Programs -/

def header : List Line :=
  ["#![allow(non_snake_case, non_camel_case_types, unused_variables)]",
   "",
   "use backtrack_dsl::runtime::\x7b",
   "    Binder, Bindings, Case, For, Goal, Member, Predicate, RuntimeError, Solution, Step, Value,",
   "    Variable, Vm, decimal, nth, sum,",
   "\x7d;",
   "use bigdecimal::BigDecimal;",
   "use std::rc::Rc;"].map line

def mainFunction (entry : Resolved.Module) : List Line :=
  let given := entry.inputs.map fun v =>
    line s!"{ident v.name}: Variable::bound({quoted v.name}, input({quoted v.name})?),"
  let made := entry.outputs.map fun v => line s!"{ident v.name}: Variable::new({quoted v.name}),"
  let read := entry.outputs.map fun v =>
    let value := s!"entry.{ident v.name}.value().unwrap_or({defaultLiteral v.ty})"
    line s!"({quoted v.name}.to_string(), {value}),"
  line s!"/// Runs `{entry.name}` and collects every solution."
    :: enclosed "pub fn main(bindings: &Bindings) -> Result<Vec<Solution>, RuntimeError> \x7b"
      (enclosed "let input = |name: &str| \x7b"
          [line "bindings", line "    .get(name)", line "    .cloned()",
           line "    .ok_or_else(|| RuntimeError::MissingInput \x7b name: name.to_string() \x7d)"]
          "\x7d;"
        ++ enclosed s!"let entry = {typeName entry.name} \x7b"
          (given ++ made ++ [line "cont: Predicate::Success,"]) "\x7d;"
        ++ [line "let mut vm = Vm::new();", line "let mut solutions = Vec::new();",
            line "let mut found = vm.call(Predicate::Next(Step::Native(Rc::new(entry.clone()))))?;"]
        ++ enclosed "while found \x7b"
          (enclosed "solutions.push(Solution::from_iter([" read "]));"
            ++ [line "found = vm.redo()?;"]) "\x7d"
        ++ [line "Ok(solutions)"]) "\x7d"

/-- The listing of scheduled modules under the name of their source. -/
def lines (name : String) (scheduled : List Schedule.Module) : List Line :=
  let modules := scheduled.map (·.resolved)
  line s!"// Generated by backtrack-dsl from {quoted name}."
    :: header
    ++ (scheduled.flatMap fun m => blank :: moduleItems modules m)
    ++ match modules.head? with
      | some entry => blank :: mainFunction entry
      | none => []

def text (name : String) (scheduled : List Schedule.Module) : String :=
  render (lines name scheduled)

end CandidateSearch.Listing
