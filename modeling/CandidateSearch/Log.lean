/-
  CandidateSearch/Log.lean
  ========================
  **What is logged.**

  The events of compiling and running in the order in which they happen, and the line
  that each one is written as.
-/

namespace CandidateSearch

/-- A stage of compiling that can end with complaints about one document. -/
inductive Stage where
  | lex
  | parse
  | lower
deriving DecidableEq, Repr

def Stage.text : Stage → String
  | .lex => "lex"
  | .parse => "parse"
  | .lower => "lower"

inductive Event where
  -- compiling
  | scanning (file : String)
  | scanned (tokens : Nat)
  | parsing (file : String)
  | parsed (modules : Nat)
  | completed (stage : Stage) (file : String)
  | aborted (stage : Stage) (file : String) (errors : Nat)
  | loading (name : String)
  | loaded (modules : Nat)
  | lowering (modules : Nat)
  | lowered (name : String) (fields : Nat)
  | scheduling
  | scheduledBody (stmts blocks : Nat)
  | scheduledMethod (name : String) (number blocks : Nat)
  | generating
  | compiled (file : String) (modules : Nat)
  -- running
  | pushed (depth : Nat) (step : String)
  | popped (depth : Nat) (step : String)
  | called (callee : String)
  | solved (pending : Nat)
deriving DecidableEq, Repr

/-- The line of an event: its level, its message and its fields. -/
def Event.text : Event → String
  | .scanning file => s!"SPAN compile.lex file={file}"
  | .scanned tokens => s!"DEBUG lexed source tokens={tokens}"
  | .parsing file => s!"SPAN compile.parse file={file}"
  | .parsed modules => s!"DEBUG parsed program modules={modules}"
  | .completed stage file => s!"INFO stage complete stage={stage.text} file={file}"
  | .aborted stage file errors =>
      s!"WARN compile aborted stage={stage.text} file={file} errors={errors}"
  | .loading name => s!"DEBUG loading auxiliary source module={name}"
  | .loaded modules => s!"DEBUG loaded modules modules={modules}"
  | .lowering modules => s!"SPAN compile.lower modules={modules}"
  | .lowered name fields => s!"DEBUG lowered module module={name} fields={fields}"
  | .scheduling => "SPAN compile.schedule"
  | .scheduledBody stmts blocks => s!"TRACE scheduled method body stmts={stmts} blocks={blocks}"
  | .scheduledMethod name number blocks =>
      s!"DEBUG scheduled method module={name} method={number} blocks={blocks}"
  | .generating => "SPAN compile.codegen"
  | .compiled file modules => s!"INFO compile complete file={file} modules={modules}"
  | .pushed depth step => s!"TRACE push choice point depth={depth} step={step}"
  | .popped depth step => s!"TRACE pop choice point depth={depth} step={step}"
  | .called callee => s!"TRACE call callee={callee}"
  | .solved pending => s!"DEBUG solution found pending={pending}"

end CandidateSearch
