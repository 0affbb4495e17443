import GetterRename.Getter.Ledger
import GetterRename.Log
import GetterRename.Naming.Rules
import GetterRename.Source.Node

/-!
# Findings

Analysing a file gives a sequence of findings: renames to record, and notes on names that were
looked at and left alone.  The decision about a candidate is the same wherever it was found: the
rules give a new name or refuse, and in conservative mode an objection to the shape of the function
stands unless the new name is that of a `bool` getter.

- `Context` : what a decision depends on besides the candidate;
- `Finding` : a rename or a note;
- `Finding.judge` : the decision about a candidate.
-/

namespace GetterRename

/-- What is analysed and how. -/
structure Context where
  path : Bytes
  tool : Tool
  mode : Mode
  view : View := {}
  deriving DecidableEq, Repr

/-- What analysing a file brings up. -/
inductive Finding where
  | rename (r : Rename)
  | note (record : LogRecord)
  deriving DecidableEq, Repr

namespace Finding

/-- The renames among the findings, in order. -/
def renames (findings : List Finding) : List Rename :=
  findings.filterMap fun
    | rename r => some r
    | note _ => none

end Finding

namespace Context

/-- The note on a name left alone. -/
def skipNote (ctx : Context) (level : Log.Level) (scope : Scope) (name : Bytes) (line : Int)
    (reason : Bytes) : Finding :=
  .note ⟨level, "skipping", [("path", ctx.path), ("line", Bytes.ofInt line),
    ("scope", scope.display), ("name", name), ("reason", reason)]⟩

/-- The note on a name that is no getter's. -/
def notAnAccessor (ctx : Context) (scope : Scope) (name : Ident) : Finding :=
  ctx.skipNote .trace scope name.text (ctx.view.line name.pos) Refusal.notAnAccessor.message

/-- The candidate for a name with `get_` at its head. -/
def candidate? (ctx : Context) (name : Ident) (returnsBool : ReturnsBool) (isMethod : Bool) :
    Option Candidate :=
  (Naming.suffix? name.text).map fun suffix =>
    { name := name.text, suffix, line := ctx.view.line name.pos, column := ctx.view.column name.pos,
      returnsBool, isMethod }

/-- Whether the shape of a getter with this new name matters. -/
def mustCheckShape (ctx : Context) (newName : NewName) : Bool :=
  ctx.mode = .conservative && newName.returnsBool ≠ .yes

/-- Whether a definition renamed in the scope keeps its former name as an alias. Calls never do;
where the scope does not decide, definitions do. -/
def needsDocAlias (ctx : Context) (scope : Scope) : Bool :=
  ctx.tool = .definitions && scope.needsDocAlias?.getD true

/-- The decision about a candidate, given the objection to its shape, if any. -/
def judge (ctx : Context) (scope : Scope) (cand : Candidate) (objection : Option Reason) : Finding :=
  match Naming.renameSuffix cand.suffix cand.returnsBool with
  | .error refusal => ctx.skipNote .debug scope cand.name cand.line refusal.message
  | .ok newName =>
    match ctx.mustCheckShape newName, objection with
    | true, some reason => ctx.skipNote .debug scope cand.name cand.line reason.message
    | _, _ =>
      .rename (ctx.view.adopt
        { name := cand.name, newName, line := cand.line, column := cand.column, scope,
          isMethod := cand.isMethod, needsDocAlias := ctx.needsDocAlias scope })

end Context

namespace Candidate

/-- The objection to a candidate found in a token stream. -/
def streamObjection (cand : Candidate) : Option Reason :=
  if cand.hasNoArgs then some .noArgs
  else if !cand.isMethod then some .notAMethod
  else if cand.hasGenericParams then some .genericTypeParam
  else if cand.hasMultipleArgs then some .multipleArgs
  else none

end Candidate

end GetterRename
