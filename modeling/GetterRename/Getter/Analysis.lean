import GetterRename.Getter.DocCode
import GetterRename.Source.Outline

/-!
# Analysis of a file

The outline of a file is visited in source order.  Every visit carries the scope it happens in;
together the visits give the findings of the file, and the findings fill its ledger.

- `Visit` : something in the outline that may hold a getter;
- `Node.visits` : the visits of an outline, in source order;
- `Analysis.findings` : the findings of an outline;
- `Analysis.run` : the ledger and the log of an outline.
-/

namespace GetterRename

/-! ## Visits -/

/-- Something in the outline that may hold a getter. -/
inductive Visit where
  | doc (line : DocLine)
  | definition (scope : Scope) (sig : Signature)
  | template (scope : Scope) (tokens : List Token)
  | methodCall (scope : Scope) (call : CallSite)
  | call (scope : Scope) (call : CallSite)
  deriving Repr

namespace Construct

/-- The scope inside a construct that stands in `scope`. An item of an `impl` or a trait stays in
the scope of its block. -/
def scopeInside (scope : Scope) (isItem : Bool) : Construct → Scope
  | fn sig => if isItem then scope else ⟨.moduleFunction, sig.name.text, []⟩
  | impl none type => ⟨.inherentImpl, type, []⟩
  | impl (some name) type => ⟨.traitImpl, name, type⟩
  | trait name => ⟨.trait, name, []⟩
  | module name => ⟨.module, name, []⟩
  | const name isStatic => if isItem then scope else ⟨if isStatic then .static else .const, name, []⟩
  | methodCall _ | call _ => scope

/-- Whether what stands inside a construct are the items of a block. -/
def holdsItems : Construct → Bool
  | impl _ _ | trait _ => true
  | _ => false

/-- The visit of a construct itself, whose inside has the scope `scope`. -/
def visit? (scope : Scope) : Construct → Option Visit
  | fn sig => some (.definition scope sig)
  | methodCall c => some (.methodCall scope c)
  | call c => some (.call scope c)
  | _ => none

end Construct

namespace Node

mutual

/-- The visits of a node in source order. -/
def visits (scope : Scope) (isItem : Bool) : Node → List Visit
  | doc line => [.doc line]
  | macroUse use => [.template ⟨.macroBody, use.name, []⟩ use.tokens]
  | construct head inside =>
    let inner := head.scopeInside scope isItem
    (head.visit? inner).toList ++ visitsL inner head.holdsItems inside

/-- The visits of a list of nodes in source order. -/
def visitsL (scope : Scope) (isItem : Bool) : List Node → List Visit
  | [] => []
  | n :: ns => visits scope isItem n ++ visitsL scope isItem ns

end

end Node

/-! ## Findings -/

namespace Candidate

/-- The objection to a candidate whose signature was read. -/
def signatureObjection (cand : Candidate) : Option Reason :=
  if cand.hasGenericParams then some .genericTypeParam
  else if cand.hasMultipleArgs then some .multipleArgs
  else if cand.hasNoArgs then some .noArgs
  else if !cand.isMethod then some .nonSelfUniqueArg
  else none

end Candidate

namespace Analysis

/-- The findings about a definition. Outside of `impl` blocks and traits only methods count. -/
def definition (ctx : Context) (scope : Scope) (sig : Signature) : List Finding :=
  match ctx.candidate? sig.name (.ofBool sig.returnsBool) sig.isMethod with
  | none => [ctx.notAnAccessor scope sig.name]
  | some cand =>
    let cand := { cand with
      hasGenericParams := sig.hasTypeParams
      hasMultipleArgs := 1 < sig.inputs.length
      hasNoArgs := sig.inputs.isEmpty }
    let objection :=
      if scope.needsDocAlias?.isNone then some .notAMethod else cand.signatureObjection
    [ctx.judge scope cand objection]

/-- The findings about a method call. -/
def methodCall (ctx : Context) (scope : Scope) (call : CallSite) : List Finding :=
  match ctx.candidate? call.name .maybe true with
  | none => [ctx.notAnAccessor scope call.name]
  | some cand =>
    let objection :=
      if call.turbofish then some .genericTypeParam
      else if call.hasArgs then some .multipleArgs
      else none
    [ctx.judge scope cand objection]

/-- The findings about a path call. -/
def call (ctx : Context) (scope : Scope) (call : CallSite) : List Finding :=
  match ctx.candidate? call.name .maybe false with
  | none => [ctx.notAnAccessor scope call.name]
  | some cand => [ctx.judge scope cand (some .notAMethod)]

/-- The findings of one visit, and the documentation block open behind it. -/
def visit (ctx : Context) (block : Option DocCode.Block) : Visit →
    Option DocCode.Block × List Finding
  | .doc line => DocCode.line ctx block line
  | .definition scope sig => (block, if ctx.tool = .definitions then definition ctx scope sig else [])
  | .template scope tokens => (block, streamFindings ctx scope tokens)
  | .methodCall scope c => (block, if ctx.tool = .calls then methodCall ctx scope c else [])
  | .call scope c => (block, if ctx.tool = .calls then call ctx scope c else [])

/-- The findings of visits, from the documentation block open before them. -/
def visitAll (ctx : Context) (block : Option DocCode.Block) : List Visit → List Finding
  | [] => []
  | v :: vs =>
    let (block, found) := visit ctx block v
    found ++ visitAll ctx block vs

/-- The findings of an outline. -/
def findings (ctx : Context) (nodes : List Node) : List Finding :=
  visitAll ctx none (Node.visitsL .file false nodes)

/-! ## Filling the ledger -/

/-- The note on a confirmed rename. The more surprising the rule, the higher the level. -/
def renamingNote (path : Bytes) (r : Rename) : LogRecord :=
  let level :=
    match r.newName.rule with
    | .fixed => .info
    | .substituted => .warn
    | _ => .debug
  ⟨level, "renaming", [("path", path), ("line", Bytes.ofInt r.line), ("scope", r.scope.display),
    ("name", r.name), ("new_name", r.newName.display)]⟩

/-- Records the findings in order: the ledger, the log, and the first rename refused. -/
def record (ledger : Ledger) : List Finding →
    Ledger × List LogRecord × Option DuplicateDefinition
  | [] => (ledger, [], none)
  | .note n :: rest =>
    let (ledger, logs, error) := record ledger rest
    (ledger, n :: logs, error)
  | .rename r :: rest =>
    match ledger.add r with
    | .ok ledger =>
      let (ledger, logs, error) := record ledger rest
      (ledger, renamingNote ledger.path r :: logs, error)
    | .error e =>
      let (ledger, logs, _) := record ledger rest
      (ledger, logs, some e)

end Analysis

/-- The outcome of analysing a file. -/
structure Analysis where
  ledger : Ledger
  logs : List LogRecord
  /-- The first rename that shares its line with an earlier definition. -/
  error : Option DuplicateDefinition
  deriving Repr

namespace Analysis

/-- Analyses the outline of the file at `path`. -/
def run (path : Bytes) (tool : Tool) (mode : Mode) (nodes : List Node) : Analysis :=
  let (ledger, logs, error) :=
    record (.start path tool) (findings { path, tool, mode } nodes)
  ⟨ledger, logs, error⟩

/-- The wording of an analysis error. -/
def errorMessage (e : DuplicateDefinition) : Bytes := "analyze " ++ e.path ++ ": " ++ e.message

end Analysis

end GetterRename
