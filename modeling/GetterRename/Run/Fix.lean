import GetterRename.Diff.Unified
import GetterRename.Getter.Analysis
import GetterRename.Patch.Apply
import GetterRename.Run.Failure

/-!
# Runs

A run renames the getters of every source file below a path.  What becomes of a file depends on its
own text only; the files are treated in byte order of their paths.

- `Run.Args` : what a run is asked to do;
- `Run.fixText` : the new text of a file;
- `Run.draft`, `Run.keep` : reading a file and keeping its new text;
- `Run.fixFile` : the work on one file of a tree;
- `Run.plan` : what a run works on;
- `Run.fix` : the whole run.
-/

namespace GetterRename.Run

/-- What a run is asked to do. -/
structure Args where
  /-- The directory or the single file to work on. -/
  path : Bytes
  /-- The directory that gets the new files, empty to change the files themselves. -/
  output : Bytes := []
  exclude : List Bytes := []
  tool : Tool
  mode : Mode
  docAlias : DocAlias
  /-- Whether to show differences instead of writing files. -/
  dryRun : Bool := false
  /-- Where to save a report, empty for nowhere. -/
  report : Bytes := []
  /-- Whether the run was cancelled before its first file. -/
  cancelled : Bool := false
  deriving DecidableEq, Repr

/-- The log of the work on a text, and its outcome: the new text and its records, or nothing where
nothing is renamed. -/
def fixText (tool : Tool) (mode : Mode) (docAlias : DocAlias) (path src : Bytes) :
    List LogRecord × Except Failure (Option (Bytes × List Record)) :=
  match Outline.ofSource src with
  | .error e => ([], .error (.syntaxError path e))
  | .ok nodes =>
    let analysis := Analysis.run path tool mode nodes
    match analysis.error with
    | some e => (analysis.logs, .error (.duplicate e))
    | none =>
      let patch := Patch.apply src analysis.ledger docAlias
      (analysis.logs ++ patch.logs, .ok (patch.output.map fun text => (text, patch.records)))

/-- A new text for a file, not yet kept. -/
structure Draft where
  /-- The text that was read. -/
  src : Bytes
  text : Bytes
  records : List Record
  deriving DecidableEq, Repr

/-- Reads a file and works on its text: the log, and the new text if anything is renamed. -/
def draft (args : Args) (t : FileTree) (path : Bytes) :
    List LogRecord × Except Failure (Option Draft) :=
  match t.load path with
  | .error e => ([], .error e)
  | .ok src =>
    let (logs, outcome) := fixText args.tool args.mode args.docAlias path src
    match outcome with
    | .error e => (logs, .error e)
    | .ok none => (logs ++ [⟨.debug, "Nothing to fix", [("path", path)]⟩], .ok none)
    | .ok (some (text, records)) => (logs, .ok (some ⟨src, text, records⟩))

/-- Where the new text of a file goes: the file itself, or its place below the output directory. -/
def target (args : Args) (path relative : Bytes) : Bytes :=
  if args.output.isEmpty then path else Path.join [args.output, relative]

/-- Keeps the new text of a file: as a difference in a dry run, else in the tree. A new file gets the
access of the one it is a copy of. -/
def keep (args : Args) (base : Bytes) (t : FileTree) (path : Bytes) (d : Draft) :
    FileTree × List LogRecord × Except Failure (Option FileResult) :=
  match Path.relative? base path with
  | none => (t, [], .error (.unrelated path base))
  | some relative =>
    if args.dryRun then
      let diff := Diff.unified relative d.src d.text
      (t, [], .ok (some { path, renames := d.records, diff }))
    else
      let place := target args path relative
      match t.info path with
      | .error e => (t, [], .error (.unknown path e))
      | .ok info =>
        match t.save place d.text info.access with
        | .error e => (t, [], .error e)
        | .ok t =>
          let log : LogRecord := ⟨.info, "Fixed file",
            [("path", path), ("output", place), ("renames", Bytes.ofNat d.records.length)]⟩
          let output := if args.output.isEmpty then [] else place
          (t, [log], .ok (some { path, output, renames := d.records }))

/-- The work on one file: the tree behind it, the log, and its result if it changed. -/
def fixFile (args : Args) (base : Bytes) (t : FileTree) (path : Bytes) :
    FileTree × List LogRecord × Except Failure (Option FileResult) :=
  match draft args t path with
  | (logs, .error e) => (t, logs, .error e)
  | (logs, .ok none) => (t, logs, .ok none)
  | (logs, .ok (some d)) =>
    let (t, more, result) := keep args base t path d
    (t, logs ++ more, result)

/-- The outcome of the work on several files. -/
structure Outcome where
  tree : FileTree
  logs : List LogRecord := []
  results : List FileResult := []
  failures : List Failure := []

/-- The note on a file that fails. -/
def failureNote (path : Bytes) (e : Failure) : LogRecord :=
  ⟨.error, "Failed to fix file", [("path", path), ("error", e.message)]⟩

/-- The work on several files, one after the other. A file that fails does not stop the others. -/
def fixAll (args : Args) (base : Bytes) (t : FileTree) : List Bytes → Outcome
  | [] => { tree := t }
  | path :: rest =>
    let (t, logs, result) := fixFile args base t path
    let behind := fixAll args base t rest
    match result with
    | .ok result =>
      { behind with logs := logs ++ behind.logs, results := result.toList ++ behind.results }
    | .error e =>
      { behind with
        logs := logs ++ failureNote path e :: behind.logs
        failures := e :: behind.failures }

/-- The directory that paths in the output and in differences are relative to. -/
def baseDir (t : FileTree) (args : Args) : Except Failure Bytes :=
  match t.stat args.path with
  | .error e => .error (.input args.path e)
  | .ok isDir =>
    let base := if isDir then args.path else Path.dir args.path
    if args.output.isEmpty then .ok base
    else
      match t.stat args.output with
      | .error e => .error (.output args.output e)
      | .ok false => .error (.outputNoDirectory args.output)
      | .ok true => .ok base

/-- The work on all sources; a cancelled run does not touch them. -/
def fixSources (args : Args) (base : Bytes) (t : FileTree) (sources : List Bytes) : Outcome :=
  if args.cancelled && !sources.isEmpty then { tree := t, failures := [.cancelled] }
  else fixAll args base t sources

/-- The outcome of a run: the tree behind it, the log, the summary and the failures. -/
structure Result where
  tree : FileTree
  logs : List LogRecord
  summary : Summary
  failures : List Failure

/-- Saves a report, unless its path is empty: the tree behind it and the failure, if any. -/
def saveReport (t : FileTree) (path : Bytes) (summary : Summary) : FileTree × List Failure :=
  if path.isEmpty then (t, [])
  else
    match t.save path summary.render with
    | .ok t => (t, [])
    | .error e => (t, [.report e])

/-- What a run has found before it works on the files. -/
structure Plan where
  /-- The directory that paths are relative to. -/
  base : Bytes
  sources : List Bytes
  logs : List LogRecord

/-- The sources of a run, or why there are none. -/
def plan [Globs] (t : FileTree) (args : Args) : Except Failure Plan :=
  match baseDir t args with
  | .error e => .error e
  | .ok base =>
    match Sources.find t args.path args.exclude with
    | .error e => .error (.sources e)
    | .ok (sources, logs) =>
      let start : LogRecord := ⟨.info, "Fixing getters", [("path", args.path),
        ("tool", args.tool.name), ("mode", args.mode.name), ("files", Bytes.ofNat sources.length)]⟩
      .ok ⟨base, sources, logs ++ [start]⟩

/-- The summary of a run that has not looked at a file. -/
def Args.summary (args : Args) : Summary := { tool := args.tool.name, mode := args.mode.name }

/-- The outcome of a run that finds no sources. -/
def Result.refused (t : FileTree) (args : Args) (e : Failure) : Result :=
  ⟨t, e.logs, args.summary, [e]⟩

/-- The outcome of a run whose files are done. -/
def Plan.conclude (p : Plan) (args : Args) (outcome : Outcome) : Result :=
  let summary := { args.summary with files := p.sources.length, changed := outcome.results }
  let (t, reportFailures) := saveReport outcome.tree args.report summary
  ⟨t, p.logs ++ outcome.logs, summary, outcome.failures ++ reportFailures⟩

/-- The whole run. -/
def fix [Globs] (t : FileTree) (args : Args) : Result :=
  match plan t args with
  | .error e => .refused t args e
  | .ok p => p.conclude args (fixSources args p.base t p.sources)

end GetterRename.Run
