import GetterRename.Report
import GetterRename.Report.Table

/-!
# Reports on a terminal

What a run shows: the renames of each file as a table, the differences, and a summary.

- `Summary.renamesText`, `Summary.diffsText` : the renames and the differences;
- `Summary.text` : the summary, with the errors of the run if there are any.
-/

namespace GetterRename

/-- A text on one line: four spaces stand for a tab. -/
def expandTabs (text : Bytes) : Bytes :=
  text.flatMap fun b => if b == byte '\t' then List.replicate 4 (byte ' ') else [b]

/-- The renames of a file as a table. -/
def FileResult.table (f : FileResult) : Table where
  columns := [("LINE", .right), ("GETTER", .left), ("NEW NAME", .left), ("RULE", .left),
    ("SCOPE", .left)]
  rows := f.renames.map fun r =>
    [Bytes.ofInt r.line, if r.docAlias then r.name ++ " (alias)" else r.name, r.newName, r.rule,
      r.scope]

namespace Summary

/-- The renames of each changed file below its path. -/
def renamesText (s : Summary) : Bytes :=
  s.changed.flatMap fun f => "\n" ++ expandTabs f.path ++ "\n" ++ f.table.render

/-- The differences of the changed files. -/
def diffsText (s : Summary) : Bytes := s.changed.flatMap (·.diff)

/-- The number of renames of each changed file as a table. -/
def table (s : Summary) : Table where
  columns := [("PATH", .left), ("RENAMES", .centre)]
  rows := s.changed.map fun f =>
    [if f.output.isEmpty then f.path else f.output, Bytes.ofNat f.renames.length]
  footer := ["TOTAL FILES " ++ Bytes.ofNat s.changed.length, Bytes.ofNat s.renameCount]

/-- The line above a summary. -/
def title (s : Summary) : Bytes :=
  "Getter " ++ s.tool ++ " (" ++ s.mode ++ "): " ++ Bytes.ofNat s.renameCount ++ " renames in "
    ++ Bytes.ofNat s.changed.length ++ " of " ++ Bytes.ofInt s.files ++ " files"

/-- The summary of a run, and its errors. -/
def text (s : Summary) (errors : Option Bytes) : Bytes :=
  "\n" ++ expandTabs s.title ++ "\n"
    ++ (if s.changed.isEmpty then [] else s.table.render)
    ++ ((errors.map fun e => Bytes.ofString "errors: " ++ e ++ "\n").getD [])

end Summary

end GetterRename
