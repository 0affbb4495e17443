import GetterRename.Report
import GetterRename.Yaml.Decode

/-!
# Report documents

A summary as the document that keeps it.  Differences are not kept, and an empty output path or a
missing alias leave no trace.

- `Summary.toValue`, `Summary.render` : the data and the text of a report;
- `Summary.decode`, `Summary.ofText` : the summary that a report keeps.
-/

namespace GetterRename

open Yaml

/-- The data of a record. -/
def Record.toValue (r : Record) : Value :=
  .record ([("line", .int r.line), ("name", .text r.name), ("new_name", .text r.newName),
      ("rule", .text r.rule), ("scope", .text r.scope)]
    ++ if r.docAlias then [("doc_alias", .bool true)] else [])

/-- Reads a record. -/
def Record.decode : Decode Record :=
  Decode.record "model.RenameRecord" ⟨0, [], [], [], [], false⟩ [
    .of "line" Decode.int fun line r => { r with line },
    .of "name" (Decode.text "string") fun name r => { r with name },
    .of "new_name" (Decode.text "string") fun newName r => { r with newName },
    .of "rule" (Decode.text "string") fun rule r => { r with rule },
    .of "scope" (Decode.text "string") fun scope r => { r with scope },
    .of "doc_alias" Decode.bool fun docAlias r => { r with docAlias }]

/-- The data of the renames of a file. -/
def FileResult.toValue (f : FileResult) : Value :=
  .record ([("path", .text f.path)]
    ++ (if f.output.isEmpty then [] else [("output", .text f.output)])
    ++ [("renames", .list (f.renames.map Record.toValue))])

/-- Reads the renames of a file. -/
def FileResult.decode : Decode FileResult :=
  Decode.record "model.FileResult" { path := [], renames := [] } [
    .of "path" (Decode.text "model.Path") fun path f => { f with path },
    .of "output" (Decode.text "model.Path") fun output f => { f with output },
    .of "renames" (Decode.list "[]model.RenameRecord" Record.decode) fun renames f =>
      { f with renames }]

namespace Summary

/-- The data of a summary. -/
def toValue (s : Summary) : Value :=
  .record [("tool", .text s.tool), ("mode", .text s.mode), ("files", .int s.files),
    ("changed", .list (s.changed.map FileResult.toValue))]

/-- The text of a report. -/
def render (s : Summary) : Bytes := s.toValue.render

/-- Reads a summary. -/
def decode : Decode Summary :=
  Decode.record "model.Summary" {} [
    .of "tool" (Decode.text "string") fun tool s => { s with tool },
    .of "mode" (Decode.text "string") fun mode s => { s with mode },
    .of "files" Decode.int fun files s => { s with files },
    .of "changed" (Decode.list "[]model.FileResult" FileResult.decode) fun changed s =>
      { s with changed }]

/-- The summary that the text of a report keeps. -/
def ofText (text : Bytes) : Except DecodeError Summary := Decode.run decode {} text

end Summary

end GetterRename
