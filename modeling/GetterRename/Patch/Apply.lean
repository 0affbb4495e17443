import GetterRename.Getter.Ledger
import GetterRename.Log
import GetterRename.Patch.Line
import GetterRename.Text.Quoted

/-!
# Applying a ledger

The renames of a ledger are applied to the text line by line and leave the ledger.  Where a
definition keeps its former name as an alias, an attribute is put in front of its line.

- `Patch.lines` : the lines of a text;
- `Patch.apply` : the new text, the records of the renames applied, and what is left.
-/

namespace GetterRename

namespace Patch

/-- The lines of a text; a newline at its end starts no further line. -/
def lines (text : Bytes) : List Bytes :=
  let parts := Bytes.splitOn (byte '\n') text
  if parts.getLast?.any List.isEmpty then parts.dropLast else parts

/-- The attribute that keeps a former name as an alias. -/
def aliasAttribute (name : Bytes) : Bytes := "#[doc(alias = " ++ Quoted.string name ++ ")] "

/-- The note on a rename whose identifier is not on its line. -/
def notLocated (path : Bytes) (r : Rename) : LogRecord :=
  ⟨.warn, "couldn't locate getter", [("path", path), ("line", Bytes.ofInt r.line), ("name", r.name),
    ("new_name", r.newName.text)]⟩

/-- The note on a rename whose line does not exist. -/
def beyondEnd (path : Bytes) (r : Rename) : LogRecord :=
  ⟨.warn, "rename beyond the end of file", [("path", path), ("line", Bytes.ofInt r.line),
    ("name", r.name)]⟩

/-- What became of a line: its text with attributes and newline, the records of its renames, and
the notes on those without a place. -/
structure Patched where
  text : Bytes
  records : List Record := []
  logs : List LogRecord := []
  deriving Repr

/-- Whether the rename is applied with an alias. -/
def writesAlias (tool : Tool) (docAlias : DocAlias) (r : Rename) : Bool :=
  tool = .definitions && docAlias.mustGenerate && r.needsDocAlias

/-- Applies the renames of a line. -/
def line (path : Bytes) (tool : Tool) (docAlias : DocAlias) (text : Bytes) (renames : List Rename) :
    Patched :=
  let located := Line.locate text tool [] renames
  let applied := located.filterMap fun (r, edit) => edit.map fun _ => r
  let attributes := (applied.filter (writesAlias tool docAlias)).flatMap (aliasAttribute ·.name)
  { text := attributes ++ Line.patch text (located.filterMap (·.2)) ++ [byte '\n']
    records := applied.map fun r => Record.ofRename r (writesAlias tool docAlias r)
    logs := located.filterMap fun (r, edit) => if edit.isNone then some (notLocated path r) else none }

/-- Applies the ledger to the lines from number `number` on; what is left of the ledger comes
last. -/
def linesFrom (docAlias : DocAlias) (number : Nat) (ledger : Ledger) :
    List Bytes → List Patched × Ledger
  | [] => ([], ledger)
  | text :: rest =>
    let (renames, ledger) := ledger.take number
    let (patched, ledger) := linesFrom docAlias (number + 1) ledger rest
    (line ledger.path ledger.tool docAlias text renames :: patched, ledger)

end Patch

/-- The outcome of applying a ledger. -/
structure Patch where
  /-- The new text, if anything was renamed. -/
  output : Option Bytes
  records : List Record
  /-- What is left of the ledger. -/
  ledger : Ledger
  logs : List LogRecord
  deriving Repr

namespace Patch

/-- Applies the ledger to the text. -/
def apply (src : Bytes) (ledger : Ledger) (docAlias : DocAlias) : Patch :=
  if ledger.isEmpty then ⟨none, [], ledger, []⟩
  else
    let (patched, left) := linesFrom docAlias 1 ledger (lines src)
    let records := patched.flatMap (·.records)
    let logs := patched.flatMap (·.logs) ++ left.pending.map (beyondEnd left.path)
    let output := if records.isEmpty then none else some (patched.flatMap (·.text))
    ⟨output, records, left, logs⟩

end Patch

end GetterRename
