import GetterRename.Getter.Rename

/-!
# Reports

The outcome of a run as it is shown and kept.

- `FileResult` : the renames of one changed file;
- `Summary` : the outcome of a whole run.
-/

namespace GetterRename

/-- The renames of one changed file. -/
structure FileResult where
  path : Bytes
  /-- Where the new text went, empty for the file itself. -/
  output : Bytes := []
  renames : List Record
  /-- The difference between the texts, only for a dry run. -/
  diff : Bytes := []
  deriving DecidableEq, Repr

/-- The outcome of a whole run. -/
structure Summary where
  tool : Bytes := []
  mode : Bytes := []
  /-- The number of files looked at. -/
  files : Int := 0
  changed : List FileResult := []
  deriving DecidableEq, Repr

namespace Summary

/-- The number of renames in all changed files. -/
def renameCount (s : Summary) : Nat := (s.changed.flatMap (·.renames)).length

end Summary

end GetterRename
