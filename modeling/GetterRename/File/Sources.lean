import GetterRename.File.Tree
import GetterRename.Log
import GetterRename.Text.Quoted

/-!
# Source files

The source files below a directory: regular files with the right ending, outside of directories
that never hold code to rename, and not matched by an exclude pattern relative to the directory.

- `Globs` : the language of the exclude patterns;
- `Sources.verdict` : what becomes of a path that the search comes by;
- `Sources.find` : the source files below a root, in byte order, and the log;
- `FileTree.visited` : the paths of a walk from a root.
-/

namespace GetterRename

/-- What is in front of the first error, and the error. -/
def upToError {ε α : Type} : List (Except ε α) → List α × Option ε
  | [] => ([], none)
  | .ok a :: rest => ((upToError rest).1.cons a, (upToError rest).2)
  | .error e :: _ => ([], some e)

/-- The paths of a walk from a root, each with whether it is a directory. Without recursion the
directories below the root are left out. -/
def FileTree.visited (t : FileTree) (root : Bytes) (recursive : Bool) :
    Except IOFailure (List (Bytes × Bool)) :=
  match t.entry root with
  | .error cause => .error ⟨"lstat", root, cause⟩
  | .ok e =>
    let isOpen (path : Bytes) := recursive || path == root
    match upToError (e.walk isOpen root) with
    | (_, some e) => .error e
    | (paths, none) =>
      let paths := paths.map fun (path, kind) => (path, kind == .dir)
      .ok (paths.filter fun (path, isDir) => !isDir || isOpen path)

/-- A language of patterns for paths. -/
class Globs where
  /-- Whether a pattern is well formed. -/
  isValid (pattern : Bytes) : Bool
  isMatch (pattern path : Bytes) : Bool

namespace Sources

/-- The names of directories that are never entered. -/
def excludedDirs : List Bytes :=
  [".git", "auto", "ci", "docs", "gir", "gir-files", "target", "sys"].map Bytes.ofString

/-- What becomes of a path. -/
inductive Verdict where
  /-- A directory that is never entered. -/
  | skippedDir
  /-- A directory that an exclude pattern matches. -/
  | excludedDir
  | enteredDir
  /-- What is no regular file, or one without the right ending. -/
  | foreign
  /-- A source file that an exclude pattern matches. -/
  | excludedFile
  | source
  deriving DecidableEq, Repr

/-- The note on a path left out. -/
def note? (path : Bytes) : Verdict → Option LogRecord
  | .skippedDir => some ⟨.debug, "skipping directory", [("path", path)]⟩
  | .excludedDir => some ⟨.debug, "excluding directory", [("path", path)]⟩
  | .excludedFile => some ⟨.debug, "excluding file", [("path", path)]⟩
  | _ => none

/-- Why there is no list of sources. -/
inductive Failure where
  | invalidPattern (pattern : Bytes)
  | root (path : Bytes) (cause : IOFailure)
  /-- The walk is refused something. Its notes up to there are in the log. -/
  | walk (path : Bytes) (cause : IOFailure) (logs : List LogRecord)
  deriving DecidableEq, Repr

namespace Failure

/-- The wording of a failure. -/
def message : Failure → Bytes
  | invalidPattern pattern => "invalid exclude pattern " ++ Quoted.string pattern
  | root path cause => "failed to stat " ++ path ++ ": " ++ cause.message
  | walk path cause _ => "failed to traverse " ++ path ++ ": " ++ cause.message

/-- The log of a search that fails. -/
def logs : Failure → List LogRecord
  | walk _ _ logs => logs
  | _ => []

end Failure

section Search

variable [Globs]

/-- Whether a path relative to the root matches an exclude pattern. -/
def isExcluded (exclude : List Bytes) (relative : Bytes) : Bool :=
  exclude.any (Globs.isMatch · relative)

/-- What becomes of the path `path` at or below `root`. -/
def verdict (root : Bytes) (exclude : List Bytes) (path : Bytes) (kind : Entry.Kind) : Verdict :=
  -- there is always a way down to a path below the root
  let relative := (Path.relative? root path).getD path
  if path = root then .enteredDir
  else if kind = .dir then
    if excludedDirs.contains (Path.base path) then .skippedDir
    else if isExcluded exclude relative then .excludedDir
    else .enteredDir
  else if kind ≠ .file || !Bytes.endsWith path ".rs" then .foreign
  else if isExcluded exclude relative then .excludedFile
  else .source

/-- Whether the search enters the directory at a path. -/
def enters (root : Bytes) (exclude : List Bytes) (path : Bytes) : Bool :=
  verdict root exclude path .dir == .enteredDir

/-- The paths with their verdicts. -/
def judge (root : Bytes) (exclude : List Bytes) (paths : List (Bytes × Entry.Kind)) :
    List (Bytes × Verdict) :=
  paths.map fun (path, kind) => (path, verdict root exclude path kind)

/-- The sources among paths with verdicts. -/
def ofJudged (paths : List (Bytes × Verdict)) : List Bytes :=
  paths.filterMap fun (path, v) => if v = .source then some path else none

/-- The source files below `root` in byte order, and the log. A root that is no directory is its own
only source. -/
def find (t : FileTree) (root : Bytes) (exclude : List Bytes) :
    Except Failure (List Bytes × List LogRecord) :=
  match exclude.find? (!Globs.isValid ·) with
  | some pattern => .error (.invalidPattern pattern)
  | none =>
    match t.entry root with
    | .error cause => .error (.root root ⟨"stat", root, cause⟩)
    | .ok top =>
      if !top.isDir then .ok ([root], [])
      else
        let (paths, refusal?) := upToError (top.walk (enters root exclude) root)
        let judged := judge root exclude paths
        let logs := judged.filterMap fun (path, v) => note? path v
        match refusal? with
        | some cause => .error (.walk root cause logs)
        | none => .ok ((ofJudged judged).mergeSort Bytes.le, logs)

end Search

end Sources

end GetterRename
