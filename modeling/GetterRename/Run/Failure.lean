import GetterRename.File.Sources
import GetterRename.Getter.Ledger
import GetterRename.Report.Document
import GetterRename.Source.SyntaxError

/-!
# Failures of a run

Why a run, or its work on one file, fails.  Each cause has one wording; several failures are shown
one per line.
-/

namespace GetterRename

/-- Why a run fails. -/
inductive Failure where
  /-- The text of a file has no token trees. -/
  | syntaxError (path : Bytes) (error : SyntaxError)
  /-- Two definitions share a line. -/
  | duplicate (error : DuplicateDefinition)
  | unreadable (path : Bytes) (cause : IOFailure)
  /-- Nothing is known of a file that was read. -/
  | unknown (path : Bytes) (cause : IOFailure)
  /-- There is no way from the base directory to a file. -/
  | unrelated (path base : Bytes)
  /-- A directory for a new file cannot be made. -/
  | noDirectory (path : Bytes) (cause : IOFailure)
  | unwritable (path : Bytes) (cause : IOFailure)
  | input (path : Bytes) (cause : IOFailure)
  | output (path : Bytes) (cause : IOFailure)
  | outputNoDirectory (path : Bytes)
  | sources (cause : Sources.Failure)
  | cancelled
  /-- The text of a report has no summary. -/
  | undecodable (path : Bytes) (cause : Yaml.DecodeError)
  /-- The report cannot be saved. -/
  | report (cause : Failure)
  deriving DecidableEq, Repr

namespace Failure

/-- The wording of a failure. -/
def message : Failure → Bytes
  | syntaxError path e => "failed to parse " ++ path ++ ": " ++ e.message
  | duplicate e => "analyze " ++ e.path ++ ": " ++ e.message
  | unreadable path e => "failed to read " ++ path ++ ": " ++ e.message
  | unknown path e => "failed to stat " ++ path ++ ": " ++ e.message
  | unrelated path base => "relative path of " ++ path ++ ": " ++ Path.noWay base path
  | noDirectory path e => "failed to create dir " ++ path ++ ": " ++ e.message
  | unwritable path e => "failed to write " ++ path ++ ": " ++ e.message
  | input path e => "input " ++ path ++ ": " ++ e.message
  | output path e => "output " ++ path ++ ": " ++ e.message
  | outputNoDirectory path => "output " ++ path ++ " is not a directory"
  | sources e => "get sources: " ++ e.message
  | cancelled => "context canceled"
  | undecodable path e => "failed to decode " ++ path ++ ": " ++ e.message
  | report e => "save report: " ++ e.message

/-- What is in the log before a failure that there is no result for. -/
def logs : Failure → List LogRecord
  | sources e => e.logs
  | _ => []

/-- The wordings of several failures, one per line. -/
def messages (failures : List Failure) : Bytes := Bytes.join "\n" (failures.map message)

end Failure

namespace FileTree

/-- Reads a file. -/
def load (t : FileTree) (path : Bytes) : Except Failure Bytes :=
  (t.read path).mapError (.unreadable path)

/-- Writes a file and makes the directory it is in. A file that is created gets the given access. -/
def save (t : FileTree) (path content : Bytes) (access : Access := {}) :
    Except Failure FileTree :=
  match t.mkdirAll (Path.dir path) with
  | .error e => .error (.noDirectory (Path.dir path) e)
  | .ok t => (t.write path content access).mapError (.unwritable path)

/-- Reads a report. -/
def loadReport (t : FileTree) (path : Bytes) : Except Failure Summary :=
  match t.load path with
  | .error e => .error e
  | .ok text => (Summary.ofText text).mapError (.undecodable path)

end FileTree

end GetterRename
