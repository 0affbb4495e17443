import GetterRename.Command.Run

/-!
# The program

Reads the files below the current directory, runs the command line on them, and brings the outcome
back: the files that changed, the log, the output and the exit code.
-/

namespace GetterRename.Program

/-- The bytes of an array. -/
def ofArray (bytes : ByteArray) : Bytes := bytes.data.toList

/-- The array of bytes. -/
def toArray (bytes : Bytes) : ByteArray := ⟨bytes.toArray⟩

/-- A path as the operating system wants it; a byte that belongs to no character is left out. -/
def pathString (path : Bytes) : String :=
  String.ofList ((Utf8.chars path).filterMap fun c => c.1.map Char.ofNat)

/-- The access to what cannot be read. -/
def unreadable : Access := { read := false }

/-- The entries of a directory with everything below them. -/
partial def readEntries (found : Array IO.FS.DirEntry) : IO Entries := do
  let mut entries := Entries.nil
  for e in found do
    let entry ←
      if ← e.path.isDir then
        try Entry.dir {} <$> (readEntries =<< e.path.readDir)
        catch _ => pure (Entry.dir unreadable .nil)
      else if (← e.path.metadata).type matches .file then
        try Entry.file {} <$> ofArray <$> IO.FS.readBinFile e.path
        catch _ => pure (Entry.file unreadable [])
      else pure (Entry.socket {})
    entries := entries.insert (Bytes.ofString e.fileName) entry
  return entries

/-- The current directory at its place, with everything below it. -/
def readTree : IO FileTree := do
  let path ← IO.currentDir
  let here := (Path.Clean.ofPath (Bytes.ofString path.toString)).parts
  return { root := .put (.dir {} (← readEntries (← path.readDir))) here .empty, here }

/-- The variables of the environment that settings may come from. -/
def readEnv : IO (List (Bytes × Bytes)) := do
  let keys := Setting.all.flatMap fun s =>
    [Bytes.ofString s.key, (Setting.splitKey s.key).headD []]
  let found ← keys.eraseDups.filterMapM fun key => do
    let name := Settings.envName key
    let value ← IO.getEnv (pathString name)
    return value.map fun v => (name, Bytes.ofString v)
  return found

/-- Writes a file and makes the directory it is in. -/
def writeFile (path content : Bytes) : IO Unit := do
  IO.FS.createDirAll (pathString (Path.dir path))
  IO.FS.writeBinFile (pathString path) (toArray content)

/-- A record as a line of the log. -/
def logLine (r : LogRecord) : Bytes :=
  let attrs := r.attrs.flatMap fun (key, value) =>
    Bytes.ofString (" " ++ key ++ "=") ++ Quoted.string value
  "level=" ++ Bytes.ofString r.level.name ++ " msg=" ++ Quoted.string r.message ++ attrs ++ "\n"

/-- Appends the records to the log; without any the log is not touched. -/
def writeLog (path : Bytes) (logs : List LogRecord) : IO Unit := do
  unless logs.isEmpty do
    IO.FS.createDirAll (pathString (Path.dir path))
    let log ← IO.FS.Handle.mk (pathString path) .append
    log.write (toArray (logs.flatMap logLine))

/-- Runs the command line on the files below the current directory. -/
def run (words : List String) : IO UInt32 := do
  let before ← readTree
  let host : Host := { env := ← readEnv, toolchain := "unknown" }
  let outcome := Command.execute host before (words.map Bytes.ofString)
  for (path, content) in before.changes outcome.tree do
    writeFile path content
  writeLog outcome.logFile outcome.logs
  (← IO.getStdout).write (toArray outcome.stdout)
  (← IO.getStderr).write (toArray outcome.stderr)
  return outcome.exit.toUInt32

end GetterRename.Program

/-- The program. -/
def main (words : List String) : IO UInt32 := GetterRename.Program.run words
