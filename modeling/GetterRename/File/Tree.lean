import GetterRename.File.Path

/-!
# File trees

The files around a program as a value: all entries from the root down, and the working directory
among them.  An entry says what the user may do with it, and the file system refuses the rest.

- `Entry`, `Entries` : files and directories, entries in the byte order of their names;
- `FileTree` : the entries from the root down, and the place of the working directory;
- `FileTree.locate` : the place that a path leads to;
- `FileTree.info`, `FileTree.read`, `FileTree.write`, `FileTree.mkdirAll` : what a program asks for;
- `Entry.walk` : what a walk through a directory comes by, depth first.
-/

namespace GetterRename

/-! ## Entries -/

/-- What the user may do with an entry. -/
structure Access where
  read : Bool := true
  write : Bool := true
  /-- Whether a directory may be searched for a name. -/
  search : Bool := true
  deriving DecidableEq, Repr

mutual

/-- A file, a directory, or what is neither. -/
inductive Entry where
  | file (access : Access) (content : Bytes)
  | dir (access : Access) (entries : Entries)
  /-- A socket is there, but cannot be opened. -/
  | socket (access : Access)

/-- The entries of a directory. -/
inductive Entries where
  | nil
  | cons (name : Bytes) (entry : Entry) (rest : Entries)

end

namespace Entries

/-- The entry with the given name. -/
def get? (name : Bytes) : Entries → Option Entry
  | nil => none
  | cons n e rest => if n = name then some e else get? name rest

/-- Sets the entry with the given name, keeping the byte order of the names. -/
def insert (name : Bytes) (entry : Entry) : Entries → Entries
  | nil => cons name entry nil
  | cons n e rest =>
    if n = name then cons name entry rest
    else if Bytes.le name n then cons name entry (cons n e rest)
    else cons n e (insert name entry rest)

end Entries

namespace Entry

inductive Kind where
  | file
  | dir
  | socket
  deriving DecidableEq, Repr

/-- What a program is told about an entry without opening it. -/
structure Info where
  kind : Kind
  access : Access
  deriving DecidableEq, Repr

def info : Entry → Info
  | file access _ => ⟨.file, access⟩
  | dir access _ => ⟨.dir, access⟩
  | socket access => ⟨.socket, access⟩

/-- Whether the entry is a directory. -/
def isDir (e : Entry) : Bool := e.info.kind == .dir

/-- The empty directory. -/
def empty : Entry := dir {} .nil

/-- The entry behind a list of names. -/
def get? : List Bytes → Entry → Option Entry
  | [], e => some e
  | name :: names, dir _ entries => (entries.get? name).bind (get? names)
  | _ :: _, _ => none

/-- The entry with the one behind a list of names set, and with directories on the way to it. -/
def put (new : Entry) (names : List Bytes) (e : Entry) : Entry :=
  match names, e with
  | [], _ => new
  | name :: names, dir access entries =>
    dir access (entries.insert name (put new names ((entries.get? name).getD empty)))
  | name :: names, _ => dir {} (.cons name (put new names empty) .nil)

end Entry

/-- All entries from the root down, and the names from the root to the working directory. -/
structure FileTree where
  root : Entry
  here : List Bytes

/-! ## Failures -/

/-- Why the file system refuses. -/
inductive IOCause where
  | noSuchFile
  | notADirectory
  | isADirectory
  | fileExists
  | nameTooLong
  | invalidArgument
  | permissionDenied
  | noSuchDevice
  deriving DecidableEq, Repr

namespace IOCause

/-- The wording of a cause. -/
def message : IOCause → String
  | noSuchFile => "no such file or directory"
  | notADirectory => "not a directory"
  | isADirectory => "is a directory"
  | fileExists => "file exists"
  | nameTooLong => "file name too long"
  | invalidArgument => "invalid argument"
  | permissionDenied => "permission denied"
  | noSuchDevice => "no such device or address"

end IOCause

/-- An operation that the file system refuses. -/
structure IOFailure where
  operation : String
  path : Bytes
  cause : IOCause
  deriving DecidableEq, Repr

namespace IOFailure

/-- The operation, the path and the cause. -/
def message (e : IOFailure) : Bytes :=
  Bytes.ofString e.operation ++ " " ++ e.path ++ ": " ++ Bytes.ofString e.cause.message

end IOFailure

namespace FileTree

/-! ## Paths -/

/-- The greatest number of bytes of a name. -/
def longestName : Nat := 255

/-- The greatest number of bytes of a path. -/
def longestPath : Nat := 4095

/-- What stands behind a list of names from the root. -/
def info? (t : FileTree) (names : List Bytes) : Option Entry.Info :=
  (t.root.get? names).map Entry.info

/-- The place where a path starts: the root or the working directory, the last name first. -/
def start (t : FileTree) (path : Bytes) : List Bytes :=
  if path.head? == some (byte '/') then [] else t.here.reverse

/-- The place that a path leads to if nothing is in its way. -/
def place (t : FileTree) (path : Bytes) : List Bytes :=
  ((Bytes.splitOn (byte '/') path).foldl Path.step (t.start path)).reverse

/-- Follows one more part of a path. It takes a directory, and a name or a dot takes one that may be
searched. -/
def step (t : FileTree) (stack : List Bytes) (part : Bytes) : Except IOCause (List Bytes) :=
  match t.info? stack.reverse with
  | none => .error .noSuchFile
  | some ⟨.dir, access⟩ =>
    if !part.isEmpty && !access.search then .error .permissionDenied
    else if longestName < part.length then .error .nameTooLong
    else .ok (Path.step stack part)
  | some _ => .error .notADirectory

/-- The place that a path leads to. Nothing need stand there. -/
def locate (t : FileTree) (path : Bytes) : Except IOCause (List Bytes) :=
  if path.contains 0 then .error .invalidArgument
  else if longestPath < path.length then .error .nameTooLong
  else if path.isEmpty then .error .noSuchFile
  else ((Bytes.splitOn (byte '/') path).foldlM t.step (t.start path)).map List.reverse

/-- The entry that a path stands for. -/
def entry (t : FileTree) (path : Bytes) : Except IOCause Entry :=
  match t.locate path with
  | .error cause => .error cause
  | .ok names =>
    match t.root.get? names with
    | some e => .ok e
    | none => .error .noSuchFile

/-- What a path stands for. -/
def info (t : FileTree) (path : Bytes) : Except IOFailure Entry.Info :=
  match t.entry path with
  | .ok e => .ok e.info
  | .error cause => .error ⟨"stat", path, cause⟩

/-- Whether a path is a directory. -/
def stat (t : FileTree) (path : Bytes) : Except IOFailure Bool :=
  (t.info path).map (·.kind == .dir)

/-! ## Files -/

/-- The content of a file. -/
def read (t : FileTree) (path : Bytes) : Except IOFailure Bytes :=
  match t.entry path with
  | .error cause => .error ⟨"open", path, cause⟩
  | .ok e =>
    if !e.info.access.read then .error ⟨"open", path, .permissionDenied⟩
    else
      match e with
      | .file _ content => .ok content
      | .dir _ _ => .error ⟨"read", path, .isADirectory⟩
      | .socket _ => .error ⟨"open", path, .noSuchDevice⟩

/-- The tree with the entry at a place set. -/
def put (t : FileTree) (names : List Bytes) (e : Entry) : FileTree :=
  { t with root := .put e names t.root }

/-- Puts an entry where nothing stands yet, in a directory that takes it. -/
def create (t : FileTree) (names : List Bytes) (e : Entry) : Except IOCause FileTree :=
  match t.info? names.dropLast with
  | some ⟨.dir, access⟩ => if access.write then .ok (t.put names e) else .error .permissionDenied
  | _ => .error .noSuchFile

/-- Replaces the content of a file, or creates one with the given access. -/
def write (t : FileTree) (path content : Bytes) (access : Access) : Except IOFailure FileTree :=
  match t.locate path with
  | .error cause => .error ⟨"open", path, cause⟩
  | .ok names =>
    match t.root.get? names with
    | some (.file access _) =>
      if access.write then .ok (t.put names (.file access content))
      else .error ⟨"open", path, .permissionDenied⟩
    | some (.dir _ _) => .error ⟨"open", path, .isADirectory⟩
    | some (.socket access) =>
      .error ⟨"open", path, if access.write then .noSuchDevice else .permissionDenied⟩
    | none => (t.create names (.file access content)).mapError fun cause => ⟨"open", path, cause⟩

/-- Makes a directory. -/
def mkdir (t : FileTree) (path : Bytes) : Except IOFailure FileTree :=
  match t.locate path with
  | .error cause => .error ⟨"mkdir", path, cause⟩
  | .ok names =>
    match t.root.get? names with
    | some _ => .error ⟨"mkdir", path, .fileExists⟩
    | none => (t.create names .empty).mapError fun cause => ⟨"mkdir", path, cause⟩

/-- Makes the directory of a path in normal form, given by its names with the last one first, and
those above it, as far as they are missing. -/
def mkdirs (t : FileTree) (rooted : Bool) (stack : List Bytes) : Except IOFailure FileTree :=
  let path := Path.Clean.render ⟨rooted, stack.reverse⟩
  match t.stat path with
  | .ok true => .ok t
  | .ok false => .error ⟨"mkdir", path, .notADirectory⟩
  | .error _ =>
    match stack with
    | [] => t.mkdir path
    | _ :: above =>
      match t.mkdirs rooted above with
      | .error e => .error e
      | .ok t => t.mkdir path

/-- Makes a directory and those above it, as far as they are missing. -/
def mkdirAll (t : FileTree) (path : Bytes) : Except IOFailure FileTree :=
  let names := Path.Clean.ofPath path
  t.mkdirs names.rooted names.parts.reverse

end FileTree

/-! ## Walks -/

/-- Looks up a name in a directory that may be searched or not, at the path that it has there. -/
def Access.lookUp (access : Access) (path name : Bytes) : Except IOCause Unit :=
  if path.contains 0 then .error .invalidArgument
  else if FileTree.longestPath < path.length then .error .nameTooLong
  else if !access.search then .error .permissionDenied
  else if FileTree.longestName < name.length then .error .nameTooLong
  else .ok ()

namespace Entry

mutual

/-- The paths of an entry that stands at `path` and of what is below it, each with its kind: a
directory comes before what is in it, and only those that satisfy `enter` are entered. In the place
of a directory that cannot be read, or of an entry that cannot be looked up, stands the refusal. -/
def walk (enter : Bytes → Bool) (path : Bytes) : Entry → List (Except IOFailure (Bytes × Kind))
  | dir access entries =>
    if access.read then
      .ok (path, .dir) :: if enter path then walkEntries enter path access entries else []
    else [.error ⟨"open", path, .permissionDenied⟩]
  | file _ _ => [.ok (path, .file)]
  | socket _ => [.ok (path, .socket)]

/-- The paths of the entries of the directory at `path`. -/
def walkEntries (enter : Bytes → Bool) (path : Bytes) (access : Access) :
    Entries → List (Except IOFailure (Bytes × Kind))
  | .nil => []
  | .cons name entry rest =>
    let below := Path.join [path, name]
    let found :=
      match access.lookUp below name with
      | .ok () => walk enter below entry
      | .error cause => [.error ⟨"lstat", below, cause⟩]
    found ++ walkEntries enter path access rest

end

mutual

/-- The files of an entry whose names start with `above`, with their contents. -/
def files (above : List Bytes) : Entry → List (List Bytes × Bytes)
  | dir _ entries => filesOf above entries
  | file _ content => [(above, content)]
  | socket _ => []

/-- The files among the entries of a directory. -/
def filesOf (above : List Bytes) : Entries → List (List Bytes × Bytes)
  | .nil => []
  | .cons name entry rest => files (above ++ [name]) entry ++ filesOf above rest

end

end Entry

namespace FileTree

/-- The files below the working directory that `before` lacks or holds with another content. -/
def changes (before after : FileTree) : List (Bytes × Bytes) :=
  let files := ((after.root.get? after.here).map (·.files [])).getD []
  files.filterMap fun (names, content) =>
    match before.root.get? (before.here ++ names) with
    | some (.file _ old) => if old = content then none else some (Bytes.join "/" names, content)
    | _ => some (Bytes.join "/" names, content)

/-- The tree with an empty working directory. -/
def empty : FileTree := ⟨.dir {} (.cons "work" .empty .nil), ["work"]⟩

/-- Puts a file at a path, with the directories it needs. -/
def withFile (t : FileTree) (path content : Bytes) : FileTree :=
  t.put (t.place path) (.file {} content)

/-- Puts a directory at a path, if nothing is there. -/
def withDir (t : FileTree) (path : Bytes) : FileTree :=
  if (t.info? (t.place path)).isSome then t else t.put (t.place path) .empty

end FileTree

end GetterRename
