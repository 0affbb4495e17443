import GetterRename.Text.Bytes

/-!
# Paths

Lexical operations on slash-separated paths: nothing here looks at a file system.

- `Path.Clean` : a path as a list of names, without empty names, `.`, or a `..` behind a name;
- `Path.clean` : the shortest path that is lexically equal;
- `Path.join`, `Path.dir`, `Path.base` : putting paths together and taking them apart;
- `Path.relative?` : the way from one path to another;
- `Path.step` : one part of a path, followed from a place.
-/

namespace GetterRename.Path

/-- The name of the directory itself. -/
def here : Bytes := "."

/-- The name of the directory above. -/
def up : Bytes := ".."

/-- A path in normal form: whether it starts at the root, and its names. -/
structure Clean where
  rooted : Bool
  parts : List Bytes
  deriving DecidableEq, Repr

namespace Clean

/-- The names, the last one first, behind one more name. -/
def push (rooted : Bool) (stack : List Bytes) (part : Bytes) : List Bytes :=
  if part.isEmpty || part == here then stack
  else if part == up then
    match stack with
    | [] => if rooted then [] else [up]
    | top :: rest => if top == up then up :: stack else rest
  else part :: stack

/-- The normal form of a path. -/
def ofPath (path : Bytes) : Clean :=
  let rooted := path.head? == some (byte '/')
  ⟨rooted, ((Bytes.splitOn (byte '/') path).foldl (push rooted) []).reverse⟩

/-- The text of a path in normal form; `.` for the empty one. -/
def render (c : Clean) : Bytes :=
  if c.rooted then byte '/' :: Bytes.join "/" c.parts
  else if c.parts.isEmpty then here
  else Bytes.join "/" c.parts

end Clean

/-- The shortest path lexically equal to the given one. -/
def clean (path : Bytes) : Bytes := (Clean.ofPath path).render

/-- The elements as one clean path, empty ones left out; empty if nothing is left. -/
def join (elements : List Bytes) : Bytes :=
  let elements := elements.filter (!·.isEmpty)
  if elements.isEmpty then [] else clean (Bytes.join "/" elements)

/-- The path without its last name. -/
def dir (path : Bytes) : Bytes :=
  clean (Bytes.dropEndWhile (· != byte '/') path)

/-- The last name of a path. -/
def base (path : Bytes) : Bytes := (path.reverse.takeWhile (· != byte '/')).reverse

/-- The lists without their longest common beginning. -/
def dropCommon : List Bytes → List Bytes → List Bytes × List Bytes
  | a :: as, b :: bs => if a = b then dropCommon as bs else (a :: as, b :: bs)
  | as, bs => (as, bs)

/-- The way from `base` to `target`: as many steps up as `base` has further names, then the further
names of `target`. There is none between a rooted path and another, or out of a leading `..`. -/
def relative? (base target : Bytes) : Option Bytes :=
  let b := Clean.ofPath base
  let t := Clean.ofPath target
  if b.rooted != t.rooted then none
  else
    let (fromBase, toTarget) := dropCommon b.parts t.parts
    if fromBase.head? == some up then none
    else some (Clean.render ⟨false, List.replicate fromBase.length up ++ toTarget⟩)

/-- The place behind one more part of a path, by its names from the root, the last one first. -/
def step (stack : List Bytes) (part : Bytes) : List Bytes :=
  if part.isEmpty || part == here then stack
  else if part == up then stack.tail
  else part :: stack

/-- The wording when there is no way from `base` to `target`. -/
def noWay (base target : Bytes) : Bytes := "Rel: can't make " ++ target ++ " relative to " ++ base

end GetterRename.Path
