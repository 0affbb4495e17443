import GetterRename.Getter.Rename
import GetterRename.Text.Bytes

/-!
# Patching a line

A rename names a column where its identifier is expected.  If the identifier is not there, or if
another rename has taken that place, the line is searched from the left for a place where the
identifier has the same role.  The identifiers found are then replaced from right to left.

- `Line.isIdentAt` : whether a whole identifier stands at a place;
- `Line.find?` : the first free place of an identifier in its role;
- `Line.Edit` : a span to replace;
- `Line.locate` : the edits of the renames of a line;
- `Line.patch` : the line after its edits.
-/

namespace GetterRename.Line

/-- Whether the byte belongs to an identifier: a letter, a digit, the underscore, or any byte of a
character outside of ASCII. -/
def isIdentByte (b : UInt8) : Bool :=
  b == byte '_' || isLetterByte b || isDigitByte b || 0x80 ≤ b

/-- Whether the whole identifier `name` starts at `start`. -/
def isIdentAt (text : Bytes) (start : Nat) (name : Bytes) : Bool :=
  start + name.length ≤ text.length && (text.drop start).take name.length == name &&
    (start == 0 || !text[start - 1]?.any isIdentByte) &&
    !text[start + name.length]?.any isIdentByte

/-- The places of `name` in the rest of a line that starts at `start`, from left to right and
without overlaps. -/
def occurrencesFrom (name : Bytes) (start : Nat) (rest : Bytes) : List Nat :=
  match rest with
  | [] => if name.isEmpty then [start] else []
  | _ :: tail =>
    if name.isPrefixOf rest then
      start :: occurrencesFrom name (start + max 1 name.length) (tail.drop (name.length - 1))
    else occurrencesFrom name (start + 1) tail
termination_by rest.length
decreasing_by
  · simp only [List.length_drop, List.length_cons]; omega
  · simp

/-- The places of `name` in a line, from left to right and without overlaps. -/
def occurrences (name line : Bytes) : List Nat := occurrencesFrom name 0 line

/-- Whether the byte is a space or a tab. -/
def isBlank (b : UInt8) : Bool := b == byte ' ' || b == byte '\t'

/-- Whether the text ends with the whole word `fn`. -/
def endsWithFn (text : Bytes) : Bool :=
  Bytes.endsWith text "fn" && !(text.take (text.length - 2)).getLast?.any isIdentByte

/-- Whether the text before a name gives it the role of the rename: behind the word `fn` and a
blank for a definition, behind a dot for a method call, not behind a dot for another call. -/
def hasRole (tool : Tool) (isMethod : Bool) (before : Bytes) : Bool :=
  let text := Bytes.dropEndWhile isBlank before
  match tool with
  | .definitions => text.length != before.length && endsWithFn text
  | .calls => Bytes.endsWith text "." == isMethod

/-- The first free place where the identifier of the rename has its role. -/
def find? (line : Bytes) (r : Rename) (tool : Tool) (claimed : List Nat) : Option Nat :=
  (occurrences r.name line).find? fun start =>
    isIdentAt line start r.name && !claimed.contains start &&
      hasRole tool r.isMethod (line.take start)

/-- Where the identifier of the rename is: at its column, or at the first free place. -/
def place? (line : Bytes) (r : Rename) (tool : Tool) (claimed : List Nat) : Option Nat :=
  let column := r.column.toNat
  if 0 ≤ r.column && isIdentAt line column r.name && !claimed.contains column then some column
  else find? line r tool claimed

/-- A span of a line and the text to put in its place. -/
structure Edit where
  start : Nat
  stop : Nat
  text : Bytes
  deriving DecidableEq, Repr

/-- The edits of the renames of a line in order, none for a rename that has no place. `claimed`
holds the places taken so far. -/
def locate (line : Bytes) (tool : Tool) (claimed : List Nat) :
    List Rename → List (Rename × Option Edit)
  | [] => []
  | r :: rest =>
    match place? line r tool claimed with
    | some start =>
      (r, some ⟨start, start + r.name.length, r.newName.text⟩) ::
        locate line tool (start :: claimed) rest
    | none => (r, none) :: locate line tool claimed rest

/-- The line with one span replaced. -/
def replace (line : Bytes) (e : Edit) : Bytes := line.take e.start ++ e.text ++ line.drop e.stop

/-- The line with its spans replaced, the rightmost first. -/
def patch (line : Bytes) (edits : List Edit) : Bytes :=
  (edits.mergeSort fun a b => b.start ≤ a.start).foldl replace line

end GetterRename.Line
