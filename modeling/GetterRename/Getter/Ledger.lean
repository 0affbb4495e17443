import GetterRename.Getter.Store
import GetterRename.Source.Token
import GetterRename.Text.Numeral

/-!
# The ledger of a file

A ledger is the store of a file with what the file is.  A view shifts the lines of a token list that
stands deeper in the file, such as a code block in documentation; all views write to one ledger.

- `View` : where a token list stands in the file;
- `Ledger` : the pending renames of a file;
- `Ledger.add` : records a rename, or refuses a second definition on one line;
- `Ledger.take` : the renames of a line, and the ledger without them.
-/

namespace GetterRename

/-- Two getter definitions on one line: nothing tells which one is to be renamed. -/
structure DuplicateDefinition where
  path : Bytes
  line : Int
  first : Bytes
  second : Bytes
  deriving DecidableEq, Repr

namespace DuplicateDefinition

/-- The wording of the error. -/
def message (e : DuplicateDefinition) : Bytes :=
  e.path ++ ":" ++ Bytes.ofInt e.line ++ ": more than one getter definition on the same line: "
    ++ e.first ++ "() and " ++ e.second ++ "()"

end DuplicateDefinition

/-! ## Views -/

/-- Where a token list stands in the file. -/
structure View where
  /-- The number of lines above the token list. -/
  above : Int := 0
  /-- Whether the columns of the tokens mean nothing in the file. -/
  relocated : Bool := false
  deriving DecidableEq, Repr

namespace View

/-- The view of a token list `offset` lines further down. -/
def relocate (v : View) (offset : Int) : View := ⟨v.above + offset, true⟩

/-- The number of lines above the token list, as a machine word holds it. -/
def offset (v : View) : Int := v.above.bmod Numeral.wordLimit

/-- The line in the file of a place in the token list. -/
def line (v : View) (p : Pos) : Int := p.line + v.above

/-- The column in the file of a place in the token list, `-1` when it is unknown. -/
def column (v : View) (p : Pos) : Int := if v.relocated then -1 else p.col

/-- A rename as it is recorded through the view: relocated code needs no alias. -/
def adopt (v : View) (r : Rename) : Rename :=
  if v.relocated then { r with needsDocAlias := false } else r

end View

/-! ## The ledger -/

/-- The pending renames of a file. -/
structure Ledger where
  path : Bytes
  tool : Tool
  store : Store := {}
  sound : store.Sound := by exact Store.sound_empty
  deriving DecidableEq, Repr

namespace Ledger

/-- The ledger of a file in which nothing was found yet. -/
def start (path : Bytes) (tool : Tool) : Ledger := { path, tool }

/-- The pending renames, by line and within a line in order of discovery. -/
def pending (l : Ledger) : List Rename := l.store.renames

/-- The first pending rename of a line. -/
def occupant? (l : Ledger) (line : Int) : Option Rename := (l.store.onLine line).head?

/-- Keeps a rename. -/
def push (l : Ledger) (r : Rename) : Ledger :=
  { l with store := l.store.add r, sound := l.sound.add r }

/-- Records a rename. Two definitions cannot share a line. -/
def add (l : Ledger) (r : Rename) : Except DuplicateDefinition Ledger :=
  match l.tool, l.occupant? r.line with
  | .definitions, some first => .error ⟨l.path, r.line, first.name, r.name⟩
  | _, _ => .ok (l.push r)

/-- The pending renames of a line in order of discovery, and the ledger without them. -/
def take (l : Ledger) (line : Int) : List Rename × Ledger :=
  ((l.store.take line).1, { l with store := (l.store.take line).2, sound := l.sound.take line })

/-- The number of pending renames. -/
def size (l : Ledger) : Nat := l.store.count.toNat

/-- Whether no rename is pending. -/
def isEmpty (l : Ledger) : Bool := l.store.count == 0

end Ledger

end GetterRename
