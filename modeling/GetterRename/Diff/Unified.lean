import GetterRename.Diff.Blocks
import GetterRename.Text.Bytes

/-!
# Unified diffs

The difference between two texts as hunks of lines with three lines of context.

- `Diff.Change` : a stretch of both texts, equal or not;
- `Diff.changes` : the stretches between two texts;
- `Diff.hunks` : the changes with their context;
- `Diff.unified` : the diff as text.
-/

namespace GetterRename.Diff

/-- A stretch of two lists: where it starts and ends in each, and whether the items are equal. -/
structure Change where
  isEqual : Bool
  left : Nat
  leftEnd : Nat
  right : Nat
  rightEnd : Nat
  deriving DecidableEq, Repr

/-- The number of context lines. -/
def context : Nat := 3

/-- The stretches from `i` and `j` on, up to the ends `m` and `n` of the lists. -/
def changesFrom (m n i j : Nat) : List Block → List Change
  | [] => if i < m || j < n then [⟨false, i, m, j, n⟩] else []
  | b :: bs =>
    let gap := if i < b.left || j < b.right then [⟨false, i, b.left, j, b.right⟩] else []
    gap ++ ⟨true, b.left, b.left + b.size, b.right, b.right + b.size⟩ ::
      changesFrom m n (b.left + b.size) (b.right + b.size) bs

/-- The stretches between two lists. -/
def changes {α : Type} [DecidableEq α] (xs ys : List α) : List Change :=
  changesFrom xs.length ys.length 0 0 (blocks xs ys)

/-- The last `context` items of an equal stretch. -/
def Change.ending (c : Change) : Change :=
  { c with left := max c.left (c.leftEnd - context), right := max c.right (c.rightEnd - context) }

/-- The first `context` items of an equal stretch. -/
def Change.beginning (c : Change) : Change :=
  { c with
    leftEnd := min c.leftEnd (c.left + context), rightEnd := min c.rightEnd (c.right + context) }

/-- The changes with the equal stretches at both ends cut down to the context. -/
def trimEnds (cs : List Change) : List Change :=
  let cs :=
    match cs with
    | c :: rest => (if c.isEqual then c.ending else c) :: rest
    | [] => []
  match cs.getLast? with
  | some c => if c.isEqual then cs.dropLast ++ [c.beginning] else cs
  | none => []

/-- Whether a group of changes shows a change. -/
def isHunk (group : List Change) : Bool := group.any (!·.isEqual)

/-- Splits the changes at long equal stretches. `group` holds the changes since the last split, the
latest first. -/
def split (group : List Change) : List Change → List (List Change)
  | [] => [group.reverse]
  | c :: rest =>
    if c.isEqual && c.left + 2 * context < c.leftEnd then
      (c.beginning :: group).reverse :: split [c.ending] rest
    else split (c :: group) rest

/-- The changes of two lists in groups, each with its context. -/
def hunks {α : Type} [DecidableEq α] (xs ys : List α) : List (List Change) :=
  (split [] (trimEnds (changes xs ys))).filter isHunk

/-- The lines of a text, each with its newline; the last one always gets one. -/
def splitLines (text : Bytes) : List Bytes :=
  (Bytes.splitOn (byte '\n') text).map (· ++ [byte '\n'])

/-- A range of lines: its first line and its length, which is left out when it is one. -/
def range (start stop : Nat) : Bytes :=
  if stop = start + 1 then Bytes.ofNat (start + 1)
  else
    Bytes.ofNat (if stop = start then start else start + 1) ++ "," ++ Bytes.ofNat (stop - start)

/-- The items of a list from `start` up to `stop`. -/
def slice (start stop : Nat) (lines : List Bytes) : List Bytes := (lines.drop start).take (stop - start)

/-- The lines of a change, each behind its mark. -/
def Change.render (old new : List Bytes) (c : Change) : Bytes :=
  let removed := slice c.left c.leftEnd old
  if c.isEqual then removed.flatMap (byte ' ' :: ·)
  else removed.flatMap (byte '-' :: ·) ++ (slice c.right c.rightEnd new).flatMap (byte '+' :: ·)

/-- A hunk behind its header. -/
def renderHunk (old new : List Bytes) (hunk : List Change) : Bytes :=
  match hunk.head?, hunk.getLast? with
  | some first, some last =>
    "@@ -" ++ range first.left last.leftEnd ++ " +" ++ range first.right last.rightEnd ++ " @@\n"
      ++ hunk.flatMap (Change.render old new)
  | _, _ => []

/-- The unified diff of two texts of the file `name`, empty if there is no difference. -/
def unified (name old new : Bytes) : Bytes :=
  let oldLines := splitLines old
  let newLines := splitLines new
  match hunks oldLines newLines with
  | [] => []
  | hunks =>
    "--- a/" ++ name ++ "\n+++ b/" ++ name ++ Bytes.ofString "\n"
      ++ hunks.flatMap (renderHunk oldLines newLines)

end GetterRename.Diff
