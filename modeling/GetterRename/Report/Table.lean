import GetterRename.Text.Width

/-!
# Tables

Text in columns.  A column is as wide as its widest title, cell or footer; titles and footers are
centred, and a cell with several lines makes its row as high.

- `Align` : where a cell stands in its column;
- `Table` : titles, rows and perhaps a footer;
- `Table.render` : the table as text.
-/

namespace GetterRename

/-- Where a cell stands in its column. -/
inductive Align where
  | left
  | right
  | centre
  deriving DecidableEq, Repr

namespace Align

/-- The text with spaces around it, so that it takes `width` cells; a centred text is nearer to the
left. -/
def pad (align : Align) (width : Nat) (text : Bytes) : Bytes :=
  let gap := width - Width.ofText text
  let before :=
    match align with
    | left => 0
    | right => gap
    | centre => gap / 2
  List.replicate before (byte ' ') ++ text ++ List.replicate (gap - before) (byte ' ')

end Align

/-- Text in columns. -/
structure Table where
  /-- The title of each column and where its cells stand. -/
  columns : List (Bytes × Align)
  rows : List (List Bytes)
  /-- The line below the rows, empty for none. -/
  footer : List Bytes := []
  deriving DecidableEq, Repr

namespace Table

/-- The lines of a cell. -/
def cellLines (cell : Bytes) : List Bytes := Bytes.splitOn (byte '\n') cell

/-- The width of a cell: that of its widest line. -/
def cellWidth (cell : Bytes) : Nat := ((cellLines cell).map Width.ofText).foldl max 0

/-- The width of every column. -/
def widths (t : Table) : List Nat :=
  (t.footer :: t.rows).foldl
    (fun ws row => ws.zipWith max (row.map cellWidth ++ List.replicate (ws.length - row.length) 0))
    (t.columns.map fun c => cellWidth c.1)

/-- A line across the table. -/
def rule (widths : List Nat) : Bytes :=
  List.replicate (widths.foldl (fun n w => n + w + 2) 2) (byte '-') ++ "\n"

/-- A line of titles: centred, with bars between them. -/
def titleLine (widths : List Nat) (titles : List Bytes) : Bytes :=
  let cells := List.zipWith (fun w t => byte ' ' :: Align.centre.pad w t ++ [byte ' ']) widths titles
  byte ' ' :: Bytes.join "|" cells ++ " \n"

/-- A line of cells. -/
def cellLine (aligns : List Align) (widths : List Nat) (cells : List Bytes) : Bytes :=
  let padded := List.zipWith (fun (a, w) t => byte ' ' :: Align.pad a w t ++ [byte ' '])
    (aligns.zip widths) cells
  byte ' ' :: Bytes.join "|" padded ++ " \n"

/-- The lines of a row; where a cell has no more lines there are two spaces. -/
def rowLines (aligns : List Align) (widths : List Nat) (row : List Bytes) : Bytes :=
  let cells := row.map cellLines
  let height := (cells.map List.length).foldl max 0
  (List.range height).flatMap fun i =>
    cellLine aligns widths (cells.map fun lines => (lines[i]?).getD (Bytes.ofString "  "))

/-- The table as text. -/
def render (t : Table) : Bytes :=
  let ws := t.widths
  let footer := if t.footer.isEmpty then [] else rule ws ++ titleLine ws t.footer ++ rule ws
  titleLine ws (t.columns.map (·.1)) ++ rule ws
    ++ t.rows.flatMap (rowLines (t.columns.map (·.2)) ws) ++ footer

end Table

end GetterRename
