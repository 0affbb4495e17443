import GetterRename.Yaml.Cursor

/-!
# Scalars in documents

The text of a scalar and the place behind it: a scalar without quotes, which ends where something
else starts; one in quotes, where an escape stands for a character; and a block of lines.  Line
breaks inside the first two fold.

- `Gap` : the blanks and line breaks inside a scalar;
- `plainFrom`, `quotedFrom`, `Block.read` : scalars of each form.
-/

namespace GetterRename.Yaml

/-- What is wrong with a scalar and on which line. -/
abbrev ScalarResult (α : Type) := Except (Problem × Nat) α

/-! ## Folding -/

/-- Blanks and line breaks inside a scalar, before its next character. -/
inductive Gap where
  | blanks (chars : List Char)
  /-- A line break and further ones. -/
  | breaks (first : Char) (more : List Char)
  /-- A line break that an escape takes away, and further ones. -/
  | escaped (more : List Char)
  deriving DecidableEq, Repr

namespace Gap

/-- Nothing. -/
def none : Gap := blanks []

/-- The gap and one more blank; blanks at the start of a line do not count. -/
def addBlank (c : Char) : Gap → Gap
  | blanks chars => blanks (chars ++ [c])
  | gap => gap

/-- The gap and one more line break. -/
def addBreak (c : Char) : Gap → Gap
  | blanks _ => breaks c []
  | breaks first more => breaks first (more ++ [c])
  | escaped more => escaped (more ++ [c])

/-- Whether the gap has a line break. -/
def hasBreak : Gap → Bool
  | blanks _ => false
  | _ => true

/-- What the gap stands for: one plain line break is a space, and of several the first is dropped.
-/
def folded : Gap → List Char
  | blanks chars => chars
  | breaks first more =>
    if first != '\n' then first :: more else if more.isEmpty then [' '] else more
  | escaped more => more

end Gap

/-! ## Scalars without quotes -/

/-- Whether the character ends a scalar without quotes inside brackets. -/
def isFlowMark (c : Char) : Bool := [',', '?', '[', ']', '\x7b', '\x7d'].contains c

/-- What is read of a scalar without quotes. -/
structure PlainText where
  text : List Char
  /-- The place of what follows behind blanks and breaks. -/
  stop : Cursor
  /-- Whether a line break comes before that place. -/
  crossed : Bool

/-- The rest of a scalar without quotes. `gap` is what was skipped since its last character; lines
behind the first need the column `least`, unless they are `inFlow`. -/
def plainFrom (inFlow : Bool) (least : Nat) (gap : Gap) (line col : Nat) :
    List Char → ScalarResult PlainText
  | [] => .ok ⟨[], ⟨[], line, col⟩, gap.hasBreak⟩
  | c :: rest =>
    if isBlank c then
      if gap.hasBreak && c = '\t' && col < least then .error (.tabInPlain, line)
      else plainFrom inFlow least (gap.addBlank c) line (col + 1) rest
    else if isBreak c then plainFrom inFlow least (gap.addBreak c) (line + 1) 0 rest
    else if (gap.hasBreak && !inFlow && col < least)
        || (col = 0 && gap.hasBreak && startsDocumentMark (c :: rest))
        || (c = '#' && gap != .none)
        || (c = ':' && startsApart rest)
        || (inFlow && isFlowMark c) then
      .ok ⟨[], ⟨c :: rest, line, col⟩, gap.hasBreak⟩
    else do
      let more ← plainFrom inFlow least .none line (col + 1) rest
      return { more with text := gap.folded ++ c :: more.text }

/-! ## Quoted scalars -/

/-- The character of a one-letter escape. -/
def escaped? : Char → Option Char
  | '0' => some '\x00'
  | 'a' => some '\x07'
  | 'b' => some '\x08'
  | 't' | '\t' => some '\t'
  | 'n' => some '\n'
  | 'v' => some '\x0b'
  | 'f' => some '\x0c'
  | 'r' => some '\r'
  | 'e' => some '\x1b'
  | ' ' => some ' '
  | '"' => some '"'
  | '\'' => some '\''
  | '/' => some '/'
  | '\\' => some '\\'
  | 'N' => some '\x85'
  | '_' => some '\xa0'
  | 'L' => some '\u2028'
  | 'P' => some '\u2029'
  | _ => none

/-- The number of digits of an escape by number. -/
def escapeWidth? : Char → Option Nat
  | 'x' => some 2
  | 'u' => some 4
  | 'U' => some 8
  | _ => none

/-- The value of a hexadecimal digit. -/
def hexValue? (c : Char) : Option Nat :=
  if c.isDigit then some (c.toNat - 48)
  else if 'a' ≤ c && c ≤ 'f' then some (c.toNat - 87)
  else if 'A' ≤ c && c ≤ 'F' then some (c.toNat - 55)
  else none

/-- The value of hexadecimal digits. -/
def hexNumber? (digits : List Char) : Option Nat :=
  digits.foldlM (fun n c => (hexValue? c).map (16 * n + ·)) 0

/-- The character for the escape behind a backslash, and how many characters it takes. -/
def escape? : List Char → Except Problem (Char × Nat)
  | [] => .error .unknownEscape
  | c :: rest =>
    match escaped? c, escapeWidth? c with
    | some char, _ => .ok (char, 1)
    | none, none => .error .unknownEscape
    | none, some width =>
      match hexNumber? (rest.take width) with
      | none => .error .badHex
      | some code =>
        if rest.length < width then .error .badHex
        else if (0xD800 ≤ code && code ≤ 0xDFFF) || 0x10FFFF < code then .error .badEscapeCode
        else .ok (Char.ofNat code, width + 1)

/-- The rest of a quoted scalar and the place behind it. `skip` counts characters already used. -/
def quotedFrom (isSingle : Bool) (gap : Gap) (line col : Nat) :
    Nat → List Char → ScalarResult (List Char × Cursor)
  | _, [] => .error (.endOfStream, line)
  | skip + 1, _ :: rest => quotedFrom isSingle gap line (col + 1) skip rest
  | 0, c :: rest =>
    let continueWith (char : Char) (skip : Nat) : ScalarResult (List Char × Cursor) := do
      let (more, stop) ← quotedFrom isSingle .none line (col + 1) skip rest
      return (gap.folded ++ char :: more, stop)
    if col = 0 && startsDocumentMark (c :: rest) then .error (.documentMark, line)
    else if isBlank c then quotedFrom isSingle (gap.addBlank c) line (col + 1) 0 rest
    else if isBreak c then quotedFrom isSingle (gap.addBreak c) (line + 1) 0 0 rest
    else if isSingle then
      if c != '\'' then continueWith c 0
      else if rest.head? = some '\'' then continueWith c 1
      else .ok (gap.folded, ⟨rest, line, col + 1⟩)
    else if c = '"' then .ok (gap.folded, ⟨rest, line, col + 1⟩)
    else if c != '\\' then continueWith c 0
    else
      match rest with
      | next :: behind =>
        if isBreak next then do
          let (more, stop) ← quotedFrom isSingle (.escaped []) (line + 1) 0 0 behind
          return (gap.folded ++ more, stop)
        else
          match escape? (next :: behind) with
          | .ok (char, size) => continueWith char size
          | .error problem => .error (problem, line)
      | [] => .error (.unknownEscape, line)

/-! ## Blocks of lines -/

namespace Block

/-- What becomes of the line breaks at the end. -/
inductive Ending where
  | strip
  | clip
  | keep
  deriving DecidableEq, Repr

/-- What the marks behind `|` or `>` ask for. -/
structure Hints where
  indent : Option Nat := none
  ending : Ending := .clip
  deriving DecidableEq, Repr

/-- The mark for the line breaks at the end, if it is next. -/
def endingMark? : List Char → Option Ending
  | '+' :: _ => some .keep
  | '-' :: _ => some .strip
  | _ => none

/-- The mark for the indentation, if it is next. -/
def indentMark? : List Char → Option Nat
  | c :: _ => if c.isDigit then some (c.toNat - 48) else none
  | [] => none

/-- The marks behind `|` or `>`, in either order, and the place behind them. -/
def hints (c : Cursor) : Hints × Cursor :=
  match endingMark? c.rest, indentMark? c.rest with
  | some ending, _ =>
    match indentMark? (c.rest.drop 1) with
    | some indent => ({ indent, ending }, c.move 2)
    | none => ({ ending }, c.move 1)
  | none, some indent =>
    match endingMark? (c.rest.drop 1) with
    | some ending => ({ indent, ending }, c.move 2)
    | none => ({ indent }, c.move 1)
  | none, none => ({}, c)

/-- A line with the break that ends it; the last line of a text has none. -/
structure Line where
  chars : List Char
  ending : List Char
  deriving DecidableEq, Repr

/-- The lines of a text. -/
def linesOf : List Char → List Line
  | [] => []
  | c :: rest =>
    if isBreak c then ⟨[], [c]⟩ :: linesOf rest
    else
      match linesOf rest with
      | [] => [⟨[c], []⟩]
      | line :: lines => { line with chars := c :: line.chars } :: lines

/-- The number of spaces at the head of a line. -/
def leadingSpaces (chars : List Char) : Nat := (chars.takeWhile (· = ' ')).length

/-- The indentation that the first lines show: that of the first line which is not empty, or of a
longer one before it. A tab may not come before it. `found` is the greatest one so far. -/
def indentOf (found number : Nat) : List Line → ScalarResult Nat
  | [] => .ok found
  | line :: lines =>
    let spaces := leadingSpaces line.chars
    let found := max found spaces
    if (line.chars.drop spaces).head? = some '\t' then .error (.tabIndent, number)
    else if spaces = line.chars.length && !line.ending.isEmpty then
      indentOf found (number + 1) lines
    else .ok found

/-- A block while its lines are read. -/
structure Reading where
  text : List Char := []
  /-- The break behind the last line with text. -/
  lastBreak : List Char := []
  /-- The breaks of the empty lines since. -/
  emptyBreaks : List Char := []
  /-- Whether the last line with text starts with a blank. -/
  isSpaced : Bool := false
  deriving DecidableEq, Repr

/-- One line more, without its indentation. Between two lines that start with no blank a folded
block has a space for the break, or only the breaks of the empty lines. -/
def Reading.add (isFolded : Bool) (r : Reading) (chars ending : List Char) : Reading :=
  let isSpaced := chars.head?.any isBlank
  let joint :=
    if isFolded && !r.isSpaced && !isSpaced && r.lastBreak.head? = some '\n' then
      if r.emptyBreaks.isEmpty then [' '] else []
    else r.lastBreak
  { text := r.text ++ joint ++ r.emptyBreaks ++ chars, lastBreak := ending, isSpaced }

/-- Reads the lines that reach the indentation, and the empty ones among them; the lines left, and
the number of the first of them. -/
def readLines (isFolded : Bool) (indent : Nat) (r : Reading) (number : Nat) :
    List Line → ScalarResult (Reading × List Line × Nat)
  | [] => .ok (r, [], number)
  | line :: lines =>
    let spaces := min indent (leadingSpaces line.chars)
    let chars := line.chars.drop spaces
    match chars with
    | [] =>
      readLines isFolded indent { r with emptyBreaks := r.emptyBreaks ++ line.ending } (number + 1)
        lines
    | first :: _ =>
      if spaces = indent then
        readLines isFolded indent (r.add isFolded chars line.ending) (number + 1) lines
      else if first = '\t' then .error (.tabIndent, number)
      else .ok (r, line :: lines, number)

/-- The text of a block of lines. -/
def Reading.finish (r : Reading) : Ending → List Char
  | .strip => r.text
  | .clip => r.text ++ r.lastBreak
  | .keep => r.text ++ r.lastBreak ++ r.emptyBreaks

/-- A block of lines behind its `|` or `>`, and the place behind it. `least` is the column that its
lines need, one more than that of the lines around it. -/
def read (isFolded : Bool) (least : Nat) (c : Cursor) : ScalarResult (List Char × Cursor) := do
  let (hints, behind) := hints c
  if hints.indent = some 0 then throw (.zeroIndent, c.line)
  let header := (behind.moveWhile isBlank).skipComment
  if !startsBreak header.rest then throw (.lineNotEnded, c.line)
  let start := header.moveBreak
  let lines := linesOf start.rest
  let indent ←
    match hints.indent with
    | some n => pure (least - 1 + n)
    | none => (max (max 1 least)) <$> indentOf 0 start.line lines
  let (reading, left, number) ← readLines isFolded indent {} start.line lines
  let rest := left.flatMap fun line => line.chars ++ line.ending
  return (reading.finish hints.ending, ⟨rest, number, 0⟩)

end Block

end GetterRename.Yaml
