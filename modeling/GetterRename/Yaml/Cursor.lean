import GetterRename.Yaml.Character

/-!
# Places in documents

Where reading has got to in a document, and the ways from there over blanks, line breaks and
comments.

- `Yaml.Cursor` : a place in a document;
- `Cursor.skipComment` : behind a comment on the same line;
- `Cursor.toNext` : at the next token;
- `Cursor.startsDocumentMark` : whether a mark between documents is there.
-/

namespace GetterRename.Yaml

/-- A place in a document: what follows, the line and the column, both counted from zero. -/
structure Cursor where
  rest : List Char
  line : Nat := 0
  col : Nat := 0
  deriving DecidableEq, Repr

/-- Whether `mark` stands at the head of the text as a word. -/
def startsWord (mark : String) (text : List Char) : Bool :=
  mark.toList.isPrefixOf text && startsApart (text.drop mark.length)

/-- Whether a mark between documents stands at the head of the text. -/
def startsDocumentMark (text : List Char) : Bool := startsWord "---" text || startsWord "..." text

namespace Cursor

/-- The place `n` characters further on the same line. -/
def move (n : Nat) (c : Cursor) : Cursor := { c with rest := c.rest.drop n, col := c.col + n }

/-- The place behind the characters on the same line that satisfy `p`. -/
def moveWhile (p : Char → Bool) (c : Cursor) : Cursor := c.move (c.rest.takeWhile p).length

/-- The place behind the line break, if there is one. -/
def moveBreak (c : Cursor) : Cursor :=
  match c.rest with
  | b :: rest => if isBreak b then ⟨rest, c.line + 1, 0⟩ else c
  | [] => c

/-- The end of the comment that follows on the same line, or the place itself. -/
def skipComment (c : Cursor) : Cursor :=
  let start := c.moveWhile isBlank
  if start.rest.head? = some '#' then start.moveWhile fun b => !isBreak b else c

/-- What is skipped before the next token. -/
inductive Skipped where
  | blanks
  | comment
  /-- Blanks and breaks between a comment and the next one. -/
  | between

/-- How many characters are looked through for the next comment. -/
def commentReach : Nat := 511

/-- Whether a comment is next behind blanks and breaks. -/
def commentFollows (text : List Char) : Bool :=
  ((text.take commentReach).dropWhile fun c => isBlank c || isBreak c).head? = some '#'

/-- How many characters are left where the first one of a line is dropped. -/
def leastLine : Nat := 3

/-- Whether the first character of a line is dropped: in a document that starts with two marks of
its encoding, except at its very end. -/
def dropsHere (hasSpareMark : Bool) (col : Nat) (text : List Char) : Bool :=
  hasSpareMark && col = 0 && !(text.drop (leastLine - 1)).isEmpty

/-- What is skipped behind the character `c`, and whether `c` ends a line; none if a token starts
with it. A tab is skipped if `tabAllowed` is set, and between comments. -/
def skip? (hasSpareMark tabAllowed : Bool) (col : Nat) (skipped : Skipped) (c : Char)
    (rest : List Char) : Option (Skipped × Bool) :=
  match skipped with
  | .comment =>
    if isBreak c then some (if commentFollows rest then .between else .blanks, true)
    else some (.comment, false)
  | .between => some (if c = '#' then .comment else .between, isBreak c)
  | .blanks =>
    if dropsHere hasSpareMark col (c :: rest) then some (.blanks, false)
    else if isBreak c then some (.blanks, true)
    else if c = ' ' || (c = '\t' && tabAllowed) then some (.blanks, false)
    else if c = '#' then some (.comment, false)
    else none

/-- The place of the next token, and whether a key may start there. Outside of brackets a new line
allows keys, and where keys are allowed a tab is not skipped. -/
def toNextFrom (hasSpareMark inFlow keyAllowed : Bool) (line col : Nat) :
    Skipped → List Char → Cursor × Bool
  | _, [] => (⟨[], line, col⟩, keyAllowed)
  | skipped, c :: rest =>
    match skip? hasSpareMark (inFlow || !keyAllowed) col skipped c rest with
    | none => (⟨c :: rest, line, col⟩, keyAllowed)
    | some (skipped, true) =>
      toNextFrom hasSpareMark inFlow (keyAllowed || !inFlow) (line + 1) 0 skipped rest
    | some (skipped, false) =>
      toNextFrom hasSpareMark inFlow keyAllowed line (col + 1) skipped rest

/-- The place of the next token, and whether a key may start there. -/
def toNext (hasSpareMark inFlow keyAllowed : Bool) (c : Cursor) : Cursor × Bool :=
  toNextFrom hasSpareMark inFlow keyAllowed c.line c.col .blanks c.rest

end Cursor

end GetterRename.Yaml
