import GetterRename.Yaml.Token
import GetterRename.Yaml.Token.Scalar

/-!
# Names, tags and directives in documents

The tokens that say something about a node or about a document: an anchor or a reference to one, a
tag, and the lines that start with `%`.

- `Property.anchor`, `Property.tag`, `Property.directive` : the tokens, and the places behind them.
-/

namespace GetterRename.Yaml.Property

/-- A token that is read, and the place behind it. -/
abbrev Result := Except Problem (Token.Kind × Cursor)

/-! ## Anchors -/

/-- The characters that may follow a name besides blanks and breaks. -/
def nameEnds : List Char := ['?', ':', ',', ']', '\x7d', '%', '@', '`']

/-- An anchor or a reference to one, behind its first character. -/
def anchor (isReference : Bool) (c : Cursor) : Result :=
  let name := c.rest.takeWhile isNameChar
  let stop := c.moveWhile isNameChar
  if name.isEmpty || !(startsApart stop.rest || stop.rest.head?.any nameEnds.contains) then
    .error .anchorName
  else
    .ok (if isReference then .reference (bytesOf name) else .anchor (bytesOf name), stop)

/-! ## Tags -/

/-- Whether the character may stand in a tag, where `%` starts an escape. -/
def isTagChar (c : Char) : Bool := isNameChar c || ";/?:@&=+$,.!~*'()[]%".toList.contains c

/-- The bytes of the name of a tag, and the place behind it. An escape stands for a byte; behind the
first byte of a longer character `pending` further ones are still to come. -/
def tagName (pending line col : Nat) : List Char → Except Problem (Bytes × Cursor)
  | '%' :: a :: b :: rest =>
    match hexNumber? [a, b] with
    | none => .error .tagEscape
    | some code =>
      let octet := code.toUInt8
      if 0 < pending then
        if Utf8.isTail octet then do
          let (name, stop) ← tagName (pending - 1) line (col + 3) rest
          return (octet :: name, stop)
        else .error .tagTrailing
      else if widthOf octet = 0 then .error .tagLeading
      else do
        let (name, stop) ← tagName (widthOf octet - 1) line (col + 3) rest
        return (octet :: name, stop)
  | c :: rest =>
    if 0 < pending || c = '%' then .error .tagEscape
    else if isTagChar c then do
      let (name, stop) ← tagName 0 line (col + 1) rest
      return (Utf8.encode c.toNat ++ name, stop)
    else .ok ([], ⟨c :: rest, line, col⟩)
  | [] => if 0 < pending then .error .tagEscape else .ok ([], ⟨[], line, col⟩)

/-- The name of a tag, which is not empty. -/
def someTagName (c : Cursor) : Except Problem (Bytes × Cursor) := do
  let (name, stop) ← tagName 0 c.line c.col c.rest
  if name.isEmpty then throw .tagName
  return (name, stop)

/-- The handle at a place, `!` or a name between two of them, or else what could not be one. -/
def handleText (c : Cursor) : List Char :=
  let name := '!' :: (c.rest.drop 1).takeWhile isNameChar
  if (c.rest.drop name.length).head? = some '!' then name ++ ['!'] else name

/-- Whether what `handleText` gives is a handle with a name or with two marks. -/
def isLongHandle (handle : List Char) : Bool := 1 < handle.length && handle.getLast? = some '!'

/-- A tag that is written in full between `<` and `>`. -/
def fullTag (c : Cursor) : Result := do
  let (name, stop) ← someTagName (c.move 2)
  if stop.rest.head? != some '>' then throw .tagBracket
  return (.tag [] name, stop.move 1)

/-- A tag with a handle, or one that is its own name. -/
def shortTag (c : Cursor) : Result := do
  let handle := handleText c
  if isLongHandle handle then
    let (name, stop) ← someTagName (c.move handle.length)
    return (.tag (bytesOf handle) name, stop)
  else
    let (name, stop) ← tagName 0 c.line (c.col + 1) (c.rest.drop 1)
    let mark := bytesOf ['!']
    return (if name.isEmpty then .tag [] mark else .tag mark name, stop)

/-- A tag at its first character. A blank or a line break follows it. -/
def tag (c : Cursor) : Result := do
  let (kind, stop) ← if (c.rest.drop 1).head? = some '<' then fullTag c else shortTag c
  if !startsApart stop.rest then throw .tagEnd
  return (kind, stop)

/-! ## Directives -/

/-- A number of one or two digits. -/
def versionNumber (c : Cursor) : Except Problem (Nat × Cursor) :=
  let digits := c.rest.takeWhile Char.isDigit
  if digits.isEmpty then .error .versionNumber
  else if 2 < digits.length then .error .longVersion
  else .ok (digits.foldl (fun n d => 10 * n + (d.toNat - 48)) 0, c.move digits.length)

/-- The version that a document asks for. -/
def version (c : Cursor) : Result := do
  let (major, c) ← versionNumber (c.moveWhile isBlank)
  if c.rest.head? != some '.' then throw .versionPoint
  let (minor, c) ← versionNumber (c.move 1)
  return (.version major minor, c)

/-- A short form for the start of tags, and what it stands for. -/
def handle (c : Cursor) : Result := do
  let c := c.moveWhile isBlank
  if c.rest.head? != some '!' then throw .tagMark
  let name := handleText c
  if name.length != 1 && name.getLast? != some '!' then throw .tagMark
  let c := c.move name.length
  if !c.rest.head?.any isBlank then throw .tagBlank
  let (expansion, c) ← someTagName (c.moveWhile isBlank)
  if !startsApart c.rest then throw .tagEnd
  return (.handle (bytesOf name) expansion, c)

/-- The line behind a `%`, with its comment and its break. -/
def directive (c : Cursor) : Result := do
  let name := c.rest.takeWhile isNameChar
  let behind := c.move name.length
  if name.isEmpty then throw .directiveName
  if !startsApart behind.rest then throw .directiveEnd
  let (kind, stop) ←
    if name = "YAML".toList then version behind
    else if name = "TAG".toList then handle behind
    else throw .unknownDirective
  let stop := (stop.moveWhile isBlank).skipComment
  if !startsBreak stop.rest then throw .lineNotEnded
  return (kind, stop.moveBreak)

end GetterRename.Yaml.Property
