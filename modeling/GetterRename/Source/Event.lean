import GetterRename.Source.Extent
import GetterRename.Source.SyntaxError

/-!
# Lexical events

Reading a text from left to right gives a sequence of events: a complete token, an opening
delimiter or a closing delimiter.  Blanks and plain comments give none; a documentation comment
gives one token for each of its lines.

- `Piece.at?` : which lexical element starts at a byte and how far it reaches;
- `Event.scan` : the events of a text up to its end or its first fault;
- `Event.ofSource` : the same for a whole file, behind a byte order mark and a `#!` line.
-/

namespace GetterRename

/-! ## Lexical elements -/

/-- A lexical element. -/
inductive Piece where
  | blank
  | lineComment
  | blockComment
  | opening (delim : Delimiter)
  | closing (delim : Delimiter)
  | ident
  | literal
  | punct (joint : Bool)
  deriving DecidableEq, Repr

namespace Piece

/-- Whether the byte is white space between tokens. -/
def isSpace (b : UInt8) : Bool :=
  [byte ' ', byte '\t', byte '\n', byte '\r', 0x0C, 0x0B].contains b

/-- The punctuation characters. -/
def punctuation : Bytes := "~!@#$%^&*-+=|\\;:,./<>?"

/-- A literal of `n` bytes and its suffix in `rest`, or the fault of a literal never closed. -/
def literalOf (fault : Fault) (extent : Option Nat) (rest : Bytes) : Except Fault (Piece × Nat) :=
  match extent with
  | none => .error fault
  | some n => .ok (.literal, n + Extent.suffix (rest.drop n))

/-- A raw string whose first `lead` bytes are behind its first one: hashes, a quote, and all up to
a quote followed by as many hashes. -/
def rawOf (lead : Nat) (rest : Bytes) : Except Fault (Piece × Nat) :=
  let body := rest.drop lead
  let hashes := body.takeWhile (· == byte '#')
  let quoted := body.drop hashes.length
  if quoted.head? = some (byte '"') then
    literalOf .unterminatedRaw
      ((Extent.through? (byte '"' :: hashes) (quoted.drop 1)).map (· + (lead + hashes.length + 1))) rest
  else .error .invalidRaw

/-- A character literal, or the tick of a lifetime or a label, whose tick stands before `rest`. -/
def tick (rest : Bytes) : Except Fault (Piece × Nat) :=
  if rest.head? = some (byte '\\') || rest[Utf8.headSize rest]? = some (byte '\'') then
    literalOf .unterminatedChar (Extent.character? rest) rest
  else if startsIdent rest then .ok (.punct true, 0)
  else .error (.unexpected '\''.toNat)

/-- An identifier or a literal with a letter before its quote. -/
def word (b : UInt8) (rest : Bytes) : Except Fault (Piece × Nat) :=
  let second := rest.head?
  let third := rest[1]?
  let isQuoteOrHash (x : Option UInt8) := x == some (byte '"') || x == some (byte '#')
  let isBOrC := b == byte 'b' || b == byte 'c'
  if b == byte 'r' && second == some (byte '#') && !isQuoteOrHash third
      && startsIdent (rest.drop 1) then
    .ok (.ident, 1 + Extent.identifier (rest.drop 1))
  else if b == byte 'r' && (second == some (byte '"')
      || (second == some (byte '#') && isQuoteOrHash third)) then rawOf 0 rest
  else if isBOrC && second == some (byte '"') then
    literalOf .unterminatedString ((Extent.string? (rest.drop 1)).map (· + 1)) rest
  else if b == byte 'b' && second == some (byte '\'') then
    literalOf .unterminatedChar ((Extent.character? (rest.drop 1)).map (· + 1)) rest
  else if isBOrC && second == some (byte 'r') && isQuoteOrHash third then rawOf 1 rest
  else if startsIdent (b :: rest) then .ok (.ident, Extent.identifier (b :: rest) - 1)
  else .error (.unexpected (Utf8.headCode (b :: rest)))

/-- The lexical element that starts with the byte `b`, and how many bytes of `rest` it takes. -/
def at? (b : UInt8) (rest : Bytes) : Except Fault (Piece × Nat) :=
  if isSpace b then .ok (.blank, 0)
  else if b == byte '/' && rest.head? == some (byte '/') then
    .ok (.lineComment, (rest.takeWhile (· != byte '\n')).length)
  else if b == byte '/' && rest.head? == some (byte '*') then
    match Extent.comment? 1 (rest.drop 1) with
    | some n => .ok (.blockComment, n + 1)
    | none => .error .unterminatedComment
  else
    match Delimiter.opened? b, Delimiter.closed? b with
    | some d, _ => .ok (.opening d, 0)
    | none, some d => .ok (.closing d, 0)
    | none, none =>
      if b == byte '"' then literalOf .unterminatedString (Extent.string? rest) rest
      else if b == byte '\'' then tick rest
      else if isDigitByte b then
        let isHex := b == byte '0' && (rest.head? == some (byte 'x') || rest.head? == some (byte 'X'))
        .ok (.literal, Extent.number isHex false b rest)
      else if punctuation.contains b then .ok (.punct (rest.head?.any punctuation.contains), 0)
      else word b rest

/-- The content of a documentation comment on one line: `//!`, or `///` without a fourth slash. -/
def lineDoc? (text : Bytes) : Option Bytes :=
  let text := Bytes.dropTail "\r" text
  if Bytes.startsWith text "//!"
      || (Bytes.startsWith text "///" && !Bytes.startsWith text "////") then
    some (text.drop 3)
  else none

/-- A line of a block comment after its first: a carriage return at its end, blanks at its start
and one star behind them are not content. -/
def starredLine (line : Bytes) : Bytes :=
  Bytes.dropHead "*" ((Bytes.dropTail "\r" line).dropWhile fun b => b == byte ' ' || b == byte '\t')

/-- The content lines of a documentation block comment: `/*!`, or `/**` without a third star. -/
def blockDoc (text : Bytes) : List Bytes :=
  if Bytes.startsWith text "/*!"
      || (Bytes.startsWith text "/**" && !Bytes.startsWith text "/***"
        && text != Bytes.ofString "/**/") then
    match Bytes.splitOn (byte '\n') ((text.drop 3).take (text.length - 5)) with
    | [] => []
    | first :: rest => Bytes.dropTail "\r" first :: rest.map starredLine
  else []

end Piece

/-! ## Events -/

/-- What reading a lexical element reports. -/
inductive Event where
  | token (t : Token)
  | opening (delim : Delimiter) (pos : Pos)
  | closing (delim : Delimiter) (pos : Pos)
  deriving Repr

namespace Event

/-- The documentation tokens of a block comment at `p`: the first line has its place, the others
start their lines. -/
def ofBlockDoc (p : Pos) : List Bytes → List Event
  | [] => []
  | first :: rest =>
    .token (.doc first p) ::
      rest.mapIdx fun i line => .token (.doc line ⟨p.line + (i + 1), 0⟩)

/-- The events of the lexical element `text` at `p`. -/
def ofPiece (p : Pos) (text : Bytes) : Piece → List Event
  | .blank => []
  | .lineComment =>
    match Piece.lineDoc? text with
    | some doc => [.token (.doc doc p)]
    | none => []
  | .blockComment => ofBlockDoc p (Piece.blockDoc text)
  | .opening d => [.opening d p]
  | .closing d => [.closing d p]
  | .ident => [.token (.ident text p)]
  | .literal => [.token (.literal text p)]
  | .punct joint => text.head?.toList.map fun c => .token (.punct c joint p)

/-- The events of a text that starts at `p`, up to its end or its first fault. -/
def scan (p : Pos) (text : Bytes) : List Event × Option SyntaxError :=
  match text with
  | [] => ([], none)
  | b :: rest =>
    match Piece.at? b rest with
    | .error fault => ([], some ⟨p, fault⟩)
    | .ok (piece, n) =>
      let element := b :: rest.take n
      let (events, fault) := scan (p.advance element) (rest.drop n)
      (ofPiece p element piece ++ events, fault)
termination_by text.length
decreasing_by
  simp only [List.length_drop, List.length_cons]
  omega

/-- The byte order mark. -/
def byteOrderMark : Bytes := [0xEF, 0xBB, 0xBF]

/-- The bytes of a `#!` line at the head of a text; `#![` starts an attribute instead. -/
def shebang (text : Bytes) : Nat :=
  if Bytes.startsWith text "#!" && text[2]? != some (byte '[') then
    (text.takeWhile (· != byte '\n')).length
  else 0

/-- The events of a file. Columns count from behind a byte order mark. -/
def ofSource (src : Bytes) : List Event × Option SyntaxError :=
  let text := Bytes.dropHead byteOrderMark src
  let skipped := shebang text
  scan ⟨1, skipped⟩ (text.drop skipped)

end Event

end GetterRename
