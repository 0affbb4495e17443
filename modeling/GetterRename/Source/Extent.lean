import GetterRename.Text.Utf8
import GetterRename.Text.CharClass

/-!
# Extents

How far a lexical element reaches into the text that follows its first byte.  Every function here
answers with a number of bytes, or with nothing when the element is never closed, so a scanner
always knows what it has consumed: the first byte and that many more.

- `Extent.identifier`, `Extent.number` : names and numbers;
- `Extent.string?`, `Extent.character?`, `Extent.raw?` : literals up to their closing quote;
- `Extent.comment?` : a nested block comment.
-/

namespace GetterRename

/-- Whether the code point can start an identifier. -/
def isIdentStart (code : Nat) : Bool := code == 0x5F || CharClass.isLetter code

/-- Whether the code point can stand inside an identifier. -/
def isIdentContinue (code : Nat) : Bool :=
  code == 0x5F || CharClass.isLetter code || CharClass.isDecimalDigit code ||
    CharClass.isNonspacingMark code

/-- Whether the byte is an ASCII letter, an ASCII digit or the underscore. -/
def isWordByte (b : UInt8) : Bool := b == byte '_' || isDigitByte b || isLetterByte b

/-- Whether an identifier can start at the head of the text. -/
def startsIdent (text : Bytes) : Bool := isIdentStart (Utf8.headCode text)

namespace Extent

/-- The bytes of the characters at the head of the text that continue an identifier. `skip` counts
the bytes of a character already accepted. -/
def identifierFrom : Nat → Bytes → Nat
  | _, [] => 0
  | skip + 1, _ :: rest => identifierFrom skip rest + 1
  | 0, b :: rest =>
    match Utf8.decode? (b :: rest) with
    | some (code, size) =>
      if isIdentContinue code then identifierFrom (size - 1) rest + 1 else 0
    | none => 0

/-- The bytes of the longest run of identifier characters at the head of the text. -/
def identifier (text : Bytes) : Nat := identifierFrom 0 text

/-- The bytes of a literal's type suffix. -/
def suffix (text : Bytes) : Nat := (text.takeWhile isWordByte).length

/-- The bytes of a number after its first digit. `isHex` tells a hexadecimal number, `hasPoint`
whether the decimal point has been read, and `last` is the byte read last. A point needs a digit
behind it; a sign belongs to the number only right behind an `e` of a number that is not
hexadecimal. -/
def number (isHex hasPoint : Bool) (last : UInt8) : Bytes → Nat
  | [] => 0
  | b :: rest =>
    if isWordByte b then number isHex hasPoint b rest + 1
    else if b == byte '.' && !hasPoint && rest.head?.any isDigitByte then
      number isHex true b rest + 1
    else if (b == byte '+' || b == byte '-') && !isHex && (last == byte 'e' || last == byte 'E') then
      number isHex hasPoint b rest + 1
    else 0

/-- The bytes of a string literal after its opening quote, its closing quote included. A backslash
takes the next byte with it. -/
def string? : Bytes → Option Nat
  | [] => none
  | [b] => if b = byte '"' then some 1 else none
  | b :: c :: rest =>
    if b = byte '\\' then (string? rest).map (· + 2)
    else if b = byte '"' then some 1
    else (string? (c :: rest)).map (· + 1)

/-- The bytes of a character literal after its opening quote, its closing quote included. It ends
on its line, but a backslash takes the next byte with it. -/
def character? : Bytes → Option Nat
  | [] => none
  | [b] => if b = byte '\'' then some 1 else none
  | b :: c :: rest =>
    if b = byte '\n' then none
    else if b = byte '\\' then (character? rest).map (· + 2)
    else if b = byte '\'' then some 1
    else (character? (c :: rest)).map (· + 1)

/-- The bytes up to and including the first occurrence of `closing`. -/
def through? (closing : Bytes) : Bytes → Option Nat
  | [] => none
  | b :: rest =>
    if closing.isPrefixOf (b :: rest) then some closing.length
    else (through? closing rest).map (· + 1)

/-- The bytes of a block comment while `depth` comments are open. -/
def comment? : Nat → Bytes → Option Nat
  | 0, _ => some 0
  | _ + 1, [] => none
  | _ + 1, [_] => none
  | depth + 1, b :: c :: rest =>
    if b = byte '/' && c = byte '*' then (comment? (depth + 2) rest).map (· + 2)
    else if b = byte '*' && c = byte '/' then (comment? depth rest).map (· + 2)
    else (comment? (depth + 1) (c :: rest)).map (· + 1)

end Extent

end GetterRename
