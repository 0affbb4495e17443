import GetterRename.Text.Base64
import GetterRename.Yaml.Character
import GetterRename.Yaml.Scalar

/-!
# Written texts

How a text is written so that it is read as the same text: without quotes where that is safe, in
single quotes where only its shape is in the way, in double quotes with escapes where it would be
read as something else or holds special characters, and as a block of lines where it has several.

- `Yaml.Style`, `Style.ofText` : the way a text is written;
- `Yaml.writeText` : the written text;
- `Yaml.fitsLine` : whether a text can be a key on the line of its value.
-/

namespace GetterRename.Yaml

/-- Whether the character can stand for itself in a document. -/
def isPrintable (c : Char) : Bool :=
  let code := c.toNat
  code = 0x0A || (0x20 ≤ code && code ≤ 0x7E) || (0xA0 ≤ code && code ≤ 0xFFFD && code != 0xFEFF)

/-- The ways a text is written. -/
inductive Style where
  | plain
  | singleQuoted
  | doubleQuoted
  | literal
  deriving DecidableEq, Repr

namespace Style

/-- The characters that mean something at the start of a scalar. -/
def indicators : List Char := "#,[]\x7b\x7d&*!|>'\"%@`".toList

/-- Whether the characters start with a blank or there are none. -/
def startsBlank (chars : List Char) : Bool := chars.head?.all isBlank

/-- Whether no colon stands before a blank or at the end, and no `#` behind a blank. `behindBlank`
says what comes before the characters. -/
def hasNoMarks (behindBlank : Bool) : List Char → Bool
  | [] => true
  | c :: rest =>
    !(c = ':' && startsBlank rest) && !(c = '#' && behindBlank) && hasNoMarks (isBlank c) rest

/-- Whether a scalar without quotes may start with the characters. -/
def hasPlainStart (chars : List Char) : Bool :=
  match chars with
  | [] => false
  | c :: rest =>
    !indicators.contains c && c != ' ' && !((c = '-' || c = '?') && startsBlank rest)
      && !"---".toList.isPrefixOf chars && !"...".toList.isPrefixOf chars

/-- Whether the characters keep their meaning without quotes. -/
def isPlainAllowed (chars : List Char) : Bool :=
  hasPlainStart chars && hasNoMarks true chars && chars.getLast? != some ' '
    && chars.all fun c => isPrintable c && !isBreak c

/-- Whether a character with the property `p` stands before one with the property `q`. -/
def hasPair (p q : Char → Bool) (chars : List Char) : Bool :=
  (chars.zip (chars.drop 1)).any fun (a, b) => p a && q b

/-- Whether single quotes keep the characters. -/
def isSingleAllowed (chars : List Char) : Bool :=
  chars.all isPrintable && !hasPair isBreak (· = ' ') chars && !hasPair (· = ' ') isBreak chars

/-- Whether a block of lines keeps the characters. -/
def isLiteralAllowed (chars : List Char) : Bool :=
  chars.all (fun c => isPrintable c || c = '\t') && chars.getLast? != some ' '
    && !hasPair (· = ' ') isBreak chars

/-- The way a text with the given characters is written. -/
def ofText (text : Bytes) (chars : List Char) : Style :=
  if chars.contains '\n' then if isLiteralAllowed chars then literal else doubleQuoted
  else if !Scalar.isPlainText text then doubleQuoted
  else if isPlainAllowed chars then plain
  else if isSingleAllowed chars then singleQuoted
  else doubleQuoted

end Style

/-- A hexadecimal numeral with capital letters. -/
def upperHex (width n : Nat) : Bytes := Bytes.toUpper (Bytes.hex width n)

/-- The letter of a one-letter escape. -/
def escapeLetter? : Char → Option Char
  | '\x00' => some '0'
  | '\x07' => some 'a'
  | '\x08' => some 'b'
  | '\t' => some 't'
  | '\n' => some 'n'
  | '\x0b' => some 'v'
  | '\x0c' => some 'f'
  | '\r' => some 'r'
  | '\x1b' => some 'e'
  | '"' => some '"'
  | '\\' => some '\\'
  | '\x85' => some 'N'
  | '\xa0' => some '_'
  | '\u2028' => some 'L'
  | '\u2029' => some 'P'
  | _ => none

/-- A character between double quotes as an escape. -/
def escape (c : Char) : Bytes :=
  match escapeLetter? c with
  | some letter => [byte '\\', byte letter]
  | none =>
    if c.toNat ≤ 0xFF then "\\x" ++ upperHex 2 c.toNat
    else if c.toNat ≤ 0xFFFF then "\\u" ++ upperHex 4 c.toNat
    else "\\U" ++ upperHex 8 c.toNat

/-- Whether a character needs an escape between double quotes. -/
def needsEscape (c : Char) : Bool := !isPrintable c || isBreak c || c = '"' || c = '\\'

/-- The characters between double quotes. In a text that starts with the mark of the byte order all
of them are escapes. -/
def writeDoubleQuoted (chars : List Char) : Bytes :=
  let isMarked := chars.head? = some '\ufeff'
  byte '"' :: chars.flatMap (fun c => if isMarked || needsEscape c then escape c else bytesOf [c])
    ++ [byte '"']

/-- Spaces. -/
def spaces (n : Nat) : Bytes := List.replicate n (byte ' ')

/-- The characters, with the indentation before every one that follows a line break. `behindBreak`
says what comes before them. -/
def indented (indent : Nat) (behindBreak : Bool) : List Char → Bytes
  | [] => []
  | c :: rest =>
    if isBreak c then bytesOf [c] ++ indented indent true rest
    else (if behindBreak then spaces indent else []) ++ bytesOf [c] ++ indented indent false rest

/-- The marks behind the `|` of a block: the indentation if the text starts with a blank or a break,
and what becomes of the last line breaks. -/
def literalHints (chars : List Char) : Bytes :=
  let width := if chars.head?.any (fun c => c = ' ' || isBreak c) then [byte '4'] else []
  let ending :=
    match chars.reverse with
    | a :: b :: _ => if !isBreak a then [byte '-'] else if isBreak b then [byte '+'] else []
    | [a] => if isBreak a then [byte '+'] else [byte '-']
    | [] => [byte '-']
  width ++ ending

/-- A block of lines. A text that starts with a line break needs no other one behind the marks. -/
def writeLiteral (indent : Nat) (chars : List Char) : Bytes :=
  let start := if chars.head?.any isBreak then [] else [byte '\n']
  byte '|' :: literalHints chars ++ start ++ indented indent true chars

/-- A text in the given style; `indent` is for the lines behind the first. -/
def writeStyled (indent : Nat) (style : Style) (chars : List Char) : Bytes :=
  match style with
  | .plain => bytesOf chars
  | .singleQuoted =>
    let doubled := chars.flatMap fun c => if c = '\'' then [c, c] else [c]
    byte '\'' :: indented indent false doubled ++ [byte '\'']
  | .doubleQuoted => writeDoubleQuoted chars
  | .literal => writeLiteral indent chars

/-- The length of a line of binary data. -/
def binaryWidth : Nat := 70

/-- The data in lines, each with its line break. `room` is what is left of the current line. -/
def wrap : Nat → Bytes → Bytes
  | _, [] => [byte '\n']
  | 0, b :: rest => byte '\n' :: b :: wrap (binaryWidth - 1) rest
  | room + 1, b :: rest => b :: wrap room rest

/-- Binary data in lines, or in one part if it is short. -/
def binaryLines (data : Bytes) : Bytes :=
  if data.length < binaryWidth then data else wrap binaryWidth data

/-- The characters of a text, if it is one: bytes that are none have no characters. -/
def chars? (text : Bytes) : Option (List Char) :=
  (Utf8.chars text).mapM fun c => c.1.map Char.ofNat

/-- A text as it stands in a document. Bytes that are no text are written as binary data. -/
def writeText (indent : Nat) (text : Bytes) : Bytes :=
  match chars? text with
  | some chars => writeStyled indent (Style.ofText text chars) chars
  | none =>
    let chars := (binaryLines (Base64.encode text)).map fun b => Char.ofNat b.toNat
    "!!binary " ++ writeStyled indent (if chars.contains '\n' then .literal else .plain) chars

/-- The longest key on the line of its value. -/
def longestKey : Nat := 128

/-- Whether a text can be a key on the line of its value: it is short and has no line break. -/
def fitsLine (text : Bytes) : Bool :=
  match chars? text with
  | some chars => text.length ≤ longestKey && !chars.any isBreak
  | none =>
    let data := binaryLines (Base64.encode text)
    "!!binary".length + data.length ≤ longestKey && !data.contains (byte '\n')

end GetterRename.Yaml
