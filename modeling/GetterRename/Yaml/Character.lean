import GetterRename.Text.Utf8
import GetterRename.Yaml.Error

/-!
# Characters of documents

A document is a text in UTF-8, or in UTF-16 if it starts with the mark of that encoding.  Control
characters may not stand in it, and its line breaks are read as one kind, apart from the separators
of lines and paragraphs, which a text keeps.

- `Yaml.characters` : the characters of a document, and what is wrong behind them;
- `Yaml.isBlank`, `Yaml.isBreak` : what stands between words and lines.
-/

namespace GetterRename.Yaml

/-- Whether the character ends a line. -/
def isBreak (c : Char) : Bool :=
  c = '\n' || c = '\r' || c = '\x85' || c = '\u2028' || c = '\u2029'

/-- Whether the character is a space or a tab. -/
def isBlank (c : Char) : Bool := c = ' ' || c = '\t'

/-- Whether the text starts with a blank or a line break, or is empty. -/
def startsApart (text : List Char) : Bool := text.head?.all fun c => isBlank c || isBreak c

/-- Whether the text starts with a line break or is empty. -/
def startsBreak (text : List Char) : Bool := text.head?.all isBreak

/-- Whether the character may stand in a name. -/
def isNameChar (c : Char) : Bool := c.isAlphanum || c = '_' || c = '-'

/-! ## Encodings -/

/-- Whether the code point may stand in a document. -/
def isAllowed (code : Nat) : Bool :=
  [0x09, 0x0A, 0x0D, 0x85].contains code || (0x20 ≤ code && code ≤ 0x7E)
    || (0xA0 ≤ code && code ≤ 0xFFFD) || 0x10000 ≤ code

/-- The number of bytes that the first byte of a character asks for, zero if it starts none. -/
def widthOf (b : UInt8) : Nat :=
  if b < 0x80 then 1
  else if b < 0xC0 then 0
  else if b < 0xE0 then 2
  else if b < 0xF0 then 3
  else if b < 0xF8 then 4
  else 0

/-- Why the head of a text is no character in UTF-8. -/
def malformed (text : Bytes) : Problem :=
  let first := text.headD 0
  let width := widthOf first
  let tail := (text.drop 1).take (width - 1)
  let second := tail.headD 0
  if width = 0 then .invalidLeading
  else if tail.length + 1 < width then .incompleteCharacter
  else if !tail.all Utf8.isTail then .invalidTrailing
  else if width = 2 || (first == 0xE0 && second < 0xA0) || (first == 0xF0 && second < 0x90) then
    .invalidLength
  else .invalidCharacter

/-- How many bytes are decoded together. What is wrong with one of them shows before any of the
characters among them is read. -/
def portion : Nat := 512

/-- The code points of a text with the numbers of their bytes, up to a bad one, and what is wrong
with that one and how many bytes it has. One that the end of the text cuts off fits no portion. -/
abbrev Decoded := List (Nat × Nat) × Option (Problem × Nat)

/-- The code points of a text in UTF-8. `skip` counts bytes already used. -/
def codesOfBytes : Nat → Bytes → Decoded
  | _, [] => ([], none)
  | skip + 1, _ :: rest => codesOfBytes skip rest
  | 0, b :: rest =>
    match Utf8.decode? (b :: rest) with
    | none =>
      let cause := malformed (b :: rest)
      ([], some (cause, if cause = .incompleteCharacter then portion + 1 else max 1 (widthOf b)))
    | some (code, size) =>
      if isAllowed code then
        let (codes, bad) := codesOfBytes (size - 1) rest
        ((code, size) :: codes, bad)
      else ([], some (.control, size))

/-- A unit of two bytes. -/
def unitOf (lowFirst : Bool) (a b : UInt8) : Nat :=
  if lowFirst then a.toNat + 256 * b.toNat else 256 * a.toNat + b.toNat

/-- The code points of a text in units of two bytes: two units of the surrogate areas make one. -/
def codesOfUnits (lowFirst : Bool) : Bytes → Decoded
  | [] => ([], none)
  | [_] => ([], some (.incompleteUnit, portion + 1))
  | a :: b :: rest =>
    let unit := unitOf lowFirst a b
    if 0xDC00 ≤ unit && unit < 0xE000 then ([], some (.lowSurrogate, 2))
    else if 0xD800 ≤ unit && unit < 0xDC00 then
      match rest with
      | c :: d :: rest =>
        let low := unitOf lowFirst c d
        if 0xDC00 ≤ low && low < 0xE000 then
          let (codes, bad) := codesOfUnits lowFirst rest
          ((0x10000 + (unit - 0xD800) * 1024 + (low - 0xDC00), 4) :: codes, bad)
        else ([], some (.missingLowSurrogate, 4))
      | _ => ([], some (.incompletePair, portion + 1))
    else if isAllowed unit then
      let (codes, bad) := codesOfUnits lowFirst rest
      ((unit, 2) :: codes, bad)
    else ([], some (.control, 2))

/-- The number of bytes that name the encoding of a document, and its code points. -/
def decoded (text : Bytes) : Nat × Decoded :=
  match text with
  | 0xFF :: 0xFE :: rest => (2, codesOfUnits true rest)
  | 0xFE :: 0xFF :: rest => (2, codesOfUnits false rest)
  | 0xEF :: 0xBB :: 0xBF :: rest => (3, codesOfBytes 0 rest)
  | _ => (0, codesOfBytes 0 text)

/-- How many of the characters with the given numbers of bytes come before the portion that holds
the last one. `count` characters have come before, `start` of them before the portion that has
`room` for as many bytes more. -/
def beforeLastPortion (room start count : Nat) : List Nat → Nat
  | [] => start
  | size :: rest =>
    if size ≤ room then beforeLastPortion (room - size) start (count + 1) rest
    else beforeLastPortion (portion - size) count (count + 1) rest

/-! ## Line breaks -/

/-- The characters with line breaks of one kind. `behindReturn` says whether a carriage return,
which has been written as a break, comes before them. -/
def unifyBreaks (behindReturn : Bool) : List Char → List Char
  | [] => []
  | c :: rest =>
    if c = '\r' then '\n' :: unifyBreaks true rest
    else if c = '\x85' then '\n' :: unifyBreaks false rest
    else if c = '\n' && behindReturn then unifyBreaks false rest
    else c :: unifyBreaks false rest

/-- The characters of a document, and what is wrong behind them. -/
def characters (text : Bytes) : List Char × Option Error :=
  let (markSize, codes, bad) := decoded text
  let chars (codes : List (Nat × Nat)) := unifyBreaks false (codes.map fun c => Char.ofNat c.1)
  match bad with
  | none => (chars codes, none)
  | some (cause, size) =>
    let count := beforeLastPortion (portion - markSize) 0 0 (codes.map (·.2) ++ [size])
    (chars (codes.take count), some (.problem cause 0 0))

/-- The bytes of characters. -/
def bytesOf (chars : List Char) : Bytes := chars.flatMap fun c => Utf8.encode c.toNat

end GetterRename.Yaml
