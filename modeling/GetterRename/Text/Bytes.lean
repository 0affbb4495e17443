/-!
# Byte strings

Source text, names and paths are sequences of bytes: columns are byte offsets, and nothing promises
that a file is valid UTF-8.  This module holds the operations on them that know nothing about
characters: searching, splitting, trimming, decimal numerals and the byte order.

- `Bytes` : a text as the list of its bytes;
- `Bytes.ofString` : the UTF-8 bytes of a string;
- `Bytes.splitOn`, `Bytes.join` : parts between separators and their inverse;
- `Bytes.cutFirst` : what stands before and after the first separator.
-/

namespace GetterRename

/-- A text as the list of its bytes. -/
abbrev Bytes := List UInt8

/-- The byte of an ASCII character. -/
def byte (c : Char) : UInt8 := c.toUInt8

namespace Bytes

/-- The UTF-8 bytes of a string. -/
def ofString (s : String) : Bytes := s.toUTF8.data.toList

instance : Coe String Bytes := ⟨ofString⟩

/-- The decimal numeral of a natural number. -/
def ofNat (n : Nat) : Bytes := (Nat.toDigits 10 n).map Char.toUInt8

/-- The decimal numeral of an integer, with a minus sign when it is negative. -/
def ofInt : Int → Bytes
  | .ofNat n => ofNat n
  | .negSucc n => byte '-' :: ofNat (n + 1)

/-- Whether the text starts with `head`. -/
def startsWith (text head : Bytes) : Bool := head.isPrefixOf text

/-- Whether the text ends with `tail`. -/
def endsWith (text tail : Bytes) : Bool := tail.isSuffixOf text

/-- What follows `head` when the text starts with it. -/
def after? (head text : Bytes) : Option Bytes :=
  if startsWith text head then some (text.drop head.length) else none

/-- What precedes `tail` when the text ends with it. -/
def before? (tail text : Bytes) : Option Bytes :=
  if endsWith text tail then some (text.take (text.length - tail.length)) else none

/-- The text without `tail` at its end, if it is there. -/
def dropTail (tail text : Bytes) : Bytes := (before? tail text).getD text

/-- The text without `head` at its start, if it is there. -/
def dropHead (head text : Bytes) : Bytes := (after? head text).getD text

/-- The parts of the text between the separators: one more than there are separators. -/
def splitOn (sep : UInt8) : Bytes → List Bytes
  | [] => [[]]
  | b :: rest =>
    if b = sep then [] :: splitOn sep rest
    else
      match splitOn sep rest with
      | [] => [[b]]
      | part :: parts => (b :: part) :: parts

/-- The parts one after the other, with `sep` between neighbours. -/
def join (sep : Bytes) : List Bytes → Bytes
  | [] => []
  | [part] => part
  | part :: parts => part ++ sep ++ join sep parts

/-- The text before the first separator, and the text after it if there is one. -/
def cutFirst (sep : UInt8) : Bytes → Bytes × Option Bytes
  | [] => ([], none)
  | b :: rest =>
    if b = sep then ([], some rest)
    else
      let (first, remainder) := cutFirst sep rest
      (b :: first, remainder)

/-- The text without the bytes at its end that satisfy `p`. -/
def dropEndWhile (p : UInt8 → Bool) (text : Bytes) : Bytes :=
  (text.reverse.dropWhile p).reverse

/-- The text without the bytes at its start and its end that satisfy `p`. -/
def trim (p : UInt8 → Bool) (text : Bytes) : Bytes := dropEndWhile p (text.dropWhile p)

/-- The byte order: bytewise, a proper beginning first. -/
def le : Bytes → Bytes → Bool
  | [], _ => true
  | _ :: _, [] => false
  | a :: as, b :: bs => a < b || (a == b && le as bs)

/-- The text with ASCII capitals as small letters. -/
def toLower (text : Bytes) : Bytes :=
  text.map fun b => if byte 'A' ≤ b && b ≤ byte 'Z' then b + 32 else b

/-- The text with ASCII small letters as capitals. -/
def toUpper (text : Bytes) : Bytes :=
  text.map fun b => if byte 'a' ≤ b && b ≤ byte 'z' then b - 32 else b

/-- Whether `part` occurs in the text. -/
def hasPart (part : Bytes) : Bytes → Bool
  | [] => part.isEmpty
  | b :: rest => part.isPrefixOf (b :: rest) || hasPart part rest

/-- The low four bits as a hexadecimal digit, small letters for ten and above. -/
def hexDigit (n : Nat) : UInt8 :=
  let d := n % 16
  (if d < 10 then 48 + d else 87 + d).toUInt8

/-- The numeral of `n` in base sixteen with exactly `width` digits. -/
def hex (width n : Nat) : Bytes :=
  match width with
  | 0 => []
  | w + 1 => hex w (n / 16) ++ [hexDigit n]

end Bytes

/-- Whether the byte is an ASCII digit. -/
def isDigitByte (b : UInt8) : Bool := byte '0' ≤ b && b ≤ byte '9'

/-- Whether the byte is an ASCII letter. -/
def isLetterByte (b : UInt8) : Bool :=
  (byte 'a' ≤ b && b ≤ byte 'z') || (byte 'A' ≤ b && b ≤ byte 'Z')

end GetterRename
