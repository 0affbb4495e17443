import GetterRename.Text.Utf8
import GetterRename.Text.CharClass

/-!
# Quoted text

Text between quotes as messages and attributes show it: printable characters stand for themselves,
the quote and the backslash are escaped, and every other character has an escape.

- `Quoted.string` : a text between double quotes;
- `Quoted.character` : one character between single quotes.
-/

namespace GetterRename.Quoted

/-- The letter of a one-letter escape. -/
def shortEscape? : Nat → Option Char
  | 7 => some 'a'
  | 8 => some 'b'
  | 9 => some 't'
  | 10 => some 'n'
  | 11 => some 'v'
  | 12 => some 'f'
  | 13 => some 'r'
  | _ => none

/-- A code point as it stands between quotes made of the character `quote`. -/
def escape (quote : Char) (code : Nat) : Bytes :=
  if code = quote.toNat || code = '\\'.toNat then [byte '\\', code.toUInt8]
  else if CharClass.isPrintable code then Utf8.encode code
  else
    match shortEscape? code with
    | some letter => [byte '\\', byte letter]
    | none =>
      if code < 0x20 || code = 0x7F then "\\x" ++ Bytes.hex 2 code
      else if code < 0x10000 then "\\u" ++ Bytes.hex 4 code
      else "\\U" ++ Bytes.hex 8 code

/-- A text between double quotes; a malformed byte is shown by its value. -/
def string (text : Bytes) : Bytes :=
  let shown := (Utf8.chars text).flatMap fun
    | (some code, _) => escape '"' code
    | (none, bytes) => bytes.flatMap fun b => "\\x" ++ Bytes.hex 2 b.toNat
  byte '"' :: shown ++ [byte '"']

/-- A code point between single quotes. -/
def character (code : Nat) : Bytes := byte '\'' :: escape '\'' code ++ [byte '\'']

end GetterRename.Quoted
