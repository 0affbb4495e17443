import GetterRename.Text.Bytes

/-!
# UTF-8

One decoding step on a byte string and the encoding of one code point.

- `Utf8.decode?` : the code point at the head of a text and the number of its bytes, if the head
  is well formed: no overlong form, no surrogate, nothing above `0x10FFFF`;
- `Utf8.encode` : the bytes of a code point;
- `Utf8.replacement` : the code point shown in place of a malformed byte.
-/

namespace GetterRename.Utf8

/-- The code point that stands for a byte which starts no character. -/
def replacement : Nat := 0xFFFD

/-- Whether the byte continues a character. -/
def isTail (b : UInt8) : Bool := 0x80 ≤ b && b ≤ 0xBF

/-- The six bits that a continuation byte carries. -/
def tailBits (b : UInt8) : Nat := b.toNat - 0x80

/-- The code point at the head of the text, and how many bytes it takes. -/
def decode? : Bytes → Option (Nat × Nat)
  | [] => none
  | a :: rest =>
    let x := a.toNat
    if x < 0x80 then some (x, 1)
    else if x < 0xC2 then none
    else if x < 0xE0 then
      match rest with
      | b :: _ => if isTail b then some ((x - 0xC0) * 64 + tailBits b, 2) else none
      | _ => none
    else if x < 0xF0 then
      match rest with
      | b :: c :: _ =>
        let code := (x - 0xE0) * 4096 + tailBits b * 64 + tailBits c
        if isTail b && isTail c && 0x800 ≤ code && !(0xD800 ≤ code && code ≤ 0xDFFF) then
          some (code, 3)
        else none
      | _ => none
    else if x < 0xF5 then
      match rest with
      | b :: c :: d :: _ =>
        let code := (x - 0xF0) * 262144 + tailBits b * 4096 + tailBits c * 64 + tailBits d
        if isTail b && isTail c && isTail d && 0x10000 ≤ code && code ≤ 0x10FFFF then
          some (code, 4)
        else none
      | _ => none
    else none

/-- The bytes of a code point; a surrogate or a number above the range gives the replacement
character. -/
def encode (code : Nat) : Bytes :=
  if code < 0x80 then [code.toUInt8]
  else if code < 0x800 then [(0xC0 + code / 64).toUInt8, (0x80 + code % 64).toUInt8]
  else if 0xD800 ≤ code && code ≤ 0xDFFF || 0x10FFFF < code then [0xEF, 0xBF, 0xBD]
  else if code < 0x10000 then
    [(0xE0 + code / 4096).toUInt8, (0x80 + code / 64 % 64).toUInt8, (0x80 + code % 64).toUInt8]
  else
    [(0xF0 + code / 262144).toUInt8, (0x80 + code / 4096 % 64).toUInt8,
      (0x80 + code / 64 % 64).toUInt8, (0x80 + code % 64).toUInt8]

/-- How many bytes the head of the text takes: those of its character, one for a malformed byte,
none for the empty text. -/
def headSize (text : Bytes) : Nat :=
  match decode? text with
  | some (_, size) => size
  | none => min 1 text.length

/-- The code point at the head of the text, the replacement character if it is malformed. -/
def headCode (text : Bytes) : Nat :=
  match decode? text with
  | some (code, _) => code
  | none => replacement

/-- The characters of the text in order, each with its bytes; a malformed byte has no code point.
`skip` counts the bytes of a character already taken. -/
def charsFrom : Nat → Bytes → List (Option Nat × Bytes)
  | _, [] => []
  | skip + 1, _ :: rest => charsFrom skip rest
  | 0, b :: rest =>
    match decode? (b :: rest) with
    | some (code, size) => (some code, (b :: rest).take size) :: charsFrom (size - 1) rest
    | none => (none, [b]) :: charsFrom 0 rest

/-- The characters of the text in order, each with its bytes; a malformed byte has no code point. -/
def chars (text : Bytes) : List (Option Nat × Bytes) := charsFrom 0 text

/-- Whether every byte of the text belongs to a character. -/
def isValid (text : Bytes) : Bool := (chars text).all fun c => c.1.isSome

end GetterRename.Utf8
