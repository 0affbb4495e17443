import GetterRename.Text.Bytes

/-!
# Base 64

Bytes as letters, digits, `+` and `/`: three bytes give four characters, and `=` fills up the last
four.

- `Base64.encode` : the characters for bytes;
- `Base64.decode?` : the bytes that characters stand for; line breaks between them do not count.
-/

namespace GetterRename.Base64

/-- The character for a number below sixty-four. -/
def character (n : Nat) : UInt8 :=
  let d := n % 64
  if d < 26 then (65 + d).toUInt8
  else if d < 52 then (71 + d).toUInt8
  else if d < 62 then (d - 4).toUInt8
  else if d = 62 then byte '+'
  else byte '/'

/-- The characters for a text. -/
def encode : Bytes → Bytes
  | a :: b :: c :: rest =>
    let n := a.toNat * 65536 + b.toNat * 256 + c.toNat
    [n / 262144, n / 4096, n / 64, n].map character ++ encode rest
  | [a, b] =>
    let n := a.toNat * 65536 + b.toNat * 256
    [n / 262144, n / 4096, n / 64].map character ++ "="
  | [a] => [a.toNat / 4, a.toNat * 16].map character ++ "=="
  | [] => []

/-- The number that a character stands for. -/
def number? (b : UInt8) : Option Nat :=
  let n := b.toNat
  if byte 'A' ≤ b && b ≤ byte 'Z' then some (n - 65)
  else if byte 'a' ≤ b && b ≤ byte 'z' then some (n - 71)
  else if isDigitByte b then some (n + 4)
  else if b == byte '+' then some 62
  else if b == byte '/' then some 63
  else none

/-- The bytes that characters without line breaks stand for. -/
def decodeFours? : Bytes → Option Bytes
  | [] => some []
  | a :: b :: c :: d :: rest => do
    let x ← number? a
    let y ← number? b
    let first := (x * 4 + y / 16).toUInt8
    if c == byte '=' then
      if d == byte '=' && rest.isEmpty then return [first] else none
    else
      let z ← number? c
      let second := (y % 16 * 16 + z / 4).toUInt8
      if d == byte '=' then
        if rest.isEmpty then return [first, second] else none
      else
        let w ← number? d
        let others ← decodeFours? rest
        return first :: second :: (z % 4 * 64 + w).toUInt8 :: others
  | _ => none

/-- The bytes that characters stand for. -/
def decode? (text : Bytes) : Option Bytes :=
  decodeFours? (text.filter fun b => b != byte '\n' && b != byte '\r')

end GetterRename.Base64
