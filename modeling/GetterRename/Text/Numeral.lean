import GetterRename.Text.Bytes

/-!
# Numerals

Integers as text: a sign or none, then digits in base ten, or in the base that `0x`, `0o`, `0b` or a
leading `0` chooses.  Digits are read from the left, so that a number which needs more than 64 bits
is refused for its size where that shows, whatever follows.

- `Numeral.unsigned` : the number without sign, in the base that its first characters choose;
- `Numeral.integer` : a 64-bit integer as an argument or a setting gives it;
- `Numeral.signedIn` : a 64-bit integer in a given base;
- `Numeral.decimal?` : an integer in base ten only.
-/

namespace GetterRename.Numeral

/-- Why a text is no integer. -/
inductive Refusal where
  | malformed
  | outOfRange
  deriving DecidableEq, Repr

/-- The wording of a refusal. -/
def Refusal.message : Refusal → String
  | malformed => "invalid syntax"
  | outOfRange => "value out of range"

/-- Whether a numeral has a minus sign, and the numeral behind its sign. -/
def splitSign : Bytes → Bool × Bytes
  | [] => (false, [])
  | b :: rest =>
    if b == byte '-' then (true, rest)
    else if b == byte '+' then (false, rest)
    else (false, b :: rest)

/-- The value of a digit, letters standing for ten and above. -/
def digit? (b : UInt8) : Option Nat :=
  if isDigitByte b then some (b.toNat - 48)
  else if byte 'a' ≤ b && b ≤ byte 'f' then some (b.toNat - 87)
  else if byte 'A' ≤ b && b ≤ byte 'F' then some (b.toNat - 55)
  else none

/-- The value of decimal digits. -/
def value (digits : Bytes) : Nat := digits.foldl (fun n d => n * 10 + (d.toNat - 48)) 0

/-- The least number above all 64-bit integers. -/
def limit : Nat := 0x8000000000000000

/-- The least number that needs more than 64 bits. -/
def wordLimit : Nat := 2 * limit

/-- The value of digits in the given base behind digits of the value `n`. Underscores are skipped if
the digits may be `grouped`. -/
def valueFrom (base : Nat) (grouped : Bool) (n : Nat) : Bytes → Except Refusal Nat
  | [] => .ok n
  | b :: rest =>
    if grouped && b == byte '_' then valueFrom base grouped n rest
    else
      match digit? b with
      | none => .error .malformed
      | some d =>
        if base ≤ d then .error .malformed
        else if wordLimit ≤ n * base + d then .error .outOfRange
        else valueFrom base grouped (n * base + d) rest

/-- The base that a letter behind a leading `0` chooses. -/
def letterBase? (b : UInt8) : Option Nat :=
  if b == byte 'x' || b == byte 'X' then some 16
  else if b == byte 'o' || b == byte 'O' then some 8
  else if b == byte 'b' || b == byte 'B' then some 2
  else none

/-- The base that a numeral chooses, and its digits. -/
def splitBase : Bytes → Nat × Bytes
  | a :: b :: rest =>
    if a != byte '0' then (10, a :: b :: rest)
    else
      match letterBase? b, rest with
      | some base, _ :: _ => (base, rest)
      | _, _ => (8, b :: rest)
  | digits => (10, digits)

/-- Whether every underscore stands between digits. `behindDigit` says whether a digit, or what
counts as one, comes before the text. -/
def hasSeparators (isDigit : UInt8 → Bool) (behindDigit : Bool) : Bytes → Bool
  | [] => true
  | b :: rest =>
    if b == byte '_' then
      behindDigit && rest.head?.any isDigit && hasSeparators isDigit false rest
    else hasSeparators isDigit (isDigit b) rest

/-- Whether the underscores of a numeral without sign stand between digits, or between the letter of
the base and a digit. -/
def isGrouped (numeral : Bytes) : Bool :=
  let isHexDigit (b : UInt8) := (digit? b).isSome
  match numeral with
  | a :: b :: rest =>
    if a == byte '0' && (letterBase? b).isSome then
      hasSeparators (if letterBase? b = some 16 then isHexDigit else isDigitByte) true rest
    else hasSeparators isDigitByte false numeral
  | _ => hasSeparators isDigitByte false numeral

/-- The number of a numeral without sign; underscores may group its digits. -/
def unsigned (numeral : Bytes) : Except Refusal Nat :=
  if numeral.isEmpty then .error .malformed
  else
    let (base, digits) := splitBase numeral
    match valueFrom base true 0 digits with
    | .error e => .error e
    | .ok n => if isGrouped numeral then .ok n else .error .malformed

/-- The 64-bit integer with the given sign and size. -/
def signed (negative : Bool) (n : Nat) : Except Refusal Int :=
  if negative then if n ≤ limit then .ok (-n) else .error .outOfRange
  else if n < limit then .ok n else .error .outOfRange

/-- The 64-bit integer of a numeral with a sign or without one; underscores may group its digits. -/
def integer (numeral : Bytes) : Except Refusal Int :=
  let (negative, body) := splitSign numeral
  match unsigned body with
  | .error e => .error e
  | .ok n => signed negative n

/-- The 64-bit integer of a numeral in the given base, with a sign or without one. -/
def signedIn (base : Nat) (numeral : Bytes) : Except Refusal Int :=
  let (negative, digits) := splitSign numeral
  if digits.isEmpty then .error .malformed
  else
    match valueFrom base false 0 digits with
    | .error e => .error e
    | .ok n => signed negative n

/-- The 64-bit integer of a numeral in base ten. -/
def decimal? (numeral : Bytes) : Option Int := (signedIn 10 numeral).toOption

end GetterRename.Numeral
